import Mathlib

/-! Pending signals of one process (os/sig.c): the set `p_sig`, and the queue of the
siginfo that came with them. Putting a process on or off a run or sleep queue is left out. -/

namespace Svr4.Sig

def NSIG : Nat := 32
def SIGKILL : Nat := 9
def SIGUSR1 : Nat := 16
def SIGCLD : Nat := 18
def SIGPWR : Nat := 19
def SIGWINCH : Nat := 20
def SIGURG : Nat := 21
def SIGSTOP : Nat := 23
def SIGTSTP : Nat := 24
def SIGCONT : Nat := 25
def SIGTTIN : Nat := 26
def SIGTTOU : Nat := 27

def fillset : Finset Nat := Finset.Icc 1 31
def ignoredefault : Finset Nat := {SIGCONT, SIGCLD, SIGPWR, SIGWINCH, SIGURG}
def stopdefault : Finset Nat := {SIGSTOP, SIGTSTP, SIGTTOU, SIGTTIN}
def holdvfork : Finset Nat := {SIGTTOU, SIGTTIN, SIGTSTP}

inductive Disp
  | SIG_DFL
  | SIG_IGN
  | catcher
  deriving DecidableEq

structure Siginfo where
  siSigno : Nat
  siCode : Int
  deriving DecidableEq

/-- `strc`, `sptrx` and `svfork` are the bits of `p_flag`, `uSignal` is in the u-block. -/
structure Proc where
  pSig : Finset Nat
  pSigqueue : List Siginfo
  pIgnore : Finset Nat
  pHold : Finset Nat
  pSigmask : Finset Nat
  strc : Bool
  sptrx : Bool
  svfork : Bool
  pDetached : Bool
  pCursig : Nat
  pCurinfo : Option Siginfo
  uSignal : Nat → Disp

def tracing (p : Proc) (sig : Nat) : Bool := p.strc ∨ sig ∈ p.pSigmask

/-- The entry for a signal leaves the queue, and every entry for 0. -/
def sigdelq (p : Proc) (sig : Nat) : Proc :=
  { p with pSigqueue := p.pSigqueue.filter fun sqp => ¬ (sig = 0 ∨ sqp.siSigno = sig) }

def dequeue (sig : Nat) : List Siginfo → Option Siginfo × List Siginfo
  | [] => (none, [])
  | sqp :: rest =>
    if sqp.siSigno = sig then (some sqp, rest)
    else ((dequeue sig rest).1, sqp :: (dequeue sig rest).2)

/-- The entry goes to `p_curinfo`; another one for the signal makes it pending again. -/
def sigdeq (p : Proc) (sig : Nat) : Proc :=
  let (sqp, rest) := dequeue sig p.pSigqueue
  { p with
    pSigqueue := rest
    pCurinfo := sqp
    pSig := if sqp ≠ none ∧ ∃ other ∈ rest, other.siSigno = sig then insert sig p.pSig else p.pSig }

def dropPending (p : Proc) (sig : Nat) : Proc := if sig ∈ p.pSig then sigdelq p sig else p

/-- The four stop signals go, and their entries if they are pending. -/
def cancelStops (p : Proc) : Proc :=
  let p := dropPending (dropPending (dropPending (dropPending p SIGSTOP) SIGTSTP) SIGTTOU) SIGTTIN
  { p with pSig := p.pSig \ stopdefault }

/-- SIGCONT cancels pending stops, and a stop cancels a pending SIGCONT. -/
def cancel (p : Proc) (sig : Nat) : Proc :=
  if sig = SIGCONT then cancelStops p
  else if sig ∈ stopdefault then { sigdelq p SIGCONT with pSig := p.pSig.erase SIGCONT }
  else p

def sigtoproc (p : Proc) (sig : Nat) : Proc :=
  if sig = 0 ∨ sig ≥ NSIG then p
  else
    let p := cancel p sig
    if ¬ tracing p sig ∧ sig ∈ p.pIgnore then p else { p with pSig := insert sig p.pSig }

/-- `sigaddq` before it allocates an entry: whether it needs none. -/
def ignored (p : Proc) (sig : Nat) : Bool := ¬ tracing p sig ∧ sig ∈ p.pIgnore

/-- `sigaddq` once it has an entry. An entry for the signal that is there already means that
the signal is pending. -/
def sigaddq (p : Proc) (info : Siginfo) : Proc :=
  if ∃ sqp ∈ p.pSigqueue, sqp.siSigno = info.siSigno then p
  else sigtoproc { p with pSigqueue := p.pSigqueue ++ [info] } info.siSigno

/-- `isjobstop` until it stops the process: whether the signal stops it, or would have. -/
def isjobstop (p : Proc) (sig : Nat) : Bool × Proc :=
  if p.uSignal (sig - 1) = .SIG_DFL ∧ sig ∈ stopdefault then
    if SIGCONT ∈ p.pSig then (true, sigdelq { p with pSig := p.pSig.erase SIGCONT } SIGCONT) else (true, p)
  else (false, p)

def unheld (p : Proc) : Finset Nat := if p.svfork then (p.pSig \ p.pHold) \ holdvfork else p.pSig \ p.pHold

def fsig (p : Proc) : Nat :=
  if SIGKILL ∈ unheld p then SIGKILL else ((List.range NSIG).find? fun i => 1 ≤ i ∧ i ∈ unheld p).getD 0

inductive Why
  | FORREAL
  | JUSTLOOKING
  deriving DecidableEq

inductive Turn
  | returns (sig : Nat)
  | again
  deriving DecidableEq

/-- The loop on the pending signals: those that are ignored are dropped. -/
def pending (why : Why) : Nat → Proc → Turn × Proc
  | 0, p => (.returns 0, p)
  | time + 1, p =>
    let sig := fsig p
    if sig = 0 then (.returns 0, p)
    else if tracing p sig ∨ sig ∉ p.pIgnore then
      if why = .JUSTLOOKING then (.returns sig, p)
      else (.again, sigdeq { p with pSig := p.pSig.erase sig, pCursig := sig } sig)
    else pending why time (sigdelq { p with pSig := p.pSig.erase sig } sig)

/-- One turn of the loop of `issig`. It may stop the process at its end, and a debugger may
then set `p_cursig`. -/
def issig (why : Why) (p : Proc) : Turn × Proc :=
  if p.pCursig ≠ 0 then
    let sig := p.pCursig
    let p := { p with pCursig := 0 }
    if why = .JUSTLOOKING ∨ p.sptrx then (.returns sig, { p with pCursig := sig })
    else if sig ∈ p.pIgnore then (.again, { p with pCurinfo := none })
    else
      match isjobstop p sig with
      | (true, p) => (.again, { p with pCurinfo := none })
      | (false, p) => (.returns sig, { p with pCursig := sig })
  else pending why p.pSig.card p

def setsigact (p : Proc) (sig : Nat) (disp : Disp) : Proc :=
  let p := { p with uSignal := Function.update p.uSignal (sig - 1) disp }
  if disp = .catcher then { p with pIgnore := p.pIgnore.erase sig }
  else if disp = .SIG_IGN ∨ (disp = .SIG_DFL ∧ sig ∈ ignoredefault) then
    sigdelq { p with pIgnore := insert sig p.pIgnore, pSig := p.pSig.erase sig } sig
  else { p with pIgnore := p.pIgnore.erase sig }

def exit (p : Proc) : Proc :=
  sigdelq { p with strc := false, pIgnore := fillset, pSig := ∅, pSigmask := ∅ } 0

end Svr4.Sig
