import Svr4.Pid
import Svr4.Sig

/-! Sets of processes (os/procset.c), and the signal that `sigsendproc` (os/sig.c) sends to
each process of a set. It may sleep in `sigaddq`, so the walk goes on from there later. -/

namespace Svr4.Procset
open Function

inductive Idtype
  | P_PID | P_PPID | P_PGID | P_SID | P_CID | P_UID | P_GID | P_ALL
  deriving DecidableEq

inductive Idop
  | POP_DIFF | POP_AND | POP_OR | POP_XOR
  deriving DecidableEq

def P_MYID : Int := -1

structure ProcsetT where
  pOp : Idop
  pLidtype : Idtype
  pLid : Int
  pRidtype : Idtype
  pRid : Int

inductive Stat
  | SIDL | SZOMB | SRUN
  deriving DecidableEq

structure Cred where
  crUid : Int
  crRuid : Int
  crSuid : Int
  crGid : Int

/-- The process table, and the other fields that are read here. -/
structure State where
  table : Pid.State
  pStat : Nat → Stat
  pCid : Nat → Int
  pPpid : Nat → Int
  pCred : Nat → Cred
  signals : Nat → Sig.Proc

def pPid (s : State) (p : Nat) : Nat := s.table.pidId (s.table.pPidp p)

def procid (s : State) (p : Nat) : Idtype → Option Int
  | .P_PID => some (pPid s p)
  | .P_PPID => some (s.pPpid p)
  | .P_PGID => (s.table.pPgidp p).map fun pgp => (s.table.pidId pgp : Int)
  | .P_SID => (s.table.pSessp p).map fun sp => (s.table.pidId (s.table.sSidp sp) : Int)
  | .P_CID => some (s.pCid p)
  | .P_UID => some (s.pCred p).crUid
  | .P_GID => some (s.pCred p).crGid
  | .P_ALL => some 0

def getmyid (s : State) (caller : Nat) (idtype : Idtype) : Option Int := procid s caller idtype

def operand (s : State) (p : Nat) (idtype : Idtype) (id : Int) : Bool := idtype = .P_ALL ∨ procid s p idtype = some id

def procinset (s : State) (psp : ProcsetT) (p : Nat) : Bool :=
  if s.pCid p = 0 then false
  else
    let loperand := operand s p psp.pLidtype psp.pLid
    let roperand := operand s p psp.pRidtype psp.pRid
    match psp.pOp with
    | .POP_DIFF => loperand && !roperand
    | .POP_AND => loperand && roperand
    | .POP_OR => loperand || roperand
    | .POP_XOR => (loperand || roperand) && !(loperand && roperand)

def mine (s : State) (caller : Nat) (psp : ProcsetT) : Option ProcsetT := do
  let lid ← if psp.pLid = P_MYID then getmyid s caller psp.pLidtype else some psp.pLid
  let rid ← if psp.pRid = P_MYID then getmyid s caller psp.pRidtype else some psp.pRid
  return { psp with pLid := lid, pRid := rid }

def hasprocperm (tcrp scrp : Cred) : Bool :=
  scrp.crUid = 0 ∨ scrp.crUid = tcrp.crRuid ∨ scrp.crRuid = tcrp.crRuid ∨ scrp.crUid = tcrp.crSuid ∨ scrp.crRuid = tcrp.crSuid

def cantmask : Finset Nat := {Sig.SIGKILL, Sig.SIGSTOP}

/-- The call: who makes it, the address of `proc_init`, and the fields of `sigsend_t`. -/
structure Sigsend where
  caller : Nat
  procInit : Nat
  sig : Nat
  checkperm : Bool

inductive Errno
  | EPERM | ESRCH
  deriving DecidableEq

/-- What `sigsendproc` comes to. With `sleeps` it has called `sigaddq`, which needs memory. -/
inductive Sent
  | error (e : Errno)
  | refused
  | tested
  | given (s : State)
  | sleeps

def permitted (pv : Sigsend) (s : State) (p : Nat) : Bool :=
  ¬ pv.checkperm ∨ hasprocperm (s.pCred p) (s.pCred pv.caller) ∨ (pv.sig = Sig.SIGCONT ∧ s.table.pSessp p = s.table.pSessp pv.caller)

def sigsendproc (pv : Sigsend) (s : State) (p : Nat) : Sent :=
  if pPid s p = 1 ∧ pv.sig ∈ cantmask then .error .EPERM
  else if permitted pv s p then
    if pv.sig = 0 then .tested
    else if Sig.ignored (s.signals p) pv.sig then .given { s with signals := update s.signals p (Sig.sigtoproc (s.signals p) pv.sig) }
    else .sleeps
  else .refused

def sigaddq (s : State) (p sig : Nat) : State := { s with signals := update s.signals p (Sig.sigaddq (s.signals p) ⟨sig, 0⟩) }

structure Found where
  nfound : Nat
  lastprp : Option Nat

/-- Where `dotoprocs` is: asleep in `sigaddq` for a process, in the loop or after it; at a
structure that has been freed; or back. -/
inductive Walk
  | sleeping (prp : Nat) (n : Found) (loop : Bool)
  | stray (prp : Nat)
  | returned (error : Option Errno)

/-- The processes that `sigsendproc` was called for, and whether they may get the signal,
and those that `sigaddq` has given it to. -/
structure Record where
  calls : List (Nat × Bool)
  given : List Nat

/-- `funcp` is called; `loop` says that the loop goes on after it. -/
def call (pv : Sigsend) (loop : Bool) (go : State → Record → Option (Walk × State × Record)) (s : State) (r : Record) (p : Nat) (n : Found) :
    Option (Walk × State × Record) :=
  match sigsendproc pv s p with
  | .error e => some (.returned (some e), s, { r with calls := r.calls ++ [(p, false)] })
  | .refused => go s { r with calls := r.calls ++ [(p, false)] }
  | .tested => go s { r with calls := r.calls ++ [(p, false)] }
  | .given s => go s ⟨r.calls ++ [(p, true)], r.given ++ [p]⟩
  | .sleeps => some (.sleeping p n loop, s, { r with calls := r.calls ++ [(p, true)] })

/-- After the loop: `proc_init` gets the signal when it is alone in the set. -/
def finish (pv : Sigsend) (s : State) (r : Record) (n : Found) : Option (Walk × State × Record) :=
  if n.nfound = 0 then some (.returned (some .ESRCH), s, r)
  else if n.nfound = 1 ∧ n.lastprp = some pv.procInit then call pv false (fun s r => some (.returned none, s, r)) s r pv.procInit n
  else some (.returned none, s, r)

/-- The loop of `dotoprocs` from a process on, until it sleeps. -/
def loop (pv : Sigsend) (psp : ProcsetT) : Nat → State → Record → Option Nat → Found → Option (Walk × State × Record)
  | _, s, r, none, n => finish pv s r n
  | 0, _, _, some _, _ => none
  | time + 1, s, r, some prp, n =>
    if prp ∉ s.table.procs then some (.stray prp, s, r)
    else if s.pStat prp = .SIDL ∨ s.pStat prp = .SZOMB then loop pv psp time s r (s.table.pNext prp) n
    else if procinset s psp prp then
      if prp = pv.procInit then loop pv psp time s r (s.table.pNext prp) ⟨n.nfound + 1, some prp⟩
      else call pv true (fun s r => loop pv psp time s r (s.table.pNext prp) ⟨n.nfound + 1, some prp⟩) s r prp ⟨n.nfound + 1, some prp⟩
    else loop pv psp time s r (s.table.pNext prp) n

def dotoprocs (pv : Sigsend) (psp : ProcsetT) (time : Nat) (s : State) : Option (Walk × State × Record) :=
  loop pv psp time s ⟨[], []⟩ s.table.practive ⟨0, none⟩

def resume (pv : Sigsend) (psp : ProcsetT) (time : Nat) (s : State) (r : Record) (prp : Nat) (n : Found) (more : Bool) :
    Option (Walk × State × Record) :=
  if prp ∉ s.table.procs then some (.stray prp, s, r)
  else
    let s := sigaddq s prp pv.sig
    let r := { r with given := r.given ++ [prp] }
    if more then loop pv psp time s r (s.table.pNext prp) n else some (.returned none, s, r)

end Svr4.Procset
