import Svr4.Library.Chain
import Svr4.Bitmap

/-! The dispatcher queues (disp/disp.c), and the places that change a flag of a
process which may be on one. -/

namespace Svr4.Disp
open Function Chain Bitmap

def SSYS : BitVec 32 := 0x00000001
def SLOAD : BitVec 32 := 0x00000010
def SPROCIO : BitVec 32 := 0x00000400

inductive Stat
  | SSLEEP | SRUN | SZOMB | SSTOP | SIDL | SONPROC | SXBRK
  deriving DecidableEq

/-- The process fields by process, the queue headers by priority, and the counters
around them. `none` is `NULL`. -/
structure State where
  pLink : Nat → Option Nat
  pFlag : Nat → BitVec 32
  pPri : Nat → Nat
  pStat : Nat → Stat
  dqFirst : Nat → Option Nat
  dqLast : Nat → Option Nat
  dqSruncnt : Nat → Int
  dqactmap : Nat → BitVec 32
  srunprocs : Int
  maxrunpri : Int
  curproc : Nat
  curpri : Int

def schedulable (flag : BitVec 32) : Bool := flag &&& (SLOAD ||| SPROCIO) = SLOAD ∨ flag &&& SSYS ≠ 0

def dispinit (pLink : Nat → Option Nat) (pFlag : Nat → BitVec 32) (pPri : Nat → Nat) (pStat : Nat → Stat)
    (curproc : Nat) (curpri : Int) : State :=
  ⟨pLink, pFlag, pPri, pStat, fun _ => none, fun _ => none, fun _ => 0, fun _ => 0, 0, -1, curproc, curpri⟩

def dqSruninc (s : State) (pri : Nat) : State :=
  let s := { s with srunprocs := s.srunprocs + 1, dqSruncnt := update s.dqSruncnt pri (s.dqSruncnt pri + 1) }
  if s.dqSruncnt pri = 1 then
    let s := { s with dqactmap := btSet s.dqactmap pri }
    if (pri : Int) > s.maxrunpri then { s with maxrunpri := pri } else s
  else s

def dqSrundec (s : State) (pri : Nat) : State :=
  let s := { s with srunprocs := s.srunprocs - 1, dqSruncnt := update s.dqSruncnt pri (s.dqSruncnt pri - 1) }
  if s.dqSruncnt pri = 0 then
    let s := { s with dqactmap := btClear s.dqactmap pri }
    if s.srunprocs = 0 then { s with maxrunpri := -1 }
    else if (pri : Int) = s.maxrunpri then
      { s with maxrunpri := btGethighbit s.dqactmap (s.maxrunpri.toNat >>> BT_ULSHIFT) }
    else s
  else s

/-- Counting is written out in the routines that queue a process; it is what
`dq_sruninc` does. -/
def setbackdq (s : State) (pp : Nat) : State :=
  let ppri := s.pPri pp
  let s :=
    match s.dqLast ppri with
    | none =>
      { s with
        pLink := update s.pLink pp none
        dqFirst := update s.dqFirst ppri (some pp)
        dqLast := update s.dqLast ppri (some pp) }
    | some last =>
      { s with
        pLink := update (update s.pLink pp none) last (some pp)
        dqLast := update s.dqLast ppri (some pp) }
  if schedulable (s.pFlag pp) then dqSruninc s ppri else s

def setfrontdq (s : State) (pp : Nat) : State :=
  let ppri := s.pPri pp
  let s :=
    match s.dqFirst ppri with
    | none =>
      { s with
        pLink := update s.pLink pp none
        dqFirst := update s.dqFirst ppri (some pp)
        dqLast := update s.dqLast ppri (some pp) }
    | some first =>
      { s with
        pLink := update s.pLink pp (some first)
        dqFirst := update s.dqFirst ppri (some pp) }
  if schedulable (s.pFlag pp) then dqSruninc s ppri else s

def unlinkDq (s : State) (pri : Nat) (prp : Option Nat) (rp : Nat) : State :=
  match prp with
  | none =>
    { s with
      dqFirst := update s.dqFirst pri (s.pLink rp)
      dqLast := if s.pLink rp = none then update s.dqLast pri none else s.dqLast }
  | some prp =>
    { s with
      pLink := update s.pLink prp (s.pLink rp)
      dqLast := if s.pLink rp = none then update s.dqLast pri (some prp) else s.dqLast }

/-- The search may look at `time` processes; `none` is one that has not ended by then. -/
def dispdeq (time : Nat) (s : State) (pp : Nat) : Option (Bool × State) := do
  let ppri := s.pPri pp
  match ← walk (fun rp => rp = pp) s.pLink time none (s.dqFirst ppri) with
  | (_, none) => return (false, s)
  | (prp, some rp) =>
    let s := unlinkDq s ppri prp rp
    return (true, if schedulable (s.pFlag rp) then dqSrundec s ppri else s)

def pswtchEntry (s : State) : State :=
  if s.pStat s.curproc = .SONPROC then { s with pStat := update s.pStat s.curproc .SRUN } else s

/-- `pswtch` counts off a process of the highest priority, which it need not compare
with the maximum. -/
def pswtchCount (s : State) (pri : Nat) : State :=
  let s := { s with srunprocs := s.srunprocs - 1, dqSruncnt := update s.dqSruncnt pri (s.dqSruncnt pri - 1) }
  if s.dqSruncnt pri = 0 then
    let maxrunword := pri >>> BT_ULSHIFT
    let s := { s with dqactmap := btClear s.dqactmap pri }
    if s.srunprocs = 0 then { s with maxrunpri := -1 }
    else { s with maxrunpri := btGethighbit s.dqactmap maxrunword }
  else s

/-- One test of the idle loop of `pswtch`: the processor idles as `procSched`, or a
process is taken off its queue. `none` is a search that ends in a null pointer, or
has not ended in time. -/
def pswtchSelect (time : Nat) (s : State) (procSched : Nat) : Option (Option Nat × State) :=
  if s.maxrunpri = -1 then some (none, { s with curpri := 0, curproc := procSched })
  else do
    let pri := s.maxrunpri.toNat
    match ← walk (fun pp => schedulable (s.pFlag pp)) s.pLink time none (s.dqFirst pri) with
    | (_, none) => none
    | (rp, some pp) =>
      let s := pswtchCount (unlinkDq s pri rp pp) pri
      return (some pp, { s with pStat := update s.pStat pp .SONPROC, curpri := s.pPri pp, curproc := pp })

def setFlag (s : State) (pp : Nat) (flag : BitVec 32) : State := { s with pFlag := update s.pFlag pp flag }

def prlockFlag (s : State) (p : Nat) : State :=
  let s := setFlag s p (s.pFlag p ||| SPROCIO)
  if s.pStat p = .SRUN ∧ s.pFlag p &&& (SLOAD ||| SSYS) = SLOAD then dqSrundec s (s.pPri p) else s

def prunlockFlag (s : State) (p : Nat) : State :=
  if s.pFlag p &&& SPROCIO ≠ 0 then
    let s := setFlag s p (s.pFlag p &&& ~~~ SPROCIO)
    if s.pStat p = .SRUN ∧ s.pFlag p &&& (SLOAD ||| SSYS) = SLOAD then dqSruninc s (s.pPri p) else s
  else s

/-- `sched` when it has loaded a process, or could not unload it. -/
def schedLoad (s : State) (pp : Nat) : State :=
  let s := setFlag s pp (s.pFlag pp ||| SLOAD)
  if s.pStat pp = .SRUN ∧ s.pFlag pp &&& SPROCIO = 0 then dqSruninc s (s.pPri pp) else s

def schedUnload (s : State) (pp : Nat) : State :=
  let s := if s.pStat pp = .SRUN then dqSrundec s (s.pPri pp) else s
  setFlag s pp (s.pFlag pp &&& ~~~SLOAD)

def rtLoad (s : State) (pp : Nat) : State :=
  let oldflag := s.pFlag pp
  let s := setFlag s pp (s.pFlag pp ||| SLOAD)
  if s.pStat pp = .SRUN ∧ oldflag &&& (SLOAD ||| SPROCIO) = 0 then dqSruninc s (s.pPri pp) else s

end Svr4.Disp
