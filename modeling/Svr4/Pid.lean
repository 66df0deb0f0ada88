import Svr4.Library.Doubly

/-! Process ids (os/pid.c), process groups (os/pgrp.c) and sessions (os/session.c). Addresses
of structures are numbers, and `time` bounds the turns of every loop. -/

namespace Svr4.Pid
open Function Chain DoubleChain

def HASHSZ : Nat := 64
def MAXPID : Nat := 30000

structure Var where
  vProc : Nat
  vMaxup : Nat
  atLeast : 50 ≤ vProc
  atMost : vProc ≤ 400

/-- An entry of `procdir`: a process, or the link of a free entry. -/
inductive Procent
  | peProc (prp : Nat)
  | peNext (slot : Option Nat)
  deriving DecidableEq

def pid0 : Nat := 0
def proc_sched : Nat := 0
def session0 : Nat := 0

/-- The structures in use, their fields, and the heads of the lists. -/
structure State where
  pids : Finset Nat
  pidPrinactive : Nat → Bool
  pidPgorphaned : Nat → Bool
  pidRef : Nat → Nat
  pidPrslot : Nat → Nat
  pidId : Nat → Nat
  pidPglink : Nat → Option Nat
  pidLink : Nat → Option Nat
  pidhash : Nat → Option Nat
  procs : Finset Nat
  pPidp : Nat → Nat
  pPgidp : Nat → Option Nat
  pPglink : Nat → Option Nat
  pSessp : Nat → Option Nat
  pParent : Nat → Option Nat
  pUid : Nat → Nat
  pNext : Nat → Option Nat
  practive : Option Nat
  nproc : Nat
  procdir : Nat → Procent
  procentfree : Option Nat
  sesss : Finset Nat
  sRef : Nat → Int
  sSidp : Nat → Nat
  minpid : Nat
  mpid : Nat

def HASHPID (pid : Nat) : Nat := pid % HASHSZ

/-- `none` also when the structure has no reference, which is asserted. -/
def pid_lookup (time : Nat) (s : State) (pid : Nat) : Option (Option Nat) :=
  match walk (fun pidp => s.pidId pidp = pid) s.pidLink time none (s.pidhash (HASHPID pid)) with
  | some (_, some pidp) => if s.pidRef pidp > 0 then some (some pidp) else none
  | some (_, none) => some none
  | none => none

def pid_setmin (s : State) : State := { s with minpid := s.mpid + 1 }

def PID_HOLD (s : State) (pidp : Nat) : Option State :=
  if pidp ∈ s.pids then some { s with pidRef := update s.pidRef pidp ((s.pidRef pidp + 1) % 64) } else none

def pid_rele (time : Nat) (s : State) (pidp : Nat) : Option State :=
  if pidp = pid0 then none
  else
    (takeOut time s.pidLink (s.pidhash (HASHPID (s.pidId pidp))) pidp).map fun (head, link) =>
      { s with pids := s.pids.erase pidp, pidLink := link, pidhash := update s.pidhash (HASHPID (s.pidId pidp)) head }

def PID_RELE (time : Nat) (s : State) (pidp : Nat) : Option State :=
  if pidp ∈ s.pids then
    if s.pidRef pidp > 1 then some { s with pidRef := update s.pidRef pidp (s.pidRef pidp - 1) } else pid_rele time s pidp
  else none

def SESS_HOLD (s : State) (sp : Nat) : Option State :=
  if sp ∈ s.sesss then some { s with sRef := update s.sRef sp ((s.sRef sp + 1).bmod 65536) } else none

def sess_rele (time : Nat) (s : State) (sp : Nat) : Option State :=
  if sp = session0 then none
  else (PID_RELE time s (s.sSidp sp)).map fun s => { s with sesss := s.sesss.erase sp }

def SESS_RELE (time : Nat) (s : State) (sp : Nat) : Option State :=
  if sp ∈ s.sesss then
    let s := { s with sRef := update s.sRef sp ((s.sRef sp - 1).bmod 65536) }
    if s.sRef sp > 0 then some s else sess_rele time s sp
  else none

def pglinked (s : State) (cp : Nat) : Bool :=
  match s.pParent cp with
  | some pp => s.pPgidp pp ≠ s.pPgidp cp ∧ s.pSessp pp = s.pSessp cp
  | none => false

def pgjoin (s : State) (p pgp : Nat) : Option State :=
  if pgp ∈ s.pids then
    let old := s.pidPglink pgp
    let s := { s with
      pPglink := update s.pPglink p old
      pidPglink := update s.pidPglink pgp (some p)
      pPgidp := update s.pPgidp p (some pgp) }
    if old = none then
      (PID_HOLD s pgp).map fun s => { s with pidPgorphaned := update s.pidPgorphaned pgp (¬ pglinked s p) }
    else if s.pidPgorphaned pgp ∧ pglinked s p then some { s with pidPgorphaned := update s.pidPgorphaned pgp false }
    else some s
  else none

/-- The end of `pgexit`, when the group is not empty: it may be orphaned by now. -/
def orphan (time : Nat) (s : State) (pgp : Nat) : Option State :=
  if s.pidPgorphaned pgp then some s
  else
    match walk (pglinked s) s.pPglink time none (s.pidPglink pgp) with
    | some (_, some _) => some s
    | some (_, none) => some { s with pidPgorphaned := update s.pidPgorphaned pgp true }
    | none => none

def pgexit (time : Nat) (s : State) (prp : Nat) : Option State := do
  let pgp ← s.pPgidp prp
  let (head, link) ← takeOut time s.pPglink (s.pidPglink pgp) prp
  let s := { s with
    pidPglink := update s.pidPglink pgp head
    pPglink := update link prp none
    pPgidp := update s.pPgidp prp none }
  if s.pidPglink pgp = none then PID_RELE time s pgp else orphan time s pgp

def sess_create (time : Nat) (s : State) (pp sp : Nat) : Option State := do
  let s ← pgexit time s pp
  let old ← s.pSessp pp
  let s ← SESS_RELE time s old
  let s := { s with
    sesss := insert sp s.sesss
    sSidp := update s.sSidp sp (s.pPidp pp)
    sRef := update s.sRef sp 1
    pSessp := update s.pSessp pp (some sp) }
  let s ← pgjoin s pp (s.pPidp pp)
  PID_HOLD s (s.sSidp sp)

def unchain (time : Nat) (s : State) (prp : Nat) : Option State :=
  (takeOut time s.pNext s.practive prp).map fun (head, link) =>
    { s with practive := head, pNext := link, procs := s.procs.erase prp, nproc := s.nproc - 1 }

def pid_exit (time : Nat) (s : State) (prp : Nat) : Option State := do
  let s ← pgexit time s prp
  let sp ← s.pSessp prp
  let s ← SESS_RELE time s sp
  let pidp := s.pPidp prp
  let slot := s.pidPrslot pidp
  let s := { s with
    pidPrinactive := update s.pidPrinactive pidp true
    procdir := update s.procdir slot (.peNext s.procentfree)
    procentfree := some slot }
  let s ← PID_RELE time s pidp
  unchain time s prp

def prfind (time : Nat) (s : State) (pid : Nat) : Option (Option Nat) :=
  (pid_lookup time s pid).map fun
    | some pidp =>
      if s.pidPrinactive pidp then none
      else
        match s.procdir (s.pidPrslot pidp) with
        | .peProc prp => some prp
        | .peNext _ => none
    | none => none

def countUid (uid : Nat → Nat) (next : Nat → Option Nat) (ruid : Nat) : Nat → Option Nat → Option Nat
  | _, none => some 0
  | 0, some _ => none
  | time + 1, some prp => (countUid uid next ruid time (next prp)).map (· + if uid prp = ruid then 1 else 0)

def later (s : State) (mpid : Nat) : Nat := if mpid + 1 = MAXPID then s.minpid else mpid + 1

def nextPid (time : Nat) (s : State) : Nat → Nat → Option Nat
  | 0, _ => none
  | turns + 1, mpid =>
    match pid_lookup time s (later s mpid) with
    | some none => some (later s mpid)
    | some (some _) => nextPid time s turns (later s mpid)
    | none => none

structure Cred where
  crUid : Nat
  crRuid : Nat

structure Cond where
  noLast : Bool
  failOk : Bool

/-- Whether `pid_assign` fails at once: too few slots, or too many processes of the user. -/
def refuses (time : Nat) (v : Var) (s : State) (cond : Cond) (cred : Cred) : Option Bool :=
  if s.nproc ≥ v.vProc - 1 ∧ (s.nproc = v.vProc ∨ cond.noLast) then some true
  else if cred.crUid ≠ 0 ∧ cred.crRuid ≠ 0 then
    (countUid s.pUid s.pNext cred.crRuid time s.practive).map fun procs => procs ≥ v.vMaxup
  else some false

/-- With the process and the pid that were got from `kmem_zalloc`. -/
def assign (time : Nat) (s : State) (prp pidp : Nat) : Option (Nat × State) := do
  let mpid ← nextPid time s time s.mpid
  let slot ← s.procentfree
  match s.procdir slot with
  | .peProc _ => none
  | .peNext free =>
    some (mpid, { s with
      mpid := mpid
      procentfree := free
      procdir := update s.procdir slot (.peProc prp)
      pids := insert pidp s.pids
      pidPrinactive := update s.pidPrinactive pidp false
      pidPgorphaned := update s.pidPgorphaned pidp false
      pidRef := update s.pidRef pidp 1
      pidId := update s.pidId pidp mpid
      pidPrslot := update s.pidPrslot pidp (slot % 2 ^ 24)
      pidPglink := update s.pidPglink pidp none
      pidLink := update s.pidLink pidp (s.pidhash (HASHPID mpid))
      pidhash := update s.pidhash (HASHPID mpid) (some pidp)
      procs := insert prp s.procs
      pPidp := update s.pPidp prp pidp
      pPgidp := update s.pPgidp prp none
      pPglink := update s.pPglink prp none
      pSessp := update s.pSessp prp none
      pParent := update s.pParent prp none
      pUid := update s.pUid prp 0
      pNext := update s.pNext prp s.practive
      practive := some prp
      nproc := s.nproc + 1 })

/-- `memory` is what `kmem_zalloc` gives for the process and the pid. The new pid, or -1;
`none` is a panic. -/
def pid_assign (time : Nat) (v : Var) (s : State) (cond : Cond) (cred : Cred) (memory : Option Nat × Option Nat) :
    Option (Int × State) := do
  if ← refuses time v s cond cred then some (-1, s)
  else
    match memory with
    | (some prp, some pidp) => (assign time s prp pidp).map fun (pid, s) => (pid, s)
    | _ => if cond.failOk then some (-1, s) else none

def pid_init (v : Var) : State where
  pids := {pid0}
  pidPrinactive _ := false
  pidPgorphaned _ := true
  pidRef _ := 3
  pidPrslot _ := 0
  pidId _ := 0
  pidPglink := update (fun _ => none) pid0 (some proc_sched)
  pidLink _ := none
  pidhash := update (fun _ => none) (HASHPID 0) (some pid0)
  procs := {proc_sched}
  pPidp _ := pid0
  pPgidp := update (fun _ => none) proc_sched (some pid0)
  pPglink _ := none
  pSessp := update (fun _ => none) proc_sched (some session0)
  pParent _ := none
  pUid _ := 0
  pNext _ := none
  practive := some proc_sched
  nproc := 1
  procdir slot := if slot = 0 then .peProc proc_sched else .peNext (if slot + 1 < v.vProc then some (slot + 1) else none)
  procentfree := some 1
  sesss := {session0}
  sRef _ := 1
  sSidp _ := pid0
  minpid := 0
  mpid := 0

end Svr4.Pid
