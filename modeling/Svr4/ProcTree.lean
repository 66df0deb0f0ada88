import Svr4.Library.Threaded

/-! The family of a process (os/fork.c, os/exit.c): the list of its children through
`p_sibling`, and the list of those whose next of kin it is through `p_nextorph`. -/

namespace Svr4.ProcTree
open Function Threaded

/-- `p_stat`; SRUN stands for all states of a process that is neither new nor gone. -/
inductive Stat
  | SIDL
  | SRUN
  | SZOMB
  deriving DecidableEq

def proc_sched : Nat := 0
def proc_init : Nat := 1

/-- The structures in use, and in each `p_child`, `p_sibling` and `p_parent`, and
`p_orphan`, `p_nextorph` and `p_nextofkin`. -/
structure State where
  procs : Finset Nat
  sibs : Threads Nat
  kin : Threads Nat
  pStat : Nat → Stat

/-- `newproc` until `procdup`, with the zeroed structure that `pid_assign` got for the child. -/
def newproc (s : State) (pp cp : Nat) : State where
  procs := insert cp s.procs
  sibs := (s.sibs.zero cp).link pp cp
  kin := (s.kin.zero cp).link pp cp
  pStat := update s.pStat cp .SIDL

def newprocRefused (s : State) (cp : Nat) : State :=
  { s with sibs := s.sibs.zero cp, kin := s.kin.zero cp, pStat := update s.pStat cp .SIDL }

def remove (time : Nat) (s : State) (p : Nat) : Option State := do
  let kin ← s.kin.unlink time p
  let sibs ← s.sibs.unlink time p
  some { s with procs := s.procs.erase p, sibs := sibs, kin := kin }

def newprocFailed (time : Nat) (s : State) (cp : Nat) : Option State := remove time s cp

def freeproc (time : Nat) (s : State) (p : Nat) : Option State :=
  if s.pStat p = .SZOMB then remove time s p else none

/-- The orphans of a process that exits go to its next of kin. -/
def giveOrphans (time : Nat) (s : State) (p : Nat) : Option (Threads Nat) :=
  if s.kin.first p = none then some s.kin else (s.kin.owner p).bind fun nokp => s.kin.give time p nokp

/-- The part of `exit` that concerns the family: the children go to init. -/
def exit (time : Nat) (s : State) (p : Nat) : Option State := do
  let kin ← giveOrphans time s p
  let sibs ← s.sibs.give time p proc_init
  some { s with sibs := sibs, kin := kin, pStat := update s.pStat p .SZOMB }

end Svr4.ProcTree
