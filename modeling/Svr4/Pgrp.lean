import Svr4.Pid

/-! `newproc` (os/fork.c), as far as it changes groups, sessions and parents. -/

namespace Svr4.Pgrp
open Function Chain Pid

/-- The process table, the children of each process from the newest through `p_sibling`,
and whether `p_stat` is SZOMB. -/
structure State where
  table : Pid.State
  pChild : Nat → List Nat
  zombie : Nat → Bool

/-- `newproc` of the process `pp`. When there is no process, nothing changes. -/
def newproc (time : Nat) (v : Var) (s : State) (pp : Nat) (cond : Cond) (cred : Cred) (memory : Option Nat × Option Nat) :
    Option State := do
  let (pid, t) ← pid_assign time v s.table cond cred memory
  if pid = -1 then return { s with table := t }
  let cp ← memory.1
  let t := { t with pUid := update t.pUid cp (t.pUid pp) }
  let sp ← t.pSessp pp
  let t ← SESS_HOLD t sp
  let t := { t with pSessp := update t.pSessp cp (some sp) }
  let pgp ← t.pPgidp pp
  let t ← pgjoin t cp pgp
  return {
    table := { t with pParent := update t.pParent cp (some pp) }
    pChild := update (update s.pChild cp []) pp (cp :: s.pChild pp)
    zombie := update s.zombie cp false }

end Svr4.Pgrp
