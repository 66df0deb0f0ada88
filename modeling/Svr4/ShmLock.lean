import Svr4.PageLock

/-! A segment of shared memory that is locked (os/shm.c), and what locks the pages of a mapping (vm/seg_vn.c, vm/vm_as.c). -/

namespace Svr4.ShmLock
open Function PageLock

inductive Errno
  | EPERM | EINVAL | ENOMEM | EIO | EAGAIN
  deriving DecidableEq

inductive MC
  | MC_LOCK | MC_UNLOCK
  deriving DecidableEq

/-- The pages of an anon_map by their number in it: whether there is an anon slot and whether `page_lookup` finds its page. -/
structure Pages (n : Nat) where
  mem : PageLock.State (Fin n)
  anon : Fin n → Bool
  core : Fin n → Bool

/-- A mapping of the whole anon_map, with `vp_pplock` of its vpages. -/
structure seg (n : Nat) (Proc : Type) where
  proc : Proc
  vpage : Option (Fin n → Bool)

/-- An anon_map with its header, its mappings in all address spaces and `a_paglck` of these. The header is without
`shm_amp` when it has been removed. -/
structure State (n : Nat) (Proc : Type) where
  pages : Pages n
  refcnt : Nat
  shm_amp : Bool
  shm_lkcnt : Nat
  segs : List (seg n Proc)
  a_paglck : Proc → Bool

/-- What may fail around a call: the address for a mapping, the mapping itself, and the page faults. A mapping goes to
its `place` among the others; `lckflag` is what `shm_lock` finds in a variable that it has not set. -/
structure Around (n : Nat) where
  place : Nat
  no_addr : Bool
  no_map : Option Errno
  fails : Fin n → Bool
  lckflag : Bool

variable {n : Nat} {Proc : Type}

def segvn_fault (s : Pages n) (i : Fin n) : Pages n := { s with anon := update s.anon i true, core := update s.core i true }

def lock_loop (fails : Fin n → Bool) : List (Fin n) → (Fin n → Bool) → Pages n → Option Errno × (Fin n → Bool) × Pages n
  | [], vpp, s => (none, vpp, s)
  | i :: rest, vpp, s =>
    if vpp i then lock_loop fails rest vpp s
    else if fails i then (some Errno.EIO, vpp, s)
    else
      let s := segvn_fault s i
      let (locked, mem) := page_pp_lock s.mem i false false
      if locked then lock_loop fails rest (update vpp i true) { s with mem := mem } else (some .EAGAIN, vpp, { s with mem := mem })

def unlock_loop : List (Fin n) → (Fin n → Bool) → Pages n → (Fin n → Bool) × Pages n
  | [], vpp, s => (vpp, s)
  | i :: rest, vpp, s =>
    if vpp i then
      unlock_loop rest (update vpp i false) (if s.anon i && s.core i then { s with mem := page_pp_unlock s.mem i false false } else s)
    else unlock_loop rest vpp s

def segvn_lockop (fails : Fin n → Bool) (vpage : Option (Fin n → Bool)) (s : Pages n) : MC → Option Errno × Option (Fin n → Bool) × Pages n
  | .MC_LOCK =>
    let (error, vpp, s) := lock_loop fails (List.finRange n) (vpage.getD fun _ => false) s
    (error, some vpp, s)
  | .MC_UNLOCK =>
    match vpage with
    | none => (none, none, s)
    | some vpp =>
      let (vpp, s) := unlock_loop (List.finRange n) vpp s
      (none, some vpp, s)

def as_ctl (s : State n Proc) (k : Nat) (func : MC) (fails : Fin n → Bool) : Option Errno × State n Proc :=
  match s.segs[k]? with
  | none => (some .ENOMEM, s)
  | some m =>
    let (error, vpage, pages) := segvn_lockop fails m.vpage s.pages func
    (error, { s with pages := pages, segs := s.segs.set k { m with vpage := vpage } })

/-- `as_unmap` of the `k`-th mapping, which removes the locks set through it. -/
def as_unmap (s : State n Proc) (k : Nat) : State n Proc :=
  let s := (as_ctl s k .MC_UNLOCK fun _ => false).2
  { s with segs := s.segs.eraseIdx k, refcnt := s.refcnt - 1 }

/-- `as_map` of the whole anon_map, which becomes the mapping `(s.segs.take e.place).length`. -/
def as_map (s : State n Proc) (p : Proc) (e : Around n) : Option Errno × State n Proc :=
  match e.no_map with
  | some error => (some error, s)
  | none =>
    let k := (s.segs.take e.place).length
    let s := { s with segs := s.segs.take e.place ++ ⟨p, none⟩ :: s.segs.drop e.place, refcnt := s.refcnt + 1 }
    if s.a_paglck p then
      match as_ctl s k .MC_LOCK e.fails with
      | (some error, s) => (some error, as_unmap s k)
      | (none, s) => (none, s)
    else (none, s)

/-- There is no page, or no anon slot that could be followed to it. -/
inductive Panic
  | no_page
  deriving DecidableEq

def lock_again : List (Fin n) → Pages n → Except Panic (Pages n)
  | [], s => .ok s
  | i :: rest, s =>
    if s.anon i && s.core i then lock_again rest { s with mem := (page_pp_lock s.mem i false false).2 } else .error .no_page

def check_locked (vpage : Option (Fin n → Bool)) : Nat :=
  match vpage with
  | none => 0
  | some vpp => if (List.finRange n).all vpp then 2 else 1

variable [DecidableEq Proc]

/-- The mapping of a process that `shm_lock` takes, one that is not locked in part. -/
def attached (s : State n Proc) (p : Proc) : Option Nat := s.segs.findIdx? fun m => m.proc = p && check_locked m.vpage ≠ 1

def relock (s : State n Proc) : Except Panic (State n Proc) := (lock_again (List.finRange n) s.pages).map fun pages => { s with pages := pages }

def shm_lock_attached (s : State n Proc) (k : Nat) (fails : Fin n → Bool) : Except Panic (Option Errno × State n Proc) :=
  match (s.segs[k]?.bind fun m => m.vpage) with
  | none => do
    let (error, s) := as_ctl s k .MC_LOCK fails
    let s ← if error = none then relock s else .ok s
    return (error, (as_ctl s k .MC_UNLOCK fails).2)
  | some _ => do return (none, ← relock s)

def shm_lock_mapped (s : State n Proc) (p : Proc) (e : Around n) : Except Panic (Option Errno × State n Proc) :=
  if e.no_addr then .ok (some .ENOMEM, s)
  else do
    let lckflag := if s.a_paglck p then e.lckflag else true
    let k := (s.segs.take e.place).length
    let (error, s) := as_map { s with a_paglck := update s.a_paglck p true } p e
    let s ← if error = none then (relock s).map fun s => as_unmap s k else .ok s
    return (error, if lckflag then { s with a_paglck := update s.a_paglck p false } else s)

def shm_lock (s : State n Proc) (p : Proc) (e : Around n) : Except Panic (Option Errno × State n Proc) :=
  match attached s p with
  | some k => shm_lock_attached s k e.fails
  | none => shm_lock_mapped s p e

def unlock_again (lck : Bool) : List (Fin n) → Pages n → Except Panic (Pages n)
  | [], s => .ok s
  | i :: rest, s =>
    if s.anon i && s.core i then
      unlock_again lck rest (if (s.mem.pages i).p_lckcnt ≠ 0 then { s with mem := page_pp_unlock s.mem i false false } else s)
    else if lck then .error .no_page
    else unlock_again lck rest s

def shm_unlock (s : State n Proc) (lck : Bool) : Except Panic (State n Proc) :=
  (unlock_again lck (List.finRange n) s.pages).map fun pages => { s with pages := pages }

def anon_free : List (Fin n) → Pages n → Pages n
  | [], s => s
  | i :: rest, s =>
    let gone : Pages n := if s.anon i && s.core i && !(s.mem.pages i).p_intrans then { s with mem := page_abort s.mem i } else s
    anon_free rest { gone with anon := update s.anon i false }

def shm_rm_amp (s : State n Proc) (lckflag : Bool) : Except Panic (State n Proc) := do
  let s ← shm_unlock s lckflag
  return { s with pages := anon_free (List.finRange n) s.pages }

def shmctl_lock (s : State n Proc) (p : Proc) (suser : Bool) (e : Around n) : Except Panic (Option Errno × State n Proc) :=
  if !s.shm_amp then .ok (some .EINVAL, s)
  else if !suser then .ok (some .EPERM, s)
  else
    let first := s.shm_lkcnt = 0
    let s := { s with shm_lkcnt := increment s.shm_lkcnt }
    if first then do
      let (error, s) ← shm_lock s p e
      if error = none then return (none, s)
      else
        let s ← shm_unlock { s with shm_lkcnt := decrement s.shm_lkcnt } false
        return (some .ENOMEM, s)
    else .ok (none, s)

def shmctl_unlock (s : State n Proc) (suser : Bool) : Except Panic (Option Errno × State n Proc) :=
  if !s.shm_amp then .ok (some .EINVAL, s)
  else if !suser then .ok (some .EPERM, s)
  else if s.shm_lkcnt = 0 then .ok (none, s)
  else
    let s := { s with shm_lkcnt := decrement s.shm_lkcnt }
    if s.shm_lkcnt = 0 then (shm_unlock s true).map fun s => (none, s) else .ok (none, s)

def shmctl_rmid (s : State n Proc) (owner : Bool) : Except Panic (Option Errno × State n Proc) :=
  if !s.shm_amp then .ok (some .EINVAL, s)
  else if !owner then .ok (some .EPERM, s)
  else do
    let s := { s with refcnt := s.refcnt - 1 }
    let s ← if s.refcnt = 1 then shm_rm_amp s (s.shm_lkcnt ≠ 0) else .ok s
    return (none, { s with shm_lkcnt := 0, shm_amp := false })

def shmat (s : State n Proc) (p : Proc) (e : Around n) : Option Errno × State n Proc :=
  match as_map s p e with
  | (some error, s) => (some error, s)
  | (none, s) => (none, { s with refcnt := s.refcnt + 1 })

def kshmdt (s : State n Proc) (k : Nat) : Except Panic (State n Proc) :=
  let s := as_unmap s k
  let s := { s with refcnt := s.refcnt - 1 }
  if s.refcnt = 1 then shm_rm_amp s false else .ok s

end Svr4.ShmLock
