import Mathlib

/-! Page locks (vm/vm_page.c): the two counts of a page, and the memory that is set aside for them. -/

namespace Svr4.PageLock
open Function

def PAGE_LOCK_MAXIMUM : Nat := 65535

structure page_t where
  p_vnode : Bool
  p_gone : Bool
  p_intrans : Bool
  p_keepcnt : Nat
  p_lckcnt : Nat
  p_cowcnt : Nat
  deriving DecidableEq

/-- The totals are kept as the integers that the words stand for. -/
structure State (Page : Type) where
  pages : Page → page_t
  availrmem : Int
  pages_pp_locked : Int
  pages_pp_kernel : Int
  pages_pp_maximum : Nat

variable {Page : Type}

/-- `(availrmem - 1) >= pages_pp_maximum`, where the left side becomes unsigned. -/
def room (s : State Page) : Bool := (s.availrmem - 1) % 2 ^ 32 ≥ s.pages_pp_maximum

def raised (n : Nat) : Nat := if n < PAGE_LOCK_MAXIMUM then n + 1 else n

def increment (n : Nat) : Nat := (n + 1) % 2 ^ 16
def decrement (n : Nat) : Nat := (n + (2 ^ 16 - 1)) % 2 ^ 16

def take (s : State Page) : State Page := { s with availrmem := s.availrmem - 1, pages_pp_locked := s.pages_pp_locked + 1 }

def give (s : State Page) (n : Int) : State Page := { s with availrmem := s.availrmem + n, pages_pp_locked := s.pages_pp_locked - n }

section
variable (s : State Page)

@[simp, grind =] theorem take_pages (pp : Page) : (take s).pages pp = s.pages pp := rfl
@[simp, grind =] theorem take_availrmem : (take s).availrmem = s.availrmem - 1 := rfl
@[simp, grind =] theorem take_locked : (take s).pages_pp_locked = s.pages_pp_locked + 1 := rfl
@[simp, grind =] theorem take_kernel : (take s).pages_pp_kernel = s.pages_pp_kernel := rfl
@[simp, grind =] theorem give_pages (n : Int) (pp : Page) : (give s n).pages pp = s.pages pp := rfl
@[simp, grind =] theorem give_availrmem (n : Int) : (give s n).availrmem = s.availrmem + n := rfl
@[simp, grind =] theorem give_locked (n : Int) : (give s n).pages_pp_locked = s.pages_pp_locked - n := rfl
@[simp, grind =] theorem give_kernel (n : Int) : (give s n).pages_pp_kernel = s.pages_pp_kernel := rfl

end

variable [DecidableEq Page]

def setlck (s : State Page) (pp : Page) (n : Nat) : State Page :=
  { s with pages := update s.pages pp { s.pages pp with p_lckcnt := n } }

def setcow (s : State Page) (pp : Page) (n : Nat) : State Page :=
  { s with pages := update s.pages pp { s.pages pp with p_cowcnt := n } }

section
variable (s : State Page) (pp : Page) (n : Nat)

@[simp, grind =] theorem setlck_lckcnt : ((setlck s pp n).pages pp).p_lckcnt = n := by simp [setlck]
@[simp, grind =] theorem setlck_cowcnt : ((setlck s pp n).pages pp).p_cowcnt = (s.pages pp).p_cowcnt := by simp [setlck]
@[simp, grind =] theorem setlck_availrmem : (setlck s pp n).availrmem = s.availrmem := rfl
@[simp, grind =] theorem setlck_locked : (setlck s pp n).pages_pp_locked = s.pages_pp_locked := rfl
@[simp, grind =] theorem setlck_kernel : (setlck s pp n).pages_pp_kernel = s.pages_pp_kernel := rfl
@[simp, grind =] theorem setcow_lckcnt : ((setcow s pp n).pages pp).p_lckcnt = (s.pages pp).p_lckcnt := by simp [setcow]
@[simp, grind =] theorem setcow_cowcnt : ((setcow s pp n).pages pp).p_cowcnt = n := by simp [setcow]
@[simp, grind =] theorem setcow_availrmem : (setcow s pp n).availrmem = s.availrmem := rfl
@[simp, grind =] theorem setcow_locked : (setcow s pp n).pages_pp_locked = s.pages_pp_locked := rfl
@[simp, grind =] theorem setcow_kernel : (setcow s pp n).pages_pp_kernel = s.pages_pp_kernel := rfl

@[simp, grind =] theorem room_setlck : room (setlck s pp n) = room s := rfl

end

theorem setlck_elsewhere (s : State Page) {pp q : Page} (n : Nat) (other : q ≠ pp) : (setlck s pp n).pages q = s.pages q := update_of_ne other _ _
theorem setcow_elsewhere (s : State Page) {pp q : Page} (n : Nat) (other : q ≠ pp) : (setcow s pp n).pages q = s.pages q := update_of_ne other _ _

def page_pp_lock (s : State Page) (pp : Page) (cow kernel : Bool) : Bool × State Page :=
  if cow then
    if room s then (true, setcow (take s) pp (raised (s.pages pp).p_cowcnt)) else (false, s)
  else if (s.pages pp).p_lckcnt ≠ 0 then (true, setlck s pp (raised (s.pages pp).p_lckcnt))
  else if kernel then (true, setlck { s with pages_pp_kernel := s.pages_pp_kernel + 1 } pp (increment (s.pages pp).p_lckcnt))
  else if room s then (true, setlck (take s) pp (increment (s.pages pp).p_lckcnt))
  else (false, s)

def page_pp_unlock (s : State Page) (pp : Page) (cow kernel : Bool) : State Page :=
  if cow then give (setcow s pp (decrement (s.pages pp).p_cowcnt)) 1
  else
    let s := setlck s pp (decrement (s.pages pp).p_lckcnt)
    if (s.pages pp).p_lckcnt = 0 then
      if kernel then { s with pages_pp_kernel := s.pages_pp_kernel - 1 } else give s 1
    else s

def page_pp_useclaim (s : State Page) (opp npp : Page) : State Page :=
  let s := setcow s opp (decrement (s.pages opp).p_cowcnt)
  setcow s npp (increment (s.pages npp).p_cowcnt)

def page_addclaim (s : State Page) (pp : Page) : Bool × State Page :=
  let s := setlck s pp (decrement (s.pages pp).p_lckcnt)
  if (s.pages pp).p_lckcnt = 0 then (true, setcow s pp (increment (s.pages pp).p_cowcnt))
  else if room s then (true, setcow (take s) pp (raised (s.pages pp).p_cowcnt))
  else (false, setlck s pp (increment (s.pages pp).p_lckcnt))

def page_subclaim (s : State Page) (pp : Page) : State Page :=
  let s := setcow s pp (decrement (s.pages pp).p_cowcnt)
  let s := if (s.pages pp).p_lckcnt ≠ 0 then give s 1 else s
  setlck s pp (increment (s.pages pp).p_lckcnt)

/-- An abort waits for those who keep the page and for a transfer. -/
def goes (p : page_t) : Bool := p.p_keepcnt = 0 ∧ p.p_intrans = false

def page_abort (s : State Page) (pp : Page) : State Page :=
  let s := if (s.pages pp).p_vnode then { s with pages := update s.pages pp { s.pages pp with p_gone := true } } else s
  if goes (s.pages pp) then
    let s := if (s.pages pp).p_lckcnt > 0 then setlck (give s 1) pp 0 else s
    if (s.pages pp).p_cowcnt > 0 then setcow (give s (s.pages pp).p_cowcnt) pp 0 else s
  else s

end Svr4.PageLock
