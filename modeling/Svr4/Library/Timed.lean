import Mathlib

/-! Computations that are given time: once they have had enough, more changes nothing. -/

namespace Svr4.Timed

universe u

variable {ε : Type*} {α β : Type u} {late : ε}

/-- With enough time the computation ends with this. -/
def Settles (f : Nat → α) (r : α) : Prop := ∃ enough, ∀ time, enough ≤ time → f time = r

theorem Settles.unique {f : Nat → α} {r r' : α} (first : Settles f r) (second : Settles f r') : r = r' := by
  obtain ⟨enough, ends⟩ := first
  obtain ⟨enough', ends'⟩ := second
  exact (ends _ (le_max_left enough enough')).symm.trans (ends' _ (le_max_right enough enough'))

/-- The computation says `late` while it has not ended, and otherwise does not depend on the time. -/
def Steady (late : ε) (f : Nat → Except ε α) : Prop :=
  ∀ time time', time ≤ time' → f time ≠ .error late → f time' = f time

theorem Steady.const (r : Except ε α) : Steady late (fun _ => r) := fun _ _ _ _ => rfl

/-- A sequence has ended when its parts have. -/
theorem bind_same {x x' : Except ε α} {g g' : α → Except ε β} (first : x ≠ .error late → x' = x)
    (second : ∀ a, g a ≠ .error late → g' a = g a) (ended : (x >>= g) ≠ .error late) : (x' >>= g') = (x >>= g) := by
  cases x with
  | error e =>
    rw [first fun same => ended (by rw [same]; rfl)]
    rfl
  | ok a =>
    rw [first (by rintro ⟨⟩)]
    exact second a ended

theorem Steady.bind {f : Nat → Except ε α} {g : α → Nat → Except ε β} (first : Steady late f) (second : ∀ a, Steady late (g a)) :
    Steady late (fun time => f time >>= fun a => g a time) :=
  fun time time' more ended => bind_same (first time time' more) (fun a => second a time time' more) ended

theorem Steady.settles {f : Nat → Except ε α} {r : Except ε α} {time : Nat} (steady : Steady late f) (ended : f time = r)
    (other : r ≠ .error late) : Settles f r :=
  ⟨time, fun time' more => (steady time time' more (ended.trans_ne other)).trans ended⟩

end Svr4.Timed
