import Mathlib

/-! Replacing segments of a list by segments of another, with places counted from one. -/

namespace Splice

variable {α : Type} {old new : List α} {a b c d i p : Nat} {x : α}

/-- From `c` to `d`. -/
def segment (text : List α) (c d : Nat) : List α := (text.take d).drop (c - 1)

/-- What is from `a` to `b` makes way for `middle`; it goes behind `b` where `a` comes after it. -/
def splice (text : List α) (a b : Nat) (middle : List α) : List α := text.take (a - 1) ++ middle ++ text.drop b

/-- One list up to `i`, and the other one behind `p`. -/
def joined (old new : List α) (i p : Nat) : List α := old.take i ++ new.drop p

theorem joined_none : joined old new 0 0 = new := rfl

theorem joined_all (first : old.length ≤ i) (second : new.length ≤ p) : joined old new i p = old := by
  rw [joined, List.take_of_length_le first, List.drop_of_length_le second, List.append_nil]

/-- A common place may belong to either. -/
theorem joined_succ (first : old[i]? = some x) (second : new[p]? = some x) :
    joined old new (i + 1) (p + 1) = joined old new i p := by
  obtain ⟨inside, rfl⟩ := List.getElem?_eq_some_iff.mp first
  obtain ⟨inside', same⟩ := List.getElem?_eq_some_iff.mp second
  rw [joined, joined, List.take_succ_eq_append_getElem inside, List.drop_eq_getElem_cons inside', same]
  simp only [List.append_assoc, List.singleton_append]

theorem segment_append (before : c ≤ d + 1) : segment new c d ++ new.drop d = new.drop (c - 1) := by
  rw [segment]
  rcases Nat.lt_or_ge new.length d with short | long
  · rw [List.take_of_length_le short.le, List.drop_of_length_le short.le, List.append_nil]
  · have length : (new.take d).length = d := List.length_take_of_le long
    rw [← List.drop_append_of_le_length (by omega), List.take_append_drop]

theorem splice_joined (before : a ≤ b + 1) (inside : b ≤ old.length) (before' : c ≤ d + 1) :
    splice (joined old new b d) a b (segment new c d) = joined old new (a - 1) (c - 1) := by
  have length : (old.take b).length = b := List.length_take_of_le inside
  have head : (joined old new b d).take (a - 1) = old.take (a - 1) := by
    rw [joined, List.take_append_of_le_length (by omega), List.take_take, Nat.min_eq_left (by omega)]
  have tail : (joined old new b d).drop b = new.drop d := by
    rw [joined, List.drop_append_of_le_length length.ge, List.drop_of_length_le length.le, List.nil_append]
  rw [splice, head, tail, List.append_assoc, segment_append before', joined]

end Splice
