import Mathlib

/-! Steps of a fixed size around a ring. -/

namespace Stride

variable {size step start i : Nat}

/-- The place after some steps. -/
def place (size step start n : Nat) : Nat := (start + n * step) % size

theorem place_zero (inside : start < size) : place size step start 0 = start := by
  rw [place, Nat.zero_mul, Nat.add_zero, Nat.mod_eq_of_lt inside]

theorem place_succ (size step start n : Nat) : (place size step start n + step) % size = place size step start (n + 1) := by
  rw [place, place, Nat.mod_add_mod, Nat.succ_mul, Nat.add_assoc]

theorem place_lt (positive : 0 < size) (n : Nat) : place size step start n < size := Nat.mod_lt _ positive

/-- With a step that has no divisor in common with the size no place comes twice in one turn. -/
theorem place_injective (coprime : Nat.Coprime size step) {n m : Nat} (less : n < size) (less' : m < size)
    (same : place size step start n = place size step start m) : n = m := by
  have steps : n * step ≡ m * step [MOD size] := Nat.ModEq.add_left_cancel' start same
  exact (Nat.ModEq.cancel_right_of_coprime coprime steps).eq_of_lt_of_lt less less'

/-- One turn comes to every place. -/
theorem place_surjective (coprime : Nat.Coprime size step) (inside : i < size) : ∃ n < size, place size step start n = i := by
  have positive : 0 < size := by omega
  have injective : Function.Injective fun n : Fin size => (⟨place size step start n, place_lt positive n⟩ : Fin size) := by
    intro n m same
    exact Fin.ext (place_injective coprime n.2 m.2 (congrArg Fin.val same))
  obtain ⟨n, is⟩ := Finite.surjective_of_injective injective ⟨i, inside⟩
  exact ⟨n, n.2, congrArg Fin.val is⟩

end Stride
