import Mathlib

/-! Numbers as words of bits, the highest bit first, and when one word begins with another. -/

namespace Bits

variable {l m : Nat} {x y : Int}

/-- The lowest `l` bits of a number. -/
def bits : Nat → Int → List Bool
  | 0, _ => []
  | l + 1, y => bits l (y / 2) ++ [decide (y % 2 = 1)]

@[simp] theorem bits_zero : bits 0 y = [] := rfl

@[simp] theorem length_bits : (bits l y).length = l := by
  induction l generalizing y with
  | zero => rfl
  | succ l ih => rw [bits, List.length_append, ih, List.length_singleton]

theorem bits_add : bits (l + m) y = bits l (y / 2 ^ m) ++ bits m y := by
  induction m generalizing y with
  | zero => simp
  | succ m ih =>
    have halves : y / 2 / 2 ^ m = y / 2 ^ (m + 1) := by
      rw [Int.ediv_ediv_of_nonneg (by norm_num), pow_succ']
    rw [← Nat.add_assoc, bits, ih, halves, bits, List.append_assoc]

theorem bits_inj (low : 0 ≤ x) (high : x < 2 ^ l) (low' : 0 ≤ y) (high' : y < 2 ^ l) (same : bits l x = bits l y) : x = y := by
  induction l generalizing x y with
  | zero =>
    rw [pow_zero] at high high'
    omega
  | succ l ih =>
    rw [pow_succ] at high high'
    obtain ⟨upper, last⟩ := List.append_inj' same rfl
    have halves : x / 2 = y / 2 := ih (by omega) (by omega) (by omega) (by omega) upper
    have odd : x % 2 = 1 ↔ y % 2 = 1 := by simpa using last
    omega

/-- A word begins with another that has `m` bits less. -/
theorem bits_leading {n : Nat} (count : n = l + m) (low : 0 ≤ x) (high : x < 2 ^ l) (low' : 0 ≤ y) (high' : y < 2 ^ n) :
    bits l x <+: bits n y ↔ x = y / 2 ^ m := by
  subst count
  have power : (0 : Int) < 2 ^ m := by positivity
  rw [bits_add]
  constructor
  · intro begins
    have same := List.IsPrefix.eq_of_length (List.prefix_of_prefix_length_le begins (List.prefix_append _ _) (by simp)) (by simp)
    refine bits_inj low high (Int.ediv_nonneg low' power.le) ?_ same
    apply Int.ediv_lt_of_lt_mul power
    rw [← pow_add]
    exact high'
  · rintro rfl
    exact List.prefix_append _ _

/-- A word, and any `m` bits behind it. -/
theorem bits_followed {n : Nat} {rest : Int} (count : n = l + m) (low : 0 ≤ rest) (high : rest < 2 ^ m) : bits l x <+: bits n (x * 2 ^ m + rest) := by
  have power : (0 : Int) < 2 ^ m := by positivity
  rw [count, bits_add, add_comm (x * 2 ^ m), Int.add_mul_ediv_right _ _ power.ne', Int.ediv_eq_zero_of_lt low high, zero_add]
  exact List.prefix_append _ _

theorem followed_fits {n : Nat} {rest : Int} (count : n = l + m) (small : x < 2 ^ l) (high : rest < 2 ^ m) : x * 2 ^ m + rest < 2 ^ n := by
  have power : (0 : Int) < 2 ^ m := by positivity
  rw [count, pow_add]
  nlinarith

/-- What is above the lowest bits does not show in them. -/
theorem bits_low (a : Int) : bits l (a * 2 ^ l + x) = bits l x := by
  induction l generalizing x with
  | zero => rfl
  | succ l ih =>
    have scaled : a * 2 ^ (l + 1) = 2 * (a * 2 ^ l) := by
      rw [pow_succ]
      ring
    have half : (a * 2 ^ (l + 1) + x) / 2 = a * 2 ^ l + x / 2 := by omega
    have odd : (a * 2 ^ (l + 1) + x) % 2 = x % 2 := by omega
    rw [bits, half, ih, odd, bits]

theorem bits_all : bits m (2 ^ m - 1) = List.replicate m true := by
  induction m with
  | zero => rfl
  | succ m ih =>
    have double : (2 : Int) ^ (m + 1) = 2 ^ m * 2 := pow_succ 2 m
    have half : ((2 : Int) ^ (m + 1) - 1) / 2 = 2 ^ m - 1 := by omega
    have odd : ((2 : Int) ^ (m + 1) - 1) % 2 = 1 := by omega
    rw [bits, half, ih, odd, List.replicate_succ']
    rfl

theorem bits_ones (low : 0 ≤ x) (high : x < 2 ^ l) : List.replicate m true ++ bits l x = bits (m + l) ((2 ^ m - 1) * 2 ^ l + x) := by
  have power : (0 : Int) < 2 ^ l := by positivity
  have top : ((2 ^ m - 1) * 2 ^ l + x) / 2 ^ l = 2 ^ m - 1 := by
    rw [add_comm, Int.add_mul_ediv_right _ _ power.ne', Int.ediv_eq_zero_of_lt low high, zero_add]
  rw [bits_add, top, bits_all, bits_low]

end Bits
