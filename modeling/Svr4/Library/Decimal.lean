import Mathlib

/-! Numbers written in decimal digits, and read again up to the first byte that is none. -/

namespace Decimal

variable {n sum : Nat} {rest : List UInt8}

def numeric (c : UInt8) : Bool := 48 ≤ c ∧ c ≤ 57

/-- The digits of a number, the first one foremost. -/
@[grind =] def digits (n : Nat) : List UInt8 :=
  if n < 10 then [UInt8.ofNat (48 + n)] else digits (n / 10) ++ [UInt8.ofNat (48 + n % 10)]
termination_by n
decreasing_by omega

/-- Read on from what has been read so far. -/
@[grind =] def read : Nat → List UInt8 → Nat × List UInt8
  | sum, [] => (sum, [])
  | sum, c :: p => if numeric c then read (sum * 10 + (c.toNat - 48)) p else (sum, c :: p)

theorem digit_toNat (small : n < 10) : (UInt8.ofNat (48 + n)).toNat = 48 + n := by
  rw [UInt8.toNat_ofNat']
  omega

theorem digit_numeric (small : n < 10) : numeric (UInt8.ofNat (48 + n)) = true := by
  have value := digit_toNat small
  simp only [numeric, UInt8.le_iff_toNat_le, value, decide_eq_true_eq]
  exact ⟨Nat.le_add_right .., show 48 + n ≤ 57 by omega⟩

theorem read_digit (small : n < 10) : read sum (UInt8.ofNat (48 + n) :: rest) = read (sum * 10 + n) rest := by
  rw [read, digit_numeric small, if_pos rfl, digit_toNat small, Nat.add_sub_cancel_left]

theorem read_stop (stop : ∀ c ∈ rest.head?, numeric c = false) : read sum rest = (sum, rest) := by
  cases rest with
  | nil => rfl
  | cons c p => rw [read, stop c rfl, if_neg Bool.false_ne_true]

theorem read_append : read 0 (digits n ++ rest) = read n rest := by
  induction n using Nat.strong_induction_on generalizing rest with
  | _ n ih =>
    rw [digits]
    split
    case isTrue small => rw [List.singleton_append, read_digit small, Nat.zero_mul, Nat.zero_add]
    case isFalse large =>
      rw [List.append_assoc, ih (n / 10) (by omega), List.singleton_append, read_digit (Nat.mod_lt n (by decide))]
      congr 1
      omega

/-- What has been written is read. -/
theorem read_digits (stop : ∀ c ∈ rest.head?, numeric c = false) : read 0 (digits n ++ rest) = (n, rest) :=
  read_append.trans (read_stop stop)

theorem digits_head (n : Nat) : ∃ c p, digits n = c :: p ∧ numeric c = true := by
  induction n using Nat.strong_induction_on with
  | _ n ih =>
    rw [digits]
    split
    case isTrue small => exact ⟨_, [], rfl, digit_numeric small⟩
    case isFalse large =>
      obtain ⟨c, p, same, number⟩ := ih (n / 10) (by omega)
      exact ⟨c, p ++ [UInt8.ofNat (48 + n % 10)], by rw [same]; rfl, number⟩

end Decimal
