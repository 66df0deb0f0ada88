import Svr4.Bitmap

/-! `bt_gethighbit` finds the highest bit at or below a word. -/

namespace Svr4.Proofs.BitmapHigh
open Function Bitmap

def range (lo hi : Nat) : BitVec 32 := BitVec.ofNat 32 (2 ^ hi - 2 ^ lo)

def bisect (word : BitVec 32) (wx : Nat) (lo : Nat) : Nat → Nat
  | 0 => wx <<< BT_ULSHIFT ||| lo
  | n + 1 =>
    if word &&& range (lo + 2 ^ n) (lo + 2 ^ (n + 1)) ≠ 0 then bisect word wx (lo + 2 ^ n) n
    else bisect word wx lo n

theorem highInWord_eq (word : BitVec 32) (wx : Nat) : highInWord word wx = bisect word wx 0 5 := rfl

theorem range_bit {lo hi : Nat} (order : lo ≤ hi) (bound : hi ≤ 32) (i : Nat) :
    (range lo hi).getLsbD i = decide (lo ≤ i ∧ i < hi) := by
  have shifted : 2 ^ hi - 2 ^ lo = (2 ^ (hi - lo) - 1) <<< lo := by
    rw [Nat.shiftLeft_eq, Nat.sub_mul, ← Nat.pow_add, Nat.sub_add_cancel order, Nat.one_mul]
  rw [range, BitVec.getLsbD_ofNat, shifted, Nat.testBit_shiftLeft, Nat.testBit_two_pow_sub_one, Bool.eq_iff_iff]
  simp only [Bool.and_eq_true, decide_eq_true_eq]
  omega

theorem and_range (word : BitVec 32) {lo hi : Nat} (order : lo ≤ hi) (bound : hi ≤ 32) (small : word.toNat < 2 ^ hi) :
    word &&& range lo hi ≠ 0 ↔ 2 ^ lo ≤ word.toNat := by
  constructor
  · intro some_
    by_contra low
    apply some_
    apply BitVec.eq_of_getLsbD_eq
    intro i _
    rw [BitVec.getLsbD_and, range_bit order bound]
    by_cases above : lo ≤ i
    · have power := Nat.pow_le_pow_right (show 0 < 2 by decide) above
      have clear : word.getLsbD i = false := Nat.testBit_lt_two_pow (by omega)
      simp [clear]
    · simp [above]
  · intro large none_
    have positive : word.toNat ≠ 0 := by
      have := Nat.two_pow_pos lo
      omega
    have top := Nat.testBit_log2 positive
    have low : lo ≤ word.toNat.log2 := (Nat.le_log2 positive).mpr large
    have high : word.toNat.log2 < hi := (Nat.log2_lt positive).mpr small
    have clear := congrArg (fun b : BitVec 32 => b.getLsbD word.toNat.log2) none_
    simp only [BitVec.getLsbD_and, range_bit order bound] at clear
    have set_ : word.getLsbD word.toNat.log2 = true := top
    simp [set_, low, high] at clear

theorem bisect_spec (word : BitVec 32) (wx lo n : Nat) (bound : lo + 2 ^ n ≤ 32) (low : 2 ^ lo ≤ word.toNat)
    (high : word.toNat < 2 ^ (lo + 2 ^ n)) :
    ∃ k, bisect word wx lo n = 32 * wx + k ∧ k < 32 ∧ 2 ^ k ≤ word.toNat ∧ word.toNat < 2 ^ (k + 1) := by
  induction n generalizing lo with
  | zero =>
    refine ⟨lo, ?_, by simpa using bound, low, by simpa using high⟩
    have joined := Nat.shiftLeft_add_eq_or_of_lt (show lo < 2 ^ 5 by omega) wx
    rw [bisect, BT_ULSHIFT, ← joined, Nat.shiftLeft_eq]
    omega
  | succ n ih =>
    have halves : 2 ^ (n + 1) = 2 ^ n + 2 ^ n := by omega
    have positive := Nat.two_pow_pos n
    rw [bisect]
    have test := and_range word (show lo + 2 ^ n ≤ lo + 2 ^ (n + 1) by omega) bound high
    split
    · next upper => exact ih _ (by omega) (test.mp upper) (by rwa [halves, ← add_assoc] at high)
    · next lower => exact ih _ (by omega) low (not_le.mp (fun large => lower (test.mpr large)))

theorem highInWord_spec {word : BitVec 32} (wx : Nat) (some_ : word ≠ 0) :
    ∃ k, highInWord word wx = 32 * wx + k ∧ k < 32 ∧ word.getLsbD k = true ∧
      ∀ i, k < i → word.getLsbD i = false := by
  have positive : word.toNat ≠ 0 := fun zero => some_ (BitVec.eq_of_toNat_eq zero)
  obtain ⟨k, result, bound, low, high⟩ := bisect_spec word wx 0 5 (by decide)
    (by simp only [pow_zero]; omega) word.isLt
  refine ⟨k, ?_, bound, Nat.testBit_of_two_pow_le_and_two_pow_add_one_gt low high, ?_⟩
  · rw [highInWord_eq, result]
  · intro i above
    have power := Nat.pow_le_pow_right (show 0 < 2 by decide) (show k + 1 ≤ i by omega)
    exact Nat.testBit_lt_two_pow (by omega)

theorem mask_lt (i : Nat) : i &&& BT_ULMASK = i % 32 := Nat.and_two_pow_sub_one_eq_mod i 5

theorem shift_eq (i : Nat) : i >>> BT_ULSHIFT = i / 32 := Nat.shiftRight_eq_div_pow i 5

theorem btTest_split (m : Nat → BitVec 32) (wx k : Nat) (bound : k < 32) :
    btTest m (32 * wx + k) = (m wx).getLsbD k := by
  rw [btTest, mask_lt, shift_eq]
  congr 2 <;> omega

theorem biw_bit (i k : Nat) (bound : k < 32) : (btBiw i).getLsbD k = decide (i % 32 = k) := by
  rw [btBiw, mask_lt, BitVec.getLsbD_shiftLeft, Bool.eq_iff_iff]
  simp only [Bool.and_eq_true, decide_eq_true_eq, Bool.not_eq_true', decide_eq_false_iff_not, BitVec.getLsbD_one]
  omega

private theorem index_eq (i j : Nat) : (i / 32 = j / 32 ∧ i % 32 = j % 32) ↔ i = j := by omega

theorem btTest_btSet (m : Nat → BitVec 32) (i j : Nat) : btTest (btSet m i) j = (btTest m j || decide (i = j)) := by
  simp only [btTest, btSet, shift_eq, mask_lt]
  by_cases same : j / 32 = i / 32
  · rw [same, update_self, BitVec.getLsbD_or, biw_bit _ _ (Nat.mod_lt _ (by decide))]
    congr 1
    rw [decide_eq_decide, ← index_eq i j]
    exact ⟨fun low => ⟨same.symm, low⟩, fun both => both.2⟩
  · have other : i ≠ j := fun equal => same (equal ▸ rfl)
    rw [update_of_ne same]
    simp [other]

theorem btTest_btClear (m : Nat → BitVec 32) (i j : Nat) : btTest (btClear m i) j = (btTest m j && decide (i ≠ j)) := by
  simp only [btTest, btClear, shift_eq, mask_lt]
  have bound : j % 32 < 32 := Nat.mod_lt _ (by decide)
  by_cases same : j / 32 = i / 32
  · rw [same, update_self, BitVec.getLsbD_and, BitVec.getLsbD_not, biw_bit _ _ bound]
    have equal : i % 32 = j % 32 ↔ i = j := by
      rw [← index_eq i j]
      exact ⟨fun low => ⟨same.symm, low⟩, fun both => both.2⟩
    simp [bound, equal]
  · have other : i ≠ j := fun equal => same (equal ▸ rfl)
    rw [update_of_ne same]
    simp [other]

theorem btGethighbit_spec (m : Nat → BitVec 32) (wx : Nat) :
    (btGethighbit m wx = -1 ∧ ∀ i, i < 32 * (wx + 1) → btTest m i = false) ∨
      ∃ k : Nat, btGethighbit m wx = k ∧ btTest m k = true ∧ ∀ i, k < i → i < 32 * (wx + 1) → btTest m i = false := by
  have inWord : ∀ wx i, m wx = 0 → 32 * wx ≤ i → i < 32 * (wx + 1) → btTest m i = false := by
    intro wx i zero low high
    obtain ⟨k, rfl⟩ := Nat.exists_eq_add_of_le low
    rw [btTest_split m wx k (by omega), zero]
    exact BitVec.getLsbD_zero
  have found : ∀ wx, m wx ≠ 0 → ∃ k : Nat, (highInWord (m wx) wx : Int) = k ∧ btTest m k = true ∧
      ∀ i, k < i → i < 32 * (wx + 1) → btTest m i = false := by
    intro wx some_
    obtain ⟨k, result, bound, set_, clear⟩ := highInWord_spec wx some_
    refine ⟨32 * wx + k, by rw [result], ?_, ?_⟩
    · rw [btTest_split m wx k bound]
      exact set_
    · intro i above below
      obtain ⟨j, rfl⟩ := Nat.exists_eq_add_of_le (show 32 * wx ≤ i by omega)
      rw [btTest_split m wx j (by omega)]
      exact clear j (by omega)
  induction wx with
  | zero =>
    unfold btGethighbit
    split
    · next zero => exact .inl ⟨rfl, fun i below => inWord 0 i zero (by omega) below⟩
    · next some_ => exact .inr (found 0 some_)
  | succ wx ih =>
    unfold btGethighbit
    split
    · next zero =>
      rcases ih with ⟨result, clear⟩ | ⟨k, result, set_, clear⟩
      · refine .inl ⟨result, fun i below => ?_⟩
        by_cases low : i < 32 * (wx + 1)
        · exact clear i low
        · exact inWord (wx + 1) i zero (by omega) below
      · refine .inr ⟨k, result, set_, fun i above below => ?_⟩
        by_cases low : i < 32 * (wx + 1)
        · exact clear i above low
        · exact inWord (wx + 1) i zero (by omega) below
    · next some_ => exact .inr (found (wx + 1) some_)

end Svr4.Proofs.BitmapHigh
