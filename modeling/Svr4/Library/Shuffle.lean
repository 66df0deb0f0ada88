import Mathlib

/-! Segments of a memory, and what it is to shuffle one. -/

namespace Shuffle
open Function

variable {β : Type} {m m' m'' : Nat → β} {a b c l k p q : Nat}

/-- What the memory has from `a` up to `l`. -/
def slice (m : Nat → β) (a l : Nat) : List β := (List.range' a (l - a)).map m

theorem slice_nil (empty : l ≤ a) : slice m a l = [] := by
  rw [slice, Nat.sub_eq_zero_of_le empty]
  rfl

theorem slice_append (first : a ≤ b) (second : b ≤ c) : slice m a b ++ slice m b c = slice m a c := by
  have joined := @List.range'_append a (b - a) (c - b) 1
  rw [one_mul, Nat.add_sub_cancel' first] at joined
  rw [slice, slice, slice, ← List.map_append, joined]
  congr 2
  omega

theorem slice_one : slice m a (a + 1) = [m a] := by
  rw [slice, Nat.add_sub_cancel_left]
  rfl

theorem mem_slice {x : β} : x ∈ slice m a l ↔ ∃ k, a ≤ k ∧ k < l ∧ m k = x := by
  simp only [slice, List.mem_map, List.mem_range'_1]
  apply exists_congr
  intro k
  constructor
  · rintro ⟨⟨low, high⟩, is⟩
    exact ⟨low, by omega, is⟩
  · rintro ⟨low, high, is⟩
    exact ⟨⟨low, by omega⟩, is⟩

theorem slice_congr (same : ∀ k, a ≤ k → k < l → m' k = m k) : slice m' a l = slice m a l := by
  apply List.map_congr_left
  intro k member
  obtain ⟨low, high⟩ := List.mem_range'_1.mp member
  exact same k low (by omega)

theorem length_slice : (slice m a l).length = l - a := by rw [slice, List.length_map, List.length_range']

/-- The contents of the segment in another order, and the rest as it was. -/
def Shuffled (a l : Nat) (m m' : Nat → β) : Prop := ∃ σ : Equiv.Perm Nat, (∀ k, ¬ (a ≤ k ∧ k < l) → σ k = k) ∧ m' = m ∘ σ

theorem Shuffled.refl : Shuffled a l m m := ⟨1, fun _ _ => rfl, rfl⟩

theorem Shuffled.trans (first : Shuffled a l m m') (second : Shuffled a l m' m'') : Shuffled a l m m'' := by
  obtain ⟨σ, fixed, rfl⟩ := first
  obtain ⟨τ, fixed', rfl⟩ := second
  refine ⟨τ.trans σ, fun k outside => ?_, rfl⟩
  rw [Equiv.trans_apply, fixed' k outside, fixed k outside]

theorem Shuffled.outside (shuffled : Shuffled a l m m') (k : Nat) (out : ¬ (a ≤ k ∧ k < l)) : m' k = m k := by
  obtain ⟨σ, fixed, rfl⟩ := shuffled
  rw [comp_apply, fixed k out]

theorem Shuffled.mono (shuffled : Shuffled b k m m') (first : a ≤ b) (second : k ≤ l) : Shuffled a l m m' := by
  obtain ⟨σ, fixed, rfl⟩ := shuffled
  exact ⟨σ, fun k outside => fixed k (by omega), rfl⟩

/-- What holds of all the contents still does. -/
theorem Shuffled.all {P : β → Prop} (shuffled : Shuffled a l m m') (holds : ∀ k, a ≤ k → k < l → P (m k)) :
    ∀ k, a ≤ k → k < l → P (m' k) := by
  obtain ⟨σ, fixed, rfl⟩ := shuffled
  intro k low high
  have inside : a ≤ σ k ∧ σ k < l := by
    by_contra out
    have stays : σ k = k := σ.injective (fixed (σ k) out)
    omega
  exact holds (σ k) inside.1 inside.2

theorem Shuffled.perm (shuffled : Shuffled a l m m') : (slice m' a l).Perm (slice m a l) := by
  obtain ⟨σ, fixed, rfl⟩ := shuffled
  have inside : ∀ k, (a ≤ σ k ∧ σ k < l) ↔ a ≤ k ∧ k < l := by
    intro k
    constructor
    · intro lands
      by_contra out
      exact out (fixed k out ▸ lands)
    · intro lies
      by_contra out
      have stays : σ k = k := σ.injective (fixed (σ k) out)
      rw [stays] at out
      exact out lies
  have same : ((List.range' a (l - a)).map σ).Perm (List.range' a (l - a)) := by
    apply (List.perm_ext_iff_of_nodup ((List.nodup_range' 1).map σ.injective) (List.nodup_range' 1)).mpr
    intro k
    rw [List.mem_map]
    constructor
    · rintro ⟨n, member, rfl⟩
      have lies := List.mem_range'_1.mp member
      have lands := (inside n).mpr ⟨lies.1, by omega⟩
      exact List.mem_range'_1.mpr ⟨lands.1, by omega⟩
    · intro member
      have lies := List.mem_range'_1.mp member
      refine ⟨σ.symm k, ?_, σ.apply_symm_apply k⟩
      have lands := (inside (σ.symm k)).mp (by rw [σ.apply_symm_apply]; omega)
      exact List.mem_range'_1.mpr ⟨lands.1, by omega⟩
  rw [slice, slice, ← List.map_map]
  exact same.map m

/-- Two cells change their contents. -/
def exchange (m : Nat → β) (p q : Nat) : Nat → β := update (update m p (m q)) q (m p)

theorem exchange_eq : exchange m p q = m ∘ Equiv.swap p q := by
  funext k
  rw [comp_apply, exchange]
  by_cases right : k = q
  · rw [right, update_self, Equiv.swap_apply_right]
  · rw [update_of_ne right]
    by_cases left : k = p
    · rw [left, update_self, Equiv.swap_apply_left]
    · rw [update_of_ne left, Equiv.swap_apply_of_ne_of_ne left right]

theorem Shuffled.exchange (first : a ≤ p ∧ p < l) (second : a ≤ q ∧ q < l) : Shuffled a l m (exchange m p q) := by
  refine ⟨Equiv.swap p q, fun k outside => ?_, exchange_eq⟩
  apply Equiv.swap_apply_of_ne_of_ne
  · rintro rfl
    exact outside first
  · rintro rfl
    exact outside second

end Shuffle
