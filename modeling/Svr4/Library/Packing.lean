import Mathlib

/-! Packing items one behind the other, each at a multiple of its alignment, in arithmetic modulo `m`. With `m` zero
the arithmetic is exact. A packing shows by itself that nothing came round: it can only look right when it is. -/

namespace Svr4.Library.Packing

structure Item where
  align : Nat
  size : Nat

variable {a m x y b lo mid hi : Nat} {l : List Item} {ws ws' : List (Nat × Nat)}

/-- The next multiple. -/
def up (a x : Nat) : Nat := if x % a ≠ 0 then x + (a - x % a) else x

def placed (m : Nat) : Nat → List Item → List (Nat × Item)
  | _, [] => []
  | x, i :: l => (up i.align x % m, i) :: placed m ((up i.align x % m + i.size) % m) l

def finish (m : Nat) : Nat → List Item → Nat
  | x, [] => x
  | x, i :: l => finish m ((up i.align x % m + i.size) % m) l

theorem le_up (a x : Nat) : x ≤ up a x := by
  unfold up
  split_ifs <;> omega

theorem up_zero (a : Nat) : up a 0 = 0 := by simp [up]

theorem dvd_up (positive : 0 < a) (x : Nat) : a ∣ up a x := by
  have low := Nat.mod_lt x positive
  have whole := Nat.mod_add_div x a
  unfold up
  split_ifs with rest
  · exact ⟨x / a + 1, by rw [Nat.mul_add]; omega⟩
  · exact Nat.dvd_of_mod_eq_zero (not_not.mp rest)

theorem up_lt (positive : 0 < a) (x : Nat) : up a x < x + a := by
  unfold up
  split_ifs <;> omega

theorem up_least (positive : 0 < a) (le : x ≤ y) (multiple : a ∣ y) : up a x ≤ y := by
  obtain ⟨k, rfl⟩ := multiple
  obtain ⟨j, same⟩ := dvd_up positive x
  have near := up_lt positive x
  rw [same] at near ⊢
  have : a * j < a * (k + 1) := by
    rw [Nat.mul_add]
    omega
  exact Nat.mul_le_mul_left a (Nat.lt_succ_iff.mp (Nat.lt_of_mul_lt_mul_left this))

theorem le_finish (x : Nat) (l : List Item) : x ≤ finish 0 x l := by
  induction l generalizing x with
  | nil => exact le_rfl
  | cons i l ih =>
    have := le_up i.align x
    have := ih (up i.align x + i.size)
    simp only [finish, Nat.mod_zero]
    omega

theorem finish_lt (few : x < m) : finish m x l < m := by
  induction l generalizing x with
  | nil => exact few
  | cons i l ih => exact ih (Nat.mod_lt _ (by omega))

/-- Where the exact end is small nothing comes round. -/
theorem exact_ (small : finish 0 x l < m) : placed m x l = placed 0 x l ∧ finish m x l = finish 0 x l := by
  induction l generalizing x with
  | nil => exact ⟨rfl, rfl⟩
  | cons i l ih =>
    simp only [finish, Nat.mod_zero] at small
    have ends := le_finish (up i.align x + i.size) l
    have first : up i.align x % m = up i.align x := Nat.mod_eq_of_lt (by omega)
    have next : (up i.align x + i.size) % m = up i.align x + i.size := Nat.mod_eq_of_lt (by omega)
    obtain ⟨places, last⟩ := ih small
    simp only [placed, finish, first, next, Nat.mod_zero, places, last, and_self]

theorem placed_inside (x : Nat) (l : List Item) : ∀ q ∈ placed 0 x l, x ≤ q.1 ∧ q.1 + q.2.size ≤ finish 0 x l ∧ (0 < q.2.align → q.2.align ∣ q.1) := by
  induction l generalizing x with
  | nil => simp [placed]
  | cons i l ih =>
    have first := le_up i.align x
    intro q member
    simp only [placed, finish, Nat.mod_zero] at member ⊢
    rcases List.mem_cons.mp member with rfl | member
    · exact ⟨first, le_finish _ l, fun positive => dvd_up positive x⟩
    · obtain ⟨low, high, aligned⟩ := ih _ q member
      exact ⟨by omega, high, aligned⟩

theorem placed_ordered (x : Nat) (l : List Item) : (placed 0 x l).Pairwise fun q r => q.1 + q.2.size ≤ r.1 := by
  induction l generalizing x with
  | nil => exact .nil
  | cons i l ih =>
    simp only [placed, Nat.mod_zero]
    exact .cons (fun q member => (placed_inside _ l q member).1) (ih _)

theorem placed_items (m x : Nat) (l : List Item) : (placed m x l).map Prod.snd = l := by
  induction l generalizing x with
  | nil => rfl
  | cons i l ih => simp [placed, ih]

theorem finish_append (l' : List Item) : finish m x (l ++ l') = finish m (finish m x l) l' := by
  induction l generalizing x with
  | nil => rfl
  | cons i l ih => exact ih

theorem placed_append (l' : List Item) : placed m x (l ++ l') = placed m x l ++ placed m (finish m x l) l' := by
  induction l generalizing x with
  | nil => rfl
  | cons i l ih => exact congrArg _ ih

/-- An end that has come round to the start stays there while nothing is put. -/
theorem stuck (empty : ∀ q ∈ placed m 0 l, 0 < q.2.size → q.1 ≠ 0) : finish m 0 l = 0 := by
  induction l with
  | nil => rfl
  | cons i l ih =>
    simp only [placed, finish, up_zero, Nat.zero_mod, zero_add] at empty ⊢
    have none_ : i.size = 0 := by
      by_contra some_
      exact empty (0, i) (List.mem_cons_self ..) (by simp; omega) rfl
    rw [none_, Nat.zero_mod] at empty ⊢
    exact ih fun q member => empty q (List.mem_cons_of_mem _ member)

/-- A packing modulo `m` whose items are aligned, inside and not twice at the start is exact. -/
theorem shows_exact (few : x < m) (aligns : ∀ i ∈ l, 0 < i.align ∧ i.align < m) (aligned : ∀ q ∈ placed m x l, q.2.align ∣ q.1 ∨ q.2.align ∣ m)
    (inside : ∀ q ∈ placed m x l, 0 < q.2.size → q.1 + q.2.size ≤ finish m x l)
    (apart : (placed m x l).Pairwise fun q r => ¬(0 < q.2.size ∧ 0 < r.2.size ∧ q.1 = 0 ∧ r.1 = 0))
    (taken : 0 < x → (∀ q ∈ placed m x l, 0 < q.2.size → q.1 ≠ 0) ∧ 0 < finish m x l) : finish 0 x l < m := by
  induction l generalizing x with
  | nil => exact few
  | cons i l ih =>
    have bound : finish m x (i :: l) < m := finish_lt few
    obtain ⟨positive, narrow⟩ := aligns i (List.mem_cons_self ..)
    have first : (up i.align x % m, i) ∈ placed m x (i :: l) := List.mem_cons_self ..
    have low := le_up i.align x
    have near := up_lt positive x
    rcases Nat.lt_or_ge (up i.align x) m with direct | round
    · have here : up i.align x % m = up i.align x := Nat.mod_eq_of_lt direct
      have ends : up i.align x + i.size < m := by
        rcases Nat.eq_zero_or_pos i.size with none_ | some_
        · omega
        · have := inside _ first some_
          rw [here] at this
          exact Nat.lt_of_le_of_lt this bound
      have next : (up i.align x + i.size) % m = up i.align x + i.size := Nat.mod_eq_of_lt ends
      simp only [placed, finish, here, next, Nat.mod_zero] at first aligned inside apart taken ⊢
      obtain ⟨first_apart, apart⟩ := List.pairwise_cons.mp apart
      refine ih ends (fun j member => aligns j (List.mem_cons_of_mem _ member)) (fun q member => aligned q (List.mem_cons_of_mem _ member))
        (fun q member => inside q (List.mem_cons_of_mem _ member)) apart ?_
      intro some_
      rcases Nat.eq_zero_or_pos x with rfl | behind
      · rw [up_zero] at some_ first_apart inside
        have size : 0 < i.size := by omega
        refine ⟨fun q member nonempty start => first_apart q member ⟨size, nonempty, rfl, start⟩, ?_⟩
        have last := inside (0, i) (List.mem_cons_self ..) size
        exact Nat.lt_of_lt_of_le (by dsimp only; omega) (up_zero i.align ▸ last)
      · obtain ⟨others, ends⟩ := taken behind
        exact ⟨fun q member => others q (List.mem_cons_of_mem _ member), ends⟩
    · -- The next multiple has come round, so it is `m` itself: the item is at the start, which is taken.
      have behind : 0 < x := by
        rcases Nat.eq_zero_or_pos x with rfl | behind
        · rw [up_zero] at round
          omega
        · exact behind
      obtain ⟨others, ends⟩ := taken behind
      have divides : i.align ∣ m := by
        rcases aligned _ first with at_ | divides
        · have rest : up i.align x % m = up i.align x - m := by
            rw [Nat.mod_eq_sub_mod round, Nat.mod_eq_of_lt (by omega)]
          dsimp only at at_
          rw [rest] at at_
          have := Nat.dvd_sub (dvd_up positive x) at_
          rwa [Nat.sub_sub_self round] at this
        · exact divides
      have whole : up i.align x = m := Nat.le_antisymm (up_least positive few.le divides) round
      have start : up i.align x % m = 0 := by rw [whole, Nat.mod_self]
      have none_ : i.size = 0 := by
        by_contra some_
        exact others _ first (Nat.pos_of_ne_zero some_) start
      simp only [placed, finish, start, none_, zero_add, Nat.zero_mod] at others ends
      have zero := stuck fun q member => others q (List.mem_cons_of_mem _ member)
      omega

/-- Ranges, by where they begin and how long they are, that cover each number from `lo` to `hi` once and no other. -/
def Tiles (ws : List (Nat × Nat)) (lo hi : Nat) : Prop :=
  lo ≤ hi ∧ ∀ b, ws.countP (fun w => w.1 ≤ b ∧ b < w.1 + w.2) = if lo ≤ b ∧ b < hi then 1 else 0

theorem Tiles.nil (x : Nat) : Tiles [] x x := ⟨le_rfl, fun b => by rw [if_neg (by omega)]; rfl⟩

theorem Tiles.one (at_ len : Nat) : Tiles [(at_, len)] at_ (at_ + len) := by
  refine ⟨Nat.le_add_right .., fun b => ?_⟩
  by_cases inside : at_ ≤ b ∧ b < at_ + len <;> simp [inside]

theorem Tiles.append (first : Tiles ws lo mid) (second : Tiles ws' mid hi) : Tiles (ws ++ ws') lo hi := by
  refine ⟨first.1.trans second.1, fun b => ?_⟩
  have := first.1
  have := second.1
  rw [List.countP_append, first.2, second.2]
  split_ifs <;> omega

end Svr4.Library.Packing
