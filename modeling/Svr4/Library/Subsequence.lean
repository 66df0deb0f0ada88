import Mathlib

/-! Common subsequences of two lists, as chains of matched places, which are counted from one. -/

namespace Subsequence

variable {α : Type} {A B A' B' P S common : List α} {n x y : ℕ} {M : ℕ → ℕ → Prop}

/-- So many matches, each one further on in both lists; the last one is at `x` and `y`. -/
inductive Chain (M : ℕ → ℕ → Prop) : ℕ → ℕ → ℕ → Prop
  | nil : Chain M 0 0 0
  | next {n x y x' y' : ℕ} (chain : Chain M n x y) (down : x < x') (right : y < y') (here : M x' y') : Chain M (n + 1) x' y'

/-- The same at both places. -/
def Match (A B : List α) (x y : ℕ) : Prop := 1 ≤ x ∧ x ≤ A.length ∧ 1 ≤ y ∧ y ≤ B.length ∧ A[x - 1]? = B[y - 1]?

/-- The lengths of the common subsequences. -/
def lengths (A B : List α) : Set ℕ := {n | ∃ common : List α, common.Sublist A ∧ common.Sublist B ∧ common.length = n}

theorem Chain.mono {M' : ℕ → ℕ → Prop} (chain : Chain M n x y) (more : ∀ x y, M x y → M' x y) : Chain M' n x y := by
  induction chain with
  | nil => exact .nil
  | next _ down right here ih => exact .next ih down right (more _ _ here)

theorem chain_of_common (sub : common.Sublist A) (sub' : common.Sublist B) : ∃ x y, Chain (Match A B) common.length x y := by
  obtain ⟨f, first⟩ := List.sublist_iff_exists_orderEmbedding_getElem?_eq.mp sub
  obtain ⟨g, second⟩ := List.sublist_iff_exists_orderEmbedding_getElem?_eq.mp sub'
  suffices upto : ∀ n ≤ common.length, ∃ x y, Chain (Match A B) n x y ∧ x ≤ f n ∧ y ≤ g n by
    obtain ⟨x, y, chain, _⟩ := upto common.length le_rfl
    exact ⟨x, y, chain⟩
  intro n few
  induction n with
  | zero => exact ⟨0, 0, .nil, Nat.zero_le _, Nat.zero_le _⟩
  | succ n ih =>
    obtain ⟨x, y, chain, left, left'⟩ := ih (by omega)
    have line : common[n]? = some common[n] := List.getElem?_eq_getElem (by omega)
    have inside : f n < A.length := (List.getElem?_eq_some_iff.mp ((first n).symm.trans line)).1
    have inside' : g n < B.length := (List.getElem?_eq_some_iff.mp ((second n).symm.trans line)).1
    have down : f n < f (n + 1) := f.strictMono n.lt_succ_self
    have right : g n < g (n + 1) := g.strictMono n.lt_succ_self
    refine ⟨f n + 1, g n + 1, chain.next (by omega) (by omega) ⟨by omega, inside, by omega, inside', ?_⟩, down, right⟩
    exact (first n).symm.trans (second n)

theorem sublist_upto (sub : common.Sublist (A.take x)) {x' : ℕ} (down : x < x') {a : α} (line : A[x' - 1]? = some a) :
    (common ++ [a]).Sublist (A.take x') := by
  obtain ⟨inside, rfl⟩ := List.getElem?_eq_some_iff.mp line
  have last := List.take_succ_eq_append_getElem inside
  rw [Nat.sub_add_cancel (by omega)] at last
  rw [last]
  have few : (A.take x).Sublist (A.take (x' - 1)) := List.take_sublist_take_left (by omega)
  exact (sub.trans few).append (List.Sublist.refl _)

theorem common_of_chain (chain : Chain (Match A B) n x y) :
    ∃ common : List α, common.Sublist (A.take x) ∧ common.Sublist (B.take y) ∧ common.length = n := by
  induction chain with
  | nil => exact ⟨[], List.nil_sublist _, List.nil_sublist _, rfl⟩
  | next _ down right here ih =>
    obtain ⟨common, sub, sub', rfl⟩ := ih
    obtain ⟨low, high, _, _, same⟩ := here
    obtain ⟨a, line⟩ : ∃ a, A[_ - 1]? = some a := ⟨_, List.getElem?_eq_getElem (Nat.sub_one_lt_of_le low high)⟩
    refine ⟨common ++ [a], sublist_upto sub down line, sublist_upto sub' right (same.symm.trans line), ?_⟩
    rw [List.length_append, List.length_singleton]

theorem lengths_chain (chain : Chain (Match A B) n x y) : n ∈ lengths A B := by
  obtain ⟨common, sub, sub', length⟩ := common_of_chain chain
  exact ⟨common, sub.trans (List.take_sublist ..), sub'.trans (List.take_sublist ..), length⟩

theorem tail_common {a : α} (sub : common.Sublist (a :: A)) : common.tail.Sublist A := by
  cases sub with
  | cons _ sub => exact (List.tail_sublist _).trans sub
  | cons_cons _ sub => exact sub

/-- What is the same in front loses nothing. -/
theorem trim_front (sub : common.Sublist (P ++ A)) (sub' : common.Sublist (P ++ B)) :
    ∃ rest : List α, rest.Sublist common ∧ rest.Sublist A ∧ rest.Sublist B ∧ common.length ≤ P.length + rest.length := by
  induction P generalizing common with
  | nil => exact ⟨common, List.Sublist.refl _, sub, sub', by rw [List.length_nil, Nat.zero_add]⟩
  | cons p P ih =>
    obtain ⟨rest, within, left, right, length⟩ := ih (tail_common sub) (tail_common sub')
    refine ⟨rest, within.trans (List.tail_sublist _), left, right, ?_⟩
    rw [List.length_tail] at length
    rw [List.length_cons]
    omega

/-- Nor does what is the same behind. -/
theorem trim_back (sub : common.Sublist (A ++ S)) (sub' : common.Sublist (B ++ S)) :
    ∃ rest : List α, rest.Sublist A ∧ rest.Sublist B ∧ common.length ≤ rest.length + S.length := by
  have back := sub.reverse
  have back' := sub'.reverse
  rw [List.reverse_append] at back back'
  obtain ⟨rest, -, left, right, length⟩ := trim_front back back'
  rw [List.length_reverse, List.length_reverse] at length
  refine ⟨rest.reverse, List.reverse_reverse A ▸ left.reverse, List.reverse_reverse B ▸ right.reverse, ?_⟩
  rw [List.length_reverse]
  omega

/-- Between common ends, no chain of matches is longer than `n`. -/
theorem lengths_le (same : A' = P ++ A ++ S) (same' : B' = P ++ B ++ S)
    (most : ∀ l x y, Chain (Match A B) l x y → l ≤ n) {l : ℕ} (is : l ∈ lengths A' B') : l ≤ P.length + n + S.length := by
  obtain ⟨common, sub, sub', rfl⟩ := is
  rw [same, List.append_assoc] at sub
  rw [same', List.append_assoc] at sub'
  obtain ⟨inner, -, left, right, length⟩ := trim_front sub sub'
  obtain ⟨rest, left, right, length'⟩ := trim_back left right
  obtain ⟨x, y, chain⟩ := chain_of_common left right
  have := most _ _ _ chain
  omega

end Subsequence
