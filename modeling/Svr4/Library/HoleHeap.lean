import Mathlib

/-! Binary min-heaps in an array, reordered by moving a hole. The element that
will fill the hole is held outside the array, so the array is a heap everywhere
but at the hole, and its contents are those of the array with the hole filled. -/

namespace Svr4.HoleHeap
open Function
variable {α κ : Type*} [LinearOrder κ] (key : α → κ)

def parent (i : Nat) : Nat := (i - 1) / 2

/-- The first `n` slots form a min-heap. -/
def IsHeap (f : Nat → α) (n : Nat) : Prop :=
  ∀ i, 0 < i → i < n → key (f (parent i)) ≤ key (f i)

/-- The elements in the first `n` slots. -/
def contents (f : Nat → α) (n : Nat) : Multiset α := (Multiset.range n).map f

/-- A heap except at slot `j`: every edge away from the hole is in order, and so
is the hole's parent with each of the hole's children. -/
structure Hole (f : Nat → α) (n j : Nat) : Prop where
  inside : j < n
  edges : ∀ i, 0 < i → i < n → i ≠ j → parent i ≠ j → key (f (parent i)) ≤ key (f i)
  around : ∀ i, 0 < i → i < n → parent i = j → 0 < j → key (f (parent j)) ≤ key (f i)

/-- A key that may stand above the hole's children. -/
def Above (f : Nat → α) (n j : Nat) (t : κ) : Prop := ∀ i, 0 < i → i < n → parent i = j → t ≤ key (f i)

/-- A key that may stand below the hole's parent. -/
def Below (f : Nat → α) (j : Nat) (t : κ) : Prop := 0 < j → key (f (parent j)) ≤ t

theorem parent_lt {i : Nat} (positive : 0 < i) : parent i < i := by
  simp only [parent]
  omega

theorem parent_eq_iff {i j : Nat} (positive : 0 < i) : parent i = j ↔ i = 2 * j + 1 ∨ i = 2 * j + 2 := by
  simp only [parent]
  omega

section contents
variable {f g : Nat → α} {n j k : Nat} {e : α}

theorem contents_succ (f : Nat → α) (n : Nat) : contents f (n + 1) = f n ::ₘ contents f n := by
  simp [contents, Multiset.range_succ]

theorem mem_contents {x : α} : x ∈ contents f n ↔ ∃ i < n, f i = x := by simp [contents]

@[simp] theorem card_contents (f : Nat → α) (n : Nat) : (contents f n).card = n := by simp [contents]

theorem contents_congr (same : ∀ i < n, f i = g i) : contents f n = contents g n :=
  Multiset.map_congr rfl (fun i member => same i (Multiset.mem_range.mp member))

theorem contents_beyond (f : Nat → α) (e : α) (outside : n ≤ j) : contents (update f j e) n = contents f n :=
  contents_congr (fun i inside => update_of_ne (by omega) _ _)

/-- Overwriting a slot trades one element. -/
theorem contents_update (f : Nat → α) (e : α) (inside : j < n) :
    f j ::ₘ contents (update f j e) n = e ::ₘ contents f n := by
  induction n with
  | zero => omega
  | succ n ih =>
    simp only [contents_succ]
    by_cases last : j = n
    · subst last
      rw [update_self, contents_beyond f e le_rfl, Multiset.cons_swap]
    · rw [update_of_ne (by omega), Multiset.cons_swap, ih (by omega), Multiset.cons_swap]

/-- Moving an element into the hole and filling the slot it left is the same as
filling the hole. -/
theorem contents_move (f : Nat → α) (e : α) (first : j < n) (second : k < n) (distinct : k ≠ j) :
    contents (update (update f j (f k)) k e) n = contents (update f j e) n := by
  have moved := contents_update (update f j (f k)) e second
  rw [update_of_ne distinct] at moved
  have opened := contents_update f (f k) first
  have filled := contents_update f e first
  have total : f k ::ₘ f j ::ₘ contents (update (update f j (f k)) k e) n =
      f k ::ₘ f j ::ₘ contents (update f j e) n := by
    rw [Multiset.cons_swap, moved, Multiset.cons_swap, opened, filled, Multiset.cons_swap]
  simpa using total

end contents

variable {key} {f : Nat → α} {n j k : Nat} {t : κ}

theorem IsHeap.mono {m : Nat} (heap : IsHeap key f n) (le : m ≤ n) : IsHeap key f m :=
  fun i positive inside => heap i positive (by omega)

/-- The root of a heap is least. -/
theorem IsHeap.root_le (heap : IsHeap key f n) {i : Nat} (inside : i < n) : key (f 0) ≤ key (f i) := by
  induction i using Nat.strongRecOn with
  | ind i ih =>
    rcases Nat.eq_zero_or_pos i with rfl | positive
    · exact le_rfl
    · have smaller := parent_lt positive
      exact (ih (parent i) smaller (by omega)).trans (heap i positive inside)

/-- Any slot of a heap may become the hole. -/
theorem IsHeap.hole (heap : IsHeap key f n) (inside : j < n) : Hole key f n j := by
  refine ⟨inside, fun i positive last _ _ => heap i positive last, ?_⟩
  intro i positive last child inner
  have step := heap i positive last
  rw [child] at step
  exact (heap j inner inside).trans step

/-- The slot after a heap is a hole without children. -/
theorem IsHeap.grow (heap : IsHeap key f n) : Hole key f (n + 1) n := by
  refine ⟨by omega, fun i positive inside other _ => heap i positive (by omega), ?_⟩
  intro i positive inside child _
  have := parent_lt positive
  omega

namespace Hole

/-- A hole filled with an element that suits both sides gives a heap. -/
theorem fill (hole : Hole key f n j) {e : α} (above : Above key f n j (key e)) (below : Below key f j (key e)) :
    IsHeap key (update f j e) n := by
  intro i positive inside
  by_cases here : i = j
  · subst here
    rw [update_self, update_of_ne (parent_lt positive).ne]
    exact below positive
  · rw [update_of_ne here]
    by_cases child : parent i = j
    · rw [child, update_self]
      exact above i positive inside child
    · rw [update_of_ne child]
      exact hole.edges i positive inside here child

/-- The parent moves down into the hole. -/
theorem up (hole : Hole key f n j) (inner : 0 < j) : Hole key (update f j (f (parent j))) n (parent j) := by
  have smaller := parent_lt inner
  have inside := hole.inside
  refine ⟨by omega, ?_, ?_⟩
  · intro i positive last other sibling
    have here : i ≠ j := by
      intro same
      subst same
      exact sibling rfl
    rw [update_of_ne here]
    by_cases child : parent i = j
    · rw [child, update_self]
      exact hole.around i positive last child inner
    · rw [update_of_ne child]
      exact hole.edges i positive last here child
  · intro i positive last sibling high
    have grand := parent_lt high
    have step : key (f (parent (parent j))) ≤ key (f (parent j)) :=
      hole.edges (parent j) high (by omega) (by omega) (by omega)
    rw [update_of_ne (by omega : parent (parent j) ≠ j)]
    by_cases here : i = j
    · subst here
      rw [update_self]
      exact step
    · rw [update_of_ne here]
      have edge := hole.edges i positive last here (by omega)
      rw [sibling] at edge
      exact step.trans edge

theorem up_above (hole : Hole key f n j) (inner : 0 < j) (larger : t ≤ key (f (parent j))) :
    Above key (update f j (f (parent j))) n (parent j) t := by
  have smaller := parent_lt inner
  intro i positive last sibling
  by_cases here : i = j
  · subst here
    rwa [update_self]
  · rw [update_of_ne here]
    have edge := hole.edges i positive last here (by omega)
    rw [sibling] at edge
    exact larger.trans edge

/-- The smaller child moves up into the hole. -/
theorem down (hole : Hole key f n j) (inner : 0 < k) (last : k < n) (child : parent k = j)
    (least : ∀ i, 0 < i → i < n → parent i = j → key (f k) ≤ key (f i)) :
    Hole key (update f j (f k)) n k := by
  have larger : j < k := child ▸ parent_lt inner
  refine ⟨last, ?_, ?_⟩
  · intro i positive inside other below
    by_cases here : i = j
    · subst here
      rw [update_self, update_of_ne (parent_lt positive).ne]
      exact hole.around k inner last child positive
    · rw [update_of_ne here]
      by_cases sibling : parent i = j
      · rw [sibling, update_self]
        exact least i positive inside sibling
      · rw [update_of_ne sibling]
        exact hole.edges i positive inside here sibling
  · intro i positive inside grandchild _
    have deep := parent_lt positive
    rw [child, update_self, update_of_ne (by omega : i ≠ j)]
    have edge := hole.edges i positive inside (by omega) (by omega)
    rwa [grandchild] at edge

theorem down_below (child : parent k = j) (smaller : key (f k) ≤ t) :
    Below key (update f j (f k)) k t := by
  intro _
  rw [child, update_self]
  exact smaller

end Hole

end Svr4.HoleHeap
