import Mathlib

/-! Lists in the order of a rank, the highest first. A list in order is its ranks one behind the other, so it is a queue
of its own for each of them. -/

namespace Svr4.Library.Ranked

variable {α R : Type*} [LinearOrder R] {rank : α → R} {p : α → Bool} {l before after : List α} {x b : α} {r : R}

def InOrder (rank : α → R) (l : List α) : Prop := l.Pairwise fun a b => rank b ≤ rank a

/-- The elements of a rank. -/
def lane (rank : α → R) (r : R) (l : List α) : List α := l.filter fun a => rank a = r

/-- Behind all that are not lower. -/
def behind (rank : α → R) (x : α) (l : List α) : List α :=
  l.takeWhile (fun a => rank x ≤ rank a) ++ x :: l.dropWhile fun a => rank x ≤ rank a

/-- In front of all that are not higher. -/
def infront (rank : α → R) (x : α) (l : List α) : List α :=
  l.takeWhile (fun a => rank x < rank a) ++ x :: l.dropWhile fun a => rank x < rank a

theorem behind_perm (rank : α → R) (x : α) (l : List α) : (behind rank x l).Perm (x :: l) := by
  rw [behind]
  refine List.perm_middle.trans ?_
  rw [List.takeWhile_append_dropWhile]

theorem infront_perm (rank : α → R) (x : α) (l : List α) : (infront rank x l).Perm (x :: l) := by
  rw [infront]
  refine List.perm_middle.trans ?_
  rw [List.takeWhile_append_dropWhile]

/-- What only the higher ones have, no one has behind the first that has it not. -/
theorem dropWhile_lacks (higher : ∀ a b, rank b ≤ rank a → p b → p a) (sorted : InOrder rank l) : ∀ b ∈ l.dropWhile p, ¬p b := by
  induction l with
  | nil => simp
  | cons a l ih =>
    obtain ⟨first, rest⟩ := List.pairwise_cons.mp sorted
    rw [List.dropWhile_cons]
    split
    · exact ih rest
    · next lacks =>
      intro b member
      rcases List.mem_cons.mp member with rfl | later
      · exact lacks
      · exact fun has => lacks (higher a b (first b later) has)

theorem behind_parts (sorted : InOrder rank l) (x : α) : ∃ before after, l = before ++ after ∧ behind rank x l = before ++ x :: after ∧
    (∀ a ∈ before, rank x ≤ rank a) ∧ ∀ b ∈ after, rank b < rank x := by
  refine ⟨_, _, (List.takeWhile_append_dropWhile ..).symm, rfl, fun a member => ?_, fun b member => ?_⟩
  · simpa using List.mem_takeWhile_imp member
  · have lacks := dropWhile_lacks (fun a b le has => decide_eq_true ((of_decide_eq_true has).trans le)) sorted b member
    exact not_le.mp (by simpa using lacks)

theorem behind_last (first : ∀ a ∈ l, rank x ≤ rank a) : behind rank x l = l ++ [x] := by
  rw [behind, List.takeWhile_eq_self_iff.mpr fun a member => decide_eq_true (first a member),
    List.dropWhile_eq_nil_iff.mpr fun a member => decide_eq_true (first a member)]

theorem infront_parts (sorted : InOrder rank l) (x : α) : ∃ before after, l = before ++ after ∧ infront rank x l = before ++ x :: after ∧
    (∀ a ∈ before, rank x < rank a) ∧ ∀ b ∈ after, rank b ≤ rank x := by
  refine ⟨_, _, (List.takeWhile_append_dropWhile ..).symm, rfl, fun a member => ?_, fun b member => ?_⟩
  · simpa using List.mem_takeWhile_imp member
  · have lacks := dropWhile_lacks (fun a b le has => decide_eq_true ((of_decide_eq_true has).trans_le le)) sorted b member
    exact not_lt.mp (by simpa using lacks)

theorem inOrder_middle (sorted : InOrder rank (before ++ after)) (first : ∀ a ∈ before, rank x ≤ rank a) (last : ∀ b ∈ after, rank b ≤ rank x) :
    InOrder rank (before ++ x :: after) := by
  obtain ⟨left, right, across⟩ := List.pairwise_append.mp sorted
  refine List.pairwise_append.mpr ⟨left, List.pairwise_cons.mpr ⟨last, right⟩, fun a here b there => ?_⟩
  rcases List.mem_cons.mp there with rfl | later
  · exact first a here
  · exact across a here b later

theorem lane_empty (none_ : ∀ a ∈ l, rank a ≠ r) : lane rank r l = [] := by
  rw [lane, List.filter_eq_nil_iff]
  exact fun a member => by simpa using none_ a member

theorem lane_append (r : R) : lane rank r (before ++ after) = lane rank r before ++ lane rank r after := List.filter_append ..

theorem lane_middle (x : α) (r : R) : lane rank r (before ++ x :: after) =
    if rank x = r then lane rank r before ++ x :: lane rank r after else lane rank r (before ++ after) := by
  split_ifs with same <;> simp [lane, same]

theorem lane_erase [DecidableEq α] (once : l.Nodup) (x : α) (r : R) :
    lane rank r (l.erase x) = if rank x = r then (lane rank r l).erase x else lane rank r l := by
  rw [lane, lane, once.erase_eq_filter, (once.filter _).erase_eq_filter, List.filter_filter, List.filter_filter]
  split_ifs with same
  · exact List.filter_congr fun b _ => Bool.and_comm ..
  · refine List.filter_congr fun b _ => ?_
    by_cases here : b = x <;> simp [here, same]

/-- The elements of a rank stand together. -/
theorem lane_parts (sorted : InOrder rank l) (r : R) : ∃ front tail, l = front ++ (lane rank r l ++ tail) ∧ (∀ a ∈ front, rank a ≠ r) ∧
    ∀ b ∈ tail, rank b ≠ r := by
  induction l with
  | nil => exact ⟨[], [], rfl, nofun, nofun⟩
  | cons a l ih =>
    obtain ⟨first, rest⟩ := List.pairwise_cons.mp sorted
    obtain ⟨front, tail, parts, before_, behind_⟩ := ih rest
    by_cases same : rank a = r
    · rw [show lane rank r (a :: l) = a :: lane rank r l by simp [lane, same]]
      rcases List.eq_nil_or_concat' (lane rank r l) with empty | ⟨_, x, shape⟩
      · refine ⟨[], l, by rw [empty]; rfl, nofun, fun b member is => ?_⟩
        have inside : b ∈ lane rank r l := List.mem_filter.mpr ⟨member, decide_eq_true is⟩
        rw [empty] at inside
        exact List.not_mem_nil inside
      · -- one of the rank comes after whatever stands in front
        have inside : x ∈ lane rank r l := by simp [shape]
        have none_ : front = [] := by
          refine List.eq_nil_iff_forall_not_mem.mpr fun f early => before_ f early (le_antisymm ?_ ?_)
          · exact same ▸ first f (parts ▸ List.mem_append_left _ early)
          · have order := (List.pairwise_append.mp (parts ▸ rest)).2.2 f early x (List.mem_append_left _ inside)
            exact (of_decide_eq_true (List.mem_filter.mp inside).2 : rank x = r) ▸ order
        rw [none_] at parts
        exact ⟨[], tail, congrArg (List.cons a) parts, nofun, behind_⟩
    · rw [show lane rank r (a :: l) = lane rank r l by simp [lane, same]]
      refine ⟨a :: front, tail, congrArg (List.cons a) parts, fun b member => ?_, behind_⟩
      rcases List.mem_cons.mp member with rfl | early
      · exact same
      · exact before_ b early

/-- Who comes behind the others is the last of its rank. -/
theorem lane_behind (sorted : InOrder rank l) (x : α) (r : R) :
    lane rank r (behind rank x l) = if rank x = r then lane rank r l ++ [x] else lane rank r l := by
  obtain ⟨before, after, rfl, placed, -, lower⟩ := behind_parts sorted x
  rw [placed, lane_middle]
  split_ifs with same
  · rw [lane_append, lane_empty (l := after) fun b member is => (lower b member).ne (is.trans same.symm), List.append_nil]
  · rfl

/-- Who comes in front of the others is the first of its rank. -/
theorem lane_infront (sorted : InOrder rank l) (x : α) (r : R) :
    lane rank r (infront rank x l) = if rank x = r then x :: lane rank r l else lane rank r l := by
  obtain ⟨before, after, rfl, placed, higher, -⟩ := infront_parts sorted x
  rw [placed, lane_middle]
  split_ifs with same
  · rw [lane_append, lane_empty (l := before) fun a member is => (higher a member).ne' (is.trans same.symm), List.nil_append, List.nil_append]
  · rfl

/-- The first one is the first of the highest rank that there is. -/
theorem head_lane (sorted : InOrder rank (x :: l)) :
    (∀ b ∈ x :: l, rank b ≤ rank x) ∧ (lane rank (rank x) (x :: l)).head? = some x ∧
      ∀ r, lane rank r l = if rank x = r then (lane rank r (x :: l)).tail else lane rank r (x :: l) := by
  refine ⟨fun b member => ?_, ?_, fun r => ?_⟩
  · rcases List.mem_cons.mp member with rfl | later
    · exact le_rfl
    · exact (List.pairwise_cons.mp sorted).1 b later
  · simp [lane]
  · split_ifs with same <;> simp [lane, same]

end Svr4.Library.Ranked
