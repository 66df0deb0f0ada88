import Mathlib

/-! Subsets of a linear order kept as a list of half-open extents in ascending
order with a gap after each of them. -/

namespace Svr4.Extents
variable {α : Type*} [LinearOrder α]

/-- The points of a list of extents `(start, stop)`. -/
def cover (extents : List (α × α)) : Set α := {x | ∃ e ∈ extents, x ∈ Set.Ico e.1 e.2}

/-- Every extent is inhabited, and neighbours neither overlap nor touch. -/
structure Separated (extents : List (α × α)) : Prop where
  inhabited : ∀ e ∈ extents, e.1 < e.2
  apart : extents.Pairwise (fun e f => e.2 < f.1)

@[simp] theorem cover_nil : cover ([] : List (α × α)) = ∅ := by simp [cover]

@[simp] theorem cover_cons (e : α × α) (rest : List (α × α)) :
    cover (e :: rest) = Set.Ico e.1 e.2 ∪ cover rest := by
  ext x
  simp [cover]

@[simp] theorem cover_append (first second : List (α × α)) :
    cover (first ++ second) = cover first ∪ cover second := by
  ext x
  simp only [cover, List.mem_append, Set.mem_ofPred_eq, Set.mem_union, or_and_right, exists_or]

namespace Separated
variable {lower upper extents : List (α × α)} {e f : α × α}

theorem nil : Separated ([] : List (α × α)) := ⟨by simp, .nil⟩

theorem append_iff : Separated (lower ++ upper) ↔
    Separated lower ∧ Separated upper ∧ ∀ e ∈ lower, ∀ f ∈ upper, e.2 < f.1 := by
  constructor
  · intro valid
    obtain ⟨first, second, between⟩ := List.pairwise_append.mp valid.apart
    exact ⟨⟨fun e member => valid.inhabited e (by simp [member]), first⟩,
      ⟨fun e member => valid.inhabited e (by simp [member]), second⟩, between⟩
  · intro ⟨first, second, between⟩
    refine ⟨?_, List.pairwise_append.mpr ⟨first.apart, second.apart, between⟩⟩
    intro e member
    exact (List.mem_append.mp member).elim (first.inhabited e) (second.inhabited e)

theorem cons_iff : Separated (e :: upper) ↔ e.1 < e.2 ∧ Separated upper ∧ ∀ f ∈ upper, e.2 < f.1 := by
  constructor
  · intro valid
    obtain ⟨between, rest⟩ := List.pairwise_cons.mp valid.apart
    exact ⟨valid.inhabited e (by simp), ⟨fun f member => valid.inhabited f (by simp [member]), rest⟩, between⟩
  · intro ⟨first, rest, between⟩
    exact ⟨by simpa using ⟨first, fun a b member => rest.inhabited (a, b) member⟩,
      List.pairwise_cons.mpr ⟨between, rest.apart⟩⟩

/-- An extent in the middle is apart from everything around it. -/
theorem middle_iff : Separated (lower ++ e :: upper) ↔
    Separated lower ∧ e.1 < e.2 ∧ Separated upper ∧
      (∀ d ∈ lower, d.2 < e.1) ∧ (∀ f ∈ upper, e.2 < f.1) ∧ ∀ d ∈ lower, ∀ f ∈ upper, d.2 < f.1 := by
  simp only [append_iff, cons_iff, List.mem_cons, forall_eq_or_imp]
  constructor
  · intro ⟨below, ⟨here, above, high⟩, between⟩
    exact ⟨below, here, above, fun d member => (between d member).1, high, fun d member => (between d member).2⟩
  · intro ⟨below, here, above, low, high, between⟩
    exact ⟨below, ⟨here, above, high⟩, fun d member => ⟨low d member, between d member⟩⟩

theorem sublist (valid : Separated upper) (kept : lower.Sublist upper) : Separated lower :=
  ⟨fun e member => valid.inhabited e (kept.subset member), valid.apart.sublist kept⟩

/-- A new extent may stand between two others when it touches neither. -/
theorem insert (valid : Separated (lower ++ upper)) (inhabited : e.1 < e.2)
    (low : ∀ d ∈ lower, d.2 < e.1) (high : ∀ f ∈ upper, e.2 < f.1) : Separated (lower ++ e :: upper) := by
  obtain ⟨below, above, between⟩ := append_iff.mp valid
  exact middle_iff.mpr ⟨below, inhabited, above, low, high, between⟩

/-- Taking away an extent leaves the separation of the others. -/
theorem remove (valid : Separated (lower ++ e :: upper)) : Separated (lower ++ upper) :=
  valid.sublist (by simp)

/-- The points of one extent belong to no other. -/
theorem disjoint (valid : Separated (lower ++ e :: upper)) :
    Disjoint (Set.Ico e.1 e.2) (cover (lower ++ upper)) := by
  obtain ⟨_, _, _, low, high, _⟩ := middle_iff.mp valid
  rw [Set.disjoint_left]
  intro x inside ⟨d, member, other⟩
  rcases List.mem_append.mp member with member | member
  · exact absurd (inside.1.trans_lt other.2) (low d member).not_gt
  · exact absurd (other.1.trans_lt inside.2) (high d member).not_gt

/-- Cutting a prefix off one extent removes exactly that prefix from the cover. -/
theorem cover_cut (valid : Separated (lower ++ e :: upper)) (middle : α)
    (start : e.1 ≤ middle) (stop : middle ≤ e.2) :
    cover (lower ++ (middle, e.2) :: upper) = cover (lower ++ e :: upper) \ Set.Ico e.1 middle := by
  have apart := valid.disjoint
  rw [Set.disjoint_left] at apart
  have split : Set.Ico e.1 e.2 = Set.Ico e.1 middle ∪ Set.Ico middle e.2 :=
    (Set.Ico_union_Ico_eq_Ico start stop).symm
  ext x
  simp only [cover_append, cover_cons, Set.mem_union, Set.mem_sdiff] at apart ⊢
  constructor
  · rintro (low | here | high)
    · exact ⟨.inl low, fun cut => apart (split ▸ .inl cut) (.inl low)⟩
    · exact ⟨.inr (.inl (split ▸ .inr here)), fun cut => absurd cut.2 here.1.not_gt⟩
    · exact ⟨.inr (.inr high), fun cut => apart (split ▸ .inl cut) (.inr high)⟩
  · rintro ⟨low | here | high, kept⟩
    · exact .inl low
    · rw [split] at here
      exact .inr (.inl (here.resolve_left kept))
    · exact .inr (.inr high)

/-- Removing a whole extent removes exactly its points. -/
theorem cover_remove (valid : Separated (lower ++ e :: upper)) :
    cover (lower ++ upper) = cover (lower ++ e :: upper) \ Set.Ico e.1 e.2 := by
  have cut := valid.cover_cut e.2 (valid.inhabited e (by simp)).le le_rfl
  rw [← cut]
  simp

end Separated

/-- Points of a new extent are outside the cover exactly when it misses every extent. -/
theorem disjoint_cover_iff {extents : List (α × α)} {start stop : α} :
    Disjoint (Set.Ico start stop) (cover extents) ↔
      ∀ e ∈ extents, Disjoint (Set.Ico start stop) (Set.Ico e.1 e.2) := by
  simp only [Set.disjoint_left, cover, Set.mem_ofPred_eq, not_exists, not_and]
  constructor
  · exact fun apart e member x inside => apart inside e member
  · exact fun apart x inside e member => apart e member inside

end Svr4.Extents
