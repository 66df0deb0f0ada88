import Mathlib

/-! Stable priority queues: what waits is taken in the order of its time, and in the order
of arrival where times are equal. Entries are numbered by their arrival. -/

namespace Svr4.Agenda

variable {α T : Type*} [LinearOrder T] (due : α → T)

def Sooner (a b : α × Nat) : Prop := due a.1 < due b.1 ∨ due a.1 = due b.1 ∧ a.2 < b.2

/-- Those taken and those that wait are the ones that have arrived, in order. -/
structure Kept (arrived : List α) (taken waiting : List (α × Nat)) : Prop where
  perm : (taken ++ waiting).Perm arrived.zipIdx
  sorted : (taken ++ waiting).Pairwise (Sooner due)

variable {due} {arrived : List α} {taken before after waiting : List (α × Nat)} {e : α} {x : α × Nat}

theorem Kept.start : Kept due [] [] [] := ⟨List.Perm.nil, List.Pairwise.nil⟩

theorem Kept.number (kept : Kept due arrived taken waiting) (member : x ∈ taken ++ waiting) : x.2 < arrived.length :=
  List.snd_lt_of_mem_zipIdx (kept.perm.mem_iff.mp member)

theorem Sooner.le {a b : α × Nat} (sooner : Sooner due a b) : due a.1 ≤ due b.1 :=
  sooner.elim le_of_lt (fun same => same.1.le)

/-- What has been taken last is the latest of those taken. -/
theorem Kept.latest (kept : Kept due arrived taken waiting) (last : ∀ y ∈ taken.getLast?, due y.1 ≤ due e) (member : x ∈ taken) :
    due x.1 ≤ due e := by
  rcases List.eq_nil_or_concat taken with rfl | ⟨front, y, rfl⟩
  · cases member
  · rw [List.concat_eq_append] at *
    have bound := last y (by simp)
    rcases List.mem_append.mp member with inside | inside
    · have sorted := (List.pairwise_append.mp kept.sorted).1
      exact ((List.pairwise_append.mp sorted).2.2 x inside y (by simp)).le.trans bound
    · rw [List.mem_singleton.mp inside]
      exact bound

/-- A new entry goes behind those that are due no later. -/
theorem Kept.enter (kept : Kept due arrived taken (before ++ after)) (last : ∀ y ∈ taken.getLast?, due y.1 ≤ due e)
    (first : ∀ y ∈ before, due y.1 ≤ due e) (second : ∀ y ∈ after, due e < due y.1) :
    Kept due (arrived ++ [e]) taken (before ++ (e, arrived.length) :: after) := by
  refine ⟨?_, ?_⟩
  · have numbered : (arrived ++ [e]).zipIdx = arrived.zipIdx ++ [(e, arrived.length)] := by simp [List.zipIdx_append]
    rw [numbered, ← List.append_assoc]
    refine List.perm_middle.trans ?_
    rw [List.append_assoc]
    exact (kept.perm.cons _).trans (List.perm_append_singleton ..).symm
  · have sorted := kept.sorted
    have number : ∀ y ∈ taken ++ before, y.2 < arrived.length := by
      intro y member
      refine kept.number ?_
      rw [← List.append_assoc]
      exact List.mem_append_left _ member
    have early : ∀ y ∈ taken ++ before, Sooner due y (e, arrived.length) := by
      intro y member
      have le : due y.1 ≤ due e := by
        rcases List.mem_append.mp member with inside | inside
        · exact kept.latest last inside
        · exact first y inside
      exact le.lt_or_eq.imp id (fun same => ⟨same, number y member⟩)
    rw [← List.append_assoc] at sorted ⊢
    obtain ⟨sorted1, sorted2, across⟩ := List.pairwise_append.mp sorted
    refine List.pairwise_append.mpr ⟨sorted1, List.pairwise_cons.mpr ⟨fun y member => .inl (second y member), sorted2⟩, fun y member z member' => ?_⟩
    rcases List.mem_cons.mp member' with rfl | member'
    · exact early y member
    · exact across y member z member'

/-- The first entry that waits is taken. -/
theorem Kept.take (kept : Kept due arrived taken (x :: waiting)) : Kept due arrived (taken ++ [x]) waiting := by
  have lists : taken ++ [x] ++ waiting = taken ++ x :: waiting := by simp
  exact ⟨lists ▸ kept.perm, lists ▸ kept.sorted⟩

theorem Kept.length (kept : Kept due arrived taken waiting) : taken.length + waiting.length = arrived.length := by
  have lengths := kept.perm.length_eq
  rwa [List.length_append, List.length_zipIdx] at lengths

end Svr4.Agenda
