import Mathlib

/-! How the groups of `List.splitBy` change when an element comes last. -/

namespace Groups

variable {α : Type*} {near : α → α → Bool} {closed : List (List α)} {latest es : List α} {x : α}

theorem apart_append {R : α → α → Bool} {next next' : List α} (same : ∀ a, (∃ ha hb, R (List.getLast a ha) (next.head hb) = false) →
      ∃ ha hb, R (List.getLast a ha) (next'.head hb) = false)
    (apart : (closed ++ [next]).IsChain fun a b => ∃ ha hb, R (a.getLast ha) (b.head hb) = false) :
    (closed ++ [next']).IsChain fun a b => ∃ ha hb, R (a.getLast ha) (b.head hb) = false := by
  rw [List.isChain_append] at apart ⊢
  refine ⟨apart.1, List.isChain_singleton _, fun a last b first => ?_⟩
  obtain rfl : next' = b := by simpa using first
  exact same a (apart.2.2 a last next (by simp))

/-- The groups, the one that the next element may join at the end. -/
theorem splitBy_near (split : es.splitBy near = closed ++ [latest]) (joins : ∀ p ∈ latest.getLast?, near p x = true) :
    (es ++ [x]).splitBy near = closed ++ [latest ++ [x]] := by
  have some_ : [] ∉ closed ++ [latest] := split ▸ List.nil_notMem_splitBy near es
  have filled : latest ≠ [] := fun none_ => some_ (by simp [none_])
  have chains : ∀ g ∈ closed ++ [latest], g.IsChain fun a b => near a b = true := fun g member =>
    List.isChain_of_mem_splitBy (split ▸ member)
  have flat : es ++ [x] = (closed ++ [latest ++ [x]]).flatten := by
    rw [← List.flatten_splitBy near es, split]
    simp
  rw [flat]
  refine List.splitBy_flatten ?_ (fun g member => ?_) ?_
  · simp only [List.mem_append, List.mem_singleton, not_or] at some_ ⊢
    exact ⟨some_.1, by simp⟩
  · rcases List.mem_append.mp member with old | new
    · exact chains g (List.mem_append_left _ old)
    · obtain rfl : g = latest ++ [x] := by simpa using new
      exact (chains latest (by simp)).append (List.isChain_singleton x) fun p last q first => by
        obtain rfl : x = q := by simpa using first
        exact joins p last
  · refine apart_append ?_ (split ▸ List.isChain_getLast_head_splitBy near es)
    rintro a ⟨ha, hb, far⟩
    exact ⟨ha, by simp, by rwa [List.head_append_of_ne_nil filled]⟩

theorem splitBy_far (split : es.splitBy near = closed ++ [latest]) (parts : ∀ p ∈ latest.getLast?, near p x = false) :
    (es ++ [x]).splitBy near = closed ++ [latest] ++ [[x]] := by
  have some_ : [] ∉ closed ++ [latest] := split ▸ List.nil_notMem_splitBy near es
  have filled : latest ≠ [] := fun none_ => some_ (by simp [none_])
  have flat : es ++ [x] = (closed ++ [latest] ++ [[x]]).flatten := by
    rw [← List.flatten_splitBy near es, split]
    simp
  rw [flat]
  refine List.splitBy_flatten (by simpa using some_) (fun g member => ?_) ?_
  · rcases List.mem_append.mp member with old | new
    · exact List.isChain_of_mem_splitBy (split ▸ old)
    · obtain rfl : g = [x] := by simpa using new
      exact List.isChain_singleton x
  · rw [List.isChain_append]
    refine ⟨split ▸ List.isChain_getLast_head_splitBy near es, List.isChain_singleton _, fun a last b first => ?_⟩
    obtain rfl : latest = a := by simpa using last
    obtain rfl : [x] = b := by simpa using first
    exact ⟨filled, by simp, parts _ (List.getLast?_eq_some_getLast filled)⟩

end Groups
