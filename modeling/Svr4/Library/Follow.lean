import Mathlib

/-! Following a partial function from element to element: where it leads, when it
runs in a circle, and a search along it. -/

namespace Svr4.Follow
open Function
variable {α : Type*}

def Leads (f : α → Option α) : α → α → Prop := Relation.ReflTransGen (fun a b => f a = some b)

/-- No step is on a way back to its start. -/
def Acyclic (f : α → Option α) : Prop := ∀ a b, f a = some b → ¬ Leads f b a

/-- Looks for the goal, in at most that many elements. -/
@[grind =] def search [DecidableEq α] (f : α → Option α) (goal : α) : Nat → α → Option Bool
  | 0, _ => none
  | time + 1, a =>
    if a = goal then some true
    else
      match f a with
      | none => some false
      | some b => search f goal time b

section search
variable [DecidableEq α] {f : α → Option α} {goal a b : α} {time : Nat}

theorem search_leads (found : search f goal time a = some true) : Leads f a goal := by
  induction time generalizing a with
  | zero => cases found
  | succ time ih =>
    rw [search] at found
    split at found
    · next here => exact here ▸ .refl
    · split at found
      · cases found
      · next b step => exact .head step (ih found)

/-- A search that ends without the goal has been everywhere. -/
theorem search_misses (missed : search f goal time a = some false) : ¬ Leads f a goal := by
  induction time generalizing a with
  | zero => cases missed
  | succ time ih =>
    rw [search] at missed
    split at missed
    · cases missed
    · next elsewhere =>
      intro leads
      rcases leads.cases_head with here | ⟨b, step, rest⟩
      · exact elsewhere here
      · rw [step] at missed
        exact ih missed rest

theorem search_mono {time' : Nat} {r : Bool} (more : time ≤ time') (ended : search f goal time a = some r) :
    search f goal time' a = some r := by
  induction time generalizing time' a with
  | zero => cases ended
  | succ time ih =>
    obtain ⟨time', rfl⟩ := Nat.exists_eq_add_one_of_ne_zero (show time' ≠ 0 by omega)
    rw [search] at ended ⊢
    split at ended
    · next here => rwa [if_pos here]
    · next elsewhere =>
      rw [if_neg elsewhere]
      cases step : f a with
      | none => rwa [step] at ended
      | some b =>
        rw [step] at ended
        exact ih (by omega) ended

/-- Without circles a search passes each element once. -/
theorem Acyclic.search_ends (acyclic : Acyclic f) {l : List α} (inside : ∀ a b, f a = some b → a ∈ l) (goal a : α)
    (enough : l.length < time) : ∃ r, search f goal time a = some r := by
  classical
  let ahead (a : α) : Finset α := l.toFinset.filter (Leads f a)
  have passes : ∀ n a, (ahead a).card ≤ n → ∃ r, search f goal (n + 1) a = some r := by
    intro n
    induction n with
    | zero =>
      intro a none_
      rw [search]
      split
      · exact ⟨true, rfl⟩
      · cases step : f a with
        | none => exact ⟨false, rfl⟩
        | some b =>
          have here : a ∈ ahead a := Finset.mem_filter.mpr ⟨List.mem_toFinset.mpr (inside a b step), .refl⟩
          have := Finset.card_pos.mpr ⟨a, here⟩
          omega
    | succ n ih =>
      intro a bound
      rw [search]
      split
      · exact ⟨true, rfl⟩
      · cases step : f a with
        | none => exact ⟨false, rfl⟩
        | some b =>
          -- What lies ahead of `b` lies ahead of `a`, which itself is no longer ahead.
          have fewer : ahead b ⊂ ahead a := by
            refine Finset.ssubset_iff_of_subset (fun c member => ?_) |>.mpr ⟨a, ?_, ?_⟩
            · obtain ⟨known, leads⟩ := Finset.mem_filter.mp member
              exact Finset.mem_filter.mpr ⟨known, .head step leads⟩
            · exact Finset.mem_filter.mpr ⟨List.mem_toFinset.mpr (inside a b step), .refl⟩
            · exact fun member => acyclic a b step (Finset.mem_filter.mp member).2
          have := Finset.card_lt_card fewer
          exact ih b (by omega)
  have most : (ahead a).card ≤ l.length := (Finset.card_filter_le _ _).trans (List.toFinset_card_le l)
  obtain ⟨r, ended⟩ := passes _ a most
  exact ⟨r, search_mono enough ended⟩

/-- A search that enters a circle without the goal never ends. -/
theorem search_circles (step : f a = some b) (back : Leads f b a) (apart : ¬ Leads f a goal) (time : Nat) :
    search f goal time a = none := by
  have runs : ∀ time c, Leads f c a → ¬ Leads f c goal → search f goal time c = none := by
    intro time
    induction time with
    | zero => exact fun _ _ _ => rfl
    | succ time ih =>
      intro c leads away
      have elsewhere : c ≠ goal := by
        rintro rfl
        exact away .refl
      rw [search, if_neg elsewhere]
      rcases leads.cases_head with rfl | ⟨d, next, rest⟩
      · rw [step]
        exact ih b back (fun found => away (.head step found))
      · rw [next]
        exact ih d rest (fun found => away (.head next found))
  exact runs time a .refl apart

/-- A search for an element with no way out never ends when it starts on a circle. -/
theorem search_never (step : f a = some b) (back : Leads f b a) (stuck : f goal = none) (time : Nat) :
    search f goal time a = none := by
  refine search_circles step back (fun leads => ?_) time
  have returns : ∀ c, Leads f a c → Leads f c a := by
    intro c leads
    induction leads with
    | refl => exact .refl
    | @tail c d _ next ih =>
      rcases ih.cases_head with rfl | ⟨e, next', rest⟩
      · rw [step] at next
        cases next
        exact back
      · rw [next'] at next
        cases next
        exact rest
  rcases (returns goal leads).cases_head with rfl | ⟨c, next, _⟩
  · rw [stuck] at step
    cases step
  · rw [stuck] at next
    cases next

end search

section update
variable [DecidableEq α] {f : α → Option α} {o a b c : α}

private theorem leads_update (v : Option α) (leads : Leads f a o) : Leads (update f o v) a o := by
  induction leads using Relation.ReflTransGen.head_induction_on with
  | refl => exact .refl
  | @head a c step _ ih =>
    by_cases here : a = o
    · exact here ▸ .refl
    · exact .head (by rwa [update_of_ne here]) ih

/-- Where an element leads by itself does not matter on the way to it. -/
theorem leads_update_iff (v : Option α) : Leads (update f o v) a o ↔ Leads f a o := by
  refine ⟨fun leads => ?_, leads_update v⟩
  have back := leads_update (f o) leads
  rwa [update_idem, update_eq_self] at back

private theorem leads_avoiding (v : Option α) (leads : Leads (update f o v) c a) :
    Leads f c a ∨ (Leads (update f o v) c o ∧ Leads (update f o v) o a) := by
  induction leads using Relation.ReflTransGen.head_induction_on with
  | refl => exact .inl .refl
  | @head c d step rest ih =>
    by_cases here : c = o
    · subst here
      exact .inr ⟨.refl, .head step rest⟩
    · have same : f c = some d := by rwa [update_of_ne here] at step
      rcases ih with direct | ⟨first, second⟩
      · exact .inl (.head same direct)
      · exact .inr ⟨.head step first, second⟩

theorem Acyclic.update_none (acyclic : Acyclic f) : Acyclic (update f o none) := by
  intro a b step back
  have other : a ≠ o := by
    rintro rfl
    rw [update_self] at step
    cases step
  have same : f a = some b := by rwa [update_of_ne other] at step
  rcases leads_avoiding none back with direct | ⟨_, second⟩
  · exact acyclic a b same direct
  · rcases second.cases_head with here | ⟨c, stuck, _⟩
    · exact other here.symm
    · rw [update_self] at stuck
      cases stuck

/-- A new step closes a circle if and only if there was a way back already. -/
theorem Acyclic.update_some_iff (acyclic : Acyclic f) : Acyclic (update f o (some b)) ↔ ¬ Leads f b o := by
  constructor
  · intro still leads
    exact still o b (update_self ..) ((leads_update_iff _).mpr leads)
  · intro away a c step back
    by_cases here : a = o
    · subst here
      rw [update_self] at step
      cases step
      exact away ((leads_update_iff _).mp back)
    · have same : f a = some c := by rwa [update_of_ne here] at step
      rcases leads_avoiding (some b) back with direct | ⟨first, second⟩
      · exact acyclic a c same direct
      · rcases second.cases_head with back' | ⟨d, next, rest⟩
        · exact here back'.symm
        · rw [update_self] at next
          cases next
          exact away ((leads_update_iff _).mp (rest.trans (.head step first)))

end update

end Svr4.Follow
