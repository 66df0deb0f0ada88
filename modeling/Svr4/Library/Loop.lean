import Mathlib

/-! Loops that are given a number of turns: what they end with once they have enough. -/

namespace Loop

variable {α β : Type*} {f g : Nat → Option α} {r r' : α}

/-- The loop ends with this, whatever the number of turns beyond what it needs. -/
def Ends (f : Nat → Option α) (r : α) : Prop := ∃ enough, ∀ time, enough ≤ time → f time = some r

theorem Ends.unique (first : Ends f r) (second : Ends f r') : r = r' := by
  obtain ⟨enough, ends⟩ := first
  obtain ⟨enough', ends'⟩ := second
  have same := (ends (max enough enough') (le_max_left ..)).symm.trans (ends' (max enough enough') (le_max_right ..))
  exact Option.some.inj same

theorem Ends.const (given : ∀ time, f time = some r) : Ends f r := ⟨0, fun time _ => given time⟩

/-- A result that more turns do not change. -/
theorem Ends.of_more {time : Nat} (more : ∀ time, f time = some r → f (time + 1) = some r) (done : f time = some r) : Ends f r := by
  refine ⟨time, fun later after => ?_⟩
  induction later, after using Nat.le_induction with
  | base => exact done
  | succ later _ ih => exact more later ih

/-- A turn that ends the loop. -/
theorem Ends.stop (given : ∀ time, f (time + 1) = some r) : Ends f r := by
  refine ⟨1, fun time later => ?_⟩
  obtain ⟨before, rfl⟩ := Nat.exists_eq_add_of_le' later
  exact given before

/-- A turn after which the loop goes on. -/
theorem Ends.turn (rest : Ends g r) (step : ∀ time, f (time + 1) = g time) : Ends f r := by
  obtain ⟨enough, ends⟩ := rest
  refine ⟨enough + 1, fun time later => ?_⟩
  obtain ⟨before, rfl⟩ := Nat.exists_eq_add_of_le' (show 1 ≤ time by omega)
  rw [step]
  exact ends before (by omega)

/-- A turn with a loop inside it. -/
theorem Ends.within {f : Nat → Option β} {g : Nat → Option α} {r : α} {r' : β} (rest : Nat → α → Option β) (inner : Ends g r)
    (outer : Ends (fun time => rest time r) r') (step : ∀ time, f (time + 1) = (g time).bind (rest time)) : Ends f r' := by
  obtain ⟨enough, ends⟩ := inner
  obtain ⟨enough', ends'⟩ := outer
  refine ⟨max enough enough' + 1, fun time later => ?_⟩
  obtain ⟨before, rfl⟩ := Nat.exists_eq_add_of_le' (show 1 ≤ time by omega)
  rw [step, ends before (by omega)]
  exact ends' before (by omega)

end Loop
