import Mathlib

/-! Steps that may end in a fault, one after the other. -/

namespace Svr4.Faults

universe u

variable {ε : Type*} {α β : Type u}

theorem ok_bind (a : α) (f : α → Except ε β) : (Except.ok a >>= f) = f a := rfl

theorem bind_ok {x : Except ε α} {f : α → Except ε β} {b : β} : (x >>= f) = .ok b ↔ ∃ a, x = .ok a ∧ f a = .ok b := by
  cases x with
  | error e => exact ⟨fun run => (by cases run), fun ⟨a, run, _⟩ => (by cases run)⟩
  | ok a =>
    constructor
    · exact fun run => ⟨a, rfl, run⟩
    · rintro ⟨a', same, run⟩
      cases same
      exact run

/-- The last step of a run. -/
theorem foldlM_snoc {γ : Type*} {step : α → γ → Except ε α} {before : List γ} {last : γ} {s t : α} :
    (before ++ [last]).foldlM step s = .ok t ↔ ∃ m, before.foldlM step s = .ok m ∧ step m last = .ok t := by
  rw [List.foldlM_append, bind_ok]
  simp only [List.foldlM_cons, List.foldlM_nil, bind_pure]

end Svr4.Faults
