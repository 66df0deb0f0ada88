import Mathlib

/-! Linked lists over a map of successors: a segment passes just the elements of a
list, and a chain is a segment that ends. -/

namespace Svr4.Chain
open Function
variable {α : Type*}

/-- From `p` the successors pass the elements of the list and arrive at `q`. -/
@[grind =] def Seg (next : α → Option α) : Option α → List α → Option α → Prop
  | p, [], q => p = q
  | p, a :: l, q => p = some a ∧ Seg next (next a) l q

@[grind =] def Linked (next : α → Option α) (p : Option α) (l : List α) : Prop := Seg next p l none

/-- Follows the successors to the first element that stops the walk, or to the end,
together with the element before. `none` is a walk that has not ended in time. -/
@[grind =] def walk (stop : α → Bool) (next : α → Option α) : Nat → Option α → Option α → Option (Option α × Option α)
  | _, prev, none => some (prev, none)
  | 0, _, some _ => none
  | time + 1, prev, some a => if stop a then some (prev, some a) else walk stop next time (some a) (next a)

/-- How many elements follow, when that many are within `time`. -/
@[grind =] def count (next : α → Option α) : Nat → Option α → Option Nat
  | _, none => some 0
  | 0, some _ => none
  | time + 1, some a => (count next time (next a)).map (· + 1)

variable {next next' : α → Option α} {p q : Option α} {l l' : List α} {a b : α}

theorem seg_nil : Seg next p [] q ↔ p = q := Iff.rfl

theorem seg_cons : Seg next p (a :: l) q ↔ p = some a ∧ Seg next (next a) l q := Iff.rfl

theorem seg_append : Seg next p (l ++ l') q ↔ ∃ m, Seg next p l m ∧ Seg next m l' q := by
  induction l generalizing p with
  | nil =>
    constructor
    · exact fun seg => ⟨p, rfl, seg⟩
    · rintro ⟨m, rfl, seg⟩
      exact seg
  | cons a l ih =>
    constructor
    · rintro ⟨start, rest⟩
      obtain ⟨m, first, second⟩ := ih.mp rest
      exact ⟨m, ⟨start, first⟩, second⟩
    · rintro ⟨m, ⟨start, first⟩, second⟩
      exact ⟨start, ih.mpr ⟨m, first, second⟩⟩

theorem Seg.congr (seg : Seg next p l q) (same : ∀ a ∈ l, next' a = next a) : Seg next' p l q := by
  induction l generalizing p with
  | nil => exact seg
  | cons a l ih =>
    refine ⟨seg.1, ?_⟩
    rw [same a (by simp)]
    exact ih seg.2 (fun b member => same b (by simp [member]))

/-- Two chains from one start are one chain. -/
theorem Linked.unique (first : Linked next p l) (second : Linked next p l') : l = l' := by
  induction l generalizing p l' with
  | nil =>
    cases l' with
    | nil => rfl
    | cons b l' =>
      have start := second.1
      rw [seg_nil.mp first] at start
      cases start
  | cons a l ih =>
    cases l' with
    | nil =>
      have start := first.1
      rw [seg_nil.mp second] at start
      cases start
    | cons b l' =>
      have same : a = b := Option.some.inj (first.1.symm.trans second.1)
      subst same
      rw [ih first.2 second.2]

/-- A chain passes no element twice. -/
theorem Linked.nodup (linked : Linked next p l) : l.Nodup := by
  induction l generalizing p with
  | nil => exact List.nodup_nil
  | cons a l ih =>
    refine List.nodup_cons.mpr ⟨fun again => ?_, ih linked.2⟩
    obtain ⟨before, after, rfl⟩ := List.append_of_mem again
    obtain ⟨m, _, rest⟩ := seg_append.mp linked.2
    have restart : Linked next (next a) after := rest.2
    have equal := Linked.unique linked.2 restart
    have lengths := congrArg List.length equal
    simp only [List.length_append, List.length_cons] at lengths
    omega

theorem Linked.empty (linked : Linked next none l) : l = [] := linked.unique (show Linked next none [] from rfl)

theorem linked_none : Linked next p [] ↔ p = none := Iff.rfl

theorem Linked.head (linked : Linked next p l) : p = l.head? := by
  cases l with
  | nil => exact linked
  | cons a l => exact linked.1

section update
variable [DecidableEq α]

/-- A change at an element outside the segment leaves it alone. -/
theorem Seg.update (seg : Seg next p l q) (v : Option α) (outside : a ∉ l) : Seg (update next a v) p l q := by
  apply seg.congr
  intro c member
  have other : c ≠ a := by
    rintro rfl
    exact outside member
  exact update_of_ne other _ _

theorem Linked.push_front (linked : Linked next p l) (outside : a ∉ l) : Linked (Function.update next a p) (some a) (a :: l) := by
  refine ⟨rfl, ?_⟩
  rw [update_self]
  exact Seg.update linked p outside

/-- The new element follows the last one. -/
theorem Linked.push_back (linked : Linked next p (l ++ [b])) (outside : a ∉ l ++ [b]) :
    Linked (Function.update (Function.update next a none) b (some a)) p (l ++ [b] ++ [a]) := by
  have once := linked.nodup
  obtain ⟨m, first, last⟩ := seg_append.mp linked
  simp only [List.mem_append, List.mem_singleton, not_or] at outside
  have fresh : b ∉ l := by
    rw [List.nodup_append] at once
    exact fun member => once.2.2 b member b (by simp) rfl
  refine seg_append.mpr ⟨some a, seg_append.mpr ⟨m, (first.update none outside.1).update (some a) fresh, last.1, ?_⟩, rfl, ?_⟩
  · rw [update_self]
    rfl
  · rw [update_of_ne outside.2, update_self]
    rfl

/-- The element before takes over the successor of the one unlinked. -/
theorem Linked.unlink (linked : Linked next p (l ++ b :: a :: l')) : Linked (Function.update next b (next a)) p (l ++ b :: l') := by
  have once := linked.nodup
  obtain ⟨m, first, second⟩ := seg_append.mp linked
  rw [List.nodup_append] at once
  have fresh : b ∉ l := fun member => once.2.2 b member b (by simp) rfl
  have later : b ∉ l' := fun member => (List.nodup_cons.mp once.2.1).1 (by simp [member])
  refine seg_append.mpr ⟨m, first.update (next a) fresh, second.1, ?_⟩
  rw [update_self]
  exact Seg.update second.2.2 (next a) later

end update

/-- What follows an element is the head of the rest. -/
theorem Linked.next_eq (linked : Linked next p (l ++ a :: l')) : next a = l'.head? := by
  obtain ⟨m, _, second⟩ := seg_append.mp linked
  exact Linked.head second.2

/-- A walk that has ended is not changed by more time. -/
theorem walk_mono {stop : α → Bool} {time time' : Nat} {prev : Option α} {r : Option α × Option α} (more : time ≤ time')
    (ended : walk stop next time prev p = some r) : walk stop next time' prev p = some r := by
  induction time generalizing time' prev p with
  | zero =>
    cases p with
    | none => cases time' <;> exact ended
    | some a => cases ended
  | succ time ih =>
    cases p with
    | none => cases time' <;> exact ended
    | some a =>
      obtain ⟨time', rfl⟩ := Nat.exists_eq_add_one_of_ne_zero (show time' ≠ 0 by omega)
      rw [walk] at ended ⊢
      split at ended
      · next stops => rwa [if_pos stops]
      · next passes =>
        rw [if_neg passes]
        exact ih (by omega) ended

/-- A walk passes a segment on which nothing stops it. -/
theorem walk_seg {stop : α → Bool} (time : Nat) (prev : Option α) (seg : Seg next p l q) (passes : ∀ a ∈ l, stop a = false) :
    walk stop next (time + l.length) prev p = walk stop next time (l.getLast?.or prev) q := by
  induction l generalizing p prev with
  | nil => simp [seg_nil.mp seg]
  | cons a l ih =>
    obtain ⟨rfl, rest⟩ := seg
    rw [List.length_cons, ← add_assoc, walk]
    simp only [passes a (by simp), Bool.false_eq_true, if_false]
    rw [ih (some a) rest (fun b member => passes b (by simp [member]))]
    cases l <;> simp [List.getLast?_cons]

theorem walk_found (stop : α → Bool) (time : Nat) (linked : Linked next p (l ++ a :: l')) (passes : ∀ b ∈ l, stop b = false)
    (stops : stop a = true) (enough : l.length < time) :
    walk stop next time none p = some (l.getLast?, some a) := by
  obtain ⟨m, first, second⟩ := seg_append.mp linked
  obtain ⟨time, rfl⟩ := Nat.exists_eq_add_of_lt enough
  rw [show l.length + time + 1 = time + 1 + l.length by omega, walk_seg _ none first passes, second.1, walk]
  simp [stops]

theorem walk_none (stop : α → Bool) (time : Nat) (linked : Linked next p l) (passes : ∀ b ∈ l, stop b = false)
    (enough : l.length ≤ time) : walk stop next time none p = some (l.getLast?, none) := by
  obtain ⟨time, rfl⟩ := Nat.exists_eq_add_of_le' enough
  rw [walk_seg _ none linked passes]
  cases time <;> simp [walk]

/-- A walk along a chain ends at the first element that stops it, or at the end. -/
theorem walk_cases (stop : α → Bool) (time : Nat) (linked : Linked next p l) (enough : l.length ≤ time) :
    (walk stop next time none p = some (l.getLast?, none) ∧ ∀ a ∈ l, stop a = false) ∨
      ∃ before a after, l = before ++ a :: after ∧ stop a = true ∧
        walk stop next time none p = some (before.getLast?, some a) := by
  cases first : l.find? stop with
  | none =>
    have passes : ∀ a ∈ l, stop a = false := by simpa using List.find?_eq_none.mp first
    exact .inl ⟨walk_none stop time linked passes enough, passes⟩
  | some a =>
    obtain ⟨stops, before, after, rfl, passes⟩ := List.find?_eq_some_iff_append.mp first
    rw [List.length_append, List.length_cons] at enough
    exact .inr ⟨before, a, after, rfl, stops, walk_found stop time linked (by simpa using passes) stops (by omega)⟩

/-- What a walk that has ended has seen. -/
theorem walk_ended {stop : α → Bool} {time : Nat} {prev r : Option α} (linked : Linked next p l)
    (ended : walk stop next time none p = some (prev, r)) :
    (r = none ∧ prev = l.getLast? ∧ ∀ a ∈ l, stop a = false) ∨
      ∃ before a after, l = before ++ a :: after ∧ stop a = true ∧ r = some a ∧ prev = before.getLast? ∧
        ∀ b ∈ before, stop b = false := by
  have later := walk_mono (Nat.le_max_left time l.length) ended
  cases first : l.find? stop with
  | none =>
    have passes : ∀ a ∈ l, stop a = false := by simpa using List.find?_eq_none.mp first
    rw [walk_none stop _ linked passes (Nat.le_max_right _ _)] at later
    cases later
    exact .inl ⟨rfl, rfl, passes⟩
  | some a =>
    obtain ⟨stops, before, after, rfl, passes⟩ := List.find?_eq_some_iff_append.mp first
    have enough := Nat.le_max_right time (before ++ a :: after).length
    rw [List.length_append, List.length_cons] at enough
    rw [walk_found stop _ linked (by simpa using passes) stops (by rw [List.length_append, List.length_cons]; omega)] at later
    cases later
    exact .inr ⟨before, a, after, rfl, stops, rfl, rfl, by simpa using passes⟩

theorem walk_find (stop : α → Bool) (time : Nat) (linked : Linked next p l) (enough : l.length ≤ time) :
    ∃ prev, walk stop next time none p = some (prev, l.find? stop) := by
  cases first : l.find? stop with
  | none => exact ⟨_, walk_none stop time linked (by simpa using List.find?_eq_none.mp first) enough⟩
  | some a =>
    obtain ⟨stops, before, after, rfl, passes⟩ := List.find?_eq_some_iff_append.mp first
    rw [List.length_append, List.length_cons] at enough
    exact ⟨_, walk_found stop time linked (by simpa using passes) stops (by omega)⟩

theorem walk_find_eq {stop : α → Bool} {time : Nat} {prev r : Option α} (linked : Linked next p l)
    (ended : walk stop next time none p = some (prev, r)) : r = l.find? stop := by
  obtain ⟨prev', walked⟩ := walk_find stop _ linked (Nat.le_max_right time l.length)
  rw [walk_mono (Nat.le_max_left _ _) ended] at walked
  exact (Prod.mk.inj (Option.some.inj walked)).2

end Svr4.Chain
