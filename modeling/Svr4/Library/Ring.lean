import Mathlib

/-! Rings: doubly linked lists that close at a head, and the search around one. -/

namespace Svr4.Rings
open Function
variable {α : Type*}

/-- From the head the successors pass the elements of the list and come back. -/
def Loop (next : α → α) (head : α) (l : List α) : Prop := (head :: l).map next = l ++ [head]

structure Ring (next prev : α → α) (head : α) (l : List α) : Prop where
  once : (head :: l).Nodup
  forward : Loop next head l
  backward : Loop prev head l.reverse

/-- Looks once around the ring. `none` is a search that does not come to an end in time. -/
def seek [DecidableEq α] (stop : α → Bool) (next : α → α) (head : α) : Nat → α → Option (Option α)
  | 0, _ => none
  | time + 1, a => if a = head then some none else if stop a then some (some a) else seek stop next head time (next a)

variable {next prev next' prev' : α → α} {head a b new : α} {l before after xs : List α}

theorem Loop.congr (loop : Loop next head l) (same : ∀ a ∈ head :: l, next' a = next a) : Loop next' head l := by
  unfold Loop at *
  rw [← loop]
  exact List.map_congr_left same

/-- The elements up to `a` lead to those behind the head, and `a` with the rest to the rest. -/
theorem Loop.parts (loop : Loop next head (before ++ after)) (last : head :: before = xs ++ [a]) :
    xs.map next = before ∧ next a :: after.map next = after ++ [head] := by
  have whole : (xs ++ a :: after).map next = before ++ (after ++ [head]) := by
    rw [← List.append_assoc, ← loop, ← List.cons_append, last, List.append_assoc]
    rfl
  have size : xs.length = before.length := by
    have sizes := congrArg List.length last
    simp only [List.length_cons, List.length_append, List.length_nil] at sizes
    omega
  rw [List.map_append] at whole
  exact List.append_inj whole (by rw [List.length_map, size])

theorem Loop.reaches (loop : Loop next head (before ++ after)) (last : head :: before = xs ++ [a]) :
    ∃ ys, head :: after.reverse = ys ++ [next a] := by
  obtain ⟨_, rest⟩ := loop.parts last
  refine ⟨(after.map next).reverse, ?_⟩
  have back := congrArg List.reverse rest
  simpa using back.symm

private theorem middle_once (once : (xs ++ a :: l).Nodup) : a ∉ xs ∧ a ∉ l := by
  obtain ⟨outside, _⟩ := List.nodup_cons.mp (List.nodup_middle.mp once)
  simpa using outside

theorem Loop.insert (loop : Loop next head (before ++ after)) (last : head :: before = xs ++ [a])
    (once : (head :: (before ++ after)).Nodup) (fresh : new ∉ head :: (before ++ after))
    (behind : next' a = new) (ahead : next' new = next a) (same : ∀ c, c ≠ a → c ≠ new → next' c = next c) :
    Loop next' head (before ++ new :: after) := by
  obtain ⟨first, rest⟩ := loop.parts last
  rw [← List.cons_append, last, List.append_assoc] at once fresh
  obtain ⟨notFront, notBack⟩ := middle_once once
  have front : xs.map next' = xs.map next := by
    apply List.map_congr_left
    intro c member
    refine same c (ne_of_mem_of_not_mem member notFront) ?_
    rintro rfl
    exact fresh (by simp [member])
  have back : after.map next' = after.map next := by
    apply List.map_congr_left
    intro c member
    refine same c (ne_of_mem_of_not_mem member notBack) ?_
    rintro rfl
    exact fresh (by simp [member])
  unfold Loop
  rw [← List.cons_append, last, List.append_assoc, List.map_append, front, first]
  simp [behind, ahead, back, rest]

theorem Loop.remove (loop : Loop next head (before ++ a :: after)) (last : head :: before = xs ++ [b])
    (once : (head :: (before ++ a :: after)).Nodup)
    (behind : next' b = next a) (same : ∀ c, c ≠ b → next' c = next c) : Loop next' head (before ++ after) := by
  obtain ⟨first, rest⟩ := loop.parts last
  rw [← List.cons_append, last, List.append_assoc] at once
  obtain ⟨notFront, notBack⟩ := middle_once once
  have front : xs.map next' = xs.map next := by
    apply List.map_congr_left
    intro c member
    exact same c (ne_of_mem_of_not_mem member notFront)
  have back : after.map next' = after.map next := by
    apply List.map_congr_left
    intro c member
    exact same c (ne_of_mem_of_not_mem (List.mem_cons_of_mem _ member) notBack)
  simp only [List.map_cons, List.cons_append, List.cons.injEq] at rest
  unfold Loop
  rw [← List.cons_append, last, List.append_assoc, List.map_append, front, first]
  simp [behind, back, rest.2]

theorem exists_last (head : α) (before : List α) : ∃ xs a, head :: before = xs ++ [a] :=
  ⟨_, _, (List.dropLast_concat_getLast (by simp)).symm⟩

theorem last_inj {ys : List α} (first : l = xs ++ [a]) (second : l = ys ++ [b]) : a = b := by
  have same := List.append_inj' (first.symm.trans second) rfl
  simpa using same.2

namespace Ring

theorem congr (ring : Ring next prev head l) (same : ∀ a ∈ head :: l, next' a = next a ∧ prev' a = prev a) :
    Ring next' prev' head l := by
  refine ⟨ring.once, ring.forward.congr fun a member => (same a member).1, ring.backward.congr fun a member => ?_⟩
  exact (same a (by simpa using member)).2

theorem alone (next_ : next head = head) (prev_ : prev head = head) : Ring next prev head [] := by
  refine ⟨by simp, ?_, ?_⟩
  · simp [Loop, next_]
  · simp [Loop, prev_]

theorem reverse (ring : Ring next prev head l) : Ring prev next head l.reverse := by
  refine ⟨?_, ring.backward, ?_⟩
  · simpa using ring.once
  · simpa using ring.forward

theorem prev_next (ring : Ring next prev head (before ++ after)) (last : head :: before = xs ++ [a]) :
    prev (next a) = a := by
  obtain ⟨ys, reached⟩ := ring.forward.reaches last
  have backward := ring.backward
  rw [List.reverse_append] at backward
  obtain ⟨zs, back⟩ := backward.reaches reached
  rw [List.reverse_reverse] at back
  exact last_inj back last

theorem next_prev (ring : Ring next prev head (before ++ a :: after)) (last : head :: before = xs ++ [b]) :
    next b = a ∧ prev a = b := by
  obtain ⟨_, rest⟩ := ring.forward.parts last
  simp only [List.cons_append, List.cons.injEq] at rest
  refine ⟨rest.1, ?_⟩
  rw [← rest.1]
  exact ring.prev_next last

/-- A new element behind `a`. -/
theorem insert (ring : Ring next prev head (before ++ after)) (last : head :: before = xs ++ [a])
    (fresh : new ∉ head :: (before ++ after))
    (next_a : next' a = new) (next_new : next' new = next a) (next_same : ∀ c, c ≠ a → c ≠ new → next' c = next c)
    (prev_b : prev' (next a) = new) (prev_new : prev' new = a)
    (prev_same : ∀ c, c ≠ next a → c ≠ new → prev' c = prev c) :
    Ring next' prev' head (before ++ new :: after) := by
  have once := ring.once
  have backward := ring.backward
  obtain ⟨ys, reached⟩ := ring.forward.reaches last
  rw [List.reverse_append] at backward
  refine ⟨?_, ring.forward.insert last ring.once fresh next_a next_new next_same, ?_⟩
  · rw [← List.cons_append] at once fresh ⊢
    exact List.nodup_middle.mpr (List.nodup_cons.mpr ⟨fresh, once⟩)
  · have reversed : (before ++ new :: after).reverse = after.reverse ++ new :: before.reverse := by simp
    rw [reversed]
    refine backward.insert reached ?_ ?_ prev_b ?_ prev_same
    · rw [← List.reverse_append]
      exact ring.reverse.once
    · simpa [or_comm] using fresh
    · rw [prev_new, ring.prev_next last]

theorem remove (ring : Ring next prev head (before ++ a :: after))
    (next_p : next' (prev a) = next a) (next_same : ∀ c, c ≠ prev a → next' c = next c)
    (prev_n : prev' (next a) = prev a) (prev_same : ∀ c, c ≠ next a → prev' c = prev c) :
    Ring next' prev' head (before ++ after) := by
  have once := ring.once
  have backward := ring.backward
  obtain ⟨xs, p, last⟩ := exists_last head before
  obtain ⟨_, rfl⟩ := ring.next_prev last
  have last' : head :: (before ++ [a]) = (xs ++ [prev a]) ++ [a] := by rw [← last, List.cons_append]
  have around : Loop next head ((before ++ [a]) ++ after) := by simpa using ring.forward
  obtain ⟨ys, reached⟩ := around.reaches last'
  have reversed : (before ++ a :: after).reverse = after.reverse ++ a :: before.reverse := by simp
  refine ⟨?_, ring.forward.remove last ring.once next_p next_same, ?_⟩
  · rw [← List.cons_append] at once ⊢
    exact (List.nodup_cons.mp (List.nodup_middle.mp once)).2
  · rw [reversed] at backward
    rw [List.reverse_append]
    refine backward.remove reached ?_ prev_n prev_same
    rw [← reversed]
    exact ring.reverse.once

/-- The links of the elements stay in the ring. -/
theorem closed (ring : Ring next prev head l) (member : a ∈ head :: l) : next a ∈ head :: l ∧ prev a ∈ head :: l := by
  have forward : next a ∈ l ++ [head] := ring.forward ▸ List.mem_map_of_mem member
  have backward : prev a ∈ l.reverse ++ [head] := ring.backward ▸ List.mem_map_of_mem (by simpa using member)
  exact ⟨by simpa [or_comm] using forward, by simpa [or_comm] using backward⟩

theorem seek_from [DecidableEq α] {stop : α → Bool} (ring : Ring next prev head (before ++ after)) {time : Nat}
    (last : head :: before = xs ++ [a]) (enough : after.length < time) :
    seek stop next head time (next a) = some (after.find? stop) := by
  induction after generalizing before xs a time with
  | nil =>
    obtain ⟨time, rfl⟩ := Nat.exists_eq_add_one_of_ne_zero (Nat.ne_zero_of_lt enough)
    obtain ⟨_, rest⟩ := ring.forward.parts last
    simp only [List.map_nil, List.nil_append, List.cons.injEq, and_true] at rest
    simp [seek, rest]
  | cons c after ih =>
    obtain ⟨time, rfl⟩ := Nat.exists_eq_add_one_of_ne_zero (Nat.ne_zero_of_lt enough)
    obtain ⟨arrives, _⟩ := ring.next_prev last
    have once := ring.once
    have elsewhere : c ≠ head := by
      rintro rfl
      simp at once
    have whole : before ++ c :: after = (before ++ [c]) ++ after := by simp
    rw [whole] at ring
    have last' : head :: (before ++ [c]) = (xs ++ [a]) ++ [c] := by rw [← last, List.cons_append]
    rw [arrives, seek, if_neg elsewhere, List.find?_cons]
    cases stops : stop c with
    | true => simp
    | false =>
      simp only [Bool.false_eq_true, if_false]
      apply ih ring last'
      simpa using enough

/-- The search finds the first element that stops it. -/
theorem seek_eq [DecidableEq α] {stop : α → Bool} (ring : Ring next prev head l) {time : Nat} (enough : l.length < time) :
    seek stop next head time (next head) = some (l.find? stop) := by
  have all : Ring next prev head ([] ++ l) := ring
  exact all.seek_from (List.nil_append [head]).symm enough

end Ring

end Svr4.Rings
