import Svr4.Library.Chain

/-! Doubly linked lists: the same elements in a chain forward and in a chain backward. -/

namespace Svr4.DoubleChain
open Function Chain
variable {α : Type*}

structure Doubly (next prev : α → Option α) (first : Option α) (l : List α) : Prop where
  forward : Linked next first l
  backward : Linked prev l.getLast? l.reverse

variable {next prev next' prev' : α → Option α} {first : Option α} {l before after : List α} {a : α}

theorem Doubly.next_eq (list : Doubly next prev first (before ++ a :: after)) : next a = after.head? :=
  list.forward.next_eq

theorem Doubly.prev_eq (list : Doubly next prev first (before ++ a :: after)) : prev a = before.getLast? := by
  have backward := list.backward
  rw [List.reverse_append, List.reverse_cons, List.append_assoc, List.singleton_append] at backward
  rw [backward.next_eq, List.head?_reverse]

/-- The list from one of its elements on. -/
theorem Doubly.onward (list : Doubly next prev first (before ++ a :: after)) : Linked next (some a) (a :: after) := by
  obtain ⟨_, _, found, rest⟩ := seg_append.mp list.forward
  exact ⟨rfl, rest⟩

/-- The list from one of its elements backward. -/
theorem Doubly.backward_from (list : Doubly next prev first (before ++ a :: after)) :
    Linked prev (some a) (a :: before.reverse) := by
  have backward := list.backward
  rw [List.reverse_append, List.reverse_cons, List.append_assoc, List.singleton_append] at backward
  obtain ⟨_, _, found, rest⟩ := seg_append.mp backward
  exact ⟨rfl, rest⟩

theorem Doubly.nodup (list : Doubly next prev first l) : l.Nodup := list.forward.nodup

theorem Doubly.congr (list : Doubly next prev first l) (same : ∀ a ∈ l, next' a = next a ∧ prev' a = prev a) :
    Doubly next' prev' first l :=
  ⟨Seg.congr list.forward (fun a member => (same a member).1),
    Seg.congr list.backward (fun a member => (same a (List.mem_reverse.mp member)).2)⟩

section change
variable [DecidableEq α] {new : α}

/-- The successors after `new` went in behind `b`, or in front of all. -/
def linkAfter (next : α → Option α) (first b : Option α) (new : α) : α → Option α :=
  match b with
  | none => update next new first
  | some b => update (update next new (next b)) b (some new)

/-- The first element after `new` went in behind `b`. -/
def firstAfter (first b : Option α) (new : α) : Option α := if b = none then some new else first

theorem Linked.link (linked : Linked next first (before ++ after)) (fresh : new ∉ before ++ after) :
    Linked (linkAfter next first before.getLast? new) (firstAfter first before.getLast? new) (before ++ new :: after) := by
  rcases List.eq_nil_or_concat before with rfl | ⟨front, b, rfl⟩
  · exact linked.push_front fresh
  · rw [List.concat_eq_append] at *
    have once := linked.nodup
    obtain ⟨m, first_, second⟩ := seg_append.mp linked
    obtain ⟨m', front_, last⟩ := seg_append.mp first_
    obtain ⟨rfl, rest⟩ := last
    obtain rfl : next b = m := rest
    simp only [List.mem_append, List.mem_singleton, not_or] at fresh
    obtain ⟨⟨notFront, notB⟩, notAfter⟩ := fresh
    rw [List.nodup_append, List.nodup_append] at once
    obtain ⟨⟨_, _, apart⟩, _, across⟩ := once
    have early : b ∉ front := fun member => apart b member b (by simp) rfl
    have late : b ∉ after := fun member => across b (by simp) b member rfl
    simp only [linkAfter, firstAfter, List.getLast?_concat, reduceCtorEq, if_false]
    rw [List.append_assoc]
    refine seg_append.mpr ⟨some b, (front_.update _ notFront).update _ early, rfl, ?_⟩
    rw [update_self]
    refine ⟨rfl, ?_⟩
    rw [update_of_ne notB, update_self]
    exact Seg.update (Seg.update second _ notAfter) _ late

/-- The successors after `a`, behind `b`, went out. -/
def unlinkAfter (next : α → Option α) (b : Option α) (a : α) : α → Option α :=
  match b with
  | none => next
  | some b => update next b (next a)

/-- The first element after `a`, behind `b`, went out. -/
def firstWithout (next : α → Option α) (first b : Option α) (a : α) : Option α := if b = none then next a else first

theorem Linked.unlink_after (linked : Linked next first (before ++ a :: after)) :
    Linked (unlinkAfter next before.getLast? a) (firstWithout next first before.getLast? a) (before ++ after) := by
  rcases List.eq_nil_or_concat before with rfl | ⟨front, b, rfl⟩
  · exact linked.2
  · rw [List.concat_eq_append, List.append_assoc] at *
    simp only [unlinkAfter, firstWithout, List.getLast?_concat, reduceCtorEq, if_false]
    exact linked.unlink

/-- The first element and the successors after `a`, which is searched for, went out.
`none` if it is not there. -/
def takeOut (time : Nat) (next : α → Option α) (first : Option α) (a : α) : Option (Option α × (α → Option α)) :=
  match walk (fun c => decide (c = a)) next time none first with
  | some (b, some _) => some (firstWithout next first b a, unlinkAfter next b a)
  | _ => none

theorem Linked.taken {time : Nat} {first' : Option α} {next' : α → Option α} (linked : Linked next first l)
    (ended : takeOut time next first a = some (first', next')) :
    ∃ before after, l = before ++ a :: after ∧ Linked next' first' (before ++ after) ∧ ∀ c, c ∉ before → next' c = next c := by
  unfold takeOut at ended
  split at ended
  case h_2 => cases ended
  case h_1 b c found =>
    obtain ⟨rfl, rfl⟩ := Prod.mk.inj (Option.some.inj ended)
    rcases walk_ended linked found with ⟨none_, _⟩ | ⟨before, a', after, rfl, stops, _, rfl, _⟩
    · cases none_
    · obtain rfl : a' = a := of_decide_eq_true stops
      refine ⟨before, after, rfl, Linked.unlink_after linked, fun c outside => ?_⟩
      rcases List.eq_nil_or_concat before with rfl | ⟨front, last, rfl⟩
      · rfl
      · rw [List.concat_eq_append] at outside ⊢
        simp only [unlinkAfter, List.getLast?_concat]
        exact update_of_ne (fun same => outside (by simp [same])) _ _

theorem Linked.takeOut_ends {time : Nat} (linked : Linked next first l) (member : a ∈ l) (enough : l.length ≤ time) :
    ∃ r, takeOut time next first a = some r := by
  rcases walk_cases (fun c => decide (c = a)) time linked enough with ⟨_, passes⟩ | ⟨before, b, after, _, _, found⟩
  · simpa using passes a member
  · exact ⟨_, by simp only [takeOut, found]; rfl⟩

/-- A new element between two parts of the list. -/
theorem Doubly.insert (list : Doubly next prev first (before ++ after)) (fresh : new ∉ before ++ after) :
    Doubly (linkAfter next first before.getLast? new) (linkAfter prev before.getLast? after.head? new)
      (firstAfter first before.getLast? new) (before ++ new :: after) := by
  refine ⟨Linked.link list.forward fresh, ?_⟩
  have backward := list.backward
  rw [List.reverse_append] at backward
  have apart : new ∉ after.reverse ++ before.reverse := by simpa [and_comm] using fresh
  have linked := Linked.link backward apart
  cases after with
  | nil => simpa [linkAfter, firstAfter] using linked
  | cons c rest => simpa [linkAfter, firstAfter, List.getLast?_append, List.getLast?_cons] using linked

theorem Doubly.remove (list : Doubly next prev first (before ++ a :: after)) :
    Doubly (unlinkAfter next before.getLast? a) (unlinkAfter prev after.head? a)
      (firstWithout next first before.getLast? a) (before ++ after) := by
  refine ⟨Linked.unlink_after list.forward, ?_⟩
  have backward := list.backward
  have behind := list.prev_eq
  rw [List.reverse_append, List.reverse_cons, List.append_assoc, List.singleton_append] at backward
  have linked := Linked.unlink_after backward
  cases after with
  | nil => simpa [unlinkAfter, firstWithout, behind] using linked
  | cons c rest => simpa [unlinkAfter, firstWithout, List.getLast?_append, List.getLast?_cons] using linked

/-- A new element behind the last one, whose successor has not been set. -/
theorem Doubly.push_back {b : α} (list : Doubly (update next b none) prev first (l ++ [b])) (fresh : new ∉ l ++ [b]) :
    Doubly (update (update next b (some new)) new none) (update prev new (some b)) first (l ++ [b] ++ [new]) := by
  have list' : Doubly (update next b none) prev first ((l ++ [b]) ++ []) := by rwa [List.append_nil]
  have inserted := list'.insert (by rwa [List.append_nil])
  have other : new ≠ b := fun same => fresh (by simp [same])
  simp only [List.getLast?_concat, linkAfter, List.head?_nil, firstAfter, reduceCtorEq, if_false, update_self] at inserted
  have same : update (update (update next b none) new none) b (some new) = update (update next b (some new)) new none := by
    rw [update_comm other, update_idem]
  rwa [same] at inserted

/-- An element inside goes out: its two neighbours are linked, and it still points ahead. -/
theorem Doubly.unlink (list : Doubly next prev first (before ++ a :: after)) (left : before ≠ []) (right : after ≠ []) :
    ∃ b c, prev a = some b ∧ next a = some c ∧ b ≠ a ∧
      Doubly (update next b (next a)) (update prev c (prev a)) first (before ++ after) ∧
      Linked (update next b (next a)) (some a) (a :: after) := by
  obtain ⟨front, b, rfl⟩ := List.eq_nil_or_concat before |>.resolve_left left
  obtain ⟨c, rest, rfl⟩ := List.exists_cons_of_ne_nil right
  rw [List.concat_eq_append] at *
  have once := list.nodup
  have early : b ∉ a :: c :: rest := fun member => (List.nodup_append.mp once).2.2 b (by simp) b member rfl
  have removed := list.remove
  simp only [List.getLast?_concat, unlinkAfter, List.head?_cons, firstWithout, reduceCtorEq, if_false] at removed
  refine ⟨b, c, by simpa using list.prev_eq, list.next_eq, fun same => early (by simp [same]), removed, ?_⟩
  exact Seg.update list.onward _ early

/-- A new element between two neighbours. -/
theorem Doubly.link {b c : α} (list : Doubly next prev first (before ++ b :: c :: after)) (fresh : new ∉ before ++ b :: c :: after) :
    next b = some c ∧ prev c = some b ∧
      Doubly (update (update next new (some c)) b (some new)) (update (update prev new (some b)) c (some new)) first
        (before ++ b :: new :: c :: after) := by
  have ahead : next b = some c := list.next_eq
  have shape : before ++ b :: c :: after = before ++ [b] ++ c :: after := by simp
  rw [shape] at list fresh
  have behind : prev c = some b := by simpa using list.prev_eq
  have inserted := list.insert fresh
  simp only [List.getLast?_concat, linkAfter, List.head?_cons, firstAfter, reduceCtorEq, if_false, ahead, behind] at inserted
  exact ⟨ahead, behind, by simpa using inserted⟩

end change

end Svr4.DoubleChain
