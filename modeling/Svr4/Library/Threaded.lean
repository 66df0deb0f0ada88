import Svr4.Library.Chain

/-! Lists threaded through the elements themselves: each element has a list of its own, and
is on the list of its owner. -/

namespace Svr4.Threaded
open Function Chain
variable {α : Type*}

/-- The first element of each list, the next element on the same list, and the owner. -/
structure Threads (α : Type*) where
  first : α → Option α
  next : α → Option α
  owner : α → Option α

/-- Every member's list is a chain of just the members it owns. -/
structure Forest (t : Threads α) (members : Set α) (lists : α → List α) : Prop where
  linked : ∀ p ∈ members, Linked t.next (t.first p) (lists p)
  owned : ∀ p ∈ members, ∀ x, x ∈ lists p ↔ x ∈ members ∧ t.owner x = some p
  home : ∀ x ∈ members, ∀ p, t.owner x = some p → p ∈ members

section change
variable [DecidableEq α]

/-- An element without list and owner. -/
def Threads.zero (t : Threads α) (x : α) : Threads α :=
  ⟨update t.first x none, update t.next x none, update t.owner x none⟩

/-- The element goes in front of a list. -/
def Threads.link (t : Threads α) (p x : α) : Threads α :=
  ⟨update t.first p (some x), update t.next x (t.first p), update t.owner x (some p)⟩

/-- The element leaves its owner's list, on which it is searched for if it is not the
first. `none` if it is not there. -/
def Threads.unlink (time : Nat) (t : Threads α) (x : α) : Option (Threads α) :=
  match t.owner x with
  | none => none
  | some p =>
    if t.first p = some x then some { t with first := update t.first p (t.next x) }
    else
      match walk (fun b => t.next b = some x) t.next time none (t.first p) with
      | some (_, some b) => some { t with next := update t.next b (t.next x) }
      | _ => none

/-- From `q` on all elements get a new owner; also the last of them. -/
def adopt (next : α → Option α) (heir : α) : Nat → (α → Option α) → α → Option ((α → Option α) × α)
  | 0, _, _ => none
  | time + 1, owner, q =>
    match next q with
    | none => some (update owner q (some heir), q)
    | some r => adopt next heir time (update owner q (some heir)) r

/-- A whole list goes in front of another owner's. -/
def Threads.give (time : Nat) (t : Threads α) (p heir : α) : Option (Threads α) :=
  match t.first p with
  | none => some t
  | some q => (adopt t.next heir time t.owner q).map fun (owner, last) =>
      ⟨update (update t.first heir (some q)) p none, update t.next last (t.first heir), owner⟩

variable {t t' : Threads α} {members : Set α} {lists : α → List α} {p x heir : α} {time : Nat}

section
variable (forest : Forest t members lists)
include forest

theorem Forest.zero (fresh : x ∉ members) :
    Forest (t.zero x) (insert x members) (update lists x []) := by
  have apart : ∀ y ∈ members, y ≠ x := fun y member same => fresh (same ▸ member)
  refine ⟨fun p inside => ?_, fun p inside y => ?_, fun y inside p owns => ?_⟩
  · rcases inside with rfl | inside
    · simp [Threads.zero, linked_none]
    · simp only [Threads.zero, update_of_ne (apart p inside)]
      apply (forest.linked p inside).update
      exact fun there => fresh ((forest.owned p inside x).mp there).1
  · rcases inside with rfl | inside
    · simp only [update_self, List.not_mem_nil, Threads.zero, false_iff, not_and]
      rintro (rfl | inside) owns
      · simp at owns
      · rw [update_of_ne (apart y inside)] at owns
        exact fresh (forest.home y inside p owns)
    · simp only [update_of_ne (apart p inside), forest.owned p inside, Threads.zero, Set.mem_insert_iff]
      by_cases here : y = x
      · subst here
        simp [fresh]
      · simp [here]
  · by_cases here : y = x
    · subst here
      simp [Threads.zero] at owns
    · simp only [Threads.zero, update_of_ne here] at owns
      exact .inr (forest.home y (inside.resolve_left here) p owns)

theorem Forest.link (inside : x ∈ members) (owner : p ∈ members) (free : t.owner x = none) :
    Forest (t.link p x) members (update lists p (x :: lists p)) := by
  have absent : ∀ q ∈ members, x ∉ lists q := by
    intro q there member
    rw [((forest.owned q there x).mp member).2] at free
    cases free
  refine ⟨fun q there => ?_, fun q there y => ?_, fun y there q owns => ?_⟩
  · by_cases here : q = p
    · subst here
      simp only [Threads.link, update_self]
      exact (forest.linked q there).push_front (absent q there)
    · simp only [Threads.link, update_of_ne here]
      exact (forest.linked q there).update _ (absent q there)
  · by_cases own : y = x
    · subst own
      by_cases here : q = p
      · subst here
        simp [Threads.link, inside]
      · simp [Threads.link, update_of_ne here, absent q there, inside, Ne.symm here]
    · by_cases here : q = p
      · subst here
        simp [Threads.link, own, forest.owned q there]
      · simp [Threads.link, own, update_of_ne here, forest.owned q there]
  · by_cases own : y = x
    · subst own
      simp only [Threads.link, update_self, Option.some.injEq] at owns
      exact owns ▸ owner
    · simp only [Threads.link, update_of_ne own] at owns
      exact forest.home y there q owns

/-- What is left when an element without list is gone from its owner's. -/
theorem Forest.without {before after : List α} (split : lists p = before ++ x :: after)
    (owner : p ∈ members) (alone : lists x = []) (linked : Linked t'.next (t'.first p) (before ++ after))
    (others : ∀ q ∈ members, q ≠ p → Linked t'.next (t'.first q) (lists q)) (same : t'.owner = t.owner) :
    Forest t' (members \ {x}) (update lists p (before ++ after)) := by
  have once := (forest.linked p owner).nodup
  rw [split] at once
  have gone : x ∉ before ++ after := (List.nodup_middle.mp once).notMem
  refine ⟨fun q there => ?_, fun q there y => ?_, fun y there q owns => ⟨?_, ?_⟩⟩
  · by_cases here : q = p
    · subst here
      simpa using linked
    · rw [update_of_ne here]
      exact others q there.1 here
  · by_cases here : q = p
    · subst here
      rw [update_self, same]
      have member := forest.owned q owner y
      rw [split] at member
      by_cases own : y = x
      · subst own
        simp [gone]
      · rw [Set.mem_sdiff, and_right_comm, ← member]
        simp [own]
    · rw [update_of_ne here, forest.owned q there.1, same]
      have apart : y ∈ members → t.owner y = some q → y ≠ x := by
        intro _ owns is
        have member := (forest.owned p owner x).mp (by rw [split]; simp)
        rw [is, member.2] at owns
        exact here (Option.some.inj owns).symm
      simp only [Set.mem_sdiff, Set.mem_singleton_iff]
      tauto
  · rw [same] at owns
    exact forest.home y there.1 q owns
  · rintro rfl
    rw [same] at owns
    have member := (forest.owned q (forest.home y there.1 q owns) y).mpr ⟨there.1, owns⟩
    rw [alone] at member
    cases member

/-- An element that leaves its list and the members. -/
theorem Forest.unlink (inside : x ∈ members) (owner : t.owner x = some p) (alone : lists x = [])
    (ended : t.unlink time x = some t') : t'.owner = t.owner ∧ ∃ before after, lists p = before ++ x :: after ∧
      Forest t' (members \ {x}) (update lists p (before ++ after)) := by
  have home := forest.home x inside p owner
  have linked := forest.linked p home
  have member : x ∈ lists p := (forest.owned p home x).mpr ⟨inside, owner⟩
  simp only [Threads.unlink, owner] at ended
  split at ended
  case isTrue front =>
    obtain rfl := Option.some.inj ended
    cases split : lists p with
    | nil => simp [split] at member
    | cons y after =>
      rw [split, front] at linked
      obtain ⟨same, rest⟩ := linked
      obtain rfl := Option.some.inj same
      refine ⟨rfl, [], after, rfl, forest.without split home alone ?_ (fun q there other => ?_) rfl⟩
      · simp only [update_self, List.nil_append]
        exact rest
      · simpa [update_of_ne other] using forest.linked q there
  case isFalse behind =>
    split at ended
    case h_2 => cases ended
    case h_1 _ _ b found =>
      obtain rfl := Option.some.inj ended
      rcases walk_ended linked found with ⟨none_, _⟩ | ⟨before, b', after, split, stops, same, _⟩
      · cases none_
      · obtain rfl : b = b' := Option.some.inj same
        rw [split] at linked
        have next := linked.next_eq
        rw [of_decide_eq_true stops] at next
        cases after with
        | nil => cases next
        | cons y after =>
          obtain rfl := Option.some.inj next
          have owned := (forest.owned p home b).mp (by rw [split]; simp)
          refine ⟨rfl, before ++ [b], after, by simp [split], forest.without (by simp [split]) home alone ?_ (fun q there other => ?_) rfl⟩
          · simpa using linked.unlink
          · apply (forest.linked q there).update
            intro also
            rw [((forest.owned q there _).mp also).2] at owned
            exact other (Option.some.inj owned.2)

theorem Forest.unlink_ends (inside : x ∈ members) (owner : t.owner x = some p)
    (enough : (lists p).length ≤ time) : ∃ t', t.unlink time x = some t' := by
  have home := forest.home x inside p owner
  have linked := forest.linked p home
  have member : x ∈ lists p := (forest.owned p home x).mpr ⟨inside, owner⟩
  simp only [Threads.unlink, owner]
  split
  case isTrue => exact ⟨_, rfl⟩
  case isFalse behind =>
    rcases walk_cases (fun b => decide (t.next b = some x)) time linked enough with ⟨_, passes⟩ | ⟨_, b, _, _, _, found⟩
    · exfalso
      obtain ⟨before, after, split⟩ := List.append_of_mem member
      rw [split] at linked
      rcases List.eq_nil_or_concat before with rfl | ⟨front, b, rfl⟩
      · exact behind linked.1
      · simp only [List.concat_eq_append, List.append_assoc, List.singleton_append] at linked split
        have next := linked.next_eq
        have pass := passes b (by rw [split]; simp)
        simp [next] at pass
    · rw [found]
      exact ⟨_, rfl⟩

end

theorem adopt_eq {next : α → Option α} {q : α} {l : List α} (time : Nat) (owner : α → Option α) (linked : Linked next (some q) (q :: l)) :
    adopt next heir time owner q =
      if l.length < time then some (fun y => if y ∈ q :: l then some heir else owner y, (q :: l).getLast (by simp)) else none := by
  induction l generalizing q time owner with
  | nil =>
    cases time with
    | zero => rfl
    | succ time =>
      have ends : next q = none := linked.2
      simp only [adopt, ends, List.length_nil, Nat.zero_lt_succ, if_true]
      congr 2
      funext y
      simp [update_apply]
  | cons r l ih =>
    cases time with
    | zero => rfl
    | succ time =>
      have follows : next q = some r := linked.2.1
      have rest : Linked next (some r) (r :: l) := by
        have tail := linked.2
        rwa [follows] at tail
      simp only [adopt, follows, ih time _ rest, List.length_cons, Nat.add_lt_add_iff_right]
      congr 3
      funext y
      simp only [List.mem_cons, update_apply]
      split_ifs <;> tauto

/-- A chain goes on where its last element leads. -/
theorem linked_append {next : α → Option α} {p r : Option α} {front l : List α} {b : α} (first : Linked next p (front ++ [b]))
    (second : Linked next r l) (apart : b ∉ l) : Linked (update next b r) p (front ++ [b] ++ l) := by
  have once := first.nodup
  obtain ⟨m, leads, last⟩ := seg_append.mp first
  obtain ⟨rfl, _⟩ := last
  have early : b ∉ front := fun member => (List.nodup_append.mp once).2.2 b member b (by simp) rfl
  refine seg_append.mpr ⟨r, seg_append.mpr ⟨some b, leads.update _ early, rfl, ?_⟩, second.update _ apart⟩
  simp [seg_nil]

/-- Nothing is lost or doubled when a list is given away. -/
theorem Forest.give (forest : Forest t members lists) (inside : p ∈ members) (takes : heir ∈ members) (other : p ≠ heir)
    (ended : t.give time p heir = some t') :
    (∀ x, t'.owner x = if x ∈ lists p then some heir else t.owner x) ∧
      Forest t' members (update (update lists heir (lists p ++ lists heir)) p []) := by
  have linked := forest.linked p inside
  cases split : lists p with
  | nil =>
    rw [split] at linked
    simp only [Threads.give, linked_none.mp linked, Option.some.injEq] at ended
    subst ended
    refine ⟨by simp, ?_⟩
    have same : update (update lists heir ([] ++ lists heir)) p [] = lists := by
      rw [List.nil_append, update_eq_self, ← split, update_eq_self]
    rwa [same]
  | cons q l =>
    rw [split] at linked
    have first : t.first p = some q := linked.1
    rw [first] at linked
    have moved : ∀ x ∈ lists p, x ∈ members ∧ t.owner x = some p := fun x => (forest.owned p inside x).mp
    rw [split] at moved
    simp only [Threads.give, first, adopt_eq time t.owner linked] at ended
    split at ended
    case isFalse => cases ended
    case isTrue =>
      obtain rfl := Option.some.inj ended
      obtain ⟨front, last, shape⟩ : ∃ front last, q :: l = front ++ [last] := by
        rcases List.eq_nil_or_concat (q :: l) with none_ | ⟨front, last, shape⟩
        · cases none_
        · exact ⟨front, last, by rw [shape, List.concat_eq_append]⟩
      have ends : (q :: l).getLast (by simp) = last := by simp [shape]
      have lastOwned := (moved last (by simp [shape])).2
      have absent : ∀ r ∈ members, r ≠ p → last ∉ lists r := by
        intro r there apart member
        rw [((forest.owned r there last).mp member).2] at lastOwned
        exact apart (Option.some.inj lastOwned)
      simp only [ends]
      refine ⟨fun _ => trivial, fun r there => ?_, fun r there x => ?_, fun x there r owns => ?_⟩
      · dsimp only
        by_cases own : r = p
        · subst own
          simp [linked_none]
        · rw [update_of_ne own, update_of_ne own]
          by_cases here : r = heir
          · subst here
            rw [update_self, update_self, shape]
            rw [shape] at linked
            exact linked_append linked (forest.linked r there) (absent r there own)
          · rw [update_of_ne here, update_of_ne here]
            exact (forest.linked r there).update _ (absent r there own)
      · by_cases own : r = p
        · subst own
          simp only [update_self, List.not_mem_nil, false_iff, not_and]
          intro there owns
          split at owns
          · exact other (Option.some.inj owns).symm
          · rename_i outside
            rw [← split] at outside
            exact outside ((forest.owned r inside x).mpr ⟨there, owns⟩)
        · rw [update_of_ne own]
          by_cases here : r = heir
          · subst here
            rw [update_self, List.mem_append]
            by_cases member : x ∈ q :: l
            · simp [member, (moved x member).1]
            · simp only [member, false_or, if_false]
              exact forest.owned r there x
          · rw [update_of_ne here, forest.owned r there]
            by_cases member : x ∈ q :: l
            · simp only [member, if_true, (moved x member).2, Option.some.injEq]
              simp [Ne.symm own, Ne.symm here]
            · simp [member]
      · dsimp only at owns
        split at owns
        · exact Option.some.inj owns ▸ takes
        · exact forest.home x there r owns

theorem Forest.give_ends (forest : Forest t members lists) (heir : α) (inside : p ∈ members) (enough : (lists p).length ≤ time) :
    ∃ t', t.give time p heir = some t' := by
  have linked := forest.linked p inside
  cases split : lists p with
  | nil =>
    rw [split] at linked
    exact ⟨t, by simp only [Threads.give, linked_none.mp linked]⟩
  | cons q l =>
    rw [split] at linked enough
    have first : t.first p = some q := linked.1
    rw [first] at linked
    rw [List.length_cons] at enough
    simp only [Threads.give, first, adopt_eq time t.owner linked, if_pos (show l.length < time by omega)]
    exact ⟨_, rfl⟩

end change

end Svr4.Threaded
