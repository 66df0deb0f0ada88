import Svr4.Library.Timed
import Svr4.Proofs.ElmLists
import Svr4.Library.Agenda
import Svr4.Proofs.ElmFirst

/-! The calls do not depend on the time they are given once it is enough. -/

namespace Svr4.ElmHistory
open Function Chain Elm Timed

variable {Event : Type} {s : State Event}

theorem seek_steady (condition : Nat → Bool) (next : Nat → Option Nat) (p : Option Nat) :
    Steady Fault.time (fun fuel => seek condition next fuel p) := by
  intro fuel fuel' more ended
  simp only [seek] at ended ⊢
  cases result : walk (fun a => !condition a) next fuel none p with
  | none =>
    rw [result] at ended
    exact absurd rfl ended
  | some r => rw [walk_mono more result]

theorem skip_steady (condition : Nat → Bool) (next : Nat → Option Nat) (p : Option Nat) :
    Steady Fault.time (fun fuel => skip condition next fuel p) := by
  intro fuel fuel' more ended
  simp only [skip] at ended ⊢
  cases result : walk (fun a => !condition a) next fuel none p with
  | none =>
    rw [result] at ended
    exact absurd rfl ended
  | some r => rw [walk_mono more result]

theorem countBack_steady (nextInt ctr : Int) (p : Option Nat) :
    Steady Fault.time (fun fuel => countBack s nextInt fuel ctr p) := by
  intro fuel fuel' more ended
  induction fuel generalizing fuel' ctr p with
  | zero =>
    cases p with
    | none => cases fuel' <;> rfl
    | some n => exact absurd rfl ended
  | succ fuel ih =>
    obtain ⟨fuel', rfl⟩ := Nat.exists_eq_add_of_le' (show 1 ≤ fuel' by omega)
    cases p with
    | none => rfl
    | some n =>
      simp only [countBack] at ended ⊢
      split
      · next later =>
        rw [if_pos later] at ended
        exact ih _ _ _ (by omega) ended
      · rfl

theorem elAdd_steady (n k2 : Nat) (event : Event) (time id : Int) : Steady Fault.time (fun fuel => elAdd n k2 event time id fuel s) := by
  unfold elAdd
  split
  · exact Steady.const _
  · refine (seek_steady _ _ _).bind fun ind => (seek_steady _ _ _).bind fun k => (Steady.const _).bind fun k => (Steady.const _).bind fun r =>
      (seek_steady _ _ _).bind fun n2 => Steady.const _

theorem shift_steady (fi : Nat) : Steady Fault.time (fun fuel => shift fi fuel s) := by
  refine (Steady.const _).bind fun s1 => (Steady.const _).bind fun s2 => (seek_steady _ _ _).bind fun ind => ?_
  by_cases beyond : INFINITY < s2.ktime (s2.ikey ind) + s2.DT
  · simp only [if_pos beyond]
    exact Steady.const _
  · simp only [if_neg beyond]
    exact (seek_steady _ _ _).bind fun k => (countBack_steady _ _ _).bind fun r => Steady.const _

theorem shifts_steady (c : Nat) {fuel fuel' turns turns' : Nat} (more : fuel ≤ fuel') (moreTurns : turns ≤ turns')
    (ended : shifts c fuel turns s ≠ .error .time) : shifts c fuel' turns' s = shifts c fuel turns s := by
  induction turns generalizing turns' s with
  | zero =>
    unfold shifts at ended ⊢
    cases index : s.index with
    | none => rfl
    | some fi =>
      simp only [index, deref, Faults.ok_bind] at ended ⊢
      split
      · next expired =>
        rw [if_pos expired] at ended
        exact absurd rfl ended
      · rfl
  | succ turns ih =>
    obtain ⟨turns', rfl⟩ := Nat.exists_eq_add_of_le' (show 1 ≤ turns' by omega)
    unfold shifts at ended ⊢
    cases index : s.index with
    | none => rfl
    | some fi =>
      simp only [index, deref, Faults.ok_bind] at ended ⊢
      by_cases expired : s.ktime (s.ikey fi) < s.time c
      case neg => simp only [if_neg expired]
      simp only [if_pos expired] at ended ⊢
      by_cases two : s.DU = 2
      · simp only [if_pos two] at ended ⊢
        split
        · rfl
        · next fits =>
          rw [if_neg fits] at ended
          exact ih (by omega) ended
      · simp only [if_neg two] at ended ⊢
        exact bind_same (shift_steady fi fuel fuel' more) (fun s1 => ih (by omega)) ended

theorem elFirst_steady : Steady Fault.time (fun fuel => elFirst fuel s) := by
  unfold elFirst
  cases s.index with
  | none => exact Steady.const _
  | some i =>
    cases s.current with
    | none => exact Steady.const _
    | some c =>
      have loop : Steady Fault.time (fun fuel => shifts c fuel fuel s) := fun _ _ more ended => shifts_steady c more more ended
      exact loop.bind fun s1 => (Steady.const _).bind fun s2 => (seek_steady _ _ _).bind fun n => (Steady.const _).bind fun k =>
        (Steady.const _).bind fun s3 => (skip_steady _ _ _).bind fun fn => Steady.const _

theorem leaveSublist_steady (n : Nat) : Steady Fault.time (fun fuel => leaveSublist n fuel s) :=
  (Steady.const _).bind fun _ => (seek_steady _ _ _).bind fun _ => Steady.const _

theorem regroup_steady (n : Nat) : Steady Fault.time (fun fuel => regroup n fuel s) := by
  have leave : Steady Fault.time (fun fuel => leaveSublist n fuel s >>= fun r => mergeSublists r.2 r.1) :=
    (leaveSublist_steady n).bind fun r => Steady.const _
  unfold regroup
  cases s.key n with
  | none => exact leave
  | some k =>
    by_cases sole : s.numnote k = 1
    · simp only [if_pos sole]
      exact Steady.const _
    · simp only [if_neg sole]
      exact leave

theorem removeNotice_steady (n : Nat) : Steady Fault.time (fun fuel => removeNotice n fuel s) :=
  (regroup_steady n).bind fun _ => Steady.const _

theorem scan_steady (id : Int) (flag : Bool) {fuel fuel' turns turns' : Nat} {n : Option Nat} (more : fuel ≤ fuel') (moreTurns : turns ≤ turns')
    (ended : scan id flag fuel turns n s ≠ .error .time) : scan id flag fuel' turns' n s = scan id flag fuel turns n s := by
  induction turns generalizing turns' n s with
  | zero =>
    cases n with
    | none => cases turns' <;> rfl
    | some n => exact absurd rfl ended
  | succ turns ih =>
    obtain ⟨turns', rfl⟩ := Nat.exists_eq_add_of_le' (show 1 ≤ turns' by omega)
    cases n with
    | none => rfl
    | some n =>
      refine bind_same (skip_steady _ _ _ fuel fuel' more) (fun found ended => ?_) ended
      cases found with
      | none => rfl
      | some m =>
        refine bind_same (removeNotice_steady m fuel fuel' more) (fun r ended => ?_) ended
        cases flag with
        | true => rfl
        | false => exact ih (by omega) ended

theorem elRemove_steady (id : Int) (flag : Bool) : Steady Fault.time (fun fuel => elRemove id flag fuel s) := by
  unfold elRemove
  cases s.index with
  | none => exact Steady.const _
  | some i =>
    cases s.current with
    | none => exact Steady.const _
    | some c =>
      have loop : Steady Fault.time (fun fuel => scan id flag fuel fuel (some c) s) := fun _ _ more ended => scan_steady id flag more more ended
      exact loop.bind fun s1 => (Steady.const _).bind fun ind => (seek_steady _ _ _).bind fun k => (seek_steady _ _ _).bind fun n => Steady.const _

end Svr4.ElmHistory

/-! The event list is a stable priority queue. -/

namespace Svr4.ElmHistory
open Function Chain DoubleChain Elm ElmLists ElmInit ElmAdd ElmFirst Agenda Timed

variable {Event : Type} {s s' : State Event} {du lb dt nlim : Int}

structure Addition (Event : Type) where
  time : Int
  id : Int
  event : Event
  deriving DecidableEq

/-- The lists as the comments of the source have them: the notices in a row, cut into the sublists of the keys. -/
structure Listed (s : State Event) (groups : List Group) : Prop where
  notices : Doubly s.right s.left (flat groups).head? (flat groups)
  keys : Doubly s.kright s.kleft (groups.map Group.key).head? (groups.map Group.key)
  index : ∃ i, s.index = some i ∧ s.ikey i ∈ groups.map Group.key
  notice : ∀ g ∈ groups, s.notice g.key = g.last
  time : ∀ g ∈ groups, s.ktime g.key = s.time g.last
  numnote : ∀ g ∈ groups, s.numnote g.key = g.notes.length
  sorted : (flat groups).Pairwise (fun a b => s.time a ≤ s.time b)
  once : (flat groups).Nodup

/-- The events of the list with their times and identifiers, from the first notice to the last. -/
def events (s : State Event) (groups : List Group) : List (Int × Int × Option Event) :=
  ((flat groups).filter (real s)).map (fun n => (s.time n, s.id n, s.event n))

def entry (x : Addition Event × Nat) : Int × Int × Option Event := (x.1.time, x.1.id, some x.1.event)

/-- The runs of `el_init`, `el_add` and `el_first`: what has been added, what has been returned, and the time
of the last event returned, which is that of the notice that was current. -/
inductive Reached (du lb dt nlim : Int) : State Event → List (Addition Event) → List Event → Option Int → Prop
  | init {s₀ s : State Event} {note key ind : Nat → Nat} (notesOnce : Injective note) (keysOnce : Injective key) (indOnce : Injective ind)
      (run : elInit du lb dt nlim note key ind s₀ = .ok s) : Reached du lb dt nlim s [] [] none
  | add {s s' : State Event} {added : List (Addition Event)} {returned : List Event} {last : Option Int} {n k2 : Nat} {a : Addition Event}
      (reached : Reached du lb dt nlim s added returned last) (freshNotice : n ∉ s.notices) (freshKey : k2 ∉ s.keys)
      (early : lb ≤ a.time) (late : a.time < INFINITY) (after : ∀ t ∈ last, t ≤ a.time)
      (run : Settles (fun fuel => elAdd n k2 a.event a.time a.id fuel s) (.ok s')) :
      Reached du lb dt nlim s' (added ++ [a]) returned last
  | first {s s' : State Event} {added : List (Addition Event)} {returned : List Event} {last : Option Int} {event : Option Event}
      (reached : Reached du lb dt nlim s added returned last) (run : Settles (fun fuel => elFirst fuel s) (.ok (s', event))) :
      Reached du lb dt nlim s' added (returned ++ event.toList) ((s.current.map s.time).or last)

structure StableQueue (lb : Int) (s : State Event) (added : List (Addition Event)) (returned : List Event) (last : Option Int) : Prop where
  /-- Those returned and those that are still in the list are those added, in the order of time and of addition. -/
  queue : ∃ groups order waiting, Listed s groups ∧ Kept Addition.time added order waiting ∧
    returned = order.map (fun x => x.1.event) ∧ events s groups = waiting.map entry
  adds : ∀ n k2 (a : Addition Event), n ∉ s.notices → k2 ∉ s.keys → lb ≤ a.time → a.time < INFINITY →
    ∃ s', Settles (fun fuel => elAdd n k2 a.event a.time a.id fuel s) (.ok s')
  returns : Settles (fun fuel => elFirst fuel s) (.error .overflow) ∨
    ∃ s' event, Settles (fun fuel => elFirst fuel s) (.ok (s', event)) ∧ (event = none ↔ returned.length = added.length)

theorem listed_of_rep {groups : List Group} {marks : List Nat} (rep : Rep s groups marks) : Listed s groups where
  notices := rep.notes
  keys := rep.grouped.keys
  index := by
    obtain ⟨i, M, rfl⟩ := List.exists_cons_of_ne_nil (show marks ≠ [] from fun nothing => by
      have many := rep.grouped.many
      simp [nothing] at many)
    have marked := rep.grouped.marked
    have inside : s.ikey i ∈ dummyKeys s groups := by
      refine List.mem_of_mem_tail ?_
      rw [marked]
      simp
    obtain ⟨g, member, _, same⟩ := mem_dummyKeys.mp inside
    exact ⟨i, rep.grouped.index.1, same ▸ List.mem_map_of_mem member⟩
  notice := fun g member => (rep.grouped.held g member).notice
  time := fun g member => (rep.grouped.held g member).ktime
  numnote := fun g member => by
    rw [(rep.grouped.held g member).numnote]
    simp [Group.notes]
  sorted := Ordered.times rep.ordered
  once := rep.grouped.once

structure Inv (lb : Int) (s : State Event) (added : List (Addition Event)) (returned : List Event) (last : Option Int)
    (groups : List Group) (marks : List Nat) (order waiting : List (Addition Event × Nat)) : Prop where
  rep : Rep s groups marks
  lb : s.LB = lb
  kept : Kept Addition.time added order waiting
  returned : returned = order.map (fun x => x.1.event)
  events : events s groups = waiting.map entry
  last : last = order.getLast?.map (fun x => x.1.time)

section calls
variable {added : List (Addition Event)} {returned : List Event} {last : Option Int} {groups groups' : List Group} {marks : List Nat}
  {order waiting : List (Addition Event × Nat)} {n k2 : Nat} {a : Addition Event}

theorem events_added {event : Event} {t id : Int} (new : Added n event t id s s' (flat groups) (flat groups')) :
    ∃ E1 E2, events s groups = E1 ++ E2 ∧ events s' groups' = E1 ++ (t, id, some event) :: E2 ∧
      (∀ x ∈ E1, x.1 ≤ t) ∧ ∀ x ∈ E2, t < x.1 := by
  obtain ⟨L1, L2, old, now, first, second⟩ := new.place
  have fresh := new.fresh
  rw [old] at fresh
  have kept : ∀ L : List Nat, (∀ m ∈ L, m ≠ n) →
      (L.filter (real s')).map (fun n => (s'.time n, s'.id n, s'.event n)) = (L.filter (real s)).map (fun n => (s.time n, s.id n, s.event n)) := by
    intro L apart
    have same : L.filter (real s') = L.filter (real s) := by
      refine List.filter_congr (fun m member => ?_)
      rw [real, real, new.isdummy, update_of_ne (apart m member)]
    rw [same]
    refine List.map_congr_left (fun m member => ?_)
    have other := apart m (List.mem_filter.mp member).1
    rw [new.time, new.id, new.event, update_of_ne other, update_of_ne other, update_of_ne other]
  have apart : ∀ m ∈ L1 ++ L2, m ≠ n := fun m member same => fresh (same ▸ member)
  have isReal : real s' n = true := by simp [real, new.isdummy]
  refine ⟨(L1.filter (real s)).map (fun n => (s.time n, s.id n, s.event n)), (L2.filter (real s)).map (fun n => (s.time n, s.id n, s.event n)),
    ?_, ?_, ?_, ?_⟩
  · rw [events, old, List.filter_append, List.map_append]
  · rw [events, now, List.filter_append, List.filter_cons_of_pos isReal, List.map_append, List.map_cons,
      kept L1 (fun m member => apart m (List.mem_append_left _ member)), kept L2 (fun m member => apart m (List.mem_append_right _ member)),
      new.time, new.id, new.event, update_self, update_self, update_self]
  · intro x member
    obtain ⟨m, inside, rfl⟩ := List.mem_map.mp member
    exact first m (List.mem_filter.mp inside).1
  · intro x member
    obtain ⟨m, inside, rfl⟩ := List.mem_map.mp member
    exact second m (List.mem_filter.mp inside).1

theorem Inv.add (inv : Inv lb s added returned last groups marks order waiting) (freshNote : n ∉ s.notices) (freshKey : k2 ∉ s.keys)
    (early : lb ≤ a.time) (late : a.time < INFINITY) :
    ∃ s', Settles (fun fuel => elAdd n k2 a.event a.time a.id fuel s) (.ok s') ∧
      ((∀ t ∈ last, t ≤ a.time) → ∃ groups' waiting', Inv lb s' (added ++ [a]) returned last groups' marks order waiting') := by
  have early' : s.LB ≤ a.time := inv.lb.trans_le early
  obtain ⟨s', groups', run, rep', new⟩ := elAdd_done a.event a.id inv.rep freshNote freshKey early' late
    (show (flat groups).length + marks.length < (flat groups).length + marks.length + 1 by omega)
  refine ⟨s', (elAdd_steady n k2 a.event a.time a.id).settles run (by rintro ⟨⟩), fun after => ?_⟩
  obtain ⟨E1, E2, old, now, first, second⟩ := events_added new
  obtain ⟨W1, W2, rfl, map1, map2⟩ := List.map_eq_append_iff.mp (inv.events.symm.trans old)
  refine ⟨groups', W1 ++ (a, added.length) :: W2, rep', new.lb.trans inv.lb, ?_, inv.returned, ?_, inv.last⟩
  · refine inv.kept.enter ?_ ?_ ?_
    · intro y member
      refine after y.1.time ?_
      rw [inv.last, Option.mem_def.mp member]
      rfl
    · intro y member
      exact first (entry y) (map1 ▸ List.mem_map_of_mem member)
    · intro y member
      exact second (entry y) (map2 ▸ List.mem_map_of_mem member)
  · rw [now, List.map_append, List.map_cons, map1, map2]
    rfl

theorem events_taken {c : Nat} (taken : Taken c s s' groups groups') :
    events s groups = (s.time c, s.id c, s.event c) :: events s' groups' := by
  have same : real s' = real s := by
    funext n
    simp [real, taken.isdummy]
  rw [events, events, taken.reals, List.map_cons, same, List.cons.injEq]
  refine ⟨rfl, List.map_congr_left (fun n member => ?_)⟩
  have isReal : s.isdummy n = false := by simpa [real] using (List.mem_filter.mp member).2
  rw [taken.time n isReal, taken.id, taken.event]

theorem elEmpty_iff (rep : Rep s groups marks) : elEmpty s = true ↔ events s groups = [] := by
  rw [elEmpty, Option.isNone_iff_eq_none, rep.current, ← List.head?_filter, List.head?_eq_none_iff, events, List.map_eq_nil_iff]

theorem current_none (inv : Inv lb s added returned last groups marks order waiting) : s.current = none ↔ waiting = [] := by
  rw [← Option.isNone_iff_eq_none, ← elEmpty, elEmpty_iff inv.rep, inv.events, List.map_eq_nil_iff]

theorem Inv.first (inv : Inv lb s added returned last groups marks order waiting) :
    Settles (fun fuel => elFirst fuel s) (.error .overflow) ∨
      ∃ s' event groups' marks' order' waiting', Settles (fun fuel => elFirst fuel s) (.ok (s', event)) ∧ (event = none ↔ waiting = []) ∧
        Inv lb s' added (returned ++ event.toList) ((s.current.map s.time).or last) groups' marks' order' waiting' := by
  cases current : s.current with
  | none =>
    have nothing := (current_none inv).mp current
    refine .inr ⟨s, none, groups, marks, order, waiting, ⟨0, fun fuel _ => ?_⟩, by simp [nothing], by simpa using inv⟩
    show elFirst fuel s = _
    unfold elFirst
    rw [current]
    cases s.index <;> rfl
  | some c =>
    rcases elFirst_done inv.rep current (show (flat groups).length + marks.length + slack s marks <
      (flat groups).length + marks.length + slack s marks + 1 by omega) with
      stopped | ⟨s', groups', marks', run, rep', taken⟩
    · exact .inl (elFirst_steady.settles stopped (by rintro ⟨⟩))
    · have shape := inv.events
      rw [events_taken taken] at shape
      obtain ⟨x, waiting', rfl, xEntry, rest⟩ := List.map_eq_cons_iff.mp shape.symm
      have parts : x.1.time = s.time c ∧ x.1.id = s.id c ∧ some x.1.event = s.event c := by
        simpa [entry] using xEntry
      refine .inr ⟨s', s.event c, groups', marks', order ++ [x], waiting', elFirst_steady.settles run (by rintro ⟨⟩), ?_, ?_⟩
      · rw [← parts.2.2]
        simp
      · refine ⟨rep', taken.lb.trans inv.lb, inv.kept.take, ?_, rest.symm, ?_⟩
        · rw [← parts.2.2, inv.returned]
          simp
        · simp [parts.1]

theorem reached_inv (duTwo : 2 ≤ du) (dtOne : 1 ≤ dt) (nlimTwo : 2 ≤ nlim) (reached : Reached du lb dt nlim s added returned last) :
    ∃ groups marks order waiting, Inv lb s added returned last groups marks order waiting := by
  induction reached with
  | @init s₀ s note key ind notesOnce keysOnce indOnce run =>
    rcases elInit_done lb s₀ notesOnce keysOnce indOnce duTwo dtOne nlimTwo with stopped | ⟨s', groups, marks, run', fresh⟩
    · rw [run] at stopped
      cases stopped
    · obtain rfl : s = s' := Except.ok.inj (run.symm.trans run')
      have nothing : (flat groups).filter (real s) = [] :=
        List.filter_eq_nil_iff.mpr (fun n member => by simp [real, fresh.dummies n member])
      exact ⟨groups, marks, [], [], fresh.rep, fresh.lb, Kept.start, rfl, by simp [events, nothing], rfl⟩
  | @add s s' added returned last n k2 a reached freshNotice freshKey early late after run ih =>
    obtain ⟨groups, marks, order, waiting, inv⟩ := ih
    obtain ⟨s'', run', kept⟩ := inv.add freshNotice freshKey early late
    obtain rfl : s' = s'' := Except.ok.inj (run.unique run')
    obtain ⟨groups', waiting', inv'⟩ := kept after
    exact ⟨groups', marks, order, waiting', inv'⟩
  | @first s s' added returned last event reached run ih =>
    obtain ⟨groups, marks, order, waiting, inv⟩ := ih
    rcases inv.first with stopped | ⟨s'', event', groups', marks', order', waiting', run', _, inv'⟩
    · cases run.unique stopped
    · cases Except.ok.inj (run.unique run')
      exact ⟨groups', marks', order', waiting', inv'⟩

end calls

/-- From `el_init` on, as long as no index time is beyond the last one, the list is a stable priority queue. -/
theorem stable_queue (duTwo : 2 ≤ du) (dtOne : 1 ≤ dt) (nlimTwo : 2 ≤ nlim) :
    (∀ (s₀ : State Event) (note key ind : Nat → Nat), Injective note → Injective key → Injective ind →
      elInit du lb dt nlim note key ind s₀ = .error .overflow ∨ ∃ s, elInit du lb dt nlim note key ind s₀ = .ok s) ∧
    ∀ (s : State Event) (added : List (Addition Event)) (returned : List Event) (last : Option Int),
      Reached du lb dt nlim s added returned last → StableQueue lb s added returned last := by
  refine ⟨fun s₀ note key ind notesOnce keysOnce indOnce => ?_, fun s added returned last reached => ?_⟩
  · rcases elInit_done lb s₀ notesOnce keysOnce indOnce duTwo dtOne nlimTwo with stopped | ⟨s', groups, marks, run, _⟩
    · exact .inl stopped
    · exact .inr ⟨s', run⟩
  · obtain ⟨groups, marks, order, waiting, inv⟩ := reached_inv duTwo dtOne nlimTwo reached
    refine ⟨⟨groups, order, waiting, listed_of_rep inv.rep, inv.kept, inv.returned, inv.events⟩, ?_, ?_⟩
    · intro n k2 a freshNotice freshKey early late
      obtain ⟨s', run, _⟩ := inv.add freshNotice freshKey early late
      exact ⟨s', run⟩
    · rcases inv.first with stopped | ⟨s', event, _, _, _, _, run, nothing, _⟩
      · exact .inl stopped
      · refine .inr ⟨s', event, run, nothing.trans ?_⟩
        have lengths := inv.kept.length
        rw [inv.returned, List.length_map, ← lengths]
        constructor
        · rintro rfl
          simp
        · intro same
          exact List.eq_nil_of_length_eq_zero (by omega)

def memory : State Nat where
  DU := 0
  LB := 0
  DT := 0
  NLIM := 0
  time := fun _ => 0
  id := fun _ => 0
  event := fun _ => none
  isdummy := fun _ => false
  key := fun _ => none
  left := fun _ => none
  right := fun _ => none
  ktime := fun _ => 0
  numnote := fun _ => 0
  notice := fun _ => 0
  kleft := fun _ => none
  kright := fun _ => none
  ikey := fun _ => 0
  iright := fun _ => none
  current := none
  index := none
  notices := []
  keys := []

theorem ok_of_toOption {α : Type} {e : Except Fault α} {a : α} (some_ : e.toOption = some a) : e = .ok a := by
  cases e with
  | ok b => exact congrArg Except.ok (Option.some.inj some_)
  | error _ => cases some_

private def story : List (Option (Nat × Addition Nat)) → State Nat → List (Addition Nat) → List Nat → Option Int →
    Option (State Nat × List (Addition Nat) × List Nat × Option Int)
  | [], s, added, returned, last => some (s, added, returned, last)
  | none :: rest, s, added, returned, last =>
    match elFirst 30 s with
    | .ok (s', event) => story rest s' added (returned ++ event.toList) ((s.current.map s.time).or last)
    | .error _ => none
  | some (n, a) :: rest, s, added, returned, last =>
    if n ∉ s.notices ∧ n ∉ s.keys ∧ 0 ≤ a.time ∧ a.time < INFINITY ∧ ∀ t ∈ last, t ≤ a.time then
      match elAdd n n a.event a.time a.id 30 s with
      | .ok s' => story rest s' (added ++ [a]) returned last
      | .error _ => none
    else none

private theorem story_reached {l : List (Option (Nat × Addition Nat))} {s s' : State Nat} {added added' : List (Addition Nat)}
    {returned returned' : List Nat} {last last' : Option Int} (reached : Reached du 0 dt nlim s added returned last)
    (done : story l s added returned last = some (s', added', returned', last')) : Reached du 0 dt nlim s' added' returned' last' := by
  induction l generalizing s added returned last with
  | nil =>
    cases done
    exact reached
  | cons event rest ih =>
    cases event with
    | none =>
      rw [story] at done
      split at done
      · next s₁ event run => exact ih (reached.first (elFirst_steady.settles run (by rintro ⟨⟩))) done
      · cases done
    | some addition =>
      obtain ⟨n, a⟩ := addition
      rw [story] at done
      split at done
      · next fresh =>
        obtain ⟨freshNotice, freshKey, early, late, after⟩ := fresh
        split at done
        · next s₁ run =>
          exact ih (reached.add freshNotice freshKey early late after ((elAdd_steady n n a.event a.time a.id).settles run (by rintro ⟨⟩))) done
        · cases done
      · cases done

private theorem story_ends : (((elInit 2 0 10 2 id id id memory).toOption.bind fun s =>
    story [some (100, ⟨5, 1, 7⟩), some (101, ⟨3, 2, 8⟩), some (102, ⟨5, 3, 9⟩), none, none] s [] [] none).map fun r => (r.2.1, r.2.2.1)) =
    some ([⟨5, 1, 7⟩, ⟨3, 2, 8⟩, ⟨5, 3, 9⟩], [8, 7]) := by
  decide +kernel

theorem stable_queue_three : ∃ (s : State Nat) (last : Option Int), Reached 2 0 10 2 s [⟨5, 1, 7⟩, ⟨3, 2, 8⟩, ⟨5, 3, 9⟩] [8, 7] last ∧
    StableQueue 0 s [⟨5, 1, 7⟩, ⟨3, 2, 8⟩, ⟨5, 3, 9⟩] [8, 7] last := by
  obtain ⟨⟨s, added, returned, last⟩, done, facts⟩ := Option.map_eq_some_iff.mp story_ends
  obtain ⟨s₀, start, done⟩ := Option.bind_eq_some_iff.mp done
  simp only [Prod.mk.injEq] at facts
  obtain ⟨rfl, rfl⟩ := facts
  have reached := story_reached (@Reached.init Nat 2 0 10 2 memory s₀ id id id injective_id injective_id injective_id (ok_of_toOption start)) done
  exact ⟨s, last, reached, (@stable_queue Nat 2 0 10 2 (by decide) (by decide) (by decide)).2 s _ _ last reached⟩

end Svr4.ElmHistory
