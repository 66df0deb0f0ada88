import Svr4.Library.HoleHeap
import Svr4.Callout

/-! Each operation on the callout table keeps the heap and changes the entries as
it should. -/

namespace Svr4.Proofs.CalloutHeap
open Function HoleHeap Callout

def size (s : Callouts) : Nat := (s.calllimit + 1).toNat

def entries (s : Callouts) : Multiset Callo := contents s.callout (size s)

structure Valid (s : Callouts) : Prop where
  lower : -1 ≤ s.calllimit
  upper : s.calllimit < s.vCall
  heap : IsHeap Callo.cTime s.callout (size s)

structure Moved (f : Nat → Callo) (n j : Nat) (t : Int) (f' : Nat → Callo) (j' : Nat) : Prop where
  hole : Hole Callo.cTime f' n j'
  above : Above Callo.cTime f' n j' t
  below : Below Callo.cTime f' j' t
  same : ∀ e, contents (update f' j' e) n = contents (update f j e) n
  beyond : ∀ i, n ≤ i → f' i = f i

namespace Moved
variable {f f' : Nat → Callo} {n j j' k : Nat} {t : Int}

theorem fill (moved : Moved f n j t f' j') {e : Callo} (time : e.cTime = t) :
    IsHeap Callo.cTime (update f' j' e) n :=
  moved.hole.fill (time ▸ moved.above) (time ▸ moved.below)

theorem step (moved : Moved (update f j (f k)) n k t f' j') (first : j < n) (second : k < n) (distinct : k ≠ j) :
    Moved f n j t f' j' := by
  refine ⟨moved.hole, moved.above, moved.below, ?_, ?_⟩
  · intro e
    rw [moved.same e]
    exact contents_move f e first second distinct
  · intro i outside
    rw [moved.beyond i outside, update_of_ne (by omega)]

end Moved

private theorem shiftRight_parent (j : Nat) : (j - 1) >>> 1 = parent j := by
  simp only [Nat.shiftRight_succ, Nat.shiftRight_zero, parent]

theorem heapUp_spec (f : Nat → Callo) (t : Int) (n j : Nat) (hole : Hole Callo.cTime f n j)
    (above : Above Callo.cTime f n j t) : Moved f n j t (heapUp f t j).1 (heapUp f t j).2 := by
  induction f, j using heapUp.induct t with
  | case1 f j positive k larger ih =>
    have parentHole : k = parent j := shiftRight_parent j
    have smaller := parent_lt positive
    rw [heapUp, if_pos positive, if_pos larger]
    rw [parentHole] at ih larger
    have moved := ih (hole.up positive) (hole.up_above positive larger.le)
    rw [show (j - 1) >>> 1 = parent j from shiftRight_parent j]
    exact moved.step hole.inside (by have := hole.inside; omega) smaller.ne
  | case2 f j positive k larger =>
    rw [heapUp, if_pos positive, if_neg larger]
    have parentHole : k = parent j := shiftRight_parent j
    rw [parentHole, not_lt] at larger
    have here : 1 + (j - 1) = j := by omega
    rw [here]
    exact ⟨hole, above, fun _ => larger, fun _ => rfl, fun _ _ => rfl⟩
  | case3 f j root =>
    rw [heapUp, if_neg root]
    exact ⟨hole, above, fun positive => absurd positive root, fun _ => rfl, fun _ _ => rfl⟩

private theorem shiftLeft_left (j : Nat) : 1 + (j <<< 1) = 2 * j + 1 := by
  simp only [Nat.shiftLeft_succ, Nat.shiftLeft_zero]
  omega

private theorem child_spec (f : Nat → Callo) (calllimit : Int) (n j : Nat) (last : calllimit + 1 = n)
    (inner : ¬ calllimit < ((1 + (j <<< 1) : Nat) : Int)) :
    let k := child f calllimit (1 + (j <<< 1))
    0 < k ∧ parent k = j ∧ k < n ∧ ∀ i, 0 < i → i < n → parent i = j → (f k).cTime ≤ (f i).cTime := by
  rw [shiftLeft_left] at inner ⊢
  have left := le_child f calllimit (2 * j + 1)
  refine ⟨by omega, ?_, ?_, ?_⟩
  · rw [parent_eq_iff (by omega)]
    unfold child
    split <;> omega
  · unfold child
    split <;> omega
  · intro i positive inside below
    unfold child
    rcases (parent_eq_iff positive).mp below with rfl | rfl
    · split
      · next smaller => exact smaller.2.le
      · exact le_rfl
    · split
      · exact le_rfl
      · next larger =>
        have second : ((2 * j + 1 : Nat) : Int) < calllimit := by omega
        exact not_lt.mp (fun less => larger ⟨second, less⟩)

theorem heapDown_spec (f : Nat → Callo) (calllimit : Int) (t : Int) (n j : Nat) (last : calllimit + 1 = n)
    (hole : Hole Callo.cTime f n j) (below : Below Callo.cTime f j t) :
    Moved f n j t (heapDown f calllimit t j).1 (heapDown f calllimit t j).2 := by
  induction f, j using heapDown.induct calllimit t with
  | case1 f j left leaf =>
    rw [heapDown, if_pos leaf]
    refine ⟨hole, ?_, below, fun _ => rfl, fun _ _ => rfl⟩
    intro i positive inside child
    have := (parent_eq_iff positive).mp child
    have := shiftLeft_left j
    omega
  | case2 f j left inner k fits =>
    rw [heapDown, if_neg inner, if_pos fits]
    obtain ⟨_, _, _, smallest⟩ := child_spec f calllimit n j last inner
    refine ⟨hole, ?_, below, fun _ => rfl, fun _ _ => rfl⟩
    intro i positive inside child
    exact fits.trans (smallest i positive inside child)
  | case3 f j left inner k sinks ih =>
    rw [heapDown, if_neg inner, if_neg sinks]
    obtain ⟨positive, child, inside, smallest⟩ := child_spec f calllimit n j last inner
    have larger : j < k := child ▸ parent_lt positive
    have down := hole.down positive inside child smallest
    have moved := ih down (Hole.down_below child (not_le.mp sinks).le)
    exact moved.step hole.inside inside larger.ne'

theorem initial_valid (vCall : Nat) (lbolt : Int) : Valid (initial vCall lbolt) := by
  refine ⟨le_rfl, ?_, ?_⟩
  · simp only [initial]
    omega
  · intro i _ inside
    simp [size, initial] at inside

theorem timeout_none (s : Callouts) (valid : Valid s) (fun_ arg : Nat) (tim : Int) :
    timeout s fun_ arg tim = none ↔ (entries s).card = s.vCall := by
  have lower := valid.lower
  have upper := valid.upper
  simp only [timeout, entries, card_contents, size]
  split
  · next full => simp only [true_iff]; omega
  · next room => simp only [reduceCtorEq, false_iff]; omega

theorem timeout_spec (s s' : Callouts) (valid : Valid s) (fun_ arg : Nat) (tim id : Int)
    (call : timeout s fun_ arg tim = some (id, s')) :
    id = int32 (s.timeid + 1) ∧ s'.timeid = id ∧ s'.lbolt = s.lbolt ∧ s'.vCall = s.vCall ∧ Valid s' ∧
      entries s' = ⟨int32 (s.lbolt + tim), id, arg, fun_⟩ ::ₘ entries s := by
  have lower := valid.lower
  have upper := valid.upper
  simp only [timeout] at call
  split at call
  · cases call
  · next room =>
    simp only [Option.some.injEq, Prod.mk.injEq] at call
    obtain ⟨rfl, rfl⟩ := call
    set t := int32 (s.lbolt + tim)
    set e : Callo := ⟨t, int32 (s.timeid + 1), arg, fun_⟩
    have grown : (s.calllimit + 1 + 1).toNat = size s + 1 := by
      simp only [size]
      omega
    have hole : Hole Callo.cTime s.callout (size s + 1) (size s) := valid.heap.grow
    have leaf : Above Callo.cTime s.callout (size s + 1) (size s) t := by
      intro i positive inside child
      have := parent_lt positive
      omega
    have moved := heapUp_spec s.callout t _ _ hole leaf
    refine ⟨rfl, rfl, rfl, rfl, ⟨by simp only; omega, by simp only; omega, ?_⟩, ?_⟩
    · simp only [size, grown]
      exact moved.fill rfl
    · simp only [entries, size, grown]
      rw [show (s.calllimit + 1).toNat = size s from rfl, moved.same e, contents_succ, update_self]
      rw [contents_beyond _ _ le_rfl]

structure Removed (s s' : Callouts) (f : Nat) : Prop where
  valid : Valid s'
  entries_eq : entries s = s.callout f ::ₘ entries s'
  lbolt : s'.lbolt = s.lbolt
  timeid : s'.timeid = s.timeid
  vCall : s'.vCall = s.vCall

private theorem removed_last (s : Callouts) (valid : Valid s) (f : Nat) (last : (f : Int) = s.calllimit) :
    Removed s { s with calllimit := s.calllimit - 1 } f := by
  have upper := valid.upper
  have shrunk : size s = f + 1 := by
    simp only [size]
    omega
  have size' : size { s with calllimit := s.calllimit - 1 } = f := by
    simp only [size]
    omega
  refine ⟨⟨by simp only; omega, by simp only; omega, ?_⟩, ?_, rfl, rfl, rfl⟩
  · rw [size']
    exact valid.heap.mono (by omega)
  · simp only [entries, size', shrunk, contents_succ]

private theorem removed_inner (s : Callouts) (valid : Valid s) (f : Nat) (inside : (f : Int) < s.calllimit)
    (callout : Nat → Callo) (j : Nat)
    (moved : Moved s.callout s.calllimit.toNat f (s.callout s.calllimit.toNat).cTime callout j) :
    Removed s { s with callout := update callout j (callout s.calllimit.toNat), calllimit := s.calllimit - 1 } f := by
  have upper := valid.upper
  have same : callout s.calllimit.toNat = s.callout s.calllimit.toNat := moved.beyond _ le_rfl
  have shrunk : size s = s.calllimit.toNat + 1 := by
    simp only [size]
    omega
  have size' : (s.calllimit - 1 + 1).toNat = s.calllimit.toNat := by omega
  refine ⟨⟨by simp only; omega, by simp only; omega, ?_⟩, ?_, rfl, rfl, rfl⟩
  · simp only [size, size', same]
    exact moved.fill rfl
  · simp only [entries, shrunk]
    simp only [size, size', same]
    rw [moved.same, contents_update _ _ (by omega), contents_succ]

theorem remove_spec (s : Callouts) (valid : Valid s) (f : Nat) (inside : f < size s) : Removed s (remove s f) f := by
  have upper := valid.upper
  simp only [size] at inside
  simp only [remove]
  split
  · next last => exact removed_last s valid f last
  · next inner =>
    have smaller : f < s.calllimit.toNat := by omega
    have heap : IsHeap Callo.cTime s.callout s.calllimit.toNat :=
      valid.heap.mono (by simp only [size]; omega)
    have hole := heap.hole smaller
    rw [if_pos (by omega : s.calllimit - 1 ≥ 0), shiftRight_parent]
    apply removed_inner s valid f (by omega)
    -- The last entry goes up only when it is due before the parent of the hole.
    split
    · next up =>
      apply heapUp_spec _ _ _ _ hole
      intro i positive last child
      exact up.2.le.trans (hole.around i positive last child up.1)
    · next down =>
      apply heapDown_spec _ _ _ _ _ (by omega) hole
      intro positive
      exact not_lt.mp (fun less => down ⟨positive, less⟩)

theorem search_none (s : Callouts) (id : Int) : search s id = none ↔ ∀ e ∈ entries s, e.cId ≠ id := by
  simp [search, entries, mem_contents, size]

theorem search_some (s : Callouts) (id : Int) (f : Nat) (found : search s id = some f) :
    f < size s ∧ (s.callout f).cId = id := by
  have inside := List.mem_of_find?_eq_some found
  have same := List.find?_some found
  simp only [List.mem_range, decide_eq_true_eq] at inside same
  exact ⟨inside, same⟩

theorem untimeout_spec (s : Callouts) (valid : Valid s) (id : Int) :
    (untimeout s id = (-1, s) ∧ ∀ e ∈ entries s, e.cId ≠ id) ∨
      ∃ (f : Nat) (s' : Callouts), untimeout s id = ((f : Int), s') ∧ (s.callout f).cId = id ∧ Removed s s' f := by
  simp only [untimeout]
  cases found : search s id with
  | none => exact .inl ⟨rfl, (search_none s id).mp found⟩
  | some f =>
    obtain ⟨inside, same⟩ := search_some s id f found
    exact .inr ⟨f, remove s f, rfl, same, remove_spec s valid f inside⟩

/-- The turn ends the loop just when nothing is due, and else takes out an entry
that is due and has the least time. -/
theorem timeinTurn_spec (s : Callouts) (valid : Valid s) :
    (timeinTurn s = none ∧ ∀ e ∈ entries s, s.lbolt < e.cTime) ∨
      ∃ s', timeinTurn s = some (s.callout 0, s') ∧ (s.callout 0).cTime ≤ s.lbolt ∧
        (∀ e ∈ entries s, (s.callout 0).cTime ≤ e.cTime) ∧ Removed s s' 0 := by
  have lower := valid.lower
  have least : ∀ e ∈ entries s, (s.callout 0).cTime ≤ e.cTime := by
    intro e member
    obtain ⟨i, inside, rfl⟩ := mem_contents.mp member
    exact valid.heap.root_le inside
  simp only [timeinTurn]
  split
  · next due =>
    right
    split
    · next more =>
      have smaller : 0 < s.calllimit.toNat := by omega
      have heap : IsHeap Callo.cTime s.callout s.calllimit.toNat :=
        valid.heap.mono (by simp only [size]; omega)
      have moved := heapDown_spec s.callout (s.calllimit - 1) (s.callout s.calllimit.toNat).cTime _ 0 (by omega)
        (heap.hole smaller) (fun positive => absurd positive (lt_irrefl 0))
      exact ⟨_, rfl, due.1, least, removed_inner s valid 0 (by omega) _ _ moved⟩
    · next last =>
      exact ⟨_, rfl, due.1, least, removed_last s valid 0 (by omega)⟩
  · next idle =>
    refine .inl ⟨rfl, fun e member => ?_⟩
    obtain ⟨i, inside, _⟩ := mem_contents.mp member
    simp only [size] at inside
    have late : s.lbolt < (s.callout 0).cTime := not_le.mp (fun due => idle ⟨due, by omega⟩)
    exact late.trans_le (least e member)

end Svr4.Proofs.CalloutHeap

/-! The callout table over any sequence of calls. The functions that `timein`
calls may call `timeout` and `untimeout` themselves, so a run goes on inside a pass. -/

namespace Svr4.Proofs.CalloutHistory
open Callout CalloutHeap Function

/-- What a run did to the pending calls. `refused` is an `untimeout` that found no
such id. -/
inductive Event
  | added (e : Callo)
  | cancelled (id : Int) (e : Callo)
  | refused (id : Int)
  | fired (e : Callo)
  | tick
  deriving DecidableEq

inductive Call : Callouts → Event → Callouts → Prop
  | timeout {s s' : Callouts} {fun_ arg : Nat} {tim id : Int} (call : timeout s fun_ arg tim = some (id, s')) :
      Call s (.added ⟨int32 (s.lbolt + tim), id, arg, fun_⟩) s'
  | untimeout {s s' : Callouts} {f : Nat} {id : Int} (call : untimeout s id = ((f : Int), s')) :
      Call s (.cancelled id (s.callout f)) s'
  | refused {s s' : Callouts} {id : Int} (call : untimeout s id = (-1, s')) : Call s (.refused id) s'
  | tick {s : Callouts} (lbolt : Int) : Call s .tick { s with lbolt }

inductive Calls : Callouts → List Event → Callouts → Prop
  | nil {s : Callouts} : Calls s [] s
  | cons {s s' s'' : Callouts} {event : Event} {log : List Event} (first : Call s event s')
      (rest : Calls s' log s'') : Calls s (event :: log) s''

/-- One pass of `timein`. What the function of an entry does is any sequence of calls. -/
inductive Timein : Callouts → List Event → Callouts → Prop
  | done {s : Callouts} (idle : timeinTurn s = none) : Timein s [] s
  | turn {s s' s'' final : Callouts} {e : Callo} {inner log : List Event} (due : timeinTurn s = some (e, s'))
      (function : Calls s' inner s'') (rest : Timein s'' log final) :
      Timein s (.fired e :: (inner ++ log)) final

/-- The states at every point of every run, also in the middle of a pass. -/
inductive Run (vCall : Nat) (lbolt : Int) : List Event → Callouts → Prop
  | start : Run vCall lbolt [] (initial vCall lbolt)
  | call {log : List Event} {s s' : Callouts} {event : Event} (before : Run vCall lbolt log s)
      (step : Call s event s') : Run vCall lbolt (log ++ [event]) s'
  | fire {log : List Event} {s s' : Callouts} {e : Callo} (before : Run vCall lbolt log s)
      (step : timeinTurn s = some (e, s')) : Run vCall lbolt (log ++ [.fired e]) s'

def Event.adds : Event → Multiset Callo
  | .added e => {e}
  | _ => 0

def Event.cancels : Event → Multiset Callo
  | .cancelled _ e => {e}
  | _ => 0

def Event.fires : Event → Multiset Callo
  | .fired e => {e}
  | _ => 0

def added (log : List Event) : Multiset Callo := (log.map Event.adds).sum

def cancelled (log : List Event) : Multiset Callo := (log.map Event.cancels).sum

def fired (log : List Event) : Multiset Callo := (log.map Event.fires).sum

section log
variable (log log' : List Event) (event : Event)

@[simp] theorem added_append : added (log ++ log') = added log + added log' := by simp [added]

@[simp] theorem cancelled_append : cancelled (log ++ log') = cancelled log + cancelled log' := by simp [cancelled]

@[simp] theorem fired_append : fired (log ++ log') = fired log + fired log' := by simp [fired]

@[simp] theorem added_single : added [event] = event.adds := by simp [added]

@[simp] theorem cancelled_single : cancelled [event] = event.cancels := by simp [cancelled]

@[simp] theorem fired_single : fired [event] = event.fires := by simp [fired]

end log

structure Step (s : Callouts) (event : Event) (s' : Callouts) : Prop where
  valid : Valid s'
  vCall : s'.vCall = s.vCall
  balance : entries s' + event.cancels + event.fires = entries s + event.adds
  timeid : s'.timeid = int32 (s.timeid + event.adds.card)
  fresh : event.adds = 0 ∨ ∃ e, event.adds = {e} ∧ e.cId = int32 (s.timeid + 1)
  named : ∀ id e, event = .cancelled id e → e.cId = id

private theorem removed_step {s s' : Callouts} {f : Nat} (removed : Removed s s' f) (range : s.timeid = int32 s.timeid)
    (event : Event) (none_ : event.adds = 0) (one : event.cancels + event.fires = {s.callout f})
    (named : ∀ id e, event = .cancelled id e → e.cId = id) : Step s event s' := by
  refine ⟨removed.valid, removed.vCall, ?_, ?_, .inl none_, named⟩
  · rw [none_, add_zero, add_assoc, one, removed.entries_eq, add_comm, Multiset.singleton_add]
  · rw [removed.timeid, none_]
    simpa using range

private theorem still_step {s s' : Callouts} (valid : Valid s') (same : entries s' = entries s)
    (vCall : s'.vCall = s.vCall) (timeid : s'.timeid = s.timeid) (range : s.timeid = int32 s.timeid) (event : Event)
    (adds : event.adds = 0) (cancels : event.cancels = 0) (fires : event.fires = 0)
    (named : ∀ id e, event = .cancelled id e → e.cId = id) : Step s event s' := by
  refine ⟨valid, vCall, ?_, ?_, .inl adds, named⟩
  · rw [adds, cancels, fires, same, add_zero]
  · rw [timeid, adds]
    simpa using range

private theorem untimeout_cases {s s' : Callouts} {id answer : Int} (valid : Valid s) (call : untimeout s id = (answer, s')) :
    (answer = -1 ∧ s' = s) ∨ ∃ f : Nat, answer = f ∧ (s.callout f).cId = id ∧ Removed s s' f := by
  rcases untimeout_spec s valid id with ⟨absent, _⟩ | ⟨f, after, found, same, removed⟩
  · simp only [absent, Prod.mk.injEq] at call
    exact .inl ⟨call.1.symm, call.2.symm⟩
  · simp only [found, Prod.mk.injEq] at call
    obtain ⟨rfl, rfl⟩ := call
    exact .inr ⟨f, rfl, same, removed⟩

theorem call_step {s s' : Callouts} {event : Event} (valid : Valid s) (range : s.timeid = int32 s.timeid)
    (call : Call s event s') : Step s event s' ∧ (event ≠ .tick → s'.lbolt = s.lbolt) ∧ event.fires = 0 := by
  cases call with
  | @timeout _ fun_ arg tim id call =>
    obtain ⟨rfl, timeid, clock, vCall, valid', entries'⟩ := timeout_spec _ _ valid _ _ _ _ call
    refine ⟨⟨valid', vCall, ?_, ?_, .inr ⟨_, rfl, rfl⟩, by simp⟩, fun _ => clock, rfl⟩
    · simp only [Event.adds, Event.cancels, Event.fires, add_zero, entries']
      rw [← Multiset.singleton_add, add_comm]
    · simp [Event.adds, timeid]
  | @untimeout _ f id call =>
    rcases untimeout_cases valid call with ⟨absent, _⟩ | ⟨g, equal, same, removed⟩
    · omega
    · rw [Nat.cast_inj] at equal
      subst equal
      refine ⟨removed_step removed range _ rfl (add_zero _) ?_, fun _ => removed.lbolt, rfl⟩
      rintro _ _ ⟨⟩
      exact same
  | @refused _ id call =>
    rcases untimeout_cases valid call with ⟨_, rfl⟩ | ⟨g, equal, _⟩
    · exact ⟨still_step valid rfl rfl rfl range _ rfl rfl rfl (by simp), fun _ => rfl, rfl⟩
    · omega
  | tick lbolt =>
    have ticked : Valid { s with lbolt } := ⟨valid.lower, valid.upper, valid.heap⟩
    have step : Step s .tick { s with lbolt } :=
      still_step (s := s) ticked rfl rfl rfl range .tick rfl rfl rfl (by simp)
    exact ⟨step, fun still => absurd rfl still, rfl⟩

theorem fire_step {s s' : Callouts} {e : Callo} (valid : Valid s) (range : s.timeid = int32 s.timeid)
    (turn : timeinTurn s = some (e, s')) :
    Step s (.fired e) s' ∧ s'.lbolt = s.lbolt ∧
      e ∈ entries s ∧ e.cTime ≤ s.lbolt ∧ ∀ other ∈ entries s, e.cTime ≤ other.cTime := by
  rcases timeinTurn_spec s valid with ⟨idle, _⟩ | ⟨after, pops, due, least, removed⟩
  · rw [idle] at turn
    cases turn
  · rw [pops] at turn
    cases turn
    have member : s.callout 0 ∈ entries s := by
      rw [removed.entries_eq]
      exact Multiset.mem_cons_self _ _
    exact ⟨removed_step removed range _ rfl (zero_add _) (by simp), removed.lbolt, member, due, least⟩

theorem int32_int32_add (n m : Int) : int32 (int32 n + m) = int32 (n + m) := by
  simp [int32]

theorem int32_injective {n m : Int} (near : |n - m| < 2 ^ 32) (same : int32 n = int32 m) : n = m := by
  have residue : ∀ x : Int, int32 x % ((2 ^ 32 : Nat) : Int) = x % ((2 ^ 32 : Nat) : Int) := fun _ => Int.bmod_emod
  have residues : n % ((2 ^ 32 : Nat) : Int) = m % ((2 ^ 32 : Nat) : Int) := by rw [← residue n, same, residue m]
  rw [abs_lt] at near
  omega

structure Reached (vCall : Nat) (log : List Event) (s : Callouts) : Prop where
  valid : Valid s
  vCall : s.vCall = vCall
  balance : entries s + cancelled log + fired log = added log
  timeid : s.timeid = int32 (added log).card
  ids : (added log).map Callo.cId = (Multiset.range (added log).card).map (fun i : Nat => int32 (i + 1))
  named : ∀ id e, .cancelled id e ∈ log → e.cId = id

namespace Reached
variable {vCall : Nat} {log : List Event} {s s' : Callouts} {event : Event}

theorem range (reached : Reached vCall log s) : s.timeid = int32 s.timeid := by
  have := int32_int32_add (added log).card 0
  rw [add_zero, add_zero, ← reached.timeid] at this
  exact this.symm

theorem step (reached : Reached vCall log s) (step : Step s event s') : Reached vCall (log ++ [event]) s' := by
  refine ⟨step.valid, step.vCall.trans reached.vCall, ?_, ?_, ?_, ?_⟩
  · simp only [added_append, cancelled_append, fired_append, added_single, cancelled_single, fired_single]
    calc entries s' + (cancelled log + event.cancels) + (fired log + event.fires)
        = (entries s' + event.cancels + event.fires) + (cancelled log + fired log) := by abel
      _ = (entries s + event.adds) + (cancelled log + fired log) := by rw [step.balance]
      _ = (entries s + cancelled log + fired log) + event.adds := by abel
      _ = added log + event.adds := by rw [reached.balance]
  · rw [step.timeid, reached.timeid, int32_int32_add]
    simp
  · rcases step.fresh with none_ | ⟨e, one, fresh⟩
    · simpa [none_] using reached.ids
    · rw [reached.timeid, int32_int32_add] at fresh
      simp only [added_append, added_single, one, Multiset.map_add, reached.ids, Multiset.map_singleton, fresh,
        Multiset.card_add, Multiset.card_singleton, Multiset.range_succ, Multiset.map_cons]
      rw [add_comm, Multiset.singleton_add]
  · intro id e member
    rcases List.mem_append.mp member with old | new
    · exact reached.named id e old
    · exact step.named id e (List.mem_singleton.mp new).symm

theorem ids_nodup (reached : Reached vCall log s) (few : (added log).card ≤ 2 ^ 32) :
    ((entries s).map Callo.cId).Nodup := by
  have all : ((added log).map Callo.cId).Nodup := by
    rw [reached.ids]
    apply Multiset.Nodup.map_on _ (Multiset.nodup_range _)
    intro i inside j inside' same
    rw [Multiset.mem_range] at inside inside'
    have close : |((i : Int) + 1) - (j + 1)| < 2 ^ 32 := by
      rw [abs_lt]
      omega
    have := int32_injective close same
    omega
  rw [← reached.balance, add_assoc, Multiset.map_add] at all
  exact (Multiset.nodup_add.mp all).1

end Reached

section run
variable {vCall : Nat} {lbolt : Int} {log log' : List Event} {s s' : Callouts}

section
variable (run : Run vCall lbolt log s)
include run

theorem Run.reached : Reached vCall log s := by
  induction run with
  | start => exact ⟨initial_valid vCall lbolt, rfl, rfl, rfl, rfl, by simp⟩
  | call _ call ih => exact ih.step (call_step ih.valid ih.range call).1
  | fire _ turn ih => exact ih.step (fire_step ih.valid ih.range turn).1

theorem Run.fired_least
    (before after : List Event) (e : Callo) (split_ : log = before ++ .fired e :: after) :
    ∃ mid, Run vCall lbolt before mid ∧ e ∈ entries mid ∧ e.cTime ≤ mid.lbolt ∧
      ∀ other ∈ entries mid, e.cTime ≤ other.cTime := by
  induction run generalizing after with
  | start => simp at split_
  | @call log s s' event earlier call ih =>
    rcases List.eq_nil_or_concat after with rfl | ⟨after, last, rfl⟩
    · obtain ⟨rfl, same⟩ := List.append_inj' split_ rfl
      rw [List.singleton_inj] at same
      subst same
      cases call
    · rw [List.concat_eq_append, ← List.cons_append, ← List.append_assoc] at split_
      exact ih after (List.append_inj' split_ rfl).1
  | @fire log s s' fired earlier turn ih =>
    rcases List.eq_nil_or_concat after with rfl | ⟨after, last, rfl⟩
    · obtain ⟨rfl, same⟩ := List.append_inj' split_ rfl
      simp only [List.cons.injEq, Event.fired.injEq, and_true] at same
      subst same
      exact ⟨s, earlier, (fire_step earlier.reached.valid earlier.reached.range turn).2.2⟩
    · rw [List.concat_eq_append, ← List.cons_append, ← List.append_assoc] at split_
      exact ih after (List.append_inj' split_ rfl).1

theorem Run.calls (calls : Calls s log' s') : Run vCall lbolt (log ++ log') s' := by
  induction calls generalizing log with
  | nil => simpa using run
  | cons first _ ih => simpa using ih (run.call first)

theorem Run.timein (pass : Timein s log' s') :
    Run vCall lbolt (log ++ log') s' ∧ ∀ e ∈ entries s', s'.lbolt < e.cTime := by
  induction pass generalizing log with
  | @done s idle =>
    refine ⟨by simpa using run, ?_⟩
    rcases timeinTurn_spec s run.reached.valid with ⟨_, late⟩ | ⟨after, pops, _⟩
    · exact late
    · rw [pops] at idle
      cases idle
  | turn due function _ ih => simpa using ih ((run.fire due).calls function)

theorem Calls.still (calls : Calls s log' s') (still : .tick ∉ log') :
    s'.lbolt = s.lbolt ∧ fired log' = 0 := by
  induction calls generalizing log with
  | nil => exact ⟨rfl, rfl⟩
  | @cons s s' s'' event log' first _ ih =>
    simp only [List.mem_cons, not_or] at still
    obtain ⟨_, clock, none_⟩ := call_step run.reached.valid run.reached.range first
    obtain ⟨same, nothing⟩ := ih (run.call first) still.2
    refine ⟨same.trans (clock (Ne.symm still.1)), ?_⟩
    have cons : fired (event :: log') = event.fires + fired log' := by simp [fired]
    rw [cons, none_, nothing, add_zero]

theorem Timein.still (pass : Timein s log' s') (still : .tick ∉ log') :
    s'.lbolt = s.lbolt ∧ ∀ e ∈ fired log', e.cTime ≤ s.lbolt := by
  induction pass generalizing log with
  | done => exact ⟨rfl, by simp [fired]⟩
  | @turn s s' s'' final e inner log' due function _ ih =>
    simp only [List.mem_cons, List.mem_append, not_or] at still
    obtain ⟨_, popped, _, early, _⟩ := fire_step run.reached.valid run.reached.range due
    obtain ⟨kept, silent⟩ := Calls.still (run.fire due) function still.2.1
    obtain ⟨same, others⟩ := ih ((run.fire due).calls function) still.2.2
    refine ⟨same.trans (kept.trans popped), ?_⟩
    have cons : fired (.fired e :: (inner ++ log')) = {e} + (fired inner + fired log') := by
      simp [fired, Event.fires]
    intro other member
    rw [cons, silent, zero_add, Multiset.mem_add, Multiset.mem_singleton] at member
    rcases member with rfl | later
    · exact early
    · have := others other later
      rwa [kept, popped] at this

theorem Run.between (run' : Run vCall lbolt (log ++ log') s') :
    entries s' + cancelled log' + fired log' = entries s + added log' := by
  have total := run'.reached.balance
  simp only [added_append, cancelled_append, fired_append, ← run.reached.balance] at total
  have shared : (cancelled log + fired log) + (entries s' + cancelled log' + fired log') =
      (cancelled log + fired log) + (entries s + added log') := by
    calc (cancelled log + fired log) + (entries s' + cancelled log' + fired log')
        = entries s' + (cancelled log + cancelled log') + (fired log + fired log') := by abel
      _ = entries s + cancelled log + fired log + added log' := total
      _ = (cancelled log + fired log) + (entries s + added log') := by abel
  exact add_left_cancel shared

end

end run

/-- At every point of every run, in a pass of `timein` or between passes. -/
theorem callouts_exact (vCall : Nat) (lbolt : Int) (log : List Event) (s : Callouts) (run : Run vCall lbolt log s) :
    (-1 ≤ s.calllimit ∧ s.calllimit < vCall ∧ HoleHeap.IsHeap Callo.cTime s.callout (size s)) ∧
    entries s + cancelled log + fired log = added log ∧
    ((added log).card ≤ 2 ^ 32 → ((entries s).map Callo.cId).Nodup) ∧
    (∀ fun_ arg tim, (entries s).card < vCall → -2 ^ 31 ≤ s.lbolt + tim → s.lbolt + tim < 2 ^ 31 →
      ∃ s', timeout s fun_ arg tim = some (int32 (s.timeid + 1), s') ∧
        entries s' = ⟨s.lbolt + tim, int32 (s.timeid + 1), arg, fun_⟩ ::ₘ entries s) ∧
    (∀ id, ((untimeout s id).1 = -1 ↔ ∀ e ∈ entries s, e.cId ≠ id) ∧
      ((∀ e ∈ entries s, e.cId ≠ id) → (untimeout s id).2 = s) ∧
      ((∃ e ∈ entries s, e.cId = id) → ∃ e, e.cId = id ∧ entries s = e ::ₘ entries (untimeout s id).2)) ∧
    (∀ before after e, log = before ++ .fired e :: after →
      ∃ mid, Run vCall lbolt before mid ∧ e ∈ entries mid ∧ e.cTime ≤ mid.lbolt ∧
        ∀ other ∈ entries mid, e.cTime ≤ other.cTime) ∧
    ∀ log' s', Timein s log' s' →
      Run vCall lbolt (log ++ log') s' ∧ (∀ e ∈ entries s', s'.lbolt < e.cTime) ∧
      (.tick ∉ log' → (entries s + added log').filter (fun e => e.cTime ≤ s.lbolt) =
        fired log' + (cancelled log').filter (fun e => e.cTime ≤ s.lbolt)) := by
  have reached := run.reached
  have valid := reached.valid
  refine ⟨⟨valid.lower, reached.vCall ▸ valid.upper, valid.heap⟩, reached.balance, reached.ids_nodup, ?_, ?_,
    run.fired_least, ?_⟩
  · intro fun_ arg tim room low high
    cases call : timeout s fun_ arg tim with
    | none =>
      have full := (timeout_none s valid fun_ arg tim).mp call
      rw [reached.vCall] at full
      omega
    | some result =>
      obtain ⟨id, s'⟩ := result
      obtain ⟨rfl, _, _, _, _, after⟩ := timeout_spec s s' valid fun_ arg tim id call
      have exact_ : int32 (s.lbolt + tim) = s.lbolt + tim := Int.bmod_eq_of_le (by omega) (by omega)
      rw [exact_] at after
      exact ⟨s', rfl, after⟩
  · intro id
    rcases untimeout_spec s valid id with ⟨absent, nobody⟩ | ⟨f, s', found, same, removed⟩
    · rw [absent]
      refine ⟨by simpa using nobody, fun _ => rfl, ?_⟩
      rintro ⟨e, member, equal⟩
      exact absurd equal (nobody e member)
    · have member : s.callout f ∈ entries s := by
        rw [removed.entries_eq]
        exact Multiset.mem_cons_self _ _
      rw [found]
      refine ⟨⟨fun wrong => ?_, fun nobody => absurd same (nobody _ member)⟩,
        fun nobody => absurd same (nobody _ member), fun _ => ⟨_, same, removed.entries_eq⟩⟩
      simp only at wrong
      omega
  · intro log' s' pass
    obtain ⟨run', late⟩ := run.timein pass
    refine ⟨run', late, fun still => ?_⟩
    obtain ⟨clock, early⟩ := pass.still run still
    rw [← run.between run', Multiset.filter_add, Multiset.filter_add]
    have left : (entries s').filter (fun e => e.cTime ≤ s.lbolt) = 0 := by
      rw [Multiset.filter_eq_nil]
      intro e member
      have := late e member
      omega
    rw [left, zero_add, Multiset.filter_eq_self.mpr early, add_comm]

/-- Four entries are added, and in the pass at time 8 the first function called adds one that
is due at once and cancels another one. One entry is left. -/
theorem callouts_exact_one : ∃ (log log' : List Event) (s s' : Callouts), Run 5 5 log s ∧ Timein s log' s' ∧
    log' = [.fired ⟨6, 2, 0, 0⟩, .added ⟨8, 5, 0, 0⟩, .cancelled 3 ⟨7, 3, 0, 0⟩, .fired ⟨8, 5, 0, 0⟩, .fired ⟨8, 1, 0, 0⟩] ∧
    entries s' = {⟨14, 4, 0, 0⟩} := by
  have played : ((timeout (initial 5 5) 0 0 3).bind fun a => (timeout a.2 0 0 1).bind fun b => (timeout b.2 0 0 2).bind fun c =>
      (timeout c.2 0 0 9).bind fun d => (timeinTurn { d.2 with lbolt := 8 }).bind fun e => (timeout e.2 0 0 0).bind fun f =>
        (timeinTurn (untimeout f.2 3).2).bind fun g => (timeinTurn g.2).map fun h =>
          ([a.1, b.1, c.1, d.1, f.1, (untimeout f.2 3).1],
            [int32 (a.2.lbolt + 1), int32 (b.2.lbolt + 2), int32 (c.2.lbolt + 9), int32 (e.2.lbolt + 0)],
            [e.1, f.2.callout 0, g.1, h.1], timeinTurn h.2 |>.isNone)) =
      some ([1, 2, 3, 4, 5, 0], [6, 7, 14, 8], [⟨6, 2, 0, 0⟩, ⟨7, 3, 0, 0⟩, ⟨8, 5, 0, 0⟩, ⟨8, 1, 0, 0⟩], true) := by decide +kernel
  obtain ⟨⟨a, s₁⟩, one, played⟩ := Option.bind_eq_some_iff.mp played
  obtain ⟨⟨b, s₂⟩, two, played⟩ := Option.bind_eq_some_iff.mp played
  obtain ⟨⟨c, s₃⟩, three, played⟩ := Option.bind_eq_some_iff.mp played
  obtain ⟨⟨d, s₄⟩, four, played⟩ := Option.bind_eq_some_iff.mp played
  obtain ⟨⟨e, s₅⟩, due, played⟩ := Option.bind_eq_some_iff.mp played
  obtain ⟨⟨f, s₆⟩, added_, played⟩ := Option.bind_eq_some_iff.mp played
  obtain ⟨⟨g, s₇⟩, due', played⟩ := Option.bind_eq_some_iff.mp played
  obtain ⟨⟨h, s₈⟩, due'', played⟩ := Option.map_eq_some_iff.mp played
  simp only [Prod.mk.injEq, List.cons.injEq] at played
  obtain ⟨⟨rfl, rfl, rfl, rfl, rfl, at_, _⟩, ⟨second, third, fourth, fifth, _⟩, ⟨rfl, cancelled_, rfl, rfl, _⟩, idle⟩ := played
  have run₁ : Run 5 5 [.added ⟨8, 1, 0, 0⟩] s₁ := .call .start (.timeout one)
  have run₂ : Run 5 5 [.added ⟨8, 1, 0, 0⟩, .added ⟨6, 2, 0, 0⟩] s₂ := second ▸ .call run₁ (.timeout two)
  have run₃ : Run 5 5 [.added ⟨8, 1, 0, 0⟩, .added ⟨6, 2, 0, 0⟩, .added ⟨7, 3, 0, 0⟩] s₃ := third ▸ .call run₂ (.timeout three)
  have run₄ : Run 5 5 [.added ⟨8, 1, 0, 0⟩, .added ⟨6, 2, 0, 0⟩, .added ⟨7, 3, 0, 0⟩, .added ⟨14, 4, 0, 0⟩] s₄ :=
    fourth ▸ .call run₃ (.timeout four)
  have run := run₄.call (.tick 8)
  have adds : Call s₅ (.added ⟨8, 5, 0, 0⟩) s₆ := fifth ▸ .timeout added_
  have cancels : Call s₆ (.cancelled 3 ⟨7, 3, 0, 0⟩) (untimeout s₆ 3).2 := cancelled_ ▸ .untimeout (f := 0) (Prod.ext at_ rfl)
  have pass := Timein.turn due (.cons adds (.cons cancels .nil)) (.turn due' .nil (.turn due'' .nil (.done (Option.isNone_iff_eq_none.mp idle))))
  refine ⟨_, _, _, s₈, run, pass, rfl, ?_⟩
  obtain ⟨whole, _⟩ := (callouts_exact 5 5 _ _ run).2.2.2.2.2.2 _ _ pass
  have balance := (callouts_exact 5 5 _ _ whole).2.1
  rw [add_assoc] at balance
  exact add_right_cancel (balance.trans (by decide +kernel))

end Svr4.Proofs.CalloutHistory
