import Svr4.Library.Doubly
import Svr4.Msg

/-! The lists of message headers: each header is free, on one queue, or in the hands of
a `msgsnd` that copies its text in. -/

namespace Svr4.Proofs.MsgLists
open Function Msg Chain DoubleChain

variable {msgtyp : Int} {l : List Nat} {time : Nat} {best : Option (Option Nat × Nat)} {first : Option Nat}

inductive Place
  | outside
  | free
  | queued (qp : Nat)
  | held (p : Nat)
  deriving DecidableEq

structure Lists (s : State) (place : Nat → Place) (queue : Nat → List Nat) (free : List Nat) : Prop where
  frees : Linked s.msgNext s.msgfp free
  queues : ∀ qp, Linked s.msgNext (s.msgque qp).msgFirst (queue qp)
  last : ∀ qp, (s.msgque qp).msgLast = (queue qp).getLast?
  qnum : ∀ qp, (s.msgque qp).msgQnum = (queue qp).length
  inFree : ∀ mp, mp ∈ free ↔ place mp = .free
  inQueue : ∀ qp mp, mp ∈ queue qp ↔ place mp = .queued qp

structure Freed (s t : State) (qp mp : Nat) (prev : Option Nat) (rest : List Nat) : Prop where
  next : t.msgNext = update (unlinkAfter s.msgNext prev mp) mp s.msgfp
  msgfp : t.msgfp = some mp
  here : t.msgque qp = { s.msgque qp with
    msgFirst := rest.head?, msgLast := rest.getLast?, msgQnum := rest.length, wwait := false }
  others : ∀ q, q ≠ qp → t.msgque q = s.msgque q
  msgh : t.msgh = s.msgh
  msglock : t.msglock = s.msglock
  woken : s.woken ⊆ t.woken
  wakes : (s.msgque qp).wwait → .queue qp ∈ t.woken

variable {info : Msginfo} {s t : State} {place : Nat → Place} {queue : Nat → List Nat} {free before after : List Nat}
  {qp mp p : Nat}

namespace Lists

section
variable (lists : Lists s place queue free)
include lists

theorem once (q : Nat) : (queue q).Nodup := (lists.queues q).nodup

theorem congr (next : t.msgNext = s.msgNext) (msgfp : t.msgfp = s.msgfp)
    (same : ∀ q, (t.msgque q).msgFirst = (s.msgque q).msgFirst ∧ (t.msgque q).msgLast = (s.msgque q).msgLast ∧
      (t.msgque q).msgQnum = (s.msgque q).msgQnum) : Lists t place queue free := by
  refine ⟨?_, fun q => ?_, fun q => ?_, fun q => ?_, lists.inFree, lists.inQueue⟩
  · rw [next, msgfp]
    exact lists.frees
  · rw [next, (same q).1]
    exact lists.queues q
  · rw [(same q).2.1]
    exact lists.last q
  · rw [(same q).2.2]
    exact lists.qnum q

theorem putHeader (held : place mp = .held p) :
    Lists (putHeader s mp) (update place mp .free) queue (mp :: free) := by
  have absent : mp ∉ free := fun member => by simp [(lists.inFree mp).mp member] at held
  have off : ∀ q, mp ∉ queue q := fun q member => by simp [(lists.inQueue q mp).mp member] at held
  refine ⟨lists.frees.push_front absent, fun q => Seg.update (lists.queues q) _ (off q), lists.last, lists.qnum, ?_, ?_⟩
  · intro m
    by_cases here : m = mp
    · simp [here]
    · simp [here, lists.inFree m]
  · intro q m
    by_cases here : m = mp
    · subst here
      simp [off q]
    · simp [here, lists.inQueue q m]

theorem takeHeader (first : s.msgfp = some mp) (p : Nat) :
    ∃ rest, free = mp :: rest ∧
      Lists { s with msgfp := s.msgNext mp } (update place mp (.held p)) queue rest := by
  have frees := lists.frees
  rw [first] at frees
  cases free with
  | nil => cases frees
  | cons m rest =>
    obtain ⟨same, tail⟩ := frees
    cases same
    have once := lists.frees.nodup
    rw [List.nodup_cons] at once
    have was : place mp = .free := (lists.inFree mp).mp List.mem_cons_self
    refine ⟨rest, rfl, tail, lists.queues, lists.last, lists.qnum, fun m => ?_, fun q m => ?_⟩
    · by_cases here : m = mp
      · simp [here, once.1]
      · have old := lists.inFree m
        simp only [List.mem_cons, here, false_or] at old
        simp [here, old]
    · by_cases here : m = mp
      · subst here
        have off := (lists.inQueue q m).not.mpr (by simp [was])
        simp [off]
      · simp [here, lists.inQueue q m]

theorem freed (split : queue qp = before ++ mp :: after)
    (result : Freed s t qp mp before.getLast? (before ++ after)) :
    Lists t (update place mp .free) (update queue qp (before ++ after)) (mp :: free) := by
  have was : place mp = .queued qp := (lists.inQueue qp mp).mp (by simp [split])
  have absent : mp ∉ free := fun member => by simp [(lists.inFree mp).mp member] at was
  have off : ∀ q, q ≠ qp → mp ∉ queue q := by
    intro q other member
    rw [(lists.inQueue q mp).mp member] at was
    exact other (Place.queued.inj was)
  have linked := lists.queues qp
  rw [split] at linked
  have once := linked.nodup
  have gone : mp ∉ before ++ after := by
    rw [List.nodup_middle] at once
    exact (List.nodup_cons.mp once).1
  -- The element whose successor changes is on the queue of the message.
  have around : ∀ (first : Option Nat) (l : List Nat), (∀ m ∈ l, m ∉ before) → Linked s.msgNext first l →
      Linked (unlinkAfter s.msgNext before.getLast? mp) first l := by
    intro first l apart seg
    cases last : before.getLast? with
    | none => exact seg
    | some b => exact Seg.update seg _ fun member => apart b member (List.mem_of_getLast? last)
  refine ⟨?_, fun q => ?_, fun q => ?_, fun q => ?_, fun m => ?_, fun q m => ?_⟩
  · rw [result.next, result.msgfp]
    refine Linked.push_front (around _ free (fun m member inside => ?_) lists.frees) absent
    have queued := (lists.inQueue qp m).mp (by simp [split, inside])
    simp [(lists.inFree m).mp member] at queued
  · rw [result.next]
    by_cases here : q = qp
    · subst here
      rw [result.here, update_self]
      have rest := DoubleChain.Linked.unlink_after linked
      rw [rest.head] at rest
      exact Seg.update rest _ gone
    · rw [result.others q here, update_of_ne here]
      refine Seg.update (around _ (queue q) (fun m member inside => ?_) (lists.queues q)) _ (off q here)
      have queued := (lists.inQueue qp m).mp (by simp [split, inside])
      rw [(lists.inQueue q m).mp member] at queued
      exact here (Place.queued.inj queued)
  · by_cases here : q = qp
    · subst here
      rw [result.here, update_self]
    · rw [result.others q here, update_of_ne here]
      exact lists.last q
  · by_cases here : q = qp
    · subst here
      rw [result.here, update_self]
    · rw [result.others q here, update_of_ne here]
      exact lists.qnum q
  · by_cases here : m = mp
    · simp [here]
    · simp [here, lists.inFree m]
  · by_cases same : m = mp
    · subst same
      rw [update_self]
      by_cases here : q = qp
      · subst here
        simpa using gone
      · simpa [here] using off q here
    · rw [update_of_ne same, ← lists.inQueue q m]
      by_cases here : q = qp
      · subst here
        rw [update_self, split]
        simp [same]
      · rw [update_of_ne here]

end

end Lists

structure Released (s t : State) (size a : Nat) : Prop where
  map : Rmap.rmfree s.msgmap size a = some t.msgmap
  lost : t.lost = if t.msgmap = s.msgmap ∧ size ≠ 0 then s.lost + 1 else s.lost

theorem freeSpace_spec {size a : Nat} (result : freeSpace s size a = some t) :
    (∃ woken, s.woken ⊆ woken ∧ t = { s with msgmap := t.msgmap, woken, lost := t.lost }) ∧ Released s t size a := by
  simp only [freeSpace, Option.bind_eq_bind, Option.pure_def] at result
  obtain ⟨map, freed, result⟩ := Option.bind_eq_some_iff.mp result
  cases result
  refine ⟨⟨_, ?_, rfl⟩, freed, rfl⟩
  intro channel old
  split <;> simp [old]

theorem putHeader_woken (s : State) (mp : Nat) : s.woken ⊆ (putHeader s mp).woken := by
  intro channel old
  simp only [putHeader]
  split <;> simp [old]

theorem unlinkMsg_spec (lists : Lists s place queue free) (split : queue qp = before ++ mp :: after) :
    unlinkMsg s qp before.getLast? mp = { s with
      msgNext := unlinkAfter s.msgNext before.getLast? mp
      msgque := update s.msgque qp { s.msgque qp with
        msgFirst := (before ++ after).head?, msgLast := (before ++ after).getLast?, msgQnum := (before ++ after).length
        wwait := false }
      woken := if (s.msgque qp).wwait then .queue qp :: s.woken else s.woken } := by
  have linked := lists.queues qp
  rw [split] at linked
  have next : s.msgNext mp = after.head? := linked.next_eq
  have first : (s.msgque qp).msgFirst = (before ++ mp :: after).head? := linked.head
  have last : (s.msgque qp).msgLast = (before ++ mp :: after).getLast? := split ▸ lists.last qp
  have qnum : (s.msgque qp).msgQnum = (before ++ mp :: after).length := split ▸ lists.qnum qp
  rcases List.eq_nil_or_concat before with rfl | ⟨front, b, rfl⟩
  · cases after with
    | nil => cases busy : (s.msgque qp).wwait <;> simp [unlinkMsg, setQueue, wakeup, unlinkAfter, next, qnum, busy]
    | cons c rest =>
      have lastly : (c :: rest).getLast? = (s.msgque qp).msgLast := by simp [last]
      cases busy : (s.msgque qp).wwait <;> simp [unlinkMsg, setQueue, wakeup, unlinkAfter, next, qnum, lastly, busy]
  · have apart : mp ≠ b := by
      rintro rfl
      have once := linked.nodup
      simp [List.nodup_append] at once
    cases after with
    | nil => cases busy : (s.msgque qp).wwait <;> simp [unlinkMsg, setQueue, wakeup, unlinkAfter, next, first, qnum, apart, busy]
    | cons c rest => cases busy : (s.msgque qp).wwait <;> simp [unlinkMsg, setQueue, wakeup, unlinkAfter, next, first, last, qnum, apart, busy]

theorem msgfree_freed (lists : Lists s place queue free) (split : queue qp = before ++ mp :: after)
    (result : msgfree info s qp before.getLast? mp = some t) :
    Freed s t qp mp before.getLast? (before ++ after) ∧
      Released s t (btoq info (s.msgh mp).msgTs) ((s.msgh mp).msgSpot + 1).toNat := by
  have shape := unlinkMsg_spec lists split
  simp only [msgfree, Option.bind_eq_bind, Option.pure_def] at result
  rw [shape] at result
  obtain ⟨u, released, result⟩ := Option.bind_eq_some_iff.mp result
  cases result
  -- The text goes back to the map, when there is one; the rest is the same either way.
  have space : (∃ woken, s.woken ⊆ woken ∧ ((s.msgque qp).wwait → .queue qp ∈ woken) ∧ u = { s with
      msgNext := unlinkAfter s.msgNext before.getLast? mp
      msgque := update s.msgque qp { s.msgque qp with
        msgFirst := (before ++ after).head?, msgLast := (before ++ after).getLast?, msgQnum := (before ++ after).length
        wwait := false }
      msgmap := u.msgmap, woken, lost := u.lost }) ∧
      Released s u (btoq info (s.msgh mp).msgTs) ((s.msgh mp).msgSpot + 1).toNat := by
    by_cases text : (s.msgh mp).msgTs ≠ 0
    · rw [if_pos text] at released
      obtain ⟨⟨woken, more, same⟩, map, lost⟩ := freeSpace_spec released
      refine ⟨⟨woken, ?_, ?_, same⟩, map, lost⟩
      · intro channel old
        apply more
        simp only
        split <;> simp [old]
      · intro busy
        apply more
        simp [busy]
    · rw [if_neg text] at released
      cases released
      simp only [ne_eq, not_not] at text
      have none_ : btoq info (s.msgh mp).msgTs = 0 := by
        rw [text]
        exact Nat.div_eq_of_lt (by have := info.someBytes; omega)
      refine ⟨⟨_, ?_, ?_, rfl⟩, ?_, ?_⟩
      · intro channel old
        split <;> simp [old]
      · intro busy
        simp [busy]
      · rw [none_]
        simp [Rmap.rmfree]
      · simp [none_]
  obtain ⟨⟨woken, more, wakes, same⟩, map, lost⟩ := space
  refine ⟨⟨?_, rfl, ?_, ?_, ?_, ?_, ?_, ?_⟩, map, lost⟩
  · rw [same]
    rfl
  · rw [same]
    exact update_self ..
  · intro q other
    rw [same]
    exact update_of_ne other _ _
  · rw [same]
    rfl
  · rw [same]
    rfl
  · intro channel old
    apply putHeader_woken
    rw [same]
    exact more old
  · intro busy
    apply putHeader_woken
    rw [same]
    exact wakes busy

theorem enqueue_spec (lists : Lists s place queue free) (qp : Nat) (held : place mp = .held p) (uap : Snd) (spot : Nat) :
    (∃ next, enqueue s qp uap mp spot = { s with
      msgNext := next
      msgh := update s.msgh mp ⟨uap.type, uap.cnt % 2 ^ 16, if uap.cnt = 0 then -1 else short spot⟩
      msgque := update s.msgque qp { s.msgque qp with
        msgFirst := (queue qp ++ [mp]).head?, msgLast := some mp, msgQnum := (queue qp).length + 1
        msgCbytes := (s.msgque qp).msgCbytes + uap.cnt } }) ∧
      Lists (enqueue s qp uap mp spot) (update place mp (.queued qp)) (update queue qp (queue qp ++ [mp])) free := by
  have absent : mp ∉ free := fun member => by simp [(lists.inFree mp).mp member] at held
  have off : ∀ q, mp ∉ queue q := fun q member => by simp [(lists.inQueue q mp).mp member] at held
  have last := lists.last qp
  have qnum := lists.qnum qp
  have linked := lists.queues qp
  -- The links: the new header ends the queue, behind its old last element.
  have shape : ∃ next, (enqueue s qp uap mp spot = { s with
      msgNext := next
      msgh := update s.msgh mp ⟨uap.type, uap.cnt % 2 ^ 16, if uap.cnt = 0 then -1 else short spot⟩
      msgque := update s.msgque qp { s.msgque qp with
        msgFirst := (queue qp ++ [mp]).head?, msgLast := some mp, msgQnum := (queue qp).length + 1
        msgCbytes := (s.msgque qp).msgCbytes + uap.cnt } }) ∧
      Linked next (queue qp ++ [mp]).head? (queue qp ++ [mp]) ∧ ∀ m, m ≠ mp → m ∉ queue qp → next m = s.msgNext m := by
    rcases List.eq_nil_or_concat (queue qp) with empty | ⟨front, b, full⟩
    · rw [empty] at last qnum ⊢
      simp only [List.getLast?_nil, List.length_nil] at last qnum
      refine ⟨update s.msgNext mp none, ?_, ⟨rfl, by simp [Seg]⟩, fun m other _ => update_of_ne other _ _⟩
      simp [enqueue, setQueue, last, qnum]
    · rw [List.concat_eq_append] at full
      rw [full] at last qnum linked ⊢
      simp only [List.getLast?_concat, List.length_append, List.length_singleton] at last qnum
      have outside : mp ∉ front ++ [b] := full ▸ off qp
      refine ⟨update (update s.msgNext mp none) b (some mp), ?_, ?_, fun m other notIn => ?_⟩
      · have head := linked.head
        simp [enqueue, setQueue, last, qnum, head]
      · have pushed := linked.push_back outside
        rwa [pushed.head] at pushed
      · rw [update_of_ne (fun same => notIn (by simp [same])), update_of_ne other]
  obtain ⟨next, shape, chain, frame⟩ := shape
  refine ⟨⟨next, shape⟩, ?_⟩
  rw [shape]
  refine ⟨?_, fun q => ?_, fun q => ?_, fun q => ?_, fun m => ?_, fun q m => ?_⟩
  · apply Seg.congr lists.frees
    intro m member
    refine frame m (fun same => absent (same ▸ member)) fun queued => ?_
    have there := (lists.inQueue qp m).mp queued
    simp [(lists.inFree m).mp member] at there
  · by_cases here : q = qp
    · subst here
      simpa using chain
    · simp only [update_of_ne here]
      apply Seg.congr (lists.queues q)
      intro m member
      refine frame m (fun same => off q (same ▸ member)) fun queued => ?_
      have there := (lists.inQueue qp m).mp queued
      rw [(lists.inQueue q m).mp member] at there
      exact here (Place.queued.inj there)
  · by_cases here : q = qp
    · subst here
      simp
    · simpa [here] using lists.last q
  · by_cases here : q = qp
    · subst here
      simp
    · simpa [here] using lists.qnum q
  · by_cases here : m = mp
    · subst here
      simpa using absent
    · simp [here, lists.inFree m]
  · by_cases same : m = mp
    · subst same
      by_cases here : q = qp
      · subst here
        simp
      · simpa [here, Ne.symm here] using off q
    · by_cases here : q = qp
      · subst here
        simp [same, lists.inQueue q m]
      · simp [here, same, lists.inQueue q m]

def Matches (msgtyp type : Int) : Prop :=
  (0 < msgtyp → type = msgtyp) ∧ (msgtyp < 0 → type ≤ long (-msgtyp))

theorem long_neg (negative : msgtyp < 0) (range : LONG_MIN < msgtyp) : long (-msgtyp) = -msgtyp := by
  simp only [LONG_MIN] at range
  simp only [long, Int.bmod_def]
  omega

/-- A message of this type is one that `msgtyp` asks for. -/
def Wanted (msgtyp type : Int) : Prop :=
  (0 < msgtyp → type = msgtyp) ∧ (msgtyp < 0 → type ≤ -msgtyp)

theorem matches_iff (range : LONG_MIN < msgtyp) (type : Int) : Matches msgtyp type ↔ Wanted msgtyp type := by
  rcases lt_or_ge msgtyp 0 with negative | positive
  · simp only [Matches, Wanted, long_neg negative range]
  · simp only [Matches, Wanted, not_lt.mpr positive, false_implies]

/-- The message that `msgtyp` asks for: the first, the first of that type, or the first of
the lowest type up to its absolute value. -/
structure Selected (h : Nat → Header) (msgtyp : Int) (before : List Nat) (mp : Nat) (after : List Nat) : Prop where
  wanted : Matches msgtyp (h mp).msgType
  any : msgtyp = 0 → before = []
  typed : 0 < msgtyp → ∀ m ∈ before, (h m).msgType ≠ msgtyp
  lowest : msgtyp < 0 → (∀ m ∈ before, (h mp).msgType < (h m).msgType) ∧ ∀ m ∈ after, (h mp).msgType ≤ (h m).msgType

def Best (h : Nat → Header) (msgtyp : Int) (l : List Nat) (best : Option (Option Nat × Nat)) : Prop :=
  (best = none ∧ ∀ m ∈ l, ¬ Matches msgtyp (h m).msgType) ∨
    ∃ before mp after, l = before ++ mp :: after ∧ best = some (before.getLast?, mp) ∧ Selected h msgtyp before mp after

theorem scan_typed (positive : 0 < msgtyp) {seen rest : List Nat} (linked : Linked s.msgNext first (seen ++ rest))
    (passed : ∀ m ∈ seen, (s.msgh m).msgType ≠ msgtyp)
    (result : scan s msgtyp time seen.getLast? rest.head? none = some best) : Best s.msgh msgtyp (seen ++ rest) best := by
  induction rest generalizing time seen with
  | nil =>
    have none_ : best = none := by cases time <;> exact (Option.some.inj result).symm
    refine .inl ⟨none_, fun m member matched => passed m ?_ (matched.1 positive)⟩
    simpa using member
  | cons mp rest ih =>
    cases time with
    | zero => cases result
    | succ time =>
      simp only [scan, List.head?_cons, positive, if_true] at result
      split at result
      · next other =>
        rw [linked.next_eq] at result
        rw [List.append_cons]
        apply ih
        · rw [List.append_assoc]
          exact linked
        · intro m member
          simp only [List.mem_append, List.mem_singleton] at member
          rcases member with old | rfl
          · exact passed m old
          · exact fun same => other same.symm
        · rw [List.getLast?_concat]
          exact result
      · next same =>
        simp only [ne_eq, not_not] at same
        cases result
        refine .inr ⟨seen, mp, rest, rfl, rfl, ⟨fun _ => same.symm, fun negative => by omega⟩, fun zero => by omega, fun _ => passed,
          fun negative => by omega⟩

theorem Best.skip {h : Nat → Header} (negative : msgtyp < 0)
    (upto : Best h msgtyp l best) (higher : ∀ spmp b, best = some (spmp, b) → (h b).msgType ≤ (h mp).msgType)
    (unwanted : best = none → ¬ Matches msgtyp (h mp).msgType) : Best h msgtyp (l ++ [mp]) best := by
  rcases upto with ⟨rfl, none_⟩ | ⟨before, b, after, rfl, rfl, selected⟩
  · refine .inl ⟨rfl, fun m member => ?_⟩
    simp only [List.mem_append, List.mem_singleton] at member
    rcases member with old | rfl
    · exact none_ m old
    · exact unwanted rfl
  · refine .inr ⟨before, b, after ++ [mp], by simp, rfl, selected.wanted, selected.any, selected.typed, fun _ => ?_⟩
    obtain ⟨earlier, later⟩ := selected.lowest negative
    refine ⟨earlier, fun m member => ?_⟩
    simp only [List.mem_append, List.mem_singleton] at member
    rcases member with old | rfl
    · exact later m old
    · exact higher _ _ rfl

theorem Best.replace {h : Nat → Header} (negative : msgtyp < 0)
    (upto : Best h msgtyp l best) (wanted : (h mp).msgType ≤ long (-msgtyp))
    (lower : ∀ spmp b, best = some (spmp, b) → (h mp).msgType < (h b).msgType) :
    Best h msgtyp (l ++ [mp]) (some (l.getLast?, mp)) := by
  refine .inr ⟨l, mp, [], rfl, rfl, ⟨fun positive => by omega, fun _ => wanted⟩, fun zero => by omega, fun positive => by omega,
    fun _ => ⟨fun m member => ?_, by simp⟩⟩
  rcases upto with ⟨rfl, none_⟩ | ⟨before, b, after, rfl, rfl, selected⟩
  · have unwanted := none_ m member
    simp only [Matches, not_lt.mpr negative.le, false_implies, true_and, negative, forall_const, not_le] at unwanted
    omega
  · obtain ⟨earlier, later⟩ := selected.lowest negative
    have less := lower _ _ rfl
    simp only [List.mem_append, List.mem_cons] at member
    rcases member with old | rfl | old
    · exact less.trans (earlier m old)
    · exact less
    · exact lt_of_lt_of_le less (later m old)

theorem scan_lowest (negative : msgtyp < 0)
    {seen rest : List Nat} {smp : Option (Option Nat × Nat)} (linked : Linked s.msgNext first (seen ++ rest))
    (upto : Best s.msgh msgtyp seen smp)
    (result : scan s msgtyp time seen.getLast? rest.head? smp = some best) : Best s.msgh msgtyp (seen ++ rest) best := by
  induction rest generalizing time seen smp with
  | nil =>
    have same : smp = best := by cases time <;> exact Option.some.inj result
    rw [← same, List.append_nil]
    exact upto
  | cons mp rest ih =>
    cases time with
    | zero => cases result
    | succ time =>
      have more : Linked s.msgNext first ((seen ++ [mp]) ++ rest) := by
        rw [List.append_assoc]
        exact linked
      have again : ∀ smp', Best s.msgh msgtyp (seen ++ [mp]) smp' →
          scan s msgtyp time (some mp) (s.msgNext mp) smp' = some best → Best s.msgh msgtyp (seen ++ mp :: rest) best := by
        intro smp' upto' result'
        rw [linked.next_eq] at result'
        rw [List.append_cons]
        apply ih more upto'
        rw [List.getLast?_concat]
        exact result'
      simp only [scan, List.head?_cons, not_lt.mpr negative.le, if_false] at result
      split at result
      · next wanted =>
        cases smp with
        | none => exact again _ (upto.replace negative wanted (by simp)) result
        | some found =>
          obtain ⟨spmp, b⟩ := found
          simp only at result
          split at result
          · next higher =>
            refine again _ (upto.skip negative (fun _ _ same => ?_) (by simp)) result
            cases same
            exact higher
          · next lower =>
            refine again _ (upto.replace negative wanted (fun _ _ same => ?_)) result
            cases same
            exact not_le.mp lower
      · next unwanted =>
        refine again _ (upto.skip negative (fun spmp b same => ?_) (fun _ matched => unwanted (matched.2 negative))) result
        rcases upto with ⟨none_, _⟩ | ⟨before, b', after, _, some_, selected⟩
        · rw [none_] at same
          cases same
        · rw [some_] at same
          cases same
          have least := selected.wanted.2 negative
          omega

theorem search_best
    (linked : Linked s.msgNext first l)
    (result : (if msgtyp = 0 then some (first.map fun mp => (none, mp)) else scan s msgtyp time none first none) = some best) :
    Best s.msgh msgtyp l best := by
  split at result
  · next any =>
    cases result
    rw [linked.head]
    cases l with
    | nil => exact .inl ⟨rfl, by simp⟩
    | cons mp rest =>
      subst any
      refine .inr ⟨[], mp, rest, rfl, rfl, ⟨?_, ?_⟩, fun _ => rfl, ?_, ?_⟩ <;> intro wrong <;> omega
  · next some_ =>
    rw [linked.head] at result
    have all : Linked s.msgNext first ([] ++ l) := linked
    rcases lt_or_gt_of_ne some_ with negative | positive
    · exact scan_lowest negative all (.inl ⟨rfl, by simp⟩) result
    · exact scan_typed positive all (by simp) result

theorem scan_ends (msgtyp : Int) (linked : Linked s.msgNext first l)
    (enough : l.length ≤ time) (pmp : Option Nat) (smp : Option (Option Nat × Nat)) :
    ∃ best, scan s msgtyp time pmp first smp = some best := by
  induction l generalizing time first pmp smp with
  | nil =>
    rw [linked_none.mp linked]
    cases time <;> exact ⟨smp, rfl⟩
  | cons mp l ih =>
    obtain ⟨rfl, rest⟩ := linked
    obtain ⟨time, rfl⟩ := Nat.exists_eq_add_one_of_ne_zero (show time ≠ 0 by simp at enough; omega)
    have more : ∀ pmp smp, ∃ best, scan s msgtyp time pmp (s.msgNext mp) smp = some best :=
      fun pmp smp => ih rest (by simpa using enough) pmp smp
    simp only [scan]
    split
    · split
      · exact more _ _
      · exact ⟨_, rfl⟩
    · split
      · cases smp with
        | none => exact more _ _
        | some found =>
          simp only
          split
          · exact more _ _
          · exact more _ _
      · exact more _ _

end Svr4.Proofs.MsgLists
