import Svr4.Flock
import Svr4.Library.Doubly

/-! Putting a record into a list of locks and taking one out. -/

namespace Svr4.Proofs.FlockLists
open Function Chain DoubleChain Flock

structure Holds (s : Filocks) (l : List Nat) : Prop extends Doubly s.next s.prev s.head l where
  used : ∀ p ∈ l, p ∈ s.used

def Fresh (kmem : Filocks → Option Nat) : Prop := ∀ s c, kmem s = some c → c ∉ s.used

structure Alike (s t : Heap) (p : Nat) : Prop where
  used : p ∈ t.used
  set : t.set p = s.set p
  blk : t.blk p = s.blk p
  next : t.next p = s.next p
  prev : t.prev p = s.prev p

structure Frame (s t : Heap) (l l' : List Nat) : Prop where
  apart : ∀ p ∈ s.used, p ∉ l → p ∉ l' ∧ Alike s t p
  woken : ∀ p ∈ s.woken, p ∈ t.woken

structure Agree (s t : Filocks) (l : List Nat) : Prop where
  holds : Holds t l
  set : ∀ p ∈ l, t.set p = s.set p
  blk : ∀ p ∈ l, t.blk p = s.blk p

variable {s t u : Filocks} {l l' l'' before after : List Nat} {fl : Nat}

theorem Frame.refl (s : Heap) (l : List Nat) : Frame s s l l :=
  ⟨fun _ inside outside => ⟨outside, inside, rfl, rfl, rfl, rfl⟩, fun _ member => member⟩

theorem Frame.trans {s t u : Heap} (first : Frame s t l l') (second : Frame t u l' l'') : Frame s u l l'' := by
  refine ⟨fun p inside outside => ?_, fun p member => second.woken p (first.woken p member)⟩
  obtain ⟨outside', alike⟩ := first.apart p inside outside
  obtain ⟨outside'', alike'⟩ := second.apart p alike.used outside'
  exact ⟨outside'', alike'.used, alike'.set.trans alike.set, alike'.blk.trans alike.blk, alike'.next.trans alike.next,
    alike'.prev.trans alike.prev⟩

theorem Agree.refl (holds : Holds s l) : Agree s s l := ⟨holds, fun _ _ => rfl, fun _ _ => rfl⟩

theorem Agree.trans (first : Agree s t l) (second : Agree t u l) : Agree s u l :=
  ⟨second.holds, fun p member => (second.set p member).trans (first.set p member), fun p member => (second.blk p member).trans (first.blk p member)⟩

theorem Frame.agree {s t : Heap} {other : List Nat} {head : Option Nat} (frame : Frame s t l l') (holds : Holds ⟨s, head⟩ other)
    (outside : ∀ p ∈ other, p ∉ l) : Agree ⟨s, head⟩ ⟨t, head⟩ other ∧ ∀ p ∈ other, p ∉ l' := by
  have alike : ∀ p ∈ other, p ∉ l' ∧ Alike s t p := fun p member => frame.apart p (holds.used p member) (outside p member)
  refine ⟨⟨⟨holds.toDoubly.congr fun p member => ⟨(alike p member).2.next, (alike p member).2.prev⟩, fun p member => (alike p member).2.used⟩,
    fun p member => (alike p member).2.set, fun p member => (alike p member).2.blk⟩, fun p member => (alike p member).1⟩

theorem WAKEUP_frame (fl : Nat) (s : Filocks) :
    (WAKEUP fl s).set = s.set ∧ (WAKEUP fl s).next = s.next ∧ (WAKEUP fl s).prev = s.prev ∧ (WAKEUP fl s).head = s.head ∧
      (WAKEUP fl s).used = s.used ∧ ∀ p, p ≠ fl → (WAKEUP fl s).blk p = s.blk p := by
  unfold WAKEUP
  split
  · exact ⟨rfl, rfl, rfl, rfl, rfl, fun p other => update_of_ne other _ _⟩
  · exact ⟨rfl, rfl, rfl, rfl, rfl, fun _ _ => rfl⟩

theorem WAKEUP_woken (fl : Nat) (s : Filocks) :
    (s.wakeflg fl ≠ 0 → fl ∈ (WAKEUP fl s).woken) ∧ ∀ p ∈ s.woken, p ∈ (WAKEUP fl s).woken := by
  unfold WAKEUP
  split
  · exact ⟨fun _ => List.mem_cons_self, fun p member => List.mem_cons_of_mem _ member⟩
  · next idle => exact ⟨fun asleep => absurd asleep idle, fun p member => member⟩

theorem Holds.wakeup (holds : Holds s l) (fl : Nat) : Holds (WAKEUP fl s) l := by
  obtain ⟨_, next, prev, head, used, _⟩ := WAKEUP_frame fl s
  refine ⟨?_, used ▸ holds.used⟩
  rw [next, prev, head]
  exact holds.toDoubly

theorem Holds.once (holds : Holds s (before ++ fl :: after)) : fl ∉ before ∧ fl ∉ after := by
  have once := holds.nodup
  rw [List.nodup_append, List.nodup_cons] at once
  exact ⟨fun early => once.2.2 fl early fl (by simp) rfl, once.2.1.1⟩

def unlinked (fl : Nat) (s : Filocks) : Filocks :=
  let s :=
    match s.prev fl with
    | some before => { s with next := update s.next before (s.next fl) }
    | none => { s with head := s.next fl }
  match s.next fl with
  | some after => { s with prev := update s.prev after (s.prev fl) }
  | none => s

theorem delflck_eq (fl : Nat) (s : Filocks) :
    delflck fl s = { WAKEUP fl (unlinked fl s) with used := (WAKEUP fl (unlinked fl s)).used.erase fl } := rfl

theorem unlinked_frame (fl : Nat) (s : Filocks) : (unlinked fl s).set = s.set ∧ (unlinked fl s).blk = s.blk ∧
    (unlinked fl s).used = s.used ∧ (unlinked fl s).woken = s.woken := by
  unfold unlinked
  refine ⟨?_, ?_, ?_, ?_⟩ <;> cases s.prev fl <;> dsimp only <;> split <;> rfl

theorem unlinked_spec (holds : Holds s (before ++ fl :: after)) :
    Doubly (unlinked fl s).next (unlinked fl s).prev (unlinked fl s).head (before ++ after) ∧
      ∀ p ∉ before ++ fl :: after, (unlinked fl s).next p = s.next p ∧ (unlinked fl s).prev p = s.prev p := by
  have result := Doubly.remove holds.toDoubly
  have behind := holds.prev_eq
  have ahead := holds.next_eq
  have other : ∀ b, before.getLast? = some b → b ≠ fl ∧ b ∈ before ++ fl :: after := by
    intro b last
    have member := List.mem_of_getLast? last
    exact ⟨fun same => holds.once.1 (same ▸ member), List.mem_append_left _ member⟩
  have later : ∀ c, after.head? = some c → c ∈ before ++ fl :: after := fun c first =>
    List.mem_append_right _ (List.mem_cons_of_mem _ (List.mem_of_head? first))
  have elsewhere : ∀ {p b : Nat}, p ∉ before ++ fl :: after → b ∈ before ++ fl :: after → p ≠ b := fun outside inside same =>
    outside (same ▸ inside)
  unfold unlinked
  cases last : before.getLast? with
  | none =>
    rw [last] at result behind
    cases first : after.head? with
    | none => exact ⟨by simpa [behind, ahead, first, unlinkAfter, firstWithout] using result, fun p _ => by simp [behind, ahead, first]⟩
    | some c =>
      refine ⟨by simpa [behind, ahead, first, unlinkAfter, firstWithout] using result, fun p outside => ?_⟩
      simp [behind, ahead, first, update_of_ne (elsewhere outside (later c first))]
  | some b =>
    rw [last] at result behind
    obtain ⟨apart, inside⟩ := other b last
    cases first : after.head? with
    | none =>
      refine ⟨by simpa [behind, ahead, first, unlinkAfter, firstWithout, apart.symm] using result, fun p outside => ?_⟩
      simp [behind, ahead, first, apart.symm, update_of_ne (elsewhere outside inside)]
    | some c =>
      refine ⟨by simpa [behind, ahead, first, unlinkAfter, firstWithout, apart.symm] using result, fun p outside => ?_⟩
      simp [behind, ahead, first, apart.symm, update_of_ne (elsewhere outside inside), update_of_ne (elsewhere outside (later c first))]

theorem delflck_woken (fl : Nat) (s : Filocks) :
    (s.wakeflg fl ≠ 0 → fl ∈ (delflck fl s).woken) ∧ ∀ p ∈ s.woken, p ∈ (delflck fl s).woken := by
  obtain ⟨_, blk, _, woken⟩ := unlinked_frame fl s
  obtain ⟨wakes, stays⟩ := WAKEUP_woken fl (unlinked fl s)
  exact ⟨fun asleep => wakes (by rwa [Filocks.wakeflg, blk]), fun p member => stays p (woken.symm ▸ member)⟩

theorem delflck_spec (holds : Holds s (before ++ fl :: after)) :
    Holds (delflck fl s) (before ++ after) ∧ (delflck fl s).set = s.set ∧ (∀ p, p ≠ fl → (delflck fl s).blk p = s.blk p) ∧
      Frame s.toHeap (delflck fl s).toHeap (before ++ fl :: after) (before ++ after) := by
  obtain ⟨linked, apart⟩ := unlinked_spec holds
  obtain ⟨set, blk, used, _⟩ := unlinked_frame fl s
  obtain ⟨set', next, prev, head, used', blk'⟩ := WAKEUP_frame fl (unlinked fl s)
  have inside : ∀ p ∈ s.used, p ≠ fl → p ∈ (delflck fl s).used := fun p member other => by
    rw [delflck_eq, used', used]
    exact (List.mem_erase_of_ne other).mpr member
  have others : ∀ p, p ≠ fl → (delflck fl s).blk p = s.blk p := fun p other => (blk' p other).trans (congrFun blk p)
  refine ⟨⟨?_, fun p member => ?_⟩, set'.trans set, others, fun p member outside => ⟨fun still => outside ?_, ?_⟩, (delflck_woken fl s).2⟩
  · rw [delflck_eq, next, prev, head]
    exact linked
  · refine inside p (holds.used p ?_) ?_
    · simp only [List.mem_append, List.mem_cons] at member ⊢
      tauto
    · rintro rfl
      exact (List.mem_append.mp member).elim holds.once.1 holds.once.2
  · simp only [List.mem_append, List.mem_cons] at still ⊢
    tauto
  · have other : p ≠ fl := by
      rintro rfl
      exact outside (by simp)
    obtain ⟨next', prev'⟩ := apart p outside
    exact ⟨inside p member other, congrFun (set'.trans set) p, others p other, (congrFun next p).trans next', (congrFun prev p).trans prev'⟩

theorem insflck_none {kmem : Filocks → Option Nat} {lckdat : FlockT} {place : Option Nat} :
    insflck kmem lckdat place s = none ↔ kmem s = none := by
  unfold insflck
  cases kmem s with
  | none => simp
  | some new => cases place <;> simp

structure Inserted (s t : Filocks) (l l' : List Nat) (new : Nat) (lckdat : FlockT) : Prop where
  fresh : new ∉ s.used
  holds : Holds t l'
  set : t.set = update s.set new lckdat
  blk : t.blk = update s.blk new ⟨0, 0⟩
  frame : Frame s.toHeap t.toHeap l l'

theorem linkAfter_apart {next : Nat → Option Nat} {first b : Option Nat} {new p : Nat} (other : p ≠ new) (behind : b ≠ some p) :
    linkAfter next first b new p = next p := by
  cases b with
  | none => exact update_of_ne other _ _
  | some b =>
    have apart : p ≠ b := fun same => behind (congrArg some same.symm)
    rw [linkAfter, update_of_ne apart, update_of_ne other]

theorem insflck_spec (holds : Holds s (before ++ after)) {kmem : Filocks → Option Nat} {new : Nat} (memory : kmem s = some new)
    (unused : new ∉ s.used) (lckdat : FlockT) :
    ∃ t, insflck kmem lckdat before.getLast? s = some (new, t) ∧
      Inserted s t (before ++ after) (before ++ new :: after) new lckdat := by
  have fresh : new ∉ before ++ after := fun member => unused (holds.used new member)
  have result := Doubly.insert holds.toDoubly fresh
  have members : ∀ p, p ∈ before ++ new :: after → p = new ∨ p ∈ before ++ after := fun p => by
    simp only [List.mem_append, List.mem_cons]
    tauto
  refine ⟨{ s with
    set := update s.set new lckdat, blk := update s.blk new ⟨0, 0⟩, used := new :: s.used
    next := linkAfter s.next s.head before.getLast? new
    prev := linkAfter s.prev before.getLast? after.head? new
    head := firstAfter s.head before.getLast? new }, ?_, unused,
      ⟨result, fun p member => ?_⟩, rfl, rfl, fun p inside outside => ?_, fun _ member => member⟩
  rotate_left
  · rcases members p member with rfl | old
    · exact List.mem_cons_self
    · exact List.mem_cons_of_mem _ (holds.used p old)
  · have other : p ≠ new := fun same => unused (same ▸ inside)
    refine ⟨fun member => (members p member).elim other outside, List.mem_cons_of_mem _ inside, update_of_ne other _ _, update_of_ne other _ _,
      linkAfter_apart other fun last => outside ?_, linkAfter_apart other fun first => outside ?_⟩
    · exact List.mem_append_left _ (List.mem_of_getLast? last)
    · exact List.mem_append_right _ (List.mem_of_head? first)
  -- The two orders of writing the successor's `prev` and the new one's are the same.
  have backward (c : Nat) (rest : List Nat) (shape : after = c :: rest) :
      update (update s.prev c (some new)) new before.getLast? = update (update s.prev new (s.prev c)) c (some new) := by
    subst shape
    have apart : c ≠ new := by
      rintro rfl
      exact fresh (by simp)
    rw [holds.prev_eq]
    exact update_comm apart _ _ _
  cases last : before.getLast? with
  | none =>
    obtain rfl : before = [] := List.getLast?_eq_none_iff.mp last
    have head : s.head = after.head? := holds.forward.head
    cases after with
    | nil => simp [insflck, memory, linkAfter, firstAfter, head]
    | cons c rest =>
      have swapped := backward c rest rfl
      rw [last] at swapped
      simp [insflck, memory, linkAfter, firstAfter, head, swapped]
  | some b =>
    obtain ⟨front, rfl⟩ := List.getLast?_eq_some_iff.mp last
    have ahead : s.next b = after.head? := by
      rw [List.append_assoc] at holds
      exact holds.next_eq
    cases after with
    | nil => simp [insflck, memory, linkAfter, firstAfter, ahead]
    | cons c rest =>
      have swapped := backward c rest rfl
      rw [last] at swapped
      simp [insflck, memory, linkAfter, firstAfter, ahead, swapped]

def pick (s : Filocks) : Option Nat := ((List.range (s.used.length + 1)).map (· + 1)).find? (· ∉ s.used)

theorem pick_fresh : Fresh pick := by
  intro s c found
  simpa using List.find?_some found

end Svr4.Proofs.FlockLists

/-! What `flckadj` does with one lock of the owner, by where the request lies over it. -/

namespace Svr4.Proofs.FlockLists
open Function Chain DoubleChain Flock

inductive Turned (kmem : Filocks → Option Nat) (time flp : Nat) (a : Adjust) (k : FlockT) : Turn → Prop
  /-- The request lies in a lock of its type. -/
  | covered {insrtp : Option Nat} (same : a.ld.lType = k.lType) (low : k.lStart ≤ a.ld.lStart) (high : a.ld.lEnd ≤ k.lEnd) :
      Turned kmem time flp a k (.ret none { a with insrtp })
  | noMemory {insrtp : Option Nat} (split : splitAfter kmem time flp a = some none) :
      Turned kmem time flp a k (.ret (some .ENOLCK) { a with insrtp })
  /-- The lock, and so all that follow, lie apart after the request. -/
  | past (low : a.ld.lEnd < k.lStart) (apart : a.ld.lType = k.lType → a.ld.lEnd + 1 < k.lStart) :
      Turned kmem time flp a k (.next none a)
  /-- A lock of the type that goes on after the request is joined with it. -/
  | joinAfter (same : a.ld.lType = k.lType) (before : a.ld.lStart < k.lStart) (near : k.lStart ≤ a.ld.lEnd + 1)
      (high : a.ld.lEnd < k.lEnd) :
      Turned kmem time flp a k (.next none { a with ld := { a.ld with lEnd := k.lEnd }, s := delflck flp a.s })
  /-- The lock lies in the request. -/
  | swallow {nflp insrtp : Option Nat} (low : a.ld.lStart ≤ k.lStart) (high : k.lEnd ≤ a.ld.lEnd)
      (go : nflp = a.s.next flp ∨ (nflp = none ∧ a.ld.lType = k.lType ∧ k.lEnd = a.ld.lEnd))
      (place : insrtp = if a.ld.lStart = k.lStart then a.s.prev flp else a.insrtp) :
      Turned kmem time flp a k (.next nflp { a with insrtp, s := delflck flp a.s })
  /-- A lock of the type that reaches the request from before is joined with it. -/
  | joinBefore (same : a.ld.lType = k.lType) (before : k.lStart < a.ld.lStart) (near : a.ld.lStart ≤ k.lEnd + 1)
      (high : k.lEnd < a.ld.lEnd) :
      Turned kmem time flp a k
        (.next (a.s.next flp) { insrtp := a.s.prev flp, ld := { a.ld with lStart := k.lStart }, s := delflck flp a.s })
  /-- A lock of another type that reaches into the request is cut off. -/
  | cut (other : a.ld.lType ≠ k.lType) (before : k.lStart < a.ld.lStart) (reach : a.ld.lStart ≤ k.lEnd) (high : k.lEnd ≤ a.ld.lEnd) :
      Turned kmem time flp a k (.next (a.s.next flp) { a with insrtp := some flp, s := cutBefore flp a.ld a.s })
  /-- The lock lies apart before the request. -/
  | beyond {insrtp : Option Nat} (high : k.lEnd < a.ld.lStart) (apart : k.lType = a.ld.lType → k.lEnd + 1 < a.ld.lStart)
      (place : insrtp = some flp ∨ insrtp = a.insrtp) :
      Turned kmem time flp a k (.next (a.s.next flp) { a with insrtp })
  /-- A lock of another type lies around the request, which cuts it in two. -/
  | splitCut {s : Filocks} (other : a.ld.lType ≠ k.lType) (before : k.lStart < a.ld.lStart) (high : a.ld.lEnd < k.lEnd)
      (split : splitAfter kmem time flp a = some (some s)) :
      Turned kmem time flp a k (.next none { a with insrtp := some flp, s := cutBefore flp a.ld s })
  /-- A lock of another type goes on after the request, which cuts off its start. -/
  | splitDelete {s : Filocks} {insrtp : Option Nat} (other : a.ld.lType ≠ k.lType) (low : a.ld.lStart ≤ k.lStart)
      (reach : k.lStart ≤ a.ld.lEnd) (high : a.ld.lEnd < k.lEnd) (split : splitAfter kmem time flp a = some (some s))
      (place : insrtp = if a.ld.lStart = k.lStart then a.s.prev flp else a.insrtp) :
      Turned kmem time flp a k (.next none { a with insrtp, s := delflck flp s })

variable {kmem : Filocks → Option Nat} {time flp : Nat} {a : Adjust} {turn : Turn}

private theorem regflck_inside {ld k : FlockT} {start : Region} (reach : ld.lStart ≤ k.lEnd)
    (place : (if ld.lStart > k.lStart then Region.MIDDLE else if ld.lStart = k.lStart then .START else .BEFORE) = start) :
    regflck ld k = (start, if ld.lEnd < k.lEnd then
      if ld.lEnd = k.lStart - 1 then .START else if ld.lEnd < k.lStart then .BEFORE else .MIDDLE
      else if ld.lEnd = k.lEnd then .END else .AFTER) := by
  unfold regflck
  rw [if_neg (by omega), if_neg (by omega), place]
  split_ifs <;> rfl

theorem regflck_cases (ld k : FlockT) (ordered : ld.lStart ≤ ld.lEnd) (ordered' : k.lStart ≤ k.lEnd) :
    match regflck ld k with
    | (.BEFORE, .BEFORE) => ld.lEnd + 1 < k.lStart
    | (.BEFORE, .START) => ld.lStart < k.lStart ∧ ld.lEnd + 1 = k.lStart
    | (.BEFORE, .MIDDLE) => ld.lStart < k.lStart ∧ k.lStart ≤ ld.lEnd ∧ ld.lEnd < k.lEnd
    | (.BEFORE, .END) => ld.lStart < k.lStart ∧ ld.lEnd = k.lEnd
    | (.BEFORE, .AFTER) => ld.lStart < k.lStart ∧ k.lEnd < ld.lEnd
    | (.START, .MIDDLE) => ld.lStart = k.lStart ∧ ld.lEnd < k.lEnd
    | (.START, .END) => ld.lStart = k.lStart ∧ ld.lEnd = k.lEnd
    | (.START, .AFTER) => ld.lStart = k.lStart ∧ k.lEnd < ld.lEnd
    | (.MIDDLE, .MIDDLE) => k.lStart < ld.lStart ∧ ld.lEnd < k.lEnd
    | (.MIDDLE, .END) => k.lStart < ld.lStart ∧ ld.lEnd = k.lEnd
    | (.MIDDLE, .AFTER) => k.lStart < ld.lStart ∧ ld.lStart ≤ k.lEnd ∧ k.lEnd < ld.lEnd
    | (.END, .AFTER) => ld.lStart = k.lEnd + 1
    | (.AFTER, .AFTER) => k.lEnd + 1 < ld.lStart
    | _ => False := by
  by_cases behind : k.lEnd < ld.lStart
  · unfold regflck
    split_ifs <;> dsimp only <;> omega
  · rcases lt_trichotomy ld.lStart k.lStart with before | start | later
    · rw [regflck_inside (by omega) (by rw [if_neg (by omega), if_neg (by omega)])]
      split_ifs <;> dsimp only <;> omega
    · rw [regflck_inside (by omega) (by rw [if_neg (by omega), if_pos start])]
      split_ifs <;> dsimp only <;> omega
    · rw [regflck_inside (by omega) (by rw [if_pos later])]
      split_ifs <;> dsimp only <;> omega
theorem flckadjTurn_cases (ordered : a.ld.lStart ≤ a.ld.lEnd) (ordered' : (a.s.set flp).lStart ≤ (a.s.set flp).lEnd)
    (call : flckadjTurn kmem time flp a = some turn) : Turned kmem time flp a (a.s.set flp) turn := by
  have order := regflck_cases a.ld (a.s.set flp) ordered ordered'
  unfold flckadjTurn at call
  dsimp only at call
  generalize regflck a.ld (a.s.set flp) = code at call order
  obtain ⟨start, stop⟩ := code
  by_cases same : a.ld.lType = (a.s.set flp).lType
  · simp only [if_pos same] at call
    cases start <;> cases stop <;> dsimp only at call order
    case BEFORE.BEFORE =>
      cases call
      exact .past (by omega) (fun _ => by omega)
    case BEFORE.START =>
      cases call
      exact .joinAfter same (by omega) (by omega) (by omega)
    case BEFORE.MIDDLE =>
      cases call
      exact .joinAfter same (by omega) (by omega) (by omega)
    case BEFORE.END =>
      cases call
      exact .swallow (by omega) (by omega) (.inr ⟨rfl, same, by omega⟩) (by rw [if_neg (by omega)])
    case BEFORE.AFTER =>
      cases call
      exact .swallow (by omega) (by omega) (.inl rfl) (by rw [if_neg (by omega)])
    case START.MIDDLE =>
      cases call
      exact .covered same (by omega) (by omega)
    case START.END =>
      cases call
      exact .covered same (by omega) (by omega)
    case START.AFTER =>
      cases call
      exact .swallow (by omega) (by omega) (.inl rfl) (by rw [if_pos (by omega)])
    case MIDDLE.MIDDLE =>
      cases call
      exact .covered same (by omega) (by omega)
    case MIDDLE.END =>
      cases call
      exact .covered same (by omega) (by omega)
    case MIDDLE.AFTER =>
      cases call
      exact .joinBefore same (by omega) (by omega) (by omega)
    case END.AFTER =>
      cases call
      exact .joinBefore same (by omega) (by omega) (by omega)
    case AFTER.AFTER =>
      cases call
      exact .beyond (by omega) (fun _ => by omega) (.inl rfl)
  · simp only [if_neg same] at call
    have apart : ∀ {p : Prop}, a.ld.lType = (a.s.set flp).lType → p := fun alike => absurd alike same
    cases start <;> cases stop <;> dsimp only at call order
    case BEFORE.BEFORE =>
      cases call
      exact .past (by omega) apart
    case BEFORE.START =>
      cases call
      exact .past (by omega) apart
    case BEFORE.MIDDLE =>
      obtain ⟨piece, split, rest⟩ := Option.bind_eq_some_iff.mp call
      cases piece with
      | none =>
        cases rest
        exact .noMemory split
      | some s =>
        cases rest
        exact .splitDelete same (by omega) (by omega) (by omega) split (by rw [if_neg (by omega)])
    case BEFORE.END =>
      cases call
      exact .swallow (by omega) (by omega) (.inl rfl) (by rw [if_neg (by omega)])
    case BEFORE.AFTER =>
      cases call
      exact .swallow (by omega) (by omega) (.inl rfl) (by rw [if_neg (by omega)])
    case START.MIDDLE =>
      obtain ⟨piece, split, rest⟩ := Option.bind_eq_some_iff.mp call
      cases piece with
      | none =>
        cases rest
        exact .noMemory split
      | some s =>
        cases rest
        exact .splitDelete same (by omega) (by omega) (by omega) split (by rw [if_pos (by omega)])
    case START.END =>
      cases call
      exact .swallow (by omega) (by omega) (.inl rfl) (by rw [if_pos (by omega)])
    case START.AFTER =>
      cases call
      exact .swallow (by omega) (by omega) (.inl rfl) (by rw [if_pos (by omega)])
    case MIDDLE.MIDDLE =>
      obtain ⟨piece, split, rest⟩ := Option.bind_eq_some_iff.mp call
      cases piece with
      | none =>
        cases rest
        exact .noMemory split
      | some s =>
        cases rest
        exact .splitCut same (by omega) (by omega) split
    case MIDDLE.END =>
      cases call
      exact .cut same (by omega) (by omega) (by omega)
    case MIDDLE.AFTER =>
      cases call
      exact .cut same (by omega) (by omega) (by omega)
    case END.AFTER =>
      cases call
      exact .beyond (by omega) (fun alike => apart alike.symm) (.inr rfl)
    case AFTER.AFTER =>
      cases call
      exact .beyond (by omega) (fun _ => by omega) (.inl rfl)

end Svr4.Proofs.FlockLists
