import Svr4.Proofs.FlockScan

/-! The turns of `flckadj`, and from them what a whole call does. -/

namespace Svr4.Proofs.FlockTurns
open Function Chain DoubleChain Flock FlockLists FlockRanges FlockScan

variable {insrtp : Option Nat}

variable {s : Filocks} {a : Adjust} {l done after : List Nat} {flp : Nat} {kmem : Filocks → Option Nat} {time : Nat} {turn : Turn}

private theorem piece_apart (other : a.ld.lType ≠ (a.s.set flp).lType) : Left a.ld { a.s.set flp with lStart := a.ld.lEnd + 1 } :=
  ⟨show a.ld.lEnd < a.ld.lEnd + 1 by omega, fun type => absurd type other⟩

section turns
variable (scan : Scan a done (flp :: after)) (own : (a.s.set flp).owner = a.ld.owner)
include scan

theorem scan_skip (left_ : (a.s.set flp).owner = a.ld.owner → Left (a.s.set flp) a.ld)
    (place : insrtp = a.insrtp ∨ (insrtp = some flp ∧ (a.s.set flp).lStart ≤ a.ld.lStart)) :
    Scan { a with insrtp } (done ++ [flp]) after ∧ Moves a { a with insrtp } (done ++ flp :: after) ((done ++ [flp]) ++ after) := by
  have same : (done ++ [flp]) ++ after = done ++ flp :: after := by simp
  rw [same]
  refine ⟨⟨⟨same ▸ scan.holds, same ▸ scan.legal, scan.ranged, same ▸ scan.shared, fun locked => ?_⟩, ?_⟩,
    ⟨.refl _ _, rfl, rfl, fun _ _ _ => Iff.rfl⟩⟩
  · rw [same]
    rcases place with rfl | ⟨rfl, low⟩
    · exact scan.placed locked
    · exact ⟨by simp, low⟩
  · simp only [List.mem_append, List.mem_singleton]
    rintro p (member | rfl) own
    · exact scan.early p member own
    · exact left_ own

include own

theorem covered_result (same : a.ld.lType = (a.s.set flp).lType) (low : (a.s.set flp).lStart ≤ a.ld.lStart)
    (high : a.ld.lEnd ≤ (a.s.set flp).lEnd) :
    Result a (done ++ flp :: after) after (.ret none { a with insrtp }) := by
  refine .granted rfl (fun o b t => ?_)
  rw [locks_middle]
  exact granted_covered scan.middle own same low high

theorem past_result (low : a.ld.lEnd < (a.s.set flp).lStart) (apart : a.ld.lType = (a.s.set flp).lType → a.ld.lEnd + 1 < (a.s.set flp).lStart) :
    Result a (done ++ flp :: after) after (.next none a) := by
  refine .settled ⟨scan.toBase, ?_⟩ (.refl _ _) (Nat.le_succ _)
  simp only [List.mem_append, List.mem_cons]
  rintro p (member | rfl | member) own'
  · exact .inl (scan.early p member own')
  · exact .inr ⟨low, apart⟩
  · have := scan.later own member own'
    have := scan.ordered
    exact .inr ⟨by unfold Left at *; omega, fun _ => by unfold Left at *; omega⟩

theorem swallow_result {nflp : Option Nat} (low : a.ld.lStart ≤ (a.s.set flp).lStart) (high : (a.s.set flp).lEnd ≤ a.ld.lEnd)
    (go : nflp = a.s.next flp ∨ (nflp = none ∧ a.ld.lType = (a.s.set flp).lType ∧ (a.s.set flp).lEnd = a.ld.lEnd))
    (place : insrtp = if a.ld.lStart = (a.s.set flp).lStart then a.s.prev flp else a.insrtp) :
    Result a (done ++ flp :: after) after (.next nflp { a with insrtp, s := delflck flp a.s }) := by
  have placed : a.ld.lType ≠ .F_UNLCK → Placed a.s (done ++ after) a.ld.lStart insrtp := by
    intro locked
    by_cases start : a.ld.lStart = (a.s.set flp).lStart
    · rw [place, if_pos start, start]
      exact placed_prev scan.holds scan.legal
    · rw [place, if_neg start]
      exact (scan.placed locked).remove (by omega)
  obtain ⟨base, moves⟩ := scan.delete a.ld.lStart a.ld.lEnd scan.ranged (fun x _ overlap => .inl overlap) placed
    (fun o b t => granted_swallow own low high)
  have set := (delflck_spec scan.holds).2.1
  rcases go with rfl | ⟨rfl, type, last⟩
  · rw [scan.holds.next_eq]
    refine .goes ⟨base, ?_⟩ moves (by simp)
    simp only [set]
    exact scan.early
  · refine .settled ⟨base, ?_⟩ moves (by simp only [List.length_append, List.length_cons]; omega)
    simp only [set, List.mem_append]
    rintro p (member | member) own'
    · exact .inl (scan.early p member own')
    · have behind := scan.later own member own'
      exact .inr ⟨last ▸ behind.1, fun same => last ▸ behind.2 (type.symm.trans same)⟩

theorem joinAfter_result (same : a.ld.lType = (a.s.set flp).lType) (before : a.ld.lStart < (a.s.set flp).lStart)
    (near : (a.s.set flp).lStart ≤ a.ld.lEnd + 1) (high : a.ld.lEnd < (a.s.set flp).lEnd) :
    Result a (done ++ flp :: after) after (.next none { a with ld := { a.ld with lEnd := (a.s.set flp).lEnd }, s := delflck flp a.s }) := by
  have ranged := scan.ranged
  have range := (legal_middle.mp scan.middle).2.1
  have joined : ∀ o b, covers { a.ld with lEnd := (a.s.set flp).lEnd } o b ↔ covers a.ld o b ∨ covers (a.s.set flp) o b := by
    intro o b
    have := ranged.ordered
    simp only [covers, own]
    by_cases mine : a.ld.owner = o
    · simp only [mine, true_and]
      omega
    · simp [mine]
  have reach : ∀ x : FlockT, x.lStart ≤ x.lEnd → Overlap x { a.ld with lEnd := (a.s.set flp).lEnd } →
      Overlap x a.ld ∨ (a.ld.lType = (a.s.set flp).lType ∧ (a.s.set flp).owner = a.ld.owner ∧ Overlap x (a.s.set flp)) := by
    rintro x ordered ⟨low, high⟩
    by_cases far : x.lStart ≤ a.ld.lEnd
    · exact .inl ⟨far, high⟩
    · exact .inr ⟨same, own, low, by omega⟩
  obtain ⟨base, moves⟩ := scan.delete a.ld.lStart (a.s.set flp).lEnd ⟨ranged.low, before.le.trans range.ordered, range.high⟩
    reach (fun locked => (scan.placed locked).remove before) (fun o b t => granted_join scan.middle same joined)
  refine .settled ⟨base, ?_⟩ moves (by simp only [List.length_append, List.length_cons]; omega)
  simp only [(delflck_spec scan.holds).2.1, List.mem_append]
  rintro p (member | member) own'
  · exact .inl (scan.early p member own')
  · have behind := scan.later own member own'
    exact .inr ⟨behind.1, fun type => behind.2 (same.symm.trans type)⟩

theorem joinBefore_result (same : a.ld.lType = (a.s.set flp).lType) (before : (a.s.set flp).lStart < a.ld.lStart)
    (near : a.ld.lStart ≤ (a.s.set flp).lEnd + 1) (high : (a.s.set flp).lEnd < a.ld.lEnd) :
    Result a (done ++ flp :: after) after
      (.next (a.s.next flp) { insrtp := a.s.prev flp, ld := { a.ld with lStart := (a.s.set flp).lStart }, s := delflck flp a.s }) := by
  have ranged := scan.ranged
  have range := (legal_middle.mp scan.middle).2.1
  have joined : ∀ o b, covers { a.ld with lStart := (a.s.set flp).lStart } o b ↔ covers a.ld o b ∨ covers (a.s.set flp) o b := by
    intro o b
    have := range.ordered
    simp only [covers, own]
    by_cases mine : a.ld.owner = o
    · simp only [mine, true_and]
      omega
    · simp [mine]
  have reach : ∀ x : FlockT, x.lStart ≤ x.lEnd → Overlap x { a.ld with lStart := (a.s.set flp).lStart } →
      Overlap x a.ld ∨ (a.ld.lType = (a.s.set flp).lType ∧ (a.s.set flp).owner = a.ld.owner ∧ Overlap x (a.s.set flp)) := by
    rintro x ordered ⟨low, high⟩
    by_cases far : a.ld.lStart ≤ x.lEnd
    · exact .inl ⟨low, far⟩
    · exact .inr ⟨same, own, by omega, high⟩
  obtain ⟨base, moves⟩ := scan.delete (a.s.set flp).lStart a.ld.lEnd ⟨range.low, before.le.trans ranged.ordered, ranged.high⟩
    reach (fun _ => placed_prev scan.holds scan.legal) (fun o b t => granted_join scan.middle same joined)
  rw [scan.holds.next_eq]
  refine .goes ⟨base, ?_⟩ moves (by simp)
  simp only [(delflck_spec scan.holds).2.1]
  intro p member own'
  have ahead := scan.sooner own member own'
  exact ⟨ahead.1, fun type => ahead.2 (type.trans same)⟩

omit own in
theorem scan_changed {l' : List Nat} (holds : Holds s l') (legal : Legal (locks s l'))
    (foreign : ∀ p ∈ l', (s.set p).owner ≠ a.ld.owner → p ∈ done ++ flp :: after ∧ s.set p = a.s.set p)
    (placed : a.ld.lType ≠ .F_UNLCK → Placed s l' a.ld.lStart insrtp) : Base { a with insrtp, s } l' := by
  refine ⟨holds, legal, scan.ranged, fun locked p member other overlap => ?_, placed⟩
  obtain ⟨old, same⟩ := foreign p member other
  rw [same] at other overlap ⊢
  exact scan.shared locked p old other overlap

theorem cut_result (other : a.ld.lType ≠ (a.s.set flp).lType) (before : (a.s.set flp).lStart < a.ld.lStart)
    (reach : a.ld.lStart ≤ (a.s.set flp).lEnd) (high : (a.s.set flp).lEnd ≤ a.ld.lEnd) :
    Result a (done ++ flp :: after) after (.next (a.s.next flp) { a with insrtp := some flp, s := cutBefore flp a.ld a.s }) := by
  have holds := scan.holds
  have set := cutBefore_set flp a.ld a.s
  obtain ⟨early, late⟩ := Holds.once holds
  have here : (cutBefore flp a.ld a.s).set flp = { a.s.set flp with lEnd := a.ld.lStart - 1 } := by rw [set, update_self]
  have elsewhere : ∀ p, p ≠ flp → (cutBefore flp a.ld a.s).set p = a.s.set p := fun p apart => by rw [set, update_of_ne apart]
  have cut : locks (cutBefore flp a.ld a.s) (done ++ flp :: after) =
      locks a.s done ++ { a.s.set flp with lEnd := a.ld.lStart - 1 } :: locks a.s after := by
    rw [locks_middle, locks_update set early, locks_update set late, here]
  have base : Base { a with insrtp := some flp, s := cutBefore flp a.ld a.s } (done ++ flp :: after) := by
    refine scan_changed scan (cutBefore_holds a.ld holds) ?_ (fun p member foreign => ⟨member, elsewhere p ?_⟩) (fun _ => ⟨by simp, ?_⟩)
    · rw [cut]
      exact scan.middle.shorten (by omega) (by omega)
    · rintro rfl
      exact foreign (by rw [here]; exact own)
    · rw [here]
      exact before.le
  have moves : Moves a { a with insrtp := some flp, s := cutBefore flp a.ld a.s } (done ++ flp :: after) (done ++ flp :: after) := by
    refine ⟨cutBefore_keeps a.ld (by simp), rfl, rfl, fun o b t => ?_⟩
    rw [cut, locks_middle]
    exact granted_cut own reach high
  rw [show done ++ flp :: after = (done ++ [flp]) ++ after by simp] at base moves
  rw [holds.next_eq]
  refine .goes ⟨base, ?_⟩ (by simpa using moves) (by simp)
  simp only [List.mem_append, List.mem_singleton]
  rintro p (member | rfl) own'
  · have apart : p ≠ flp := fun equal => early (equal ▸ member)
    rw [elsewhere p apart] at own' ⊢
    exact scan.early p member own'
  · rw [here]
    exact ⟨show a.ld.lStart - 1 < a.ld.lStart by omega, fun type => absurd type.symm other⟩

omit own in
theorem scan_piece (fresh : Fresh kmem) (reach : (a.s.set flp).lStart ≤ a.ld.lEnd + 1)
    (split : splitAfter kmem time flp a = some (some s)) :
    ∃ mid late new, after = mid ++ late ∧ Holds s (done ++ flp :: (mid ++ new :: late)) ∧
      Keeps a.s s (done ++ flp :: after) (done ++ flp :: (mid ++ new :: late)) ∧
      s.set new = { a.s.set flp with lStart := a.ld.lEnd + 1 } ∧ (∀ p ∈ done ++ flp :: after, s.set p = a.s.set p) ∧
      (∀ x ∈ locks a.s mid, x.lStart ≤ a.ld.lEnd + 1) ∧ ∀ x ∈ locks a.s late, a.ld.lEnd + 1 ≤ x.lStart := by
  obtain ⟨mid, late, new, rfl, inserted, early, later⟩ := splitAfter_spec fresh scan.holds scan.legal reach split
  have elsewhere : ∀ p ∈ done ++ flp :: (mid ++ late), s.set p = a.s.set p := by
    intro p member
    rw [inserted.set, update_of_ne]
    rintro rfl
    exact inserted.fresh (scan.holds.used p member)
  have keeps := inserted
  have holds := scan.holds
  rw [show done ++ flp :: (mid ++ new :: late) = (done ++ flp :: mid) ++ new :: late by simp,
    show done ++ flp :: (mid ++ late) = (done ++ flp :: mid) ++ late by simp] at keeps
  rw [show done ++ flp :: (mid ++ late) = (done ++ flp :: mid) ++ late by simp] at holds
  refine ⟨mid, late, new, rfl, inserted.holds, ?_, by rw [inserted.set, update_self], elsewhere, early, later⟩
  simpa using insflck_keeps holds keeps

theorem scan_behind (high : a.ld.lEnd < (a.s.set flp).lEnd) {p : Nat} (member : p ∈ after)
    (own' : (a.s.set p).owner = a.ld.owner) : Left a.ld (a.s.set p) := by
  have behind := (scan.later own member own').1
  exact ⟨by omega, fun _ => by omega⟩

theorem splitDelete_result (fresh : Fresh kmem) (other : a.ld.lType ≠ (a.s.set flp).lType)
    (low : a.ld.lStart ≤ (a.s.set flp).lStart) (reach : (a.s.set flp).lStart ≤ a.ld.lEnd) (high : a.ld.lEnd < (a.s.set flp).lEnd)
    (split : splitAfter kmem time flp a = some (some s))
    (place : insrtp = if a.ld.lStart = (a.s.set flp).lStart then a.s.prev flp else a.insrtp) :
    Result a (done ++ flp :: after) after (.next none { a with insrtp, s := delflck flp s }) := by
  obtain ⟨mid, late, new, rfl, holds, keeps, piece, elsewhere, early, later⟩ := scan_piece scan fresh (by omega) split
  obtain ⟨holds', set, _⟩ := delflck_spec holds
  have members : ∀ p ∈ done ++ (mid ++ new :: late), p = new ∨ p ∈ done ++ (mid ++ late) := by
    simp only [List.mem_append, List.mem_cons]
    tauto
  have old : ∀ p ∈ done ++ (mid ++ late), p ∈ done ++ flp :: (mid ++ late) := by
    simp only [List.mem_append, List.mem_cons]
    tauto
  have same : ∀ p ∈ done ++ (mid ++ late), (delflck flp s).set p = a.s.set p := fun p member => by
    rw [set, elsewhere p (old p member)]
  have here : (delflck flp s).set new = { a.s.set flp with lStart := a.ld.lEnd + 1 } := by rw [set, piece]
  have pieces : locks (delflck flp s) (done ++ (mid ++ new :: late)) =
      locks a.s done ++ (locks a.s mid ++ { a.s.set flp with lStart := a.ld.lEnd + 1 } :: locks a.s late) := by
    rw [locks_append, locks_middle, here]
    refine congrArg₂ _ ?_ (congrArg₂ _ ?_ (congrArg _ ?_))
    · exact List.map_congr_left (fun p member => same p (by simp [member]))
    · exact List.map_congr_left (fun p member => same p (by simp [member]))
    · exact List.map_congr_left (fun p member => same p (by simp [member]))
  have middle := scan.middle
  rw [locks_append] at middle
  have placed : a.ld.lType ≠ .F_UNLCK → Placed a.s (done ++ (mid ++ late)) a.ld.lStart insrtp := by
    intro locked
    by_cases start : a.ld.lStart = (a.s.set flp).lStart
    · rw [place, if_pos start, start]
      exact placed_prev scan.holds scan.legal
    · rw [place, if_neg start]
      exact (scan.placed locked).remove (by omega)
  have placed' : a.ld.lType ≠ .F_UNLCK → Placed (delflck flp s) (done ++ (mid ++ new :: late)) a.ld.lStart insrtp := by
    intro locked
    have before := placed locked
    cases insrtp with
    | none =>
      intro p member
      rcases members p member with rfl | inside
      · rw [here]
        have := scan.ranged.ordered
        show a.ld.lStart ≤ a.ld.lEnd + 1
        omega
      · rw [same p inside]
        exact before p inside
    | some i =>
      refine ⟨?_, by rw [same i before.1]; exact before.2⟩
      have inside := before.1
      simp only [List.mem_append, List.mem_cons] at inside ⊢
      tauto
  have base : Base { a with insrtp, s := delflck flp s } (done ++ (mid ++ new :: late)) := by
    refine scan_changed scan holds' ?_ (fun p member foreign => ?_) placed'
    · rw [pieces]
      exact middle.piece (by omega) (by omega) early later
    · rcases members p member with rfl | inside
      · exact absurd (by rw [here]; exact own) foreign
      · exact ⟨old p inside, same p inside⟩
  refine .settled ⟨base, fun p member own' => ?_⟩ ⟨keeps.trans (delflck_keeps holds), rfl, rfl, fun o b t => ?_⟩
    (by simp only [List.length_append, List.length_cons]; omega)
  · show Left ((delflck flp s).set p) a.ld ∨ Left a.ld ((delflck flp s).set p)
    rcases members p member with rfl | inside
    · rw [here]
      exact .inr (piece_apart other)
    · replace own' : ((delflck flp s).set p).owner = a.ld.owner := own'
      rw [same p inside] at own' ⊢
      rcases List.mem_append.mp inside with early' | late'
      · exact .inl (scan.early p early' own')
      · exact .inr (scan_behind scan own high late' own')
  · rw [pieces, locks_middle, locks_append]
    exact granted_piece own low reach

theorem splitCut_result (fresh : Fresh kmem) (other : a.ld.lType ≠ (a.s.set flp).lType) (before : (a.s.set flp).lStart < a.ld.lStart)
    (high : a.ld.lEnd < (a.s.set flp).lEnd) (split : splitAfter kmem time flp a = some (some s)) :
    Result a (done ++ flp :: after) after (.next none { a with insrtp := some flp, s := cutBefore flp a.ld s }) := by
  have ordered := scan.ranged.ordered
  obtain ⟨mid, late, new, rfl, holds, keeps, piece, elsewhere, early, later⟩ := scan_piece scan fresh (by omega) split
  have set := cutBefore_set flp a.ld s
  have once := Holds.once holds
  have apart : new ≠ flp := by
    rintro rfl
    exact once.2 (by simp)
  have here : (cutBefore flp a.ld s).set flp = { a.s.set flp with lEnd := a.ld.lStart - 1 } := by
    rw [set, update_self, elsewhere flp (by simp)]
  have there : (cutBefore flp a.ld s).set new = { a.s.set flp with lStart := a.ld.lEnd + 1 } := by
    rw [set, update_of_ne apart, piece]
  have same : ∀ p ∈ done ++ (mid ++ late), (cutBefore flp a.ld s).set p = a.s.set p := by
    intro p member
    have old : p ≠ flp := by
      rintro rfl
      simp only [List.mem_append, List.mem_cons] at member once
      tauto
    rw [set, update_of_ne old]
    exact elsewhere p (by simp only [List.mem_append, List.mem_cons] at member ⊢; tauto)
  have members : ∀ p ∈ done ++ flp :: (mid ++ new :: late), p = new ∨ p = flp ∨ p ∈ done ++ (mid ++ late) := by
    simp only [List.mem_append, List.mem_cons]
    tauto
  have pieces : locks (cutBefore flp a.ld s) (done ++ flp :: (mid ++ new :: late)) = locks a.s done ++
      { a.s.set flp with lEnd := a.ld.lStart - 1 } :: (locks a.s mid ++ { a.s.set flp with lStart := a.ld.lEnd + 1 } :: locks a.s late) := by
    rw [locks_middle, locks_middle, here, there]
    refine congrArg₂ _ ?_ (congrArg _ (congrArg₂ _ ?_ (congrArg _ ?_)))
    · exact List.map_congr_left (fun p member => same p (by simp [member]))
    · exact List.map_congr_left (fun p member => same p (by simp [member]))
    · exact List.map_congr_left (fun p member => same p (by simp [member]))
  have middle := scan.middle
  rw [locks_append] at middle
  have base : Base { a with insrtp := some flp, s := cutBefore flp a.ld s } (done ++ flp :: (mid ++ new :: late)) := by
    refine scan_changed scan (cutBefore_holds a.ld holds) ?_ (fun p member foreign => ?_) (fun _ => ⟨by simp, ?_⟩)
    · rw [pieces]
      exact middle.pieces (by omega) (by omega) (by omega) early later
    · rcases members p member with rfl | rfl | inside
      · exact absurd (by rw [there]; exact own) foreign
      · exact absurd (by rw [here]; exact own) foreign
      · exact ⟨by simp only [List.mem_append, List.mem_cons] at inside ⊢; tauto, same p inside⟩
    · rw [here]
      exact before.le
  refine .settled ⟨base, fun p member own' => ?_⟩ ⟨keeps.trans (cutBefore_keeps a.ld (by simp)), rfl, rfl, fun o b t => ?_⟩
    (by simp only [List.length_append, List.length_cons]; omega)
  · show Left ((cutBefore flp a.ld s).set p) a.ld ∨ Left a.ld ((cutBefore flp a.ld s).set p)
    rcases members p member with rfl | rfl | inside
    · rw [there]
      exact .inr (piece_apart other)
    · rw [here]
      exact .inl ⟨show a.ld.lStart - 1 < a.ld.lStart by omega, fun type => absurd type.symm other⟩
    · replace own' : ((cutBefore flp a.ld s).set p).owner = a.ld.owner := own'
      rw [same p inside] at own' ⊢
      rcases List.mem_append.mp inside with early' | late'
      · exact .inl (scan.early p early' own')
      · exact .inr (scan_behind scan own high late' own')
  · rw [pieces, locks_middle, locks_append]
    exact granted_pieces own before high ordered

theorem turn_result (fresh : Fresh kmem) (call : flckadjTurn kmem time flp a = some turn) :
    Result a (done ++ flp :: after) after turn := by
  cases flckadjTurn_cases scan.ranged.ordered scan.ordered call with
  | covered same low high => exact covered_result scan own same low high
  | noMemory split => exact .noMemory rfl
  | past low apart => exact past_result scan own low apart
  | joinAfter same before near high => exact joinAfter_result scan own same before near high
  | swallow low high go place => exact swallow_result scan own low high go place
  | joinBefore same before near high => exact joinBefore_result scan own same before near high
  | cut other before reach high => exact cut_result scan own other before reach high
  | beyond high apart place =>
    rw [scan.holds.next_eq]
    obtain ⟨scan', moves⟩ := scan_skip scan (fun _ => ⟨high, apart⟩) (place.symm.imp id (fun same => ⟨same, by have := scan.ordered; omega⟩))
    exact .goes scan' moves (by simp)
  | splitCut other before high split => exact splitCut_result scan own fresh other before high split
  | splitDelete other low reach high split place => exact splitDelete_result scan own fresh other low reach high split place

end turns

inductive Scanned (a : Adjust) (l : List Nat) : Turn → Prop
  | granted {a' : Adjust} {l' : List Nat} (holds : Holds a'.s l') (legal : Legal (locks a'.s l')) (keeps : Keeps a.s a'.s l l')
      (held : ∀ o b t, Granted (locks a.s l) a.ld o b t ↔ Held (locks a'.s l') o b t) : Scanned a l (.ret none a')
  | noMemory {a' : Adjust} {l' : List Nat} (holds : Holds a'.s l') (legal : Legal (locks a'.s l')) (keeps : Keeps a.s a'.s l l') :
      Scanned a l (.ret (some .ENOLCK) a')
  | settled {nflp : Option Nat} {a' : Adjust} {l' : List Nat} (settled : Settled a' l') (moves : Moves a a' l l')
      (short : l'.length ≤ l.length + 1) : Scanned a l (.next nflp a')

theorem Scanned.moved {a' : Adjust} {l' : List Nat} (moves : Moves a a' l l') (short : l'.length ≤ l.length)
    (scanned : Scanned a' l' turn) : Scanned a l turn := by
  cases scanned with
  | granted holds legal keeps held =>
    exact .granted holds legal (moves.keeps.trans keeps) (fun o b t => (moves.granted o b t).trans (held o b t))
  | noMemory holds legal keeps => exact .noMemory holds legal (moves.keeps.trans keeps)
  | settled settled moves' short' => exact .settled settled (moves.trans moves') (by omega)

theorem flckadjScan_none (time : Nat) (a : Adjust) : flckadjScan kmem time none a = some (.next none a) := by
  cases time <;> rfl

theorem flckadjScan_spec (fresh : Fresh kmem) (scan : Scan a done after) (call : flckadjScan kmem time after.head? a = some turn) :
    Scanned a (done ++ after) turn := by
  induction time generalizing a done after with
  | zero =>
    cases after with
    | nil =>
      cases call
      exact .settled ⟨scan.toBase, fun p member own => .inl (scan.early p (by simpa using member) own)⟩ (.refl _ _) (Nat.le_succ _)
    | cons flp after => cases call
  | succ time ih =>
    cases after with
    | nil =>
      cases call
      exact .settled ⟨scan.toBase, fun p member own => .inl (scan.early p (by simpa using member) own)⟩ (.refl _ _) (Nat.le_succ _)
    | cons flp after =>
      rw [List.head?_cons, flckadjScan] at call
      split at call
      · next own =>
        obtain ⟨step, turned, rest⟩ := Option.bind_eq_some_iff.mp call
        cases turn_result scan own fresh turned with
        | granted same held =>
          cases rest
          exact .granted (same ▸ scan.holds) (same ▸ scan.legal) (same ▸ .refl _ _) (same ▸ held)
        | noMemory same =>
          cases rest
          exact .noMemory (same ▸ scan.holds) (same ▸ scan.legal) (same ▸ .refl _ _)
        | goes scan' moves short => exact (ih scan' rest).moved moves short
        | settled settled moves short =>
          dsimp only at rest
          rw [flckadjScan_none] at rest
          cases rest
          exact .settled settled moves short
      · next other =>
        rw [scan.holds.next_eq] at call
        obtain ⟨scan', moves⟩ := scan_skip scan (fun own => absurd own other) (.inl rfl)
        exact (ih scan' call).moved moves (by simp)

structure Adjusted (s t : Filocks) (l l' : List Nat) (ld : FlockT) (retval : Option Errno) : Prop where
  holds : Holds t l'
  legal : Legal (locks t l')
  keeps : Keeps s t l l'
  result : retval = none ∨ retval = some .ENOLCK
  held : retval = none → ∀ o b t', Granted (locks s l) ld o b t' ↔ Held (locks t l') o b t'

theorem granted_unlock (settled : Settled a l) (unlock : a.ld.lType = .F_UNLCK) (o : Owner) (b : Int) (t : LType) :
    Granted (locks a.s l) a.ld o b t ↔ Held (locks a.s l) o b t := by
  have outside : Held (locks a.s l) o b t → ¬ covers a.ld o b := by
    rintro ⟨k, member, covered, _⟩ covered'
    obtain ⟨p, inside, rfl⟩ := mem_locks.mp member
    have apart := settled.apart p inside (covered.1.trans covered'.1.symm)
    simp only [covers, Left] at covered covered' apart
    omega
  constructor
  · rintro (⟨_, rfl, locked⟩ | ⟨_, held⟩)
    · exact absurd unlock locked
    · exact held
  · exact fun held => .inr ⟨outside held, held⟩

theorem settled_insert (fresh : Fresh kmem) {before after : List Nat} (settled : Settled a (before ++ after)) (locked : a.ld.lType ≠ .F_UNLCK)
    (type : a.ld.lType = .F_RDLCK ∨ a.ld.lType = .F_WRLCK) (early : ∀ p ∈ before, (a.s.set p).lStart ≤ a.ld.lStart)
    (late : ∀ p ∈ after, a.ld.lStart ≤ (a.s.set p).lStart) {new : Nat} {t : Filocks}
    (call : insflck kmem a.ld before.getLast? a.s = some (new, t)) : Adjusted a.s t (before ++ after) (before ++ new :: after) a.ld none := by
  have memory : kmem a.s ≠ none := fun none_ => by
    rw [insflck_none.mpr none_] at call
    cases call
  obtain ⟨c, memory⟩ := Option.ne_none_iff_exists'.mp memory
  obtain ⟨u, done, inserted⟩ := insflck_spec settled.holds memory (fresh _ c memory) a.ld
  obtain ⟨rfl, rfl⟩ := Prod.mk.inj (Option.some.inj (call.symm.trans done))
  have whole : locks t (before ++ new :: after) = locks a.s before ++ a.ld :: locks a.s after := by
    have outside : new ∉ before ++ after := fun member => inserted.fresh (settled.holds.used new member)
    simp only [List.mem_append, not_or] at outside
    rw [locks_middle, locks_update inserted.set outside.1, locks_update inserted.set outside.2, inserted.set, update_self]
  have legal := settled.legal
  rw [locks_append] at legal
  have fits : ∀ x ∈ locks a.s before ++ locks a.s after, Compatible a.ld x := by
    rw [← locks_append]
    intro x member
    obtain ⟨p, inside, rfl⟩ := mem_locks.mp member
    refine ⟨fun same => (settled.apart p inside same.symm).symm, fun other overlap => ?_⟩
    exact (settled.shared locked p inside (Ne.symm other) ⟨overlap.2, overlap.1⟩).symm
  refine ⟨inserted.holds, ?_, insflck_keeps settled.holds inserted, .inl rfl, fun _ o b t' => ?_⟩
  · rw [whole]
    refine legal_middle.mpr ⟨legal, settled.ranged, type, fun x member => ?_, fun x member => ?_, fits⟩
    · obtain ⟨p, inside, rfl⟩ := mem_locks.mp member
      exact early p inside
    · obtain ⟨p, inside, rfl⟩ := mem_locks.mp member
      exact late p inside
  · rw [whole, locks_append]
    refine granted_insert locked (fun x member own overlap => ?_)
    have apart := (fits x member).own own.symm
    simp only [Left, Overlap] at apart overlap
    omega

theorem settled_place (settled : Settled a l) (locked : a.ld.lType ≠ .F_UNLCK) {place : Option Nat}
    (call : a.insrtp.elim (some none) (fun flp => (insertPlace time a.ld.lStart flp a.s).map some) = some place) :
    ∃ before after, l = before ++ after ∧ before.getLast? = place ∧ (∀ p ∈ before, (a.s.set p).lStart ≤ a.ld.lStart) ∧
      ∀ p ∈ after, a.ld.lStart ≤ (a.s.set p).lStart := by
  have placed := settled.placed locked
  cases at_ : a.insrtp with
  | none =>
    rw [at_] at call placed
    cases call
    exact ⟨[], l, rfl, rfl, by simp, placed⟩
  | some i =>
    rw [at_] at call placed
    obtain ⟨member, low⟩ := placed
    obtain ⟨front, back, rfl⟩ := List.append_of_mem member
    obtain ⟨p, found, rfl⟩ := Option.map_eq_some_iff.mp call
    obtain ⟨mid, late, rfl, last, early, later⟩ := insertPlace_spec settled.holds settled.legal low found
    exact ⟨front ++ i :: mid, late, by simp, last, early, later⟩

theorem flckadj_spec (fresh : Fresh kmem) {ld : FlockT} {retval : Option Errno}
    (type : ld.lType ≠ .F_UNLCK → ld.lType = .F_RDLCK ∨ ld.lType = .F_WRLCK) (scan : Scan ⟨s, insrtp, ld⟩ done after)
    (start : insrtp.or s.head = after.head?) (call : flckadj kmem time insrtp ld s = some (retval, a)) :
    ∃ l', Adjusted s a.s (done ++ after) l' ld retval := by
  obtain ⟨turn, scanned, rest⟩ := Option.bind_eq_some_iff.mp call
  rw [start] at scanned
  cases flckadjScan_spec fresh scan scanned with
  | granted holds legal keeps held =>
    cases rest
    exact ⟨_, holds, legal, keeps, .inl rfl, fun _ => held⟩
  | noMemory holds legal keeps =>
    cases rest
    exact ⟨_, holds, legal, keeps, .inr rfl, fun failed => by cases failed⟩
  | @settled nflp a' l' settled moves short =>
    dsimp only at rest
    split at rest
    · next locked =>
      obtain ⟨place, placed, rest⟩ := Option.bind_eq_some_iff.mp rest
      split at rest
      · cases rest
        exact ⟨l', settled.holds, settled.legal, moves.keeps, .inr rfl, fun failed => by cases failed⟩
      · next new t made =>
        cases rest
        obtain ⟨front, back, rfl, rfl, early, late⟩ := settled_place settled locked placed
        have type' : a'.ld.lType = .F_RDLCK ∨ a'.ld.lType = .F_WRLCK := by
          rw [moves.type] at locked ⊢
          exact type locked
        have inserted := settled_insert fresh settled locked type' early late made
        refine ⟨_, inserted.holds, inserted.legal, moves.keeps.trans inserted.keeps, .inl rfl, fun _ o b t' => ?_⟩
        exact (moves.granted o b t').trans (inserted.held rfl o b t')
    · next unlock =>
      cases rest
      refine ⟨l', settled.holds, settled.legal, moves.keeps, .inl rfl, fun _ o b t' => ?_⟩
      exact (moves.granted o b t').trans (granted_unlock settled (not_not.mp unlock) o b t')

theorem insertPlace_ends (lStart : Int) (linked : Linked s.next (some flp) l) (enough : l.length ≤ time) :
    ∃ place, insertPlace time lStart flp s = some place := by
  rcases walk_cases (fun p => ¬ (s.set p).lStart < lStart) time linked enough with ⟨walked, _⟩ | ⟨_, _, _, _, _, walked⟩
  · exact ⟨_, by rw [insertPlace, walked]; rfl⟩
  · exact ⟨_, by rw [insertPlace, walked]; rfl⟩

theorem flckadjTurn_ends (linked : Linked a.s.next (some flp) l) (enough : l.length ≤ time) :
    ∃ turn, flckadjTurn kmem time flp a = some turn := by
  obtain ⟨place, placed⟩ := insertPlace_ends (a.ld.lEnd + 1) linked enough
  have split : splitAfter kmem time flp a =
      some ((insflck kmem { a.s.set flp with lStart := a.ld.lEnd + 1 } (some place) a.s).map (·.2)) := by
    rw [splitAfter, placed]
    rfl
  unfold flckadjTurn
  simp only [split, Option.bind_eq_bind, Option.bind_some]
  cases insflck kmem { a.s.set flp with lStart := a.ld.lEnd + 1 } (some place) a.s <;> dsimp only [Option.map] <;> split <;>
    first
    | exact ⟨_, rfl⟩
    | (split <;> exact ⟨_, rfl⟩)

theorem flckadjScan_ends (fresh : Fresh kmem) (scan : Scan a done after) (enough : after.length < time) :
    ∃ turn, flckadjScan kmem time after.head? a = some turn := by
  induction time generalizing a done after with
  | zero => omega
  | succ time ih =>
    cases after with
    | nil => exact ⟨_, rfl⟩
    | cons flp after =>
      rw [List.head?_cons, flckadjScan]
      rw [List.length_cons] at enough
      split
      · next own =>
        obtain ⟨turn, turned⟩ : ∃ turn, flckadjTurn kmem time flp a = some turn :=
          flckadjTurn_ends (Holds.rest scan.holds) (show (flp :: after).length ≤ time by simp; omega)
        rw [turned]
        cases turn_result scan own fresh turned with
        | granted same held => exact ⟨_, rfl⟩
        | noMemory same => exact ⟨_, rfl⟩
        | goes scan' moves short => exact ih scan' (by omega)
        | settled settled moves short => exact ⟨_, flckadjScan_none time _⟩
      · next other =>
        rw [scan.holds.next_eq]
        exact ih (scan_skip scan (fun own => absurd own other) (.inl rfl)).1 (by omega)

theorem flckadj_ends (fresh : Fresh kmem) {ld : FlockT} (scan : Scan ⟨s, insrtp, ld⟩ done after)
    (start : insrtp.or s.head = after.head?) (enough : (done ++ after).length < time) :
    ∃ r, flckadj kmem time insrtp ld s = some r := by
  rw [List.length_append] at enough
  obtain ⟨turn, scanned⟩ := flckadjScan_ends fresh scan (show after.length < time by omega)
  unfold flckadj
  rw [start, scanned]
  cases flckadjScan_spec fresh scan scanned with
  | granted holds legal keeps held => exact ⟨_, rfl⟩
  | noMemory holds legal keeps => exact ⟨_, rfl⟩
  | @settled nflp a' l' settled moves short =>
    simp only [Option.bind_eq_bind, Option.bind_some]
    split
    · next locked =>
      have found : ∃ place, a'.insrtp.elim (some none) (fun flp => (insertPlace time a'.ld.lStart flp a'.s).map some) = some place := by
        have placed := settled.placed locked
        cases at_ : a'.insrtp with
        | none => exact ⟨none, rfl⟩
        | some i =>
          rw [at_] at placed
          obtain ⟨front, back, rfl⟩ := List.append_of_mem placed.1
          rw [List.length_append, List.length_append] at short
          obtain ⟨place, found⟩ := insertPlace_ends a'.ld.lStart (Holds.rest settled.holds) (show _ ≤ time by omega)
          exact ⟨some place, by rw [Option.elim_some, found, Option.map_some]⟩
      obtain ⟨place, found⟩ := found
      rw [found, Option.bind_some]
      split <;> exact ⟨_, rfl⟩
    · exact ⟨_, rfl⟩

end Svr4.Proofs.FlockTurns
