import Svr4.Proofs.FlockHistory

/-! Requests that `flckadj` fails for want of a record: when the list is as it was. -/

namespace Svr4.Proofs.FlockFailure
open Function Chain DoubleChain Flock FlockLists FlockRanges FlockScan FlockTurns FlockHistory

variable {s : Filocks} {a a' : Adjust} {l done after : List Nat} {flp p : Nat} {kmem : Filocks → Option Nat} {time : Nat}
  {turn : Turn} {ld k : FlockT}

def Touches (k ld : FlockT) : Prop := ¬ Left k ld ∧ ¬ Left ld k

def Crosses (k ld : FlockT) : Prop := k.lStart ≤ ld.lEnd ∧ ld.lEnd < k.lEnd

theorem turn_noMemory (ordered : a.ld.lStart ≤ a.ld.lEnd) (ordered' : (a.s.set flp).lStart ≤ (a.s.set flp).lEnd)
    (call : flckadjTurn kmem time flp a = some (.ret (some .ENOLCK) a')) :
    a'.s = a.s ∧ kmem a.s = none ∧ a.ld.lType ≠ (a.s.set flp).lType ∧ Crosses (a.s.set flp) a.ld := by
  have order := regflck_cases a.ld (a.s.set flp) ordered ordered'
  unfold flckadjTurn at call
  dsimp only at call
  generalize regflck a.ld (a.s.set flp) = code at call order
  obtain ⟨start, stop⟩ := code
  have empty : splitAfter kmem time flp a = some none → kmem a.s = none := by
    intro split
    obtain ⟨place, _, rest⟩ := Option.bind_eq_some_iff.mp split
    exact insflck_none.mp (Option.map_eq_none_iff.mp (Option.some.inj rest))
  unfold Crosses
  cases start <;> cases stop <;> dsimp only at call order <;> try split_ifs at call
  all_goals first
    | cases call
    | obtain ⟨piece, split, rest⟩ := Option.bind_eq_some_iff.mp call
      cases piece <;> cases rest
      exact ⟨rfl, empty split, ‹_›, by omega⟩

theorem turn_covered (ordered : a.ld.lStart ≤ a.ld.lEnd) (same : (a.s.set flp).lType = a.ld.lType)
    (low : (a.s.set flp).lStart ≤ a.ld.lStart) (high : a.ld.lEnd ≤ (a.s.set flp).lEnd) :
    ∃ a', flckadjTurn kmem time flp a = some (.ret none a') := by
  have order := regflck_cases a.ld (a.s.set flp) ordered (by omega)
  unfold flckadjTurn
  dsimp only
  generalize regflck a.ld (a.s.set flp) = code at order ⊢
  obtain ⟨start, stop⟩ := code
  cases start <;> cases stop <;> dsimp only at order ⊢ <;> try omega
  all_goals
    rw [if_pos same.symm]
    exact ⟨_, rfl⟩

section scan
variable (scan : Scan a done (flp :: after)) (own : (a.s.set flp).owner = a.ld.owner)
include scan

theorem turn_goes {nflp : Option Nat} (call : flckadjTurn kmem time flp a = some (.next nflp a')) :
    a'.ld.lStart ≤ a.ld.lStart ∧ a.ld.lEnd ≤ a'.ld.lEnd ∧
      (nflp ≠ none → a'.ld.lEnd = a.ld.lEnd ∧ ∀ p ≠ flp, a'.s.set p = a.s.set p) := by
  have deleted := (delflck_spec scan.holds).2.1
  cases flckadjTurn_cases scan.ranged.ordered scan.ordered call with
  | past low apart => exact ⟨le_rfl, le_rfl, fun more => absurd rfl more⟩
  | joinAfter same before near high => exact ⟨le_rfl, high.le, fun more => absurd rfl more⟩
  | swallow low high go place => exact ⟨le_rfl, le_rfl, fun _ => ⟨rfl, fun p _ => congrFun deleted p⟩⟩
  | joinBefore same before near high => exact ⟨before.le, le_rfl, fun _ => ⟨rfl, fun p _ => congrFun deleted p⟩⟩
  | cut other before reach high =>
    refine ⟨le_rfl, le_rfl, fun _ => ⟨rfl, fun p apart => ?_⟩⟩
    change (cutBefore flp a.ld a.s).set p = a.s.set p
    rw [cutBefore_set, update_of_ne apart]
  | beyond high apart place => exact ⟨le_rfl, le_rfl, fun _ => ⟨rfl, fun p _ => rfl⟩⟩
  | splitCut other before high split => exact ⟨le_rfl, le_rfl, fun more => absurd rfl more⟩
  | splitDelete other low reach high split place => exact ⟨le_rfl, le_rfl, fun more => absurd rfl more⟩

theorem turn_apart (apart : ¬ Touches (a.s.set flp) a.ld) (call : flckadjTurn kmem time flp a = some turn) :
    ∃ nflp a', turn = .next nflp a' ∧ a'.s = a.s ∧ a'.ld = a.ld ∧ (a.ld.lEnd < (a.s.set flp).lStart ∨ nflp = a.s.next flp) := by
  have ordered := scan.ranged.ordered
  have ordered' := scan.ordered
  have apart : Left (a.s.set flp) a.ld ∨ Left a.ld (a.s.set flp) := by
    unfold Touches at apart
    tauto
  unfold Left at apart
  have clash : a.ld.lType = (a.s.set flp).lType → (a.s.set flp).lEnd + 1 < a.ld.lStart ∨ a.ld.lEnd + 1 < (a.s.set flp).lStart := by
    intro same
    rcases apart with ⟨_, gap⟩ | ⟨_, gap⟩
    · exact .inl (gap same.symm)
    · exact .inr (gap same)
  cases turned : turn with
  | ret retval a'' =>
    subst turned
    cases flckadjTurn_cases ordered ordered' call with
    | covered same low high =>
      have := clash same
      omega
    | noMemory split =>
      have crosses := (turn_noMemory ordered ordered' call).2.2.2
      unfold Crosses at crosses
      omega
  | next nflp a'' =>
    subst turned
    cases flckadjTurn_cases ordered ordered' call with
    | past low apart => exact ⟨_, _, rfl, rfl, rfl, .inl low⟩
    | joinAfter same before near high =>
      have := clash same
      omega
    | swallow low high go place => omega
    | joinBefore same before near high =>
      have := clash same
      omega
    | cut other before reach high => omega
    | beyond high apart place => exact ⟨_, _, rfl, rfl, rfl, .inr rfl⟩
    | splitCut other before high split => omega
    | splitDelete other low reach high split place => omega

end scan

structure Failed (a a' : Adjust) (after : List Nat) (done : List Nat) (p : Nat) (rest : List Nat) : Prop where
  scan : Scan a' done (p :: rest)
  owner : a'.ld.owner = a.ld.owner
  type : a'.ld.lType = a.ld.lType
  start : a'.ld.lStart ≤ a.ld.lStart
  end_ : a'.ld.lEnd = a.ld.lEnd
  kept : ∀ q ∈ p :: rest, q ∈ after ∧ a'.s.set q = a.s.set q
  own : (a.s.set p).owner = a.ld.owner
  other : a.ld.lType ≠ (a.s.set p).lType
  crosses : Crosses (a.s.set p) a.ld
  untouched : (∀ q ∈ after, (a.s.set q).owner = a.ld.owner → Touches (a.s.set q) a.ld → Crosses (a.s.set q) a.ld) → a'.s = a.s

theorem scan_failed (fresh : Fresh kmem) (scan : Scan a done after) {b : Adjust}
    (call : flckadjScan kmem time after.head? a = some (.ret (some .ENOLCK) b)) :
    kmem b.s = none ∧ ∃ a' done' p rest, Failed a a' after done' p rest ∧ b.s = a'.s := by
  induction time generalizing a done after with
  | zero => cases after <;> cases call
  | succ time ih =>
    cases after with
    | nil => cases call
    | cons flp after =>
      rw [List.head?_cons, flckadjScan] at call
      have outside := (Holds.once scan.holds).2
      split at call
      · next own =>
        obtain ⟨step, turned, rest⟩ := Option.bind_eq_some_iff.mp call
        cases result : turn_result scan own fresh turned with
        | granted same held => cases rest
        | noMemory same =>
          cases rest
          obtain ⟨same, empty, other, crosses⟩ := turn_noMemory scan.ranged.ordered scan.ordered turned
          exact ⟨same ▸ empty, a, done, flp, after, ⟨scan, rfl, rfl, le_rfl, rfl, fun q member => ⟨member, rfl⟩, own, other, crosses, fun _ => rfl⟩, same⟩
        | @goes a₁ done₁ scan' moves short =>
          obtain ⟨empty, a', done', p, rest', failed, same⟩ := ih scan' rest
          have more : after.head? ≠ none := by
            have := failed.kept p List.mem_cons_self
            intro none_
            rw [List.head?_eq_none_iff.mp none_] at this
            exact List.not_mem_nil this.1
          obtain ⟨start, _, left_⟩ := turn_goes scan turned
          obtain ⟨end_, sets⟩ := left_ more
          have sets : ∀ q ∈ after, a₁.s.set q = a.s.set q := fun q member => sets q (fun same => outside (same ▸ member))
          have here := failed.kept p List.mem_cons_self
          have crosses : Crosses (a.s.set p) a.ld := by
            have crosses := failed.crosses
            rw [sets p here.1] at crosses
            unfold Crosses at crosses ⊢
            omega
          refine ⟨empty, a', done', p, rest', ⟨failed.scan, failed.owner.trans moves.owner, failed.type.trans moves.type, failed.start.trans start,
            failed.end_.trans end_, fun q member => ?_, ?_, ?_, crosses, fun touched => ?_⟩, same⟩
          · obtain ⟨inside, set⟩ := failed.kept q member
            exact ⟨List.mem_cons_of_mem _ inside, set.trans (sets q inside)⟩
          · have own := failed.own
            rwa [sets p here.1, moves.owner] at own
          · have other := failed.other
            rwa [sets p here.1, moves.type] at other
          · -- the lock here ends before the one that the scan fails at
            have before := scan.later own here.1 (by have own := failed.own; rwa [sets p here.1, moves.owner] at own)
            have apart : ¬ Touches (a.s.set flp) a.ld := by
              intro touches
              have := (touched flp List.mem_cons_self own touches).2
              have := before.1
              have := crosses.1
              omega
            obtain ⟨nflp, a₂, same_turn, same₂, ld₂, _⟩ := turn_apart scan apart turned
            cases same_turn
            rw [← same₂]
            apply failed.untouched
            intro q member
            rw [sets q member, ld₂]
            exact touched q (List.mem_cons_of_mem _ member)
        | settled settled moves short =>
          dsimp only at rest
          rw [flckadjScan_none] at rest
          cases rest
      · next foreign =>
        rw [Doubly.next_eq scan.holds.toDoubly] at call
        obtain ⟨scan', moves⟩ := scan_skip scan (fun own => absurd own foreign) (.inl rfl)
        obtain ⟨empty, a', done', p, rest', failed, same⟩ := ih scan' call
        refine ⟨empty, a', done', p, rest', { failed with kept := fun q member => ?_, untouched := fun touched => ?_ }, same⟩
        · obtain ⟨inside, set⟩ := failed.kept q member
          exact ⟨List.mem_cons_of_mem _ inside, set⟩
        · exact failed.untouched (fun q member => touched q (List.mem_cons_of_mem _ member))

theorem scan_ended (fresh : Fresh kmem) (scan : Scan a done after) {nflp : Option Nat}
    (call : flckadjScan kmem time after.head? a = some (.next nflp a')) :
    a'.ld.lStart ≤ a.ld.lStart ∧ a.ld.lEnd ≤ a'.ld.lEnd ∧
      ((∀ q ∈ after, (a.s.set q).owner = a.ld.owner → ¬ Touches (a.s.set q) a.ld) → a'.s = a.s) := by
  induction time generalizing a done after with
  | zero =>
    cases after with
    | nil =>
      cases call
      exact ⟨le_rfl, le_rfl, fun _ => rfl⟩
    | cons flp after => cases call
  | succ time ih =>
    cases after with
    | nil =>
      cases call
      exact ⟨le_rfl, le_rfl, fun _ => rfl⟩
    | cons flp after =>
      rw [List.head?_cons, flckadjScan] at call
      have outside := (Holds.once scan.holds).2
      split at call
      · next own =>
        obtain ⟨step, turned, rest⟩ := Option.bind_eq_some_iff.mp call
        have result := turn_result scan own fresh turned
        cases result with
        | granted same held => cases rest
        | noMemory same => cases rest
        | @goes a₁ done₁ scan' moves short =>
          obtain ⟨start, end_, _⟩ := turn_goes scan turned
          obtain ⟨start', end_', untouched⟩ := ih scan' rest
          refine ⟨start'.trans start, end_.trans end_', fun apart => ?_⟩
          obtain ⟨nflp, a₂, same_turn, same, ld, _⟩ := turn_apart scan (apart flp List.mem_cons_self own) turned
          cases same_turn
          rw [← same]
          apply untouched
          intro q member
          rw [same, ld]
          exact apart q (List.mem_cons_of_mem _ member)
        | @settled a₁ l₁ settled moves short =>
          obtain ⟨start, end_, _⟩ := turn_goes scan turned
          dsimp only at rest
          rw [flckadjScan_none] at rest
          cases rest
          refine ⟨start, end_, fun apart => ?_⟩
          obtain ⟨nflp, a₂, same_turn, same, _⟩ := turn_apart scan (apart flp List.mem_cons_self own) turned
          cases same_turn
          exact same
      · next foreign =>
        rw [Doubly.next_eq scan.holds.toDoubly] at call
        obtain ⟨scan', moves⟩ := scan_skip scan (fun own => absurd own foreign) (.inl rfl)
        obtain ⟨start, end_, untouched⟩ := ih scan' call
        exact ⟨start, end_, fun apart => untouched (fun q member => apart q (List.mem_cons_of_mem _ member))⟩

def near (k ld : FlockT) : Int :=
  if k.lEnd < ld.lStart then k.lEnd else if ld.lEnd < k.lStart then k.lStart else max k.lStart ld.lStart

theorem near_covered (touches : Touches k ld) (ordered : k.lStart ≤ k.lEnd) (ordered' : ld.lStart ≤ ld.lEnd) :
    covers k k.owner (near k ld) ∧ (Overlap k ld ∧ ld.lStart ≤ near k ld ∧ near k ld ≤ ld.lEnd ∨
      k.lType = ld.lType ∧ near k ld + 1 = ld.lStart ∨ k.lType = ld.lType ∧ near k ld = ld.lEnd + 1 ∧ ld.lEnd < k.lEnd) := by
  unfold Touches Left at touches
  simp only [not_and, not_forall, not_lt, exists_prop] at touches
  obtain ⟨before, behind⟩ := touches
  unfold near covers Overlap
  split_ifs with first second
  · obtain ⟨same, _⟩ := before first
    exact ⟨⟨rfl, ordered, le_rfl⟩, .inr (.inl ⟨same, by omega⟩)⟩
  · obtain ⟨same, _⟩ := behind second
    exact ⟨⟨rfl, le_rfl, ordered⟩, .inr (.inr ⟨same.symm, by omega, by omega⟩)⟩
  · exact ⟨⟨rfl, by omega, by omega⟩, .inl (by omega)⟩

theorem lost_settled (settled : Settled a' l) (owner : a'.ld.owner = ld.owner) (type : a'.ld.lType = ld.lType)
    (start : a'.ld.lStart ≤ ld.lStart) (end_ : ld.lEnd ≤ a'.ld.lEnd) (ranged : Ranged ld) (own : k.owner = ld.owner)
    (touches : Touches k ld) (ordered : k.lStart ≤ k.lEnd) : ¬ Held (locks a'.s l) k.owner (near k ld) k.lType := by
  rintro ⟨x, member, ⟨mine, low, high⟩, same⟩
  obtain ⟨q, inside, rfl⟩ := mem_locks.mp member
  have apart := settled.apart q inside (mine.trans (own.trans owner.symm))
  have := ranged.ordered
  unfold Left at apart
  rw [type] at apart
  rcases (near_covered touches ordered ranged.ordered).2 with ⟨_, low', high'⟩ | ⟨type', edge⟩ | ⟨type', edge, _⟩
  · omega
  · rcases apart with ⟨_, gap⟩ | ⟨_, gap⟩
    · have := gap (same.trans type')
      omega
    · omega
  · rcases apart with ⟨_, gap⟩ | ⟨_, gap⟩
    · omega
    · have := gap (same.trans type').symm
      omega

theorem lost_failed {rest : List Nat} (failed : Failed a a' after done p rest) (ranged : Ranged a.ld) (own : k.owner = a.ld.owner)
    (touches : Touches k a.ld) (ordered : k.lStart ≤ k.lEnd) (before : k.lEnd < (a.s.set p).lStart) :
    ¬ Held (locks a'.s (done ++ p :: rest)) k.owner (near k a.ld) k.lType := by
  rintro ⟨x, member, ⟨mine, low, high⟩, same⟩
  obtain ⟨q, inside, rfl⟩ := mem_locks.mp member
  have range := ranged.ordered
  have start := failed.start
  have crosses := failed.crosses
  have here := (failed.kept p List.mem_cons_self).2
  unfold Crosses at crosses
  obtain ⟨⟨_, _, upto⟩, covered⟩ := near_covered touches ordered range
  rcases List.mem_append.mp inside with early | late
  · have apart := failed.scan.early q early (mine.trans (own.trans failed.owner.symm))
    unfold Left at apart
    rw [failed.type] at apart
    rcases covered with ⟨_, low', high'⟩ | ⟨type', edge⟩ | ⟨type', edge, _⟩
    · omega
    · have := apart.2 (same.trans type')
      omega
    · omega
  · have later : (a.s.set p).lStart ≤ (a'.s.set q).lStart := by
      rcases List.mem_cons.mp late with rfl | late
      · rw [here]
      · rw [← here]
        exact (sorted_after failed.scan.legal).2 q late
    omega

/-- Without memory a scan fails that gets to a lock of another type with something left behind the request. -/
theorem scan_fails (scan : Scan a done after) (member : p ∈ after) (own : (a.s.set p).owner = a.ld.owner)
    (other : a.ld.lType ≠ (a.s.set p).lType) (crosses : Crosses (a.s.set p) a.ld)
    (call : flckadjScan (fun _ => none) time after.head? a = some turn) (reach : a.ld.lStart ≤ (a.s.set p).lEnd) :
    ∃ a', turn = .ret (some .ENOLCK) a' := by
  have fresh : Fresh fun _ => none := nofun
  induction time generalizing a done after with
  | zero => cases after <;> cases call; cases member
  | succ time ih =>
    cases after with
    | nil => cases member
    | cons flp after =>
      rw [List.head?_cons, flckadjScan] at call
      have outside := (Holds.once scan.holds).2
      have noPiece : ∀ s, splitAfter (fun _ => none) time flp a ≠ some (some s) := by
        intro s split
        obtain ⟨place, _, rest⟩ := Option.bind_eq_some_iff.mp split
        rw [insflck_none.mpr rfl] at rest
        cases rest
      split at call
      · next mine =>
        obtain ⟨step, turned, rest⟩ := Option.bind_eq_some_iff.mp call
        have cases_ := flckadjTurn_cases scan.ranged.ordered scan.ordered turned
        have ordered := scan.ranged.ordered
        have ordered' := scan.ordered
        unfold Crosses at crosses
        rcases List.mem_cons.mp member with rfl | later
        · cases cases_ with
          | covered same low high => exact absurd same other
          | noMemory split =>
            cases rest
            exact ⟨_, rfl⟩
          | past low apart => omega
          | joinAfter same before near high => exact absurd same other
          | swallow low high go place => omega
          | joinBefore same before near high => exact absurd same other
          | cut other before reach high => omega
          | beyond high apart place => omega
          | splitCut other before high split => exact absurd split (noPiece _)
          | splitDelete other low reach high split place => exact absurd split (noPiece _)
        · have before := (scan.later mine later own).1
          have more : after.head? ≠ none := by
            intro none_
            rw [List.head?_eq_none_iff.mp none_] at later
            cases later
          have goes : ∀ nflp a₁, step = .next nflp a₁ → nflp ≠ none := by
            intro nflp a₁ is
            rw [← Doubly.next_eq scan.holds.toDoubly] at more
            cases cases_ with
            | covered same low high => cases is
            | noMemory split => cases is
            | past low apart => omega
            | joinAfter same before near high => omega
            | swallow low high go place =>
              cases is
              rcases go with rfl | ⟨_, _, last⟩
              · exact more
              · omega
            | joinBefore same before near high =>
              cases is
              exact more
            | cut other before reach high =>
              cases is
              exact more
            | beyond high apart place =>
              cases is
              exact more
            | splitCut other before high split => exact absurd split (noPiece _)
            | splitDelete other low reach high split place => exact absurd split (noPiece _)
          have result := turn_result scan mine fresh turned
          cases result with
          | granted same held =>
            cases cases_ with
            | covered same low high => omega
          | noMemory same =>
            cases rest
            exact ⟨_, rfl⟩
          | @goes a₁ done₁ scan' moves short =>
            obtain ⟨start, _, left_⟩ := turn_goes scan turned
            obtain ⟨end_, sets⟩ := left_ more
            have set := sets p (fun same => outside (same ▸ later))
            refine ih scan' later ?_ ?_ ?_ rest ?_
            · rw [set, moves.owner]
              exact own
            · rw [set, moves.type]
              exact other
            · rw [set, Crosses, end_]
              exact crosses
            · rw [set]
              omega
          | settled settled moves short => exact absurd rfl (goes _ _ rfl)
      · next foreign =>
        rw [Doubly.next_eq scan.holds.toDoubly] at call
        obtain ⟨scan', moves⟩ := scan_skip scan (fun own => absurd own foreign) (.inl rfl)
        have later : p ∈ after := by
          rcases List.mem_cons.mp member with rfl | later
          · exact absurd own foreign
          · exact later
        exact ih scan' later own other crosses call reach

theorem goes_on (result : Result a l after turn) {nflp : Option Nat} (is : turn = .next nflp a') (more : nflp ≠ none) :
    ∃ done', Scan a' done' after := by
  cases result with
  | granted same held => cases is
  | noMemory same => cases is
  | goes scan' moves short =>
    cases is
    exact ⟨_, scan'⟩
  | settled settled moves short =>
    cases is
    exact absurd rfl more

theorem scan_covered (scan : Scan a done after) (fresh : Fresh kmem) (member : p ∈ after) (own : (a.s.set p).owner = a.ld.owner)
    (same : (a.s.set p).lType = a.ld.lType) (low : (a.s.set p).lStart ≤ a.ld.lStart) (high : a.ld.lEnd ≤ (a.s.set p).lEnd)
    (call : flckadjScan kmem time after.head? a = some turn) : ∃ a', turn = .ret none a' := by
  induction time generalizing a done after with
  | zero => cases after <;> cases call; cases member
  | succ time ih =>
    cases after with
    | nil => cases member
    | cons flp after =>
      rw [List.head?_cons, flckadjScan] at call
      split at call
      · next mine =>
        obtain ⟨step, turned, rest⟩ := Option.bind_eq_some_iff.mp call
        rcases List.mem_cons.mp member with rfl | later
        · obtain ⟨a', covered⟩ : ∃ a', flckadjTurn kmem time p a = some (.ret none a') :=
            turn_covered scan.ranged.ordered same low high
          rw [covered] at turned
          cases turned
          cases rest
          exact ⟨_, rfl⟩
        · have before := scan.later mine later own
          have ordered := scan.ranged.ordered
          have apart : ¬ Touches (a.s.set flp) a.ld := by
            intro touches
            apply touches.1
            refine ⟨before.1.trans_le low, fun alike => ?_⟩
            have := before.2 (alike.trans same.symm)
            omega
          obtain ⟨nflp, a₁, rfl, same_s, same_ld, go⟩ := turn_apart scan apart turned
          have result := turn_result scan mine fresh turned
          have next : nflp = after.head? := by
            rw [← Doubly.next_eq scan.holds.toDoubly]
            exact go.resolve_left (by have := scan.ordered; have := before.1; omega)
          subst next
          have more : after.head? ≠ none := by
            intro none_
            rw [List.head?_eq_none_iff.mp none_] at later
            cases later
          obtain ⟨done₁, scan'⟩ := goes_on result rfl more
          rw [← same_s, ← same_ld] at own same low high
          exact ih scan' later own same low high rest
      · next foreign =>
        rw [Doubly.next_eq scan.holds.toDoubly] at call
        obtain ⟨scan', moves⟩ := scan_skip scan (fun own => absurd own foreign) (.inl rfl)
        have later : p ∈ after := by
          rcases List.mem_cons.mp member with rfl | later
          · exact absurd own foreign
          · exact later
        exact ih scan' later own same low high call

theorem scan_granted (fresh : Fresh kmem) (scan : Scan a done after) (call : flckadjScan kmem time after.head? a = some (.ret none a')) :
    ∃ p ∈ after, (a.s.set p).owner = a.ld.owner ∧ (a.s.set p).lType = a.ld.lType ∧ (a.s.set p).lStart ≤ a.ld.lStart ∧
      a.ld.lEnd ≤ (a.s.set p).lEnd := by
  induction time generalizing a done after with
  | zero => cases after <;> cases call
  | succ time ih =>
    cases after with
    | nil => cases call
    | cons flp after =>
      rw [List.head?_cons, flckadjScan] at call
      have outside := (Holds.once scan.holds).2
      split at call
      · next own =>
        obtain ⟨step, turned, rest⟩ := Option.bind_eq_some_iff.mp call
        have result := turn_result scan own fresh turned
        cases result with
        | granted unchanged held =>
          cases rest
          cases flckadjTurn_cases scan.ranged.ordered scan.ordered turned with
          | covered same low high => exact ⟨flp, List.mem_cons_self, own, same.symm, low, high⟩
        | noMemory same => cases rest
        | @goes a₁ done₁ scan' moves short =>
          obtain ⟨start, _, left_⟩ := turn_goes scan turned
          obtain ⟨p, member, own', same, low, high⟩ := ih scan' rest
          have more : after.head? ≠ none := by
            intro none_
            rw [List.head?_eq_none_iff.mp none_] at member
            cases member
          obtain ⟨end_, sets⟩ := left_ more
          rw [sets p (fun same => outside (same ▸ member))] at own' same low high
          exact ⟨p, List.mem_cons_of_mem _ member, own'.trans moves.owner, same.trans moves.type, low.trans start, end_ ▸ high⟩
        | settled settled moves short =>
          dsimp only at rest
          rw [flckadjScan_none] at rest
          cases rest
      · next foreign =>
        rw [Doubly.next_eq scan.holds.toDoubly] at call
        obtain ⟨scan', moves⟩ := scan_skip scan (fun own => absurd own foreign) (.inl rfl)
        obtain ⟨p, member, found⟩ := ih scan' call
        exact ⟨p, List.mem_cons_of_mem _ member, found⟩

theorem own_apart {locks : List FlockT} (legal : Legal locks) {x : FlockT} (member : k ∈ locks) (member' : x ∈ locks) (own : k.owner = x.owner)
    (differ : k ≠ x) : Left k x ∨ Left x k := by
  have : Std.Symm Compatible := ⟨fun _ _ compatible => compatible.symm⟩
  exact (legal.compatible.forall member member' differ).own own

theorem before_crossed {locks : List FlockT} (legal : Legal locks) {x : FlockT} (member : k ∈ locks) (member' : x ∈ locks)
    (own : k.owner = x.owner) (touches : Touches k ld) (within : ¬ Crosses k ld) (crosses : Crosses x ld) :
    k.lEnd < x.lStart := by
  have differ : k ≠ x := by
    rintro rfl
    exact within crosses
  have range := (legal.ranged k member).ordered
  have apart := own_apart legal member member' own differ
  unfold Touches at touches
  unfold Crosses Left at *
  rcases apart with ⟨before, _⟩ | ⟨behind, _⟩
  · exact before
  · have clash := touches.2
    simp only [not_and, not_forall, exists_prop] at clash
    obtain ⟨_, gap⟩ := clash (by omega)
    omega

section request
variable {insrtp : Option Nat} (scan : Scan ⟨s, insrtp, ld⟩ done after) (start : insrtp.or s.head = after.head?)
include scan start

theorem lock_untouched (fresh : Fresh kmem) (apart : ∀ q ∈ after, (s.set q).owner = ld.owner → ¬ Touches (s.set q) ld)
    (call : flckadj kmem time insrtp ld s = some (some .ENOLCK, a)) : a.s = s := by
  obtain ⟨turn, scanned, rest⟩ := Option.bind_eq_some_iff.mp call
  rw [start] at scanned
  cases turn with
  | ret retval b =>
    cases rest
    obtain ⟨_, a', done', p, rest', failed, same⟩ := scan_failed fresh scan scanned
    rw [same]
    exact failed.untouched (fun q member own touches => absurd touches (apart q member own))
  | next nflp b =>
    have same := (scan_ended fresh scan scanned).2.2 apart
    dsimp only at rest
    split at rest
    · obtain ⟨place, _, rest⟩ := Option.bind_eq_some_iff.mp rest
      split at rest
      · cases rest
        exact same
      · cases rest
    · cases rest

theorem unlock_untouched (fresh : Fresh kmem) (unlock : ld.lType = .F_UNLCK)
    (alone : ∀ p ∈ after, (s.set p).owner = ld.owner → Overlap (s.set p) ld → Crosses (s.set p) ld →
      ∀ q ∈ after, (s.set q).owner = ld.owner → Overlap (s.set q) ld → s.set q = s.set p)
    (call : flckadj kmem time insrtp ld s = some (some .ENOLCK, a)) : a.s = s := by
  obtain ⟨turn, scanned, rest⟩ := Option.bind_eq_some_iff.mp call
  rw [start] at scanned
  cases turn with
  | ret retval b =>
    cases rest
    obtain ⟨_, a', done', p, rest', failed, same⟩ := scan_failed fresh scan scanned
    rw [same]
    apply failed.untouched
    intro q member own touches
    have ordered := scan.ranged.ordered
    dsimp only at ordered own touches ⊢
    have overlap : Overlap (s.set q) ld := by
      have legal := scan.legal
      have inside := List.mem_map_of_mem (f := s.set) (List.mem_append_right done member)
      have range := (legal.ranged _ inside).ordered
      have other : (s.set q).lType ≠ ld.lType := by
        rw [unlock]
        rcases legal.types _ inside with type | type <;> rw [type] <;> nofun
      unfold Touches Left at touches
      simp only [other, Ne.symm other, false_implies, and_true] at touches
      unfold Overlap
      omega
    have crosses := failed.crosses
    have reach : Overlap (s.set p) ld := ⟨crosses.1, ordered.trans crosses.2.le⟩
    rw [alone p (failed.kept p List.mem_cons_self).1 failed.own reach crosses q member own overlap]
    exact crosses
  | next nflp b =>
    have type : b.ld.lType = ld.lType := by
      cases flckadjScan_spec fresh scan scanned with
      | settled settled moves short => exact moves.type
    dsimp only at rest
    rw [type, if_neg (not_not.mpr unlock)] at rest
    cases rest

omit start in
theorem touched_after {k : FlockT} (member : k ∈ locks s (done ++ after)) (own : k.owner = ld.owner) (touches : Touches k ld) :
    ∃ q ∈ after, s.set q = k := by
  obtain ⟨q, inside, rfl⟩ := mem_locks.mp member
  rcases List.mem_append.mp inside with early | late
  · exact absurd (scan.early q early own) touches.1
  · exact ⟨q, late, rfl⟩

/-- When there is memory only before the first change, a request for a lock that touches some of
its owner, and lies in none of its type, fails with some byte of it gone. -/
theorem lock_loses (locked : ld.lType ≠ .F_UNLCK) (type : ld.lType = .F_RDLCK ∨ ld.lType = .F_WRLCK) {k : FlockT}
    (member : k ∈ locks s (done ++ after)) (own : k.owner = ld.owner)
    (touches : Touches k ld) (uncovered : ∀ x ∈ locks s (done ++ after), x.owner = ld.owner → x.lType = ld.lType →
      ¬ (x.lStart ≤ ld.lStart ∧ ld.lEnd ≤ x.lEnd)) (enough : (done ++ after).length < time) :
    ∃ kmem a x l', Fresh kmem ∧ flckadj kmem time insrtp ld s = some (some .ENOLCK, a) ∧ x ∈ locks s (done ++ after) ∧
      Touches x ld ∧ Holds a.s l' ∧ ¬ Held (locks a.s l') x.owner (near x ld) x.lType := by
  classical
  obtain ⟨new, unused⟩ := Infinite.exists_notMem_finset s.used.toFinset
  have unused : new ∉ s.used := fun inside => unused (List.mem_toFinset.mpr inside)
  obtain ⟨kmem, def_⟩ : ∃ kmem : Filocks → Option Nat, kmem = fun t => if t = s then some new else none := ⟨_, rfl⟩
  have memory : kmem s = some new := by
    rw [def_]
    exact if_pos rfl
  have later : ∀ t, t ≠ s → kmem t = none := by
    intro t differ
    rw [def_]
    exact if_neg differ
  have fresh : Fresh kmem := by
    intro t c some_
    by_cases same : t = s
    · subst same
      rw [memory] at some_
      cases some_
      exact unused
    · rw [later t same] at some_
      cases some_
  have ordered := scan.ranged.ordered
  have range := (scan.legal.ranged k member).ordered
  obtain ⟨⟨retval, a⟩, call⟩ := flckadj_ends fresh scan start enough
  refine ⟨kmem, a, ?_⟩
  have done_ := call
  obtain ⟨turn, scanned, rest⟩ := Option.bind_eq_some_iff.mp call
  rw [start] at scanned
  cases turn with
  | ret retval' b =>
    cases rest
    cases retval with
    | none =>
      obtain ⟨p, inside, mine, same, low, high⟩ := scan_granted fresh scan scanned
      exact absurd ⟨low, high⟩ (uncovered _ (List.mem_map_of_mem (List.mem_append_right _ inside)) mine same)
    | some e =>
      have failure : e = .ENOLCK := by
        obtain ⟨l', adjusted⟩ := flckadj_spec fresh (fun _ => type) scan start done_
        rcases adjusted.result with none_ | full
        · cases none_
        · cases full
          rfl
      subst failure
      obtain ⟨empty, a', done', p, rest', failed, same⟩ := scan_failed fresh scan scanned
      obtain ⟨q, inside, mine, touches', within⟩ : ∃ q ∈ after, (s.set q).owner = ld.owner ∧ Touches (s.set q) ld ∧ ¬ Crosses (s.set q) ld := by
        by_contra all
        have untouched := failed.untouched (fun q inside mine touches' => by
          by_contra within
          exact all ⟨q, inside, mine, touches', within⟩)
        rw [same, untouched, memory] at empty
        cases empty
      have here := failed.kept p List.mem_cons_self
      have member' : s.set q ∈ locks s (done ++ after) := List.mem_map_of_mem (List.mem_append_right _ inside)
      have before := before_crossed scan.legal member' (List.mem_map_of_mem (List.mem_append_right _ here.1))
        (mine.trans failed.own.symm) touches' within failed.crosses
      refine ⟨s.set q, _, fresh, done_, member', touches', same ▸ failed.scan.holds, ?_⟩
      rw [same]
      exact lost_failed failed scan.ranged mine touches' (scan.legal.ranged _ member').ordered before
  | next nflp b =>
    have ended := scan_ended fresh scan scanned
    cases flckadjScan_spec fresh scan scanned with
    | @settled _ _ l' settled moves short =>
      have lost := lost_settled settled moves.owner moves.type ended.1 ended.2.1 scan.ranged own touches range
      have changed : b.s ≠ s := by
        rintro same
        have holds := settled.holds
        rw [same] at holds lost
        rw [holds.forward.unique scan.holds.forward] at lost
        exact lost ⟨k, member, (near_covered touches range ordered).1, rfl⟩
      dsimp only at rest
      rw [moves.type, if_pos locked] at rest
      obtain ⟨place, _, rest⟩ := Option.bind_eq_some_iff.mp rest
      rw [insflck_none.mpr (later b.s changed)] at rest
      cases rest
      exact ⟨k, l', fresh, done_, member, touches, settled.holds, lost⟩

/-- Without memory an unlock that takes something from a lock and cuts another one in two fails
with some byte of the first one gone. -/
theorem unlock_loses (unlock : ld.lType = .F_UNLCK) {k x : FlockT} (member : k ∈ locks s (done ++ after)) (own : k.owner = ld.owner)
    (overlap : Overlap k ld) (crosses : Crosses k ld) (member' : x ∈ locks s (done ++ after)) (own' : x.owner = ld.owner)
    (overlap' : Overlap x ld) (differ : x ≠ k) (enough : (done ++ after).length < time) :
    ∃ a l', flckadj (fun _ => none) time insrtp ld s = some (some .ENOLCK, a) ∧ Holds a.s l' ∧
      ¬ Held (locks a.s l') x.owner (near x ld) x.lType := by
  have fresh : Fresh fun _ => none := nofun
  have ordered := scan.ranged.ordered
  have range := (scan.legal.ranged k member).ordered
  have range' := (scan.legal.ranged x member').ordered
  have touch : ∀ k : FlockT, k.lStart ≤ k.lEnd → Overlap k ld → Touches k ld := by
    intro k range overlap
    unfold Touches Left
    unfold Overlap at overlap
    dsimp only at ordered
    omega
  obtain ⟨p, inside, rfl⟩ := touched_after scan member own (touch k range overlap)
  obtain ⟨⟨retval, a⟩, call⟩ := flckadj_ends fresh scan start enough
  obtain ⟨turn, scanned, rest⟩ := Option.bind_eq_some_iff.mp call
  rw [start] at scanned
  have other : ld.lType ≠ (s.set p).lType := by
    rw [unlock]
    rcases scan.legal.types _ member with type | type <;> rw [type] <;> nofun
  obtain ⟨b, rfl⟩ := scan_fails scan inside own other crosses scanned overlap.2
  cases rest
  obtain ⟨_, a', done', q, rest', failed, same⟩ := scan_failed fresh scan scanned
  have within : ¬ Crosses x ld := by
    intro crosses'
    have apart := own_apart scan.legal member' member (own'.trans own.symm) differ
    unfold Crosses Left at *
    omega
  have here := failed.kept q List.mem_cons_self
  have before := before_crossed scan.legal member' (List.mem_map_of_mem (List.mem_append_right _ here.1))
    (own'.trans failed.own.symm) (touch x range' overlap') within failed.crosses
  refine ⟨_, _, call, same ▸ failed.scan.holds, ?_⟩
  rw [same]
  exact lost_failed failed scan.ranged own' (touch x range' overlap') range' before

end request

end Svr4.Proofs.FlockFailure
