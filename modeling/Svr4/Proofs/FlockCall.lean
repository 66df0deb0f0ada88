import Svr4.Proofs.FlockFailure

/-! Whole calls of `reclock` that fail for want of a record, with their sleeps: when what they do
leaves the locks of the file as they were. -/

namespace Svr4.Proofs.FlockCall
open Function Chain DoubleChain Flock FlockLists FlockRanges FlockScan FlockTurns FlockSleep FlockHistory FlockFailure

/-- The owner has nothing locked in the range of the request nor, of its type, next to it, or it
has all of the range locked with the type. -/
def Spare (s : Filocks) (ld : FlockT) : Prop :=
  (∀ b t, Locked s ld.owner b t → (b < ld.lStart ∨ ld.lEnd < b) ∧ (t = ld.lType → b + 1 ≠ ld.lStart ∧ b ≠ ld.lEnd + 1)) ∨
    ∀ b, ld.lStart ≤ b → b ≤ ld.lEnd → Locked s ld.owner b ld.lType

section spare
variable {s t : Filocks} {l : List Nat} {ld : FlockT}

theorem Spare.congr (spare : Spare s ld) (same : ∀ b ty, Locked t ld.owner b ty ↔ Locked s ld.owner b ty) : Spare t ld := by
  rcases spare with free | whole
  · exact .inl fun b ty locked => free b ty ((same b ty).mp locked)
  · exact .inr fun b low high => (same b ld.lType).mpr (whole b low high)

theorem spare_iff (holds : Holds s l) (legal : Legal (locks s l)) (ordered : ld.lStart ≤ ld.lEnd) :
    Spare s ld ↔ (∀ k ∈ locks s l, k.owner = ld.owner → ¬ Touches k ld) ∨
      ∃ k ∈ locks s l, k.owner = ld.owner ∧ k.lType = ld.lType ∧ k.lStart ≤ ld.lStart ∧ ld.lEnd ≤ k.lEnd := by
  have locked : ∀ k ∈ locks s l, ∀ b, covers k k.owner b → Locked s k.owner b k.lType := fun k member b covered =>
    (locked_iff holds).mpr ⟨k, member, covered, rfl⟩
  refine or_congr ⟨fun free k member own touches => ?_, fun apart b ty held => ?_⟩ ⟨fun whole => ?_, ?_⟩
  · obtain ⟨covered, place⟩ := near_covered touches (legal.ranged k member).ordered ordered
    obtain ⟨outside, gap⟩ := free (near k ld) k.lType (own ▸ locked k member _ covered)
    rcases place with ⟨_, low, high⟩ | ⟨same, edge⟩ | ⟨same, edge, _⟩
    · omega
    · exact (gap same).1 edge
    · exact (gap same).2 edge
  · obtain ⟨k, member, ⟨own, low, high⟩, rfl⟩ := (locked_iff holds).mp held
    have away : Left k ld ∨ Left ld k := by
      by_contra both
      exact apart k member own (not_or.mp both)
    rcases away with ⟨before, gap⟩ | ⟨behind, gap⟩
    · exact ⟨by omega, fun same => by have := gap same; omega⟩
    · exact ⟨by omega, fun same => by have := gap same.symm; omega⟩
  · obtain ⟨k, member, ⟨own, low, high⟩, same⟩ := (locked_iff holds).mp (whole ld.lStart le_rfl ordered)
    by_cases reach : ld.lEnd ≤ k.lEnd
    · exact ⟨k, member, own, same, low, reach⟩
    · -- the byte behind the lock is locked with its type too, and so not by another lock
      obtain ⟨x, member', ⟨own', low', high'⟩, same'⟩ := (locked_iff holds).mp (whole (k.lEnd + 1) (by omega) (by omega))
      have differ : k ≠ x := by
        rintro rfl
        omega
      rcases own_apart legal member member' (own.trans own'.symm) differ with ⟨_, gap⟩ | ⟨before, _⟩
      · have := gap (same.trans same'.symm)
        omega
      · omega
  · rintro ⟨k, member, own, same, low, high⟩ b low' high'
    rw [← own, ← same]
    exact locked k member b ⟨rfl, by omega, by omega⟩

end spare

section turn
variable {k k' : System} {vp proc time : Nat} {kmem : Filocks → Option Nat} {slp : Bool} {insrt : Option Nat} {retval : Option Errno}
  {cleaned : Bool} {ld lckdat : FlockT} {a : Adjust}

theorem step_ret (step : reclockStep kmem time proc vp lckdat ⟨true, slp, false⟩ k = some (.ret retval ld cleaned, k')) :
    ∃ k₁, reclockTurn kmem time vp lckdat ⟨true, slp, false⟩ k = some (.ret retval ld cleaned, k₁) ∧ k' = wakeprocs k₁ := by
  obtain ⟨⟨out, k₁⟩, turned, rest⟩ := Option.bind_eq_some_iff.mp step
  cases out with
  | sleep found sf => cases rest
  | ret retval' ld' cleaned' =>
    cases rest
    exact ⟨k₁, turned, rfl⟩

theorem blocked_same {found : Nat} (call : reclockBlocked kmem time vp lckdat ⟨true, slp, false⟩ found k = some (.ret retval ld cleaned, k')) :
    k' = k := by
  unfold reclockBlocked at call
  dsimp only at call
  split at call
  · obtain ⟨dead, _, rest⟩ := Option.bind_eq_some_iff.mp call
    split at rest
    · cases rest
      rfl
    · rw [if_neg Bool.false_ne_true] at rest
      split at rest
      · cases rest
        rfl
      · cases rest
  · rw [if_pos rfl] at call
    cases call
    rfl

theorem turn_set {cmd : Cmd} (type : lckdat.lType = .F_RDLCK ∨ lckdat.lType = .F_WRLCK) :
    reclockTurn kmem time vp lckdat cmd k = reclockSet kmem time vp lckdat cmd k := by
  unfold reclockTurn
  rcases type with type | type <;> rw [type]

theorem set_turn (asked : blocked time lckdat (k.files vp) = some (none, insrt))
    (adjusted : flckadj kmem time insrt lckdat (k.files vp) = some (retval, a)) :
    reclockSet kmem time vp lckdat ⟨true, slp, false⟩ k = some (.ret retval a.ld false, k.setFile vp a.s) := by
  unfold reclockSet
  simp only [asked, adjusted, Option.bind_eq_bind, Option.bind_some, if_true, Bool.false_and, Bool.false_eq_true, if_false]
  rfl

theorem unset_turn (adjusted : flckadj kmem time (k.files vp).head lckdat (k.files vp) = some (retval, a)) :
    reclockUnset kmem time vp lckdat ⟨true, slp, false⟩ k = some (.ret retval a.ld false, k.setFile vp a.s) := by
  unfold reclockUnset
  simp only [adjusted, Option.bind_eq_bind, Option.bind_some, if_true, Bool.false_eq_true, if_false]
  rfl

theorem not_same {s t : Filocks} {l l' : List Nat} {x : FlockT} (holds : Holds s l) (legal : Legal (locks s l)) (member : x ∈ locks s l)
    (touches : Touches x ld) (ranged : Ranged ld) (holds' : Holds t l') (lost : ¬ Held (locks t l') x.owner (near x ld) x.lType) : ¬ Same s t := by
  intro same
  have covered := (near_covered touches (legal.ranged x member).ordered ranged.ordered).1
  have held := (same x.owner (near x ld) x.lType).mpr ((locked_iff holds).mpr ⟨x, member, covered, rfl⟩)
  exact lost ((locked_iff holds').mp held)

variable {l : List Nat} (holds : Holds (k.files vp) l) (legal : Legal (locks (k.files vp) l)) (ranged : Ranged lckdat)
include holds legal ranged

theorem lock_clean (type : lckdat.lType = .F_RDLCK ∨ lckdat.lType = .F_WRLCK) (fresh : Fresh kmem)
    (clean : (∃ x ∈ locks (k.files vp) l, Conflict x lckdat) ∨ Spare (k.files vp) lckdat)
    (call : reclockSet kmem time vp lckdat ⟨true, slp, false⟩ k = some (.ret (some .ENOLCK) ld cleaned, k')) : k'.files vp = k.files vp := by
  rw [spare_iff holds legal ranged.ordered] at clean
  obtain ⟨⟨found, insrt⟩, asked, rest⟩ := Option.bind_eq_some_iff.mp call
  cases found with
  | some found => rw [blocked_same rest]
  | none =>
    obtain ⟨done, after, rfl, start, scan⟩ := blocked_none holds legal ranged type asked
    obtain ⟨⟨retval, a⟩, adjusted, rest⟩ := Option.bind_eq_some_iff.mp rest
    obtain ⟨sleeplcks, _, rest⟩ := Option.bind_eq_some_iff.mp rest
    rw [if_pos rfl] at adjusted
    rw [set_turn asked (show flckadj kmem time insrt lckdat (k.files vp) = some (retval, a) from adjusted)] at call
    cases call
    rw [files_setFile]
    rcases clean with ⟨x, member, conflict⟩ | apart | ⟨x, member, own, same, low, high⟩
    · obtain ⟨q, inside, rfl⟩ := mem_locks.mp member
      have locked : lckdat.lType ≠ .F_UNLCK := by rcases type with type | type <;> rw [type] <;> nofun
      obtain ⟨first, second⟩ := scan.shared locked q inside conflict.owner conflict.overlap
      dsimp only at first second
      rcases conflict.exclusive with write | write
      · rw [first] at write
        cases write
      · rw [second] at write
        cases write
    · exact lock_untouched scan start fresh
        (fun q inside => apart _ (List.mem_map_of_mem (List.mem_append_right _ inside))) adjusted
    · have ordered := ranged.ordered
      have range := (legal.ranged x member).ordered
      have touches : Touches x lckdat := by
        unfold Touches Left
        omega
      obtain ⟨q, inside, rfl⟩ := touched_after scan member own touches
      obtain ⟨turn, scanned, rest⟩ := Option.bind_eq_some_iff.mp adjusted
      rw [start] at scanned
      obtain ⟨b, rfl⟩ := scan_covered scan fresh inside own same low high scanned
      cases rest

theorem unlock_clean (unlock : lckdat.lType = .F_UNLCK) (fresh : Fresh kmem)
    (clean : ∀ x ∈ locks (k.files vp) l, x.owner = lckdat.owner → Overlap x lckdat → Crosses x lckdat →
      ∀ y ∈ locks (k.files vp) l, y.owner = lckdat.owner → Overlap y lckdat → y = x)
    (call : reclockUnset kmem time vp lckdat ⟨true, slp, false⟩ k = some (.ret (some .ENOLCK) ld cleaned, k')) : k'.files vp = k.files vp := by
  obtain ⟨start, scan⟩ := unlock_scan holds legal ranged unlock
  obtain ⟨⟨retval, a⟩, adjusted, _⟩ := Option.bind_eq_some_iff.mp call
  rw [if_pos rfl] at adjusted
  rw [unset_turn adjusted] at call
  cases call
  rw [files_setFile]
  refine unlock_untouched scan start fresh unlock (fun p inside own overlap crosses q inside' own' overlap' => ?_) adjusted
  exact clean _ (List.mem_map_of_mem inside) own overlap crosses _ (List.mem_map_of_mem inside') own' overlap'

theorem unlock_unclean (unlock : lckdat.lType = .F_UNLCK) {x y : FlockT} (member : x ∈ locks (k.files vp) l) (own : x.owner = lckdat.owner)
    (overlap : Overlap x lckdat) (crosses : Crosses x lckdat) (member' : y ∈ locks (k.files vp) l) (own' : y.owner = lckdat.owner)
    (overlap' : Overlap y lckdat) (differ : y ≠ x) (slp : Bool) :
    ∃ kmem time ld k', Fresh kmem ∧
      reclockUnset kmem time vp lckdat ⟨true, slp, false⟩ k = some (.ret (some .ENOLCK) ld false, k') ∧ ¬ Same (k.files vp) (k'.files vp) := by
  obtain ⟨start, scan⟩ := unlock_scan holds legal ranged unlock
  obtain ⟨a, l', call, holds', lost⟩ := unlock_loses scan start unlock member own overlap crosses member' own' overlap' differ (Nat.lt_succ_self _)
  have touches : Touches y lckdat := by
    have := ranged.ordered
    have := (legal.ranged y member').ordered
    unfold Touches Left
    unfold Overlap at overlap'
    omega
  refine ⟨fun _ => none, _, _, _, nofun, unset_turn call, ?_⟩
  rw [files_setFile]
  exact not_same holds legal member' touches ranged holds' lost

theorem lock_unclean (type : lckdat.lType = .F_RDLCK ∨ lckdat.lType = .F_WRLCK) (free : ∀ x ∈ locks (k.files vp) l, ¬ Conflict x lckdat)
    (unclean : ¬ Spare (k.files vp) lckdat) (slp : Bool) :
    ∃ kmem time ld k', Fresh kmem ∧
      reclockSet kmem time vp lckdat ⟨true, slp, false⟩ k = some (.ret (some .ENOLCK) ld false, k') ∧ ¬ Same (k.files vp) (k'.files vp) := by
  rw [spare_iff holds legal ranged.ordered] at unclean
  simp only [not_or, not_exists, not_and, not_forall, not_not] at unclean
  obtain ⟨⟨x, member, own, touches⟩, uncovered⟩ := unclean
  obtain ⟨found, insrt, asked⟩ := blocked_ends holds lckdat (show l.length ≤ l.length + 1 by omega)
  cases found with
  | some found =>
    obtain ⟨inside, conflict⟩ := blocked_some holds legal ranged asked
    exact absurd conflict (free _ (List.mem_map_of_mem inside))
  | none =>
    obtain ⟨done, after, rfl, start, scan⟩ := blocked_none holds legal ranged type asked
    have locked : lckdat.lType ≠ .F_UNLCK := by rcases type with type | type <;> rw [type] <;> nofun
    obtain ⟨kmem, a, x, l', fresh, call, member', touches', holds', lost⟩ :=
      lock_loses scan start locked type member own touches (fun x member own same both => uncovered x member own same both.1 both.2)
        (Nat.lt_succ_self _)
    refine ⟨kmem, _, _, _, fresh, set_turn asked call, ?_⟩
    rw [files_setFile]
    exact not_same holds legal member' touches' ranged holds' lost

end turn

inductive While (p vp : Nat) (o : Owner) (k : System) : System → Prop
  | refl : While p vp o k k
  | step {k₁ k₂ : System} {r : Option Removal} (before : While p vp o k k₁) (step : Step True False k₁ r k₂)
      (still : ∀ z, k₁.sleepers p = some z → ∃ awake, k₂.sleepers p = some { z with awake })
      (own : ∀ b t, Locked (k₂.files vp) o b t ↔ Locked (k₁.files vp) o b t) : While p vp o k k₂

/-- A call of `reclock` for `F_SETLK` or `F_SETLKW` that returns, with the states before and after
each thing that it does itself. -/
inductive Call (p vp : Nat) (lckdat : FlockT) (slp : Bool) : System → List (System × System) → Option Errno → Prop
  | ret {kmem : Filocks → Option Nat} {time : Nat} {k k' : System} {retval : Option Errno} {ld : FlockT} {cleaned : Bool} (fresh : Fresh kmem)
      (step : reclockStep kmem time p vp lckdat ⟨true, slp, false⟩ k = some (.ret retval ld cleaned, k')) :
      Call p vp lckdat slp k [(k, k')] retval
  | interrupted {kmem : Filocks → Option Nat} {time : Nat} {k k₁ k₂ : System} {found sf : Nat} {z : Sleeper} (fresh : Fresh kmem)
      (step : reclockStep kmem time p vp lckdat ⟨true, slp, false⟩ k = some (.sleep found sf, k₁)) (others : While p vp lckdat.owner k₁ k₂)
      (asleep : k₂.sleepers p = some z) : Call p vp lckdat slp k [(k, k₁), (k₂, reclockWake p z k₂)] (some .EINTR)
  | again {kmem : Filocks → Option Nat} {time : Nat} {k k₁ k₂ : System} {found sf : Nat} {z : Sleeper} {acts : List (System × System)}
      {retval : Option Errno} (fresh : Fresh kmem)
      (step : reclockStep kmem time p vp lckdat ⟨true, slp, false⟩ k = some (.sleep found sf, k₁)) (others : While p vp lckdat.owner k₁ k₂)
      (asleep : k₂.sleepers p = some z) (awake : z.awake = true) (rest : Call p vp lckdat slp (reclockWake p z k₂) acts retval) :
      Call p vp lckdat slp k ((k, k₁) :: (k₂, reclockWake p z k₂) :: acts) retval

/-- A request for a lock that changes something of its owner must be blocked and not sleep. An unlock must
not take anything from another lock than the one that it cuts in two. -/
def FailsCleanly (k : System) (vp : Nat) (ld : FlockT) (slp : Bool) : Prop :=
  ∃ l, Holds (k.files vp) l ∧
    match ld.lType with
    | .invalid => True
    | .F_UNLCK => ∀ x ∈ locks (k.files vp) l, x.owner = ld.owner → Overlap x ld → Crosses x ld →
        ∀ y ∈ locks (k.files vp) l, y.owner = ld.owner → Overlap y ld → y = x
    | _ => Spare (k.files vp) ld ∨ (∃ x ∈ locks (k.files vp) l, Conflict x ld) ∧
        (slp = true → ∀ time found insrt, blocked time ld (k.files vp) = some (some found, insrt) →
          deadflck k.sleeplcks ld time ((k.files vp).set found).owner ≠ some false)

abbrev Reached : System → Prop := Run True False fun _ _ => True

section calls
variable {k k₁ k₂ : System} {vp p : Nat} {lckdat : FlockT} {slp : Bool} {z : Sleeper}

theorem reached_step {r : Option Removal} (run : Reached k) (step : Step True False k r k₁) : Reached k₁ := run.step step fun _ _ => trivial

theorem While.reached {o : Owner} (others : While p vp o k k₁) (run : Reached k) : Reached k₁ := by
  induction others with
  | refl => exact run
  | step before step still own ih => exact reached_step ih step

theorem While.own {o : Owner} (others : While p vp o k k₁) (b : Int) (t : LType) : Locked (k₁.files vp) o b t ↔ Locked (k.files vp) o b t := by
  induction others with
  | refl => exact Iff.rfl
  | step before step still own ih => exact (own b t).trans ih

theorem wake_same (vp : Nat) (run : Reached k) (asleep : k.sleepers p = some z) :
    Same (k.files vp) ((reclockWake p z k).files vp) ∧ (reclockWake p z k).sleepers p = none := by
  obtain ⟨l, w, kept⟩ := run.kept
  obtain ⟨_, _, _, _, agree⟩ := kept_wake kept asleep
  exact ⟨Agree.same (kept.files vp) (agree vp), by simp [reclockWake]⟩

variable (ranged : Ranged lckdat)
include ranged

theorem sleep_same {kmem : Filocks → Option Nat} {time found sf : Nat} (run : Reached k) (fresh : Fresh kmem)
    (step : reclockStep kmem time p vp lckdat ⟨true, slp, false⟩ k = some (.sleep found sf, k₁)) : Same (k.files vp) (k₁.files vp) := by
  obtain ⟨l, w, kept⟩ := run.kept
  obtain ⟨k', l', w', acts, after⟩ := reclockStep_acts fresh ranged kept.toLists step
  intro o b t
  rw [after vp o b t, acts.effect.denied (kept.files vp) (.inr fun _ _ => ⟨nofun, nofun⟩) o b t]

theorem sleep_reached {kmem : Filocks → Option Nat} {time found sf : Nat} (run : Reached k) (idle : k.sleepers p = none) (fresh : Fresh kmem)
    (step : reclockStep kmem time p vp lckdat ⟨true, slp, false⟩ k = some (.sleep found sf, k₁)) : Reached k₁ :=
  reached_step run (.sleep fresh idle ranged nofun step)

theorem spare_call (type : lckdat.lType = .F_RDLCK ∨ lckdat.lType = .F_WRLCK) {acts : List (System × System)} {retval : Option Errno}
    (call : Call p vp lckdat slp k acts retval) (full : retval = some .ENOLCK) (run : Reached k) (idle : k.sleepers p = none)
    (spare : Spare (k.files vp) lckdat) : ∀ x ∈ acts, Same (x.1.files vp) (x.2.files vp) := by
  induction call with
  | @ret kmem time k k' retval ld cleaned fresh step =>
    subst full
    intro x member
    rw [List.mem_singleton.mp member]
    obtain ⟨l, w, kept⟩ := run.kept
    obtain ⟨k₁, turned, rfl⟩ := step_ret step
    rw [turn_set type] at turned
    have same := lock_clean (kept.files vp) (kept.legal vp) ranged type fresh (.inr spare) turned
    have woken := wakeprocs_same (k := k₁) vp (same ▸ kept.files vp)
    rwa [same] at woken
  | interrupted fresh step others asleep => cases full
  | @again kmem time k k₁ k₂ found sf z acts retval fresh step others asleep awake rest ih =>
    have slept := sleep_same ranged run fresh step
    have run₁ := sleep_reached ranged run idle fresh step
    have run₂ := others.reached run₁
    obtain ⟨woke, idle'⟩ := wake_same vp run₂ asleep
    have spare' := spare.congr fun b t => (woke lckdat.owner b t).trans ((others.own b t).trans (slept lckdat.owner b t))
    intro x member
    rcases List.mem_cons.mp member with rfl | member
    · exact slept
    · rcases List.mem_cons.mp member with rfl | member
      · exact woke
      · exact ih full (reached_step run₂ (.wake asleep)) idle' spare' x member

end calls

section release
variable {k : System} {vp p : Nat} {z : Sleeper}

theorem plenty : ∃ kmem : Filocks → Option Nat, Fresh kmem ∧ ∀ s, kmem s ≠ none := by
  classical
  have free : ∀ s : Filocks, ∃ c, c ∉ s.used := fun s => by
    obtain ⟨c, outside⟩ := Infinite.exists_notMem_finset s.used.toFinset
    exact ⟨c, fun inside => outside (List.mem_toFinset.mpr inside)⟩
  choose kmem fresh using free
  exact ⟨fun s => some (kmem s), fun s c same => Option.some.inj same ▸ fresh s, nofun⟩

def Stirs (k : System) (vp p : Nat) (z : Sleeper) : Prop :=
  ∃ awake, k.sleepers p = some { z with awake } ∧
    (awake = true ∨ ∃ l, Holds (k.files vp) l ∧ Waiting (k.files vp) l z.found z.lckdat)

theorem release_one (run : Reached k) {o : Owner} (stirs : Stirs k vp p z) :
    ∃ k₁, Step True False k none k₁ ∧ Stirs k₁ vp p z ∧ ∀ o' b t, Locked (k₁.files vp) o' b t ↔ o' ≠ o ∧ Locked (k.files vp) o' b t := by
  obtain ⟨awake, asleep, waits⟩ := stirs
  obtain ⟨l, w, kept⟩ := run.kept
  obtain ⟨n, idle⟩ := run.idle
  obtain ⟨kmem, fresh, some_⟩ := plenty
  obtain ⟨ld, def_⟩ : ∃ ld : FlockT, ld = ⟨.F_UNLCK, 0, 0, MAXEND, o⟩ := ⟨_, rfl⟩
  have ranged : Ranged ld := by
    rw [def_]
    exact ⟨le_rfl, (by decide : (0 : Int) ≤ MAXEND), le_rfl⟩
  have unlock : ld.lType = .F_UNLCK := by rw [def_]
  have holds := kept.files vp
  obtain ⟨start, scan⟩ := unlock_scan holds (kept.legal vp) ranged unlock
  obtain ⟨⟨retval, a⟩, call⟩ := flckadj_ends fresh scan start (Nat.lt_succ_self (l vp).length)
  obtain ⟨l', result⟩ := flckadj_spec fresh (fun locked => absurd unlock locked) scan start call
  have granted : retval = none := by
    refine result.result.resolve_right fun full => ?_
    subst full
    obtain ⟨turn, scanned, rest⟩ := Option.bind_eq_some_iff.mp call
    rw [start] at scanned
    cases turn with
    | ret retval b =>
      cases rest
      exact some_ _ (scan_failed fresh scan scanned).1
    | next nflp b =>
      have type : b.ld.lType = ld.lType := by
        cases flckadjScan_spec fresh scan scanned with
        | settled settled moves short => exact moves.type
      dsimp only at rest
      rw [type, if_neg (not_not.mpr unlock)] at rest
      cases rest
  subst granted
  have step : reclockStep kmem ((l vp).length + 1) (max n (p + 1)) vp ld ⟨true, false, false⟩ k =
      some (.ret none a.ld false, wakeprocs (k.setFile vp a.s)) := by
    rw [reclockStep, reclockTurn, unlock]
    dsimp only
    rw [unset_turn call]
    rfl
  refine ⟨_, .call fresh (idle _ (le_max_left _ _)) ranged nofun step, ⟨awake || z.found ∈ a.s.woken, ?_, ?_⟩, fun o' b t => ?_⟩
  · simp only [wakeprocs]
    rw [show (k.setFile vp a.s).sleepers p = _ from asleep]
    rfl
  · have woken : (wakeprocs (k.setFile vp a.s)).files vp = { a.s with woken := [] } := by simp [wakeprocs, System.setFile, System.files]
    rw [woken]
    rcases waits with woken | ⟨l₀, holds₀, waiting⟩
    · exact .inl (by simp [woken])
    · rw [holds₀.forward.unique holds.forward] at waiting
      rcases Keeps.waiting result.keeps waiting with waiting | woken
      · exact .inr ⟨l', ⟨result.holds.toDoubly, result.holds.used⟩, waiting⟩
      · exact .inl (by simp [woken])
  · have woken := wakeprocs_same (k := k.setFile vp a.s) vp (by rw [files_setFile]; exact result.holds)
    rw [woken o' b t, files_setFile, locked_iff result.holds, ← result.held rfl, Granted, locked_iff holds, unlock]
    constructor
    · rintro (⟨_, rfl, locked⟩ | ⟨outside, held⟩)
      · exact absurd rfl locked
      · refine ⟨?_, held⟩
        rintro rfl
        obtain ⟨x, member, ⟨_, low, high⟩, _⟩ := held
        have range := (kept.legal vp).ranged x member
        exact outside (by rw [def_]; exact ⟨rfl, range.low.trans low, high.trans range.high⟩)
    · rintro ⟨other, held⟩
      refine .inr ⟨fun covered => other ?_, held⟩
      have mine := covered.1
      rw [def_] at mine
      exact mine.symm

theorem release (run : Reached k) (stirs : Stirs k vp p z) {o : Owner} (os : List Owner) (other : ∀ x ∈ os, x ≠ o) :
    ∃ k₁, While p vp o k k₁ ∧ Stirs k₁ vp p z ∧ ∀ o' b t, Locked (k₁.files vp) o' b t ↔ o' ∉ os ∧ Locked (k.files vp) o' b t := by
  induction os with
  | nil => exact ⟨k, .refl, stirs, by simp⟩
  | cons x os ih =>
    obtain ⟨k₁, others, stirs₁, locked₁⟩ := ih fun y member => other y (List.mem_cons_of_mem _ member)
    obtain ⟨k₂, step, stirs₂, locked₂⟩ := release_one (others.reached run) (o := x) stirs₁
    refine ⟨k₂, others.step step (fun y asleep => ?_) (fun b t => ?_), stirs₂, fun o' b t => ?_⟩
    · obtain ⟨awake, was, _⟩ := stirs₁
      obtain ⟨awake', is, _⟩ := stirs₂
      rw [was] at asleep
      cases asleep
      exact ⟨awake', is⟩
    · rw [locked₂]
      exact and_iff_right (other x List.mem_cons_self).symm
    · rw [locked₂, locked₁, List.mem_cons, not_or, and_assoc]

end release

section fails
variable {k k₁ : System} {vp p time found sf : Nat} {lckdat : FlockT} {slp : Bool} {kmem : Filocks → Option Nat}

theorem turn_call (run : Reached k) (ranged : Ranged lckdat) (fresh : Fresh kmem) {ld : FlockT} {k' : System}
    (turned : reclockTurn kmem time vp lckdat ⟨true, slp, false⟩ k = some (.ret (some .ENOLCK) ld false, k'))
    (differs : ¬ Same (k.files vp) (k'.files vp)) :
    ∃ k', Call p vp lckdat slp k [(k, k')] (some .ENOLCK) ∧ ¬ Same (k.files vp) (k'.files vp) := by
  obtain ⟨l, w, kept⟩ := run.kept
  have step : reclockStep kmem time p vp lckdat ⟨true, slp, false⟩ k = some (.ret (some .ENOLCK) ld false, wakeprocs k') := by
    rw [reclockStep, turned]
    rfl
  obtain ⟨l', w', acts⟩ := reclockTurn_acts fresh ranged kept.toLists turned
  refine ⟨_, .ret fresh step, fun same => differs fun o b t => ?_⟩
  exact (wakeprocs_same vp (acts.lists.files vp) o b t).symm.trans (same o b t)

theorem unclean_call (slp : Bool) (ranged : Ranged lckdat) (type : lckdat.lType = .F_RDLCK ∨ lckdat.lType = .F_WRLCK) (run : Reached k)
    (free : ∀ l, Holds (k.files vp) l → ∀ x ∈ locks (k.files vp) l, ¬ Conflict x lckdat) (unclean : ¬ Spare (k.files vp) lckdat) :
    ∃ k', Call p vp lckdat slp k [(k, k')] (some .ENOLCK) ∧ ¬ Same (k.files vp) (k'.files vp) := by
  obtain ⟨l, w, kept⟩ := run.kept
  have holds := kept.files vp
  obtain ⟨kmem, time, ld, k', fresh, call, differs⟩ := lock_unclean holds (kept.legal vp) ranged type (free _ holds) unclean slp
  exact turn_call run ranged fresh ((turn_set type).trans call) differs

theorem sleep_asked (step : reclockStep kmem time p vp lckdat ⟨true, slp, false⟩ k = some (.sleep found sf, k₁)) :
    (lckdat.lType = .F_RDLCK ∨ lckdat.lType = .F_WRLCK) ∧ slp = true ∧ ∃ insrt, blocked time lckdat (k.files vp) = some (some found, insrt) ∧
      deadflck k.sleeplcks lckdat time ((k.files vp).set found).owner = some false := by
  obtain ⟨⟨out, k'⟩, turned, rest⟩ := Option.bind_eq_some_iff.mp step
  cases out with
  | ret retval ld cleaned => cases rest
  | sleep found' sf' =>
    cases rest
    have type : lckdat.lType = .F_RDLCK ∨ lckdat.lType = .F_WRLCK := by
      unfold reclockTurn at turned
      split at turned
      · next type => exact .inl type
      · next type => exact .inr type
      · obtain ⟨_, _, rest⟩ := Option.bind_eq_some_iff.mp turned
        obtain ⟨_, _, rest⟩ := Option.bind_eq_some_iff.mp rest
        cases rest
      · cases turned
    rw [turn_set type] at turned
    obtain ⟨⟨held, insrt⟩, asked, rest⟩ := Option.bind_eq_some_iff.mp turned
    cases held with
    | none =>
      obtain ⟨_, _, rest⟩ := Option.bind_eq_some_iff.mp rest
      obtain ⟨_, _, rest⟩ := Option.bind_eq_some_iff.mp rest
      cases rest
    | some held =>
      dsimp only at rest
      unfold reclockBlocked at rest
      dsimp only at rest
      split at rest
      · next slept =>
        obtain ⟨dead, checked, rest⟩ := Option.bind_eq_some_iff.mp rest
        cases dead with
        | true => cases rest
        | false =>
          simp only [Bool.false_eq_true, if_false] at rest
          split at rest
          · cases rest
          · cases rest
            exact ⟨type, slept, insrt, asked, checked⟩
      · split at rest <;> cases rest

theorem sleeps (run : Reached k) (ranged : Ranged lckdat) (type : lckdat.lType = .F_RDLCK ∨ lckdat.lType = .F_WRLCK) {insrt : Option Nat}
    (asked : blocked time lckdat (k.files vp) = some (some found, insrt))
    (checked : deadflck k.sleeplcks lckdat time ((k.files vp).set found).owner = some false) (counts : int ((k.files vp).wakeflg found + 1) ≠ 0) :
    ∃ kmem sf k₁, Fresh kmem ∧ reclockStep kmem time p vp lckdat ⟨true, true, false⟩ k = some (.sleep found sf, k₁) ∧
      Stirs k₁ vp p ⟨vp, lckdat, ⟨true, true, false⟩, found, sf, false⟩ := by
  obtain ⟨l, w, kept⟩ := run.kept
  obtain ⟨kmem, fresh, some_⟩ := plenty
  cases made : insertSleep kmem lckdat ((k.files vp).set found) k.sleeplcks with
  | none =>
    have full : insflck kmem lckdat none k.sleeplcks = none := by
      cases new : insflck kmem lckdat none k.sleeplcks with
      | none => rfl
      | some r =>
        rw [insertSleep, new] at made
        cases made
    exact absurd (insflck_none.mp full) (some_ _)
  | some r =>
    obtain ⟨sf, t⟩ := r
    have turned : ∃ k', reclockTurn kmem time vp lckdat ⟨true, true, false⟩ k = some (.sleep found sf, k') := by
      rw [turn_set type]
      simp [reclockSet, reclockBlocked, asked, checked, made]
    obtain ⟨k', turned⟩ := turned
    obtain ⟨l', w', acts⟩ := reclockTurn_acts fresh ranged kept.toLists turned
    have holds := acts.lists.files vp
    rw [update_self] at holds
    refine ⟨kmem, sf, _, fresh, by rw [reclockStep, turned]; rfl, decide (found ∈ k'.heap.woken), ?_, .inr ⟨l', ?_, ?_⟩⟩
    · simp [wakeprocs]
    · exact ⟨holds.toDoubly, holds.used⟩
    · obtain ⟨member, asleep, conflict⟩ := Effect.asleep acts.effect counts
      exact ⟨member, asleep, conflict⟩

theorem unclean_sleep (run : Reached k) (idle : k.sleepers p = none) (ranged : Ranged lckdat) (type : lckdat.lType = .F_RDLCK ∨ lckdat.lType = .F_WRLCK)
    {insrt : Option Nat} (asked : blocked time lckdat (k.files vp) = some (some found, insrt))
    (checked : deadflck k.sleeplcks lckdat time ((k.files vp).set found).owner = some false) (counts : int ((k.files vp).wakeflg found + 1) ≠ 0)
    (unclean : ¬ Spare (k.files vp) lckdat) :
    ∃ acts, Call p vp lckdat true k acts (some .ENOLCK) ∧ ∃ x ∈ acts, ¬ Same (x.1.files vp) (x.2.files vp) := by
  obtain ⟨kmem, sf, k₁, fresh, step, stirs⟩ := sleeps (p := p) run ranged type asked checked counts
  have run₁ := sleep_reached ranged run idle fresh step
  obtain ⟨l, w, kept⟩ := run₁.kept
  obtain ⟨os, def_⟩ : ∃ os, os = ((locks (k₁.files vp) (l vp)).map FlockT.owner).filter (· ≠ lckdat.owner) := ⟨_, rfl⟩
  obtain ⟨k₂, others, ⟨awake, asleep, waits⟩, locked⟩ := release (o := lckdat.owner) run₁ stirs os fun x member => by
    rw [def_] at member
    simpa using (List.mem_filter.mp member).2
  have mine : ∀ o b t, Locked (k₂.files vp) o b t → o = lckdat.owner := by
    intro o b t held
    obtain ⟨outside, before⟩ := (locked o b t).mp held
    obtain ⟨x, member, covered, _⟩ := (locked_iff (kept.files vp)).mp before
    by_contra other
    rw [def_, List.mem_filter] at outside
    exact outside ⟨List.mem_map.mpr ⟨x, member, covered.1⟩, by simpa using other⟩
  have run₂ := others.reached run₁
  have free : ∀ {s : Filocks}, (∀ o b t, Locked s o b t → Locked (k₂.files vp) o b t) → ∀ l, Holds s l → Legal (locks s l) →
      ∀ x ∈ locks s l, ¬ Conflict x lckdat := fun back l holds legal x member conflict =>
    conflict.owner (mine x.owner x.lStart x.lType (back _ _ _
      ((locked_iff holds).mpr ⟨x, member, ⟨rfl, le_rfl, (legal.ranged x member).ordered⟩, rfl⟩)))
  have woken : awake = true := by
    refine waits.resolve_right ?_
    rintro ⟨l₂, holds, inside, _, conflict⟩
    obtain ⟨l', w', kept'⟩ := run₂.kept
    rw [holds.forward.unique (kept'.files vp).forward] at inside
    exact free (fun _ _ _ held => held) _ (kept'.files vp) (kept'.legal vp) _ (List.mem_map_of_mem inside) conflict
  obtain ⟨woke, idle'⟩ := wake_same vp run₂ asleep
  have run₃ := reached_step run₂ (.wake asleep)
  have slept := sleep_same ranged run fresh step
  obtain ⟨l₃, w₃, kept₃⟩ := run₃.kept
  obtain ⟨k', call, differs⟩ := unclean_call (p := p) true ranged type run₃
    (fun l holds => by
      rw [holds.forward.unique (kept₃.files vp).forward]
      exact free (fun o b t held => (woke o b t).mp held) _ (kept₃.files vp) (kept₃.legal vp))
    (fun spare => unclean (spare.congr fun b t => ((woke lckdat.owner b t).trans ((others.own b t).trans (slept lckdat.owner b t))).symm))
  exact ⟨_, .again fresh step others asleep woken call, _, List.mem_cons_of_mem _ (List.mem_cons_of_mem _ (List.mem_singleton_self _)), differs⟩

end fails

/-- Every call that fails for want of a record leaves the locks of the file as they were if the request
fails cleanly, and always only then unless the `wakeflg` of a lock of the file is about to come
back to zero. -/
theorem fails_cleanly (k : System) (run : Reached k) (p vp : Nat) (idle : k.sleepers p = none) (lckdat : FlockT) (ranged : Ranged lckdat)
    (slp : Bool) :
    (FailsCleanly k vp lckdat slp →
      ∀ acts, Call p vp lckdat slp k acts (some .ENOLCK) → ∀ x ∈ acts, Same (x.1.files vp) (x.2.files vp)) ∧
    ((∀ l, Holds (k.files vp) l → ∀ fl ∈ l, int ((k.files vp).wakeflg fl + 1) ≠ 0) →
      (∀ acts, Call p vp lckdat slp k acts (some .ENOLCK) → ∀ x ∈ acts, Same (x.1.files vp) (x.2.files vp)) → FailsCleanly k vp lckdat slp) := by
  obtain ⟨l, w, kept⟩ := run.kept
  have holds := kept.files vp
  have legal := kept.legal vp
  have listed : ∀ {l'}, Holds (k.files vp) l' → l' = l vp := fun holds' => holds'.forward.unique holds.forward
  constructor
  · rintro ⟨l', holds', clean⟩ acts call
    obtain rfl := listed holds'
    by_cases type : lckdat.lType = .F_RDLCK ∨ lckdat.lType = .F_WRLCK
    · have clean : Spare (k.files vp) lckdat ∨ (∃ x ∈ locks (k.files vp) (l vp), Conflict x lckdat) ∧
          (slp = true → ∀ time found insrt, blocked time lckdat (k.files vp) = some (some found, insrt) →
            deadflck k.sleeplcks lckdat time ((k.files vp).set found).owner ≠ some false) := by
        rcases type with type | type <;> rwa [type] at clean
      rcases clean with spare | ⟨conflict, awake⟩
      · exact spare_call ranged type call rfl run idle spare
      · cases call with
        | ret fresh step =>
          intro x member
          rw [List.mem_singleton.mp member]
          obtain ⟨k₁, turned, rfl⟩ := step_ret step
          rw [turn_set type] at turned
          have same := lock_clean holds legal ranged type fresh (.inl conflict) turned
          have woken := wakeprocs_same (k := k₁) vp (same ▸ holds)
          rwa [same] at woken
        | again fresh step others asleep woken rest =>
          obtain ⟨_, slept, insrt, asked, checked⟩ := sleep_asked step
          exact absurd checked (awake slept _ _ _ asked)
    · cases call with
      | ret fresh step =>
        intro x member
        rw [List.mem_singleton.mp member]
        obtain ⟨k₁, turned, rfl⟩ := step_ret step
        have same : k₁.files vp = k.files vp := by
          unfold reclockTurn at turned
          split at turned
          · next read => exact absurd (.inl read) type
          · next write => exact absurd (.inr write) type
          · next unlock =>
            rw [unlock] at clean
            exact unlock_clean holds legal ranged unlock fresh clean turned
          · cases turned
        have woken := wakeprocs_same (k := k₁) vp (same ▸ holds)
        rwa [same] at woken
      | again fresh step others asleep woken rest => exact absurd (sleep_asked step).1 type
  · intro counts always
    refine ⟨l vp, holds, ?_⟩
    have fails : ∀ {k'}, Call p vp lckdat slp k [(k, k')] (some .ENOLCK) → Same (k.files vp) (k'.files vp) := fun call =>
      always _ call _ List.mem_cons_self
    have lock : lckdat.lType = .F_RDLCK ∨ lckdat.lType = .F_WRLCK → Spare (k.files vp) lckdat ∨
        (∃ x ∈ locks (k.files vp) (l vp), Conflict x lckdat) ∧
          (slp = true → ∀ time found insrt, blocked time lckdat (k.files vp) = some (some found, insrt) →
            deadflck k.sleeplcks lckdat time ((k.files vp).set found).owner ≠ some false) := by
      intro type
      by_contra unclean
      rw [not_or] at unclean
      obtain ⟨unclean, awake⟩ := unclean
      by_cases conflict : ∃ x ∈ locks (k.files vp) (l vp), Conflict x lckdat
      · refine awake ⟨conflict, ?_⟩
        rintro rfl time found insrt asked checked
        obtain ⟨inside, _⟩ := blocked_some holds legal ranged asked
        obtain ⟨acts, call, x, member, differs⟩ := unclean_sleep run idle ranged type asked checked (counts _ holds found inside) unclean
        exact differs (always acts call x member)
      · obtain ⟨k', call, differs⟩ := unclean_call (p := p) slp ranged type run
          (fun l' holds' x member found => conflict ⟨x, listed holds' ▸ member, found⟩) unclean
        exact differs (fails call)
    cases type : lckdat.lType with
    | F_RDLCK =>
      rw [type] at lock
      exact lock (.inl rfl)
    | F_WRLCK =>
      rw [type] at lock
      exact lock (.inr rfl)
    | F_UNLCK =>
      intro x member own overlap crosses y member' own' overlap'
      by_contra differ
      obtain ⟨kmem, time, ld, k', fresh, call, changed⟩ :=
        unlock_unclean holds legal ranged type member own overlap crosses member' own' overlap' differ slp
      have turned : reclockTurn kmem time vp lckdat ⟨true, slp, false⟩ k = some (.ret (some .ENOLCK) ld false, k') := by
        unfold reclockTurn
        rw [type]
        exact call
      obtain ⟨k', call, changed⟩ := turn_call (p := p) run ranged fresh turned changed
      exact changed (fails call)
    | invalid => trivial

private def lock (lType : LType) (pid lStart lEnd : Int) : FlockT := ⟨lType, 0, lStart, lEnd, ⟨0, pid⟩⟩

private def halves : List Event := [.asks 1 0 (lock .F_WRLCK 20 0 9) ⟨true, false, false⟩, .asks 2 0 (lock .F_WRLCK 30 10 19) ⟨true, false, false⟩]

private theorem halves_end : (replay true halves boot).map (fun k =>
    ([(k.files 0).head, (k.files 0).next 1, (k.files 0).next 2], [(k.files 0).set 1, (k.files 0).set 2],
    [(k.files 0).wakeflg 1, (k.files 0).wakeflg 2])) =
    some ([some 1, some 2, none], [lock .F_WRLCK 20 0 9, lock .F_WRLCK 30 10 19], [0, 0]) := by
  decide +kernel

private theorem halves_asked : (replay true halves boot).map (fun k => ((k.sleepers 3).isNone, blocked 8 (lock .F_RDLCK 20 5 14) (k.files 0),
    deadflck k.sleeplcks (lock .F_RDLCK 20 5 14) 8 ((k.files 0).set 2).owner)) = some (true, some (some 2, some 1), some false) := by
  decide +kernel

/-- The theorem for process 20 when it asks to read bytes of both, and may go to sleep. -/
theorem fails_cleanly_two : ∃ k, Reached k ∧ ¬ FailsCleanly k 0 (lock .F_RDLCK 20 5 14) true ∧
    ∃ acts, Call 3 0 (lock .F_RDLCK 20 5 14) true k acts (some .ENOLCK) ∧ ∃ x ∈ acts, ¬ Same (x.1.files 0) (x.2.files 0) := by
  obtain ⟨k, done, facts⟩ := Option.map_eq_some_iff.mp halves_end
  have run : Reached k := replay_run (fun _ _ => trivial) (fun _ => rfl) boot_run (fun _ _ => rfl) done
  have asked := halves_asked
  rw [done] at asked
  simp only [Option.map_some, Option.some.injEq, Prod.mk.injEq, Option.isNone_iff_eq_none, List.cons.injEq, and_true] at asked facts
  obtain ⟨idle, asked, checked⟩ := asked
  obtain ⟨⟨head, next, last⟩, ⟨first, second⟩, wakeflg, wakeflg'⟩ := facts
  obtain ⟨l, w, kept⟩ := run.kept
  have linked : ∀ l, Holds (k.files 0) l → l = [1, 2] := fun l holds => holds.forward.unique ⟨head, next, last⟩
  have holds := kept.files 0
  have held : Locked (k.files 0) ⟨0, 20⟩ 5 .F_WRLCK := by
    refine (locked_iff holds).mpr ⟨lock .F_WRLCK 20 0 9, ?_, ⟨rfl, by decide, by decide⟩, rfl⟩
    rw [linked _ holds]
    simp [locks, first]
  have unclean : ¬ FailsCleanly k 0 (lock .F_RDLCK 20 5 14) true := by
    rintro ⟨l', _, (free | whole) | ⟨_, awake⟩⟩
    · have outside := (free 5 _ held).1
      revert outside
      decide
    · have both := locked_unique holds (kept.legal 0) held (whole 5 (by decide) (by decide))
      cases both
    · exact awake rfl 8 2 _ asked checked
  have ranged : Ranged (lock .F_RDLCK 20 5 14) := ⟨(by decide : (0 : Int) ≤ 5), (by decide : (5 : Int) ≤ 14), (by decide : (14 : Int) ≤ MAXEND)⟩
  have fails := (fails_cleanly k run 3 0 idle (lock .F_RDLCK 20 5 14) ranged true).2 fun l' holds' fl member => by
    rw [linked l' holds', List.mem_cons, List.mem_singleton] at member
    rcases member with rfl | rfl
    · rw [wakeflg]
      decide
    · rw [wakeflg']
      decide
  have some_ := mt fails unclean
  push Not at some_
  exact ⟨k, run, unclean, some_⟩

/-- Process 20 has bytes 0 to 9 locked and asks to read bytes 5 to 20. There is no memory, and bytes
5 to 9 are no longer locked. -/
theorem failure_unlocks : ∃ k k', Reached k ∧ Call 1 0 (lock .F_RDLCK 20 5 20) false k [(k, k')] (some .ENOLCK) ∧
    Locked (k.files 0) ⟨0, 20⟩ 7 .F_WRLCK ∧ ∀ t, ¬ Locked (k'.files 0) ⟨0, 20⟩ 7 t := by
  have ranged : Ranged (lock .F_WRLCK 20 0 9) := ⟨le_rfl, (by decide : (0 : Int) ≤ 9), (by decide : (9 : Int) ≤ MAXEND)⟩
  have run : Reached _ := reached_step boot_run (.call pick_fresh rfl ranged nofun
    (show reclockStep pick 8 1 0 (lock .F_WRLCK 20 0 9) ⟨true, false, false⟩ boot = some (.ret none _ false, _) from rfl))
  have fresh : Fresh fun _ => none := nofun
  refine ⟨_, _, run, .ret fresh
    (show reclockStep (fun _ => none) 8 1 0 (lock .F_RDLCK 20 5 20) ⟨true, false, false⟩ _ = some
      (.ret (some .ENOLCK) _ false, _) from rfl), ?_, fun t => ?_⟩
  · exact ⟨[1], ⟨⟨⟨rfl, rfl⟩, ⟨rfl, rfl⟩⟩, fun _ member => member⟩, _, List.mem_singleton.mpr rfl, ⟨rfl, by decide, by decide⟩, rfl⟩
  · rintro ⟨l, holds, x, member, ⟨_, _, high⟩, _⟩
    obtain rfl : l = [1] := holds.forward.unique ⟨rfl, rfl⟩
    rw [List.mem_singleton.mp member] at high
    exact absurd high (by decide)

end Svr4.Proofs.FlockCall
