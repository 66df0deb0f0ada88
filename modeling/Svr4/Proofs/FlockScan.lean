import Svr4.Flock
import Svr4.Proofs.FlockLists

/-! Lists of locks as such, without the records that hold them: what a legal list is,
which bytes it locks, and the few ways in which setting a lock changes it. -/

namespace Svr4.Proofs.FlockRanges
open Flock

variable {lEnd lStart : Int} {late mid : List FlockT} {p : Nat}

def MAXEND : Int := 2147483647

def Left (k x : FlockT) : Prop := k.lEnd < x.lStart ∧ (k.lType = x.lType → k.lEnd + 1 < x.lStart)

def Overlap (k x : FlockT) : Prop := k.lStart ≤ x.lEnd ∧ x.lStart ≤ k.lEnd

structure Compatible (k x : FlockT) : Prop where
  own : k.owner = x.owner → Left k x ∨ Left x k
  shared : k.owner ≠ x.owner → Overlap k x → k.lType = .F_RDLCK ∧ x.lType = .F_RDLCK

structure Ranged (k : FlockT) : Prop where
  low : 0 ≤ k.lStart
  ordered : k.lStart ≤ k.lEnd
  high : k.lEnd ≤ MAXEND

structure Legal (locks : List FlockT) : Prop where
  ranged : ∀ k ∈ locks, Ranged k
  types : ∀ k ∈ locks, k.lType = .F_RDLCK ∨ k.lType = .F_WRLCK
  sorted : locks.Pairwise (fun k x => k.lStart ≤ x.lStart)
  compatible : locks.Pairwise Compatible

def covers (k : FlockT) (o : Owner) (b : Int) : Prop := k.owner = o ∧ k.lStart ≤ b ∧ b ≤ k.lEnd

def Held (locks : List FlockT) (o : Owner) (b : Int) (t : LType) : Prop := ∃ k ∈ locks, covers k o b ∧ k.lType = t

def Granted (locks : List FlockT) (ld : FlockT) (o : Owner) (b : Int) (t : LType) : Prop :=
  (covers ld o b ∧ ld.lType = t ∧ t ≠ .F_UNLCK) ∨ (¬ covers ld o b ∧ Held locks o b t)

variable {locks before after : List FlockT} {k x ld : FlockT} {o : Owner} {b : Int} {t : LType}

theorem Compatible.symm (compatible : Compatible k x) : Compatible x k :=
  ⟨fun same => (compatible.own same.symm).symm,
    fun other overlap => (compatible.shared (Ne.symm other) ⟨overlap.2, overlap.1⟩).symm⟩

theorem Compatible.shrink (compatible : Compatible k x) (owner : ld.owner = k.owner) (type : ld.lType = k.lType)
    (low : k.lStart ≤ ld.lStart) (high : ld.lEnd ≤ k.lEnd) : Compatible ld x := by
  refine ⟨fun same => ?_, fun other overlap => ?_⟩
  · rcases compatible.own (owner ▸ same) with ⟨less, gap⟩ | ⟨less, gap⟩
    · exact .inl ⟨by omega, fun alike => by have := gap (type ▸ alike); omega⟩
    · exact .inr ⟨by omega, fun alike => by have := gap (type ▸ alike); omega⟩
  · rw [type]
    refine compatible.shared (owner ▸ other) ⟨?_, ?_⟩
    · exact low.trans overlap.1
    · exact overlap.2.trans high

theorem held_middle : Held (before ++ k :: after) o b t ↔ (covers k o b ∧ k.lType = t) ∨ Held (before ++ after) o b t := by
  simp only [Held, List.mem_append, List.mem_cons]
  constructor
  · rintro ⟨y, early | rfl | late, covered⟩
    · exact .inr ⟨y, .inl early, covered⟩
    · exact .inl covered
    · exact .inr ⟨y, .inr late, covered⟩
  · rintro (covered | ⟨y, early | late, covered⟩)
    · exact ⟨k, .inr (.inl rfl), covered⟩
    · exact ⟨y, .inl early, covered⟩
    · exact ⟨y, .inr (.inr late), covered⟩

theorem compatible_middle : (before ++ k :: after).Pairwise Compatible ↔
    (∀ x ∈ before ++ after, Compatible k x) ∧ (before ++ after).Pairwise Compatible := by
  rw [List.pairwise_middle (fun compatible => compatible.symm), List.pairwise_cons]

theorem sorted_middle : (before ++ k :: after).Pairwise (fun k x => k.lStart ≤ x.lStart) ↔
    (∀ x ∈ before, x.lStart ≤ k.lStart) ∧ (∀ x ∈ after, k.lStart ≤ x.lStart) ∧
      (before ++ after).Pairwise (fun k x => k.lStart ≤ x.lStart) := by
  simp only [List.pairwise_append, List.pairwise_cons, List.mem_cons, forall_eq_or_imp]
  constructor
  · rintro ⟨first, ⟨low, second⟩, across⟩
    exact ⟨fun x early => (across x early).1, low, first, second, fun x early => (across x early).2⟩
  · rintro ⟨high, low, first, second, across⟩
    exact ⟨first, ⟨low, second⟩, fun x early => ⟨high x early, across x early⟩⟩

theorem legal_middle : Legal (before ++ k :: after) ↔
    Legal (before ++ after) ∧ Ranged k ∧ (k.lType = .F_RDLCK ∨ k.lType = .F_WRLCK) ∧ (∀ x ∈ before, x.lStart ≤ k.lStart) ∧
      (∀ x ∈ after, k.lStart ≤ x.lStart) ∧ ∀ x ∈ before ++ after, Compatible k x := by
  constructor
  · rintro ⟨ranged, types, sorted, compatible⟩
    obtain ⟨fits, compatible⟩ := compatible_middle.mp compatible
    obtain ⟨high, low, sorted⟩ := sorted_middle.mp sorted
    have old : ∀ x ∈ before ++ after, x ∈ before ++ k :: after := by
      intro x member
      rcases List.mem_append.mp member with early | late
      · exact List.mem_append_left _ early
      · exact List.mem_append_right _ (List.mem_cons_of_mem _ late)
    exact ⟨⟨fun x member => ranged x (old x member), fun x member => types x (old x member), sorted, compatible⟩,
      ranged k (by simp), types k (by simp), high, low, fits⟩
  · rintro ⟨⟨ranged, types, sorted, compatible⟩, range, type, high, low, fits⟩
    have new : ∀ x ∈ before ++ k :: after, x = k ∨ x ∈ before ++ after := by
      intro x member
      rcases List.mem_append.mp member with early | here
      · exact .inr (List.mem_append_left _ early)
      · exact (List.mem_cons.mp here).imp_right (List.mem_append_right _)
    refine ⟨fun x member => ?_, fun x member => ?_, sorted_middle.mpr ⟨high, low, sorted⟩, compatible_middle.mpr ⟨fits, compatible⟩⟩
    · rcases new x member with rfl | old
      · exact range
      · exact ranged x old
    · rcases new x member with rfl | old
      · exact type
      · exact types x old

theorem Legal.shorten (legal : Legal (before ++ k :: after)) (low : k.lStart ≤ lEnd) (high : lEnd ≤ k.lEnd) :
    Legal (before ++ { k with lEnd } :: after) := by
  obtain ⟨rest, range, type, early, late, fits⟩ := legal_middle.mp legal
  exact legal_middle.mpr ⟨rest, ⟨range.low, low, high.trans range.high⟩, type, early, late,
    fun x member => (fits x member).shrink rfl rfl le_rfl high⟩

theorem Legal.alone (legal : Legal (before ++ k :: after)) (covered : covers k o b) : ¬ Held (before ++ after) o b t := by
  rintro ⟨x, member, covered', _⟩
  have apart := ((legal_middle.mp legal).2.2.2.2.2 x member).own (covered.1.trans covered'.1.symm)
  simp only [Left, covers] at *
  omega

theorem Legal.locked (legal : Legal (before ++ k :: after)) : k.lType ≠ .F_UNLCK := by
  rcases (legal_middle.mp legal).2.2.1 with type | type <;> simp [type]

theorem granted_congr {locks' : List FlockT} (same : ¬ covers ld o b → (Held locks o b t ↔ Held locks' o b t)) :
    Granted locks ld o b t ↔ Granted locks' ld o b t := by
  simp only [Granted]
  tauto

theorem granted_swallow (owner : k.owner = ld.owner) (low : ld.lStart ≤ k.lStart) (high : k.lEnd ≤ ld.lEnd) :
    Granted (before ++ k :: after) ld o b t ↔ Granted (before ++ after) ld o b t := by
  refine granted_congr (fun outside => ?_)
  have inside : covers k o b → covers ld o b := fun covered =>
    ⟨owner.symm.trans covered.1, low.trans covered.2.1, covered.2.2.trans high⟩
  rw [held_middle]
  tauto

theorem granted_cut (owner : k.owner = ld.owner) (reach : ld.lStart ≤ k.lEnd) (high : k.lEnd ≤ ld.lEnd) :
    Granted (before ++ k :: after) ld o b t ↔ Granted (before ++ { k with lEnd := ld.lStart - 1 } :: after) ld o b t := by
  refine granted_congr (fun outside => ?_)
  have piece : covers { k with lEnd := ld.lStart - 1 } o b ↔ covers k o b := by
    by_cases own : ld.owner = o
    · simp only [covers, owner, own, true_and] at outside ⊢
      omega
    · simp [covers, owner, own]
  rw [held_middle, held_middle, piece]

section grant
variable (legal : Legal (before ++ k :: after))
include legal

theorem granted_covered (owner : k.owner = ld.owner) (type : ld.lType = k.lType) (low : k.lStart ≤ ld.lStart)
    (high : ld.lEnd ≤ k.lEnd) :
    Granted (before ++ k :: after) ld o b t ↔ Held (before ++ k :: after) o b t := by
  by_cases inside : covers ld o b
  · have covered : covers k o b := ⟨owner.trans inside.1, low.trans inside.2.1, inside.2.2.trans high⟩
    have alone : ¬ Held (before ++ after) o b t := legal.alone covered
    have locked := legal.locked
    simp only [Granted, held_middle, inside, covered, type]
    constructor
    · rintro (⟨_, rfl, _⟩ | ⟨outside, _⟩)
      · exact .inl ⟨trivial, rfl⟩
      · exact absurd trivial outside
    · rintro (⟨_, rfl⟩ | held)
      · exact .inl ⟨trivial, rfl, locked⟩
      · exact absurd held alone
  · simp [Granted, inside]

theorem granted_join (type : ld.lType = k.lType)
    (same : ∀ o b, covers { ld with lStart, lEnd } o b ↔ covers ld o b ∨ covers k o b) :
    Granted (before ++ k :: after) ld o b t ↔ Granted (before ++ after) { ld with lStart, lEnd } o b t := by
  have locked := legal.locked
  have alone : covers k o b → ¬ Held (before ++ after) o b t := legal.alone
  simp only [Granted, held_middle, same]
  simp only [type]
  constructor
  · rintro (⟨inside, rfl, _⟩ | ⟨outside, ⟨covered, rfl⟩ | held⟩)
    · exact .inl ⟨.inl inside, rfl, locked⟩
    · exact .inl ⟨.inr covered, rfl, locked⟩
    · exact .inr ⟨by tauto, held⟩
  · rintro (⟨inside | covered, rfl, _⟩ | ⟨outside, held⟩)
    · exact .inl ⟨inside, rfl, locked⟩
    · by_cases inside : covers ld o b
      · exact .inl ⟨inside, rfl, locked⟩
      · exact .inr ⟨inside, .inl ⟨covered, rfl⟩⟩
    · exact .inr ⟨by tauto, .inr held⟩

end grant

theorem Legal.piece (legal : Legal (before ++ k :: (mid ++ late))) (low : k.lStart ≤ lStart)
    (high : lStart ≤ k.lEnd) (early : ∀ x ∈ mid, x.lStart ≤ lStart) (later : ∀ x ∈ late, lStart ≤ x.lStart) :
    Legal (before ++ (mid ++ { k with lStart } :: late)) := by
  obtain ⟨rest, range, type, first, _, fits⟩ := legal_middle.mp legal
  rw [← List.append_assoc] at rest fits ⊢
  refine legal_middle.mpr ⟨rest, ⟨range.low.trans low, high, range.high⟩, type, ?_, later,
    fun x member => (fits x member).shrink rfl rfl low le_rfl⟩
  simp only [List.mem_append]
  rintro x (member | member)
  · exact (first x member).trans low
  · exact early x member

theorem Legal.pieces (legal : Legal (before ++ k :: (mid ++ late))) (low : k.lStart ≤ lEnd)
    (gap : lEnd + 1 < lStart) (high : lStart ≤ k.lEnd) (early : ∀ x ∈ mid, x.lStart ≤ lStart) (later : ∀ x ∈ late, lStart ≤ x.lStart) :
    Legal (before ++ { k with lEnd } :: (mid ++ { k with lStart } :: late)) := by
  have piece := legal.piece (by omega) high early later
  obtain ⟨_, range, type, first, last, fits⟩ := legal_middle.mp (legal.shorten low (by omega))
  refine legal_middle.mpr ⟨piece, range, type, first, fun x member => ?_, fun x member => ?_⟩
  · simp only [List.mem_append, List.mem_cons] at member
    rcases member with member | rfl | member
    · exact last x (List.mem_append_left _ member)
    · show k.lStart ≤ lStart
      omega
    · exact last x (List.mem_append_right _ member)
  · simp only [List.mem_append, List.mem_cons] at member
    rcases member with member | member | rfl | member
    · exact fits x (by simp [member])
    · exact fits x (by simp [member])
    · exact ⟨fun _ => .inl ⟨show lEnd < lStart by omega, fun _ => gap⟩, fun other => absurd rfl other⟩
    · exact fits x (by simp [member])

theorem granted_piece (owner : k.owner = ld.owner) (low : ld.lStart ≤ k.lStart) (reach : k.lStart ≤ ld.lEnd) :
    Granted (before ++ k :: (mid ++ late)) ld o b t ↔ Granted (before ++ (mid ++ { k with lStart := ld.lEnd + 1 } :: late)) ld o b t := by
  refine granted_congr (fun outside => ?_)
  have piece : covers { k with lStart := ld.lEnd + 1 } o b ↔ covers k o b := by
    by_cases own : ld.owner = o
    · simp only [covers, owner, own, true_and] at outside ⊢
      omega
    · simp [covers, owner, own]
  rw [held_middle, ← List.append_assoc, ← List.append_assoc, held_middle, piece]

theorem granted_pieces (owner : k.owner = ld.owner) (low : k.lStart < ld.lStart) (high : ld.lEnd < k.lEnd)
    (ordered : ld.lStart ≤ ld.lEnd) :
    Granted (before ++ k :: (mid ++ late)) ld o b t ↔
      Granted (before ++ { k with lEnd := ld.lStart - 1 } :: (mid ++ { k with lStart := ld.lEnd + 1 } :: late)) ld o b t := by
  refine granted_congr (fun outside => ?_)
  have pieces : covers { k with lEnd := ld.lStart - 1 } o b ∨ covers { k with lStart := ld.lEnd + 1 } o b ↔ covers k o b := by
    by_cases own : ld.owner = o
    · simp only [covers, owner, own, true_and] at outside ⊢
      omega
    · simp [covers, owner, own]
  rw [held_middle, held_middle, ← List.append_assoc, ← List.append_assoc, held_middle, ← pieces]
  tauto

theorem granted_insert (locked : ld.lType ≠ .F_UNLCK) (apart : ∀ x ∈ before ++ after, x.owner = ld.owner → ¬ Overlap x ld) :
    Granted (before ++ after) ld o b t ↔ Held (before ++ ld :: after) o b t := by
  rw [held_middle, Granted]
  have outside : covers ld o b → ¬ Held (before ++ after) o b t := by
    rintro covered ⟨x, member, covered', _⟩
    refine apart x member (covered'.1.trans covered.1.symm) ⟨?_, ?_⟩
    · exact covered'.2.1.trans covered.2.2
    · exact covered.2.1.trans covered'.2.2
  constructor
  · rintro (⟨covered, rfl, _⟩ | ⟨_, held⟩)
    · exact .inl ⟨covered, rfl⟩
    · exact .inr held
  · rintro (⟨covered, rfl⟩ | held)
    · exact .inl ⟨covered, rfl, locked⟩
    · exact .inr ⟨fun covered => outside covered held, held⟩

end Svr4.Proofs.FlockRanges

/-! `flckadj` along the list of locks: each turn leaves a legal list and the same bytes
still to be granted, and wakes everyone whose lock it changes. -/

namespace Svr4.Proofs.FlockScan
open Function Chain DoubleChain Flock FlockLists FlockRanges

def locks (s : Filocks) (l : List Nat) : List FlockT := l.map s.set

structure Keeps (s t : Filocks) (l l' : List Nat) : Prop where
  frame : Frame s.toHeap t.toHeap l l'
  kept : ∀ p ∈ l, s.wakeflg p ≠ 0 → (p ∈ l' ∧ t.set p = s.set p ∧ t.wakeflg p = s.wakeflg p) ∨ p ∈ t.woken

def Placed (s : Filocks) (l : List Nat) (lStart : Int) : Option Nat → Prop
  | none => ∀ p ∈ l, lStart ≤ (s.set p).lStart
  | some i => i ∈ l ∧ (s.set i).lStart ≤ lStart

structure Base (a : Adjust) (l : List Nat) : Prop where
  holds : Holds a.s l
  legal : Legal (locks a.s l)
  ranged : Ranged a.ld
  shared : a.ld.lType ≠ .F_UNLCK → ∀ p ∈ l, (a.s.set p).owner ≠ a.ld.owner → Overlap (a.s.set p) a.ld →
    (a.s.set p).lType = .F_RDLCK ∧ a.ld.lType = .F_RDLCK
  placed : a.ld.lType ≠ .F_UNLCK → Placed a.s l a.ld.lStart a.insrtp

structure Scan (a : Adjust) (done rest : List Nat) : Prop extends Base a (done ++ rest) where
  early : ∀ p ∈ done, (a.s.set p).owner = a.ld.owner → Left (a.s.set p) a.ld

structure Settled (a : Adjust) (l : List Nat) : Prop extends Base a l where
  apart : ∀ p ∈ l, (a.s.set p).owner = a.ld.owner → Left (a.s.set p) a.ld ∨ Left a.ld (a.s.set p)

structure Moves (a a' : Adjust) (l l' : List Nat) : Prop where
  keeps : Keeps a.s a'.s l l'
  owner : a'.ld.owner = a.ld.owner
  type : a'.ld.lType = a.ld.lType
  granted : ∀ o b t, Granted (locks a.s l) a.ld o b t ↔ Granted (locks a'.s l') a'.ld o b t

variable {s t u : Filocks} {a a' : Adjust} {l l' l'' done before after : List Nat} {flp : Nat} {kmem : Filocks → Option Nat} {time : Nat}

theorem Keeps.refl (s : Filocks) (l : List Nat) : Keeps s s l l :=
  ⟨.refl _ _, fun _ member _ => .inl ⟨member, rfl, rfl⟩⟩

theorem Keeps.trans (first : Keeps s t l l') (second : Keeps t u l' l'') : Keeps s u l l'' := by
  refine ⟨first.frame.trans second.frame, fun p member asleep => ?_⟩
  rcases first.kept p member asleep with ⟨member', set, wakeflg⟩ | woken
  · rcases second.kept p member' (wakeflg ▸ asleep) with ⟨member'', set', wakeflg'⟩ | woken
    · exact .inl ⟨member'', set'.trans set, wakeflg'.trans wakeflg⟩
    · exact .inr woken
  · exact .inr (second.frame.woken p woken)

theorem Moves.refl (a : Adjust) (l : List Nat) : Moves a a l l := ⟨.refl _ _, rfl, rfl, fun _ _ _ => Iff.rfl⟩

theorem Moves.trans {a'' : Adjust} (first : Moves a a' l l') (second : Moves a' a'' l' l'') : Moves a a'' l l'' :=
  ⟨first.keeps.trans second.keeps, second.owner.trans first.owner, second.type.trans first.type,
    fun o b t => (first.granted o b t).trans (second.granted o b t)⟩

theorem locks_middle (s : Filocks) : locks s (before ++ flp :: after) = locks s before ++ s.set flp :: locks s after := by
  simp [locks]

theorem locks_append (s : Filocks) : locks s (before ++ after) = locks s before ++ locks s after := List.map_append

theorem locks_update {k : FlockT} (set : t.set = update s.set flp k) (outside : flp ∉ l) : locks t l = locks s l := by
  refine List.map_congr_left (fun p member => ?_)
  rw [set, update_of_ne]
  rintro rfl
  exact outside member

theorem mem_locks {k : FlockT} : k ∈ locks s l ↔ ∃ p ∈ l, s.set p = k := List.mem_map

theorem delflck_keeps (holds : Holds s (before ++ flp :: after)) : Keeps s (delflck flp s) (before ++ flp :: after) (before ++ after) := by
  obtain ⟨_, set, blk, frame⟩ := delflck_spec holds
  have wakes := (delflck_woken flp s).1
  have same : ∀ p, p ≠ flp → (delflck flp s).wakeflg p = s.wakeflg p := fun p apart => by rw [Filocks.wakeflg, blk p apart, Filocks.wakeflg]
  refine ⟨frame, fun p member asleep => ?_⟩
  by_cases here : p = flp
  · subst here
    exact .inr (wakes asleep)
  · exact .inl ⟨by simpa [here] using member, by rw [set], same p here⟩

theorem insflck_keeps {new : Nat} {k : FlockT} (holds : Holds s (before ++ after))
    (inserted : Inserted s t (before ++ after) (before ++ new :: after) new k) : Keeps s t (before ++ after) (before ++ new :: after) := by
  refine ⟨inserted.frame, fun p member asleep => .inl ?_⟩
  have apart : p ≠ new := fun same => inserted.fresh (same ▸ holds.used p member)
  refine ⟨?_, by rw [inserted.set, update_of_ne apart], by rw [Filocks.wakeflg, inserted.blk, update_of_ne apart, Filocks.wakeflg]⟩
  simp only [List.mem_append, List.mem_cons] at member ⊢
  tauto

theorem cutBefore_keeps (ld : FlockT) (inside : flp ∈ l) : Keeps s (cutBefore flp ld s) l l := by
  obtain ⟨set, next, prev, _, used, blk⟩ := WAKEUP_frame flp { s with set := update s.set flp { s.set flp with lEnd := ld.lStart - 1 } }
  obtain ⟨wakes, stays⟩ := WAKEUP_woken flp { s with set := update s.set flp { s.set flp with lEnd := ld.lStart - 1 } }
  have sets : ∀ p, p ≠ flp → (cutBefore flp ld s).set p = s.set p := fun p apart => by
    rw [cutBefore, set]
    exact update_of_ne apart _ _
  have blks : ∀ p, p ≠ flp → (cutBefore flp ld s).blk p = s.blk p := fun p apart => by rw [cutBefore, blk p apart]
  refine ⟨⟨fun p member outside => ⟨outside, ?_⟩, stays⟩, fun p member asleep => ?_⟩
  · have apart : p ≠ flp := fun same => outside (same ▸ inside)
    exact ⟨used.symm ▸ member, sets p apart, blks p apart, congrFun next p, congrFun prev p⟩
  · by_cases here : p = flp
    · subst here
      exact .inr (wakes asleep)
    · exact .inl ⟨member, sets p here, by rw [Filocks.wakeflg, blks p here, Filocks.wakeflg]⟩

theorem cutBefore_set (flp : Nat) (ld : FlockT) (s : Filocks) :
    (cutBefore flp ld s).set = update s.set flp { s.set flp with lEnd := ld.lStart - 1 } :=
  (WAKEUP_frame flp _).1

theorem cutBefore_holds (ld : FlockT) (holds : Holds s l) : Holds (cutBefore flp ld s) l :=
  Holds.wakeup (s := { s with set := update s.set flp { s.set flp with lEnd := ld.lStart - 1 } }) ⟨holds.toDoubly, holds.used⟩ flp

theorem Holds.rest (holds : Holds s (before ++ flp :: after)) : Linked s.next (some flp) (flp :: after) := by
  obtain ⟨m, _, start, rest⟩ := seg_append.mp holds.forward
  exact ⟨rfl, rest⟩

theorem sorted_after (legal : Legal (locks s (before ++ flp :: after))) :
    (∀ p ∈ before, (s.set p).lStart ≤ (s.set flp).lStart) ∧ ∀ p ∈ after, (s.set flp).lStart ≤ (s.set p).lStart := by
  rw [locks_middle] at legal
  obtain ⟨_, _, _, early, late, _⟩ := legal_middle.mp legal
  exact ⟨fun p member => early _ (List.mem_map_of_mem member), fun p member => late _ (List.mem_map_of_mem member)⟩

theorem insertPlace_spec {place : Nat} (holds : Holds s (before ++ flp :: after))
    (legal : Legal (locks s (before ++ flp :: after))) (low : (s.set flp).lStart ≤ lStart)
    (call : insertPlace time lStart flp s = some place) :
    ∃ mid late, after = mid ++ late ∧ (before ++ flp :: mid).getLast? = some place ∧
      (∀ p ∈ before ++ flp :: mid, (s.set p).lStart ≤ lStart) ∧ ∀ p ∈ late, lStart ≤ (s.set p).lStart := by
  obtain ⟨⟨last, found⟩, walked, rest⟩ := Option.bind_eq_some_iff.mp call
  obtain rfl : last.getD flp = place := Option.some.inj rest
  have early : ∀ p ∈ before ++ [flp], (s.set p).lStart ≤ lStart := by
    simp only [List.mem_append, List.mem_singleton]
    rintro p (member | rfl)
    · exact ((sorted_after legal).1 p member).trans low
    · exact low
  rcases walk_ended (Holds.rest holds) walked with ⟨_, rfl, passes⟩ | ⟨front, stop, late, split, stops, _, rfl, passes⟩
  · refine ⟨after, [], by simp, ?_, ?_, by simp⟩
    · rw [List.getLast?_append, List.getLast?_cons]
      simp
    · simp only [List.mem_append, List.mem_cons]
      rintro p (member | rfl | member)
      · exact early p (by simp [member])
      · exact low
      · have := passes p (by simp [member])
        simp only [decide_eq_false_iff_not, not_not] at this
        omega
  · simp only [decide_eq_true_eq, not_lt] at stops
    cases front with
    | nil =>
      obtain ⟨rfl, rfl⟩ := List.cons.inj split
      exact ⟨[], after, rfl, by simp, early, fun p member => stops.trans ((sorted_after legal).2 p member)⟩
    | cons _ mid =>
      rw [List.cons_append] at split
      obtain ⟨rfl, rfl⟩ := List.cons.inj split
      refine ⟨mid, stop :: late, rfl, ?_, ?_, ?_⟩
      · rw [List.getLast?_append, List.getLast?_cons]
        simp
      · simp only [List.mem_append, List.mem_cons]
        rintro p (member | rfl | member)
        · exact early p (by simp [member])
        · exact low
        · have := passes p (by simp [member])
          simp only [decide_eq_false_iff_not, not_not] at this
          omega
      · rw [show before ++ flp :: (mid ++ stop :: late) = (before ++ flp :: mid) ++ stop :: late by simp] at legal
        simp only [List.mem_cons]
        rintro p (rfl | member)
        · exact stops
        · exact stops.trans ((sorted_after legal).2 p member)

theorem splitAfter_spec (fresh : Fresh kmem) (holds : Holds a.s (before ++ flp :: after))
    (legal : Legal (locks a.s (before ++ flp :: after))) (reach : (a.s.set flp).lStart ≤ a.ld.lEnd + 1)
    (call : splitAfter kmem time flp a = some (some s)) :
    ∃ mid late new, after = mid ++ late ∧
      Inserted a.s s (before ++ flp :: after) (before ++ flp :: (mid ++ new :: late)) new { a.s.set flp with lStart := a.ld.lEnd + 1 } ∧
      (∀ x ∈ locks a.s mid, x.lStart ≤ a.ld.lEnd + 1) ∧ ∀ x ∈ locks a.s late, a.ld.lEnd + 1 ≤ x.lStart := by
  obtain ⟨place, placed, rest⟩ := Option.bind_eq_some_iff.mp call
  obtain ⟨mid, late, rfl, last, early, later⟩ := insertPlace_spec holds legal reach placed
  obtain ⟨⟨new, t⟩, made, rfl⟩ := Option.map_eq_some_iff.mp (Option.some.inj rest)
  have memory : kmem a.s ≠ none := fun none_ => by
    rw [insflck_none.mpr none_] at made
    cases made
  obtain ⟨c, memory⟩ := Option.ne_none_iff_exists'.mp memory
  rw [show before ++ flp :: (mid ++ late) = (before ++ flp :: mid) ++ late by simp] at holds
  obtain ⟨u, done, inserted⟩ := insflck_spec holds memory (fresh _ c memory) { a.s.set flp with lStart := a.ld.lEnd + 1 }
  rw [last] at done
  obtain ⟨rfl, rfl⟩ := Prod.mk.inj (Option.some.inj (made.symm.trans done))
  refine ⟨mid, late, new, rfl, by simpa using inserted, ?_, ?_⟩
  · intro x member
    obtain ⟨p, inside, rfl⟩ := mem_locks.mp member
    exact early p (by simp [inside])
  · intro x member
    obtain ⟨p, inside, rfl⟩ := mem_locks.mp member
    exact later p inside

inductive Result (a : Adjust) (l after : List Nat) : Turn → Prop
  | granted {a' : Adjust} (same : a'.s = a.s) (held : ∀ o b t, Granted (locks a.s l) a.ld o b t ↔ Held (locks a.s l) o b t) :
      Result a l after (.ret none a')
  | noMemory {a' : Adjust} (same : a'.s = a.s) : Result a l after (.ret (some .ENOLCK) a')
  | goes {a' : Adjust} {done : List Nat} (scan : Scan a' done after) (moves : Moves a a' l (done ++ after))
      (short : (done ++ after).length ≤ l.length) : Result a l after (.next after.head? a')
  | settled {a' : Adjust} {l' : List Nat} (settled : Settled a' l') (moves : Moves a a' l l') (short : l'.length ≤ l.length + 1) :
      Result a l after (.next none a')

theorem Placed.remove {insrtp : Option Nat} (placed : Placed s (before ++ flp :: after) lStart insrtp)
    (later : lStart < (s.set flp).lStart) : Placed s (before ++ after) lStart insrtp := by
  cases insrtp with
  | none =>
    intro p member
    exact placed p (by simp only [List.mem_append, List.mem_cons] at member ⊢; tauto)
  | some i =>
    obtain ⟨member, low⟩ := placed
    have other : i ≠ flp := by
      rintro rfl
      omega
    exact ⟨by simpa [other] using member, low⟩

theorem placed_prev (holds : Holds s (before ++ flp :: after)) (legal : Legal (locks s (before ++ flp :: after))) :
    Placed s (before ++ after) (s.set flp).lStart (s.prev flp) := by
  rw [holds.prev_eq]
  obtain ⟨early, later⟩ := sorted_after legal
  cases last : before.getLast? with
  | none =>
    obtain rfl := List.getLast?_eq_none_iff.mp last
    exact later
  | some i =>
    have member := List.mem_of_getLast? last
    exact ⟨List.mem_append_left _ member, early i member⟩

section turn
variable (scan : Scan a done (flp :: after)) (own : (a.s.set flp).owner = a.ld.owner)
include scan

theorem Scan.middle : Legal (locks a.s done ++ a.s.set flp :: locks a.s after) := locks_middle a.s ▸ scan.legal

theorem Scan.ordered : (a.s.set flp).lStart ≤ (a.s.set flp).lEnd := (legal_middle.mp scan.middle).2.1.ordered

theorem Scan.fits (member : p ∈ done ++ after) : Compatible (a.s.set flp) (a.s.set p) :=
  (legal_middle.mp scan.middle).2.2.2.2.2 _ (by rw [← locks_append]; exact List.mem_map_of_mem member)

theorem Scan.ordered_of (member : p ∈ done ++ flp :: after) : (a.s.set p).lStart ≤ (a.s.set p).lEnd :=
  (scan.legal.ranged _ (List.mem_map_of_mem member)).ordered

include own

theorem Scan.sooner (member : p ∈ done) (own' : (a.s.set p).owner = a.ld.owner) : Left (a.s.set p) (a.s.set flp) := by
  rcases (scan.fits (List.mem_append_left _ member)).own (own.trans own'.symm) with ⟨less, _⟩ | left_
  · have := (sorted_after scan.legal).1 p member
    have := scan.ordered
    omega
  · exact left_

theorem Scan.later (member : p ∈ after) (own' : (a.s.set p).owner = a.ld.owner) : Left (a.s.set flp) (a.s.set p) := by
  rcases (scan.fits (List.mem_append_right _ member)).own (own.trans own'.symm) with left_ | ⟨less, _⟩
  · exact left_
  · have := (sorted_after scan.legal).2 p member
    have := scan.ordered_of (List.mem_append_right _ (List.mem_cons_of_mem _ member))
    omega

omit own in
theorem Scan.delete {insrtp : Option Nat} (lStart lEnd : Int) (ranged : Ranged { a.ld with lStart, lEnd })
    (near : ∀ x : FlockT, x.lStart ≤ x.lEnd → Overlap x { a.ld with lStart, lEnd } →
      Overlap x a.ld ∨ (a.ld.lType = (a.s.set flp).lType ∧ (a.s.set flp).owner = a.ld.owner ∧ Overlap x (a.s.set flp)))
    (placed : a.ld.lType ≠ .F_UNLCK → Placed a.s (done ++ after) lStart insrtp)
    (granted : ∀ o b t, Granted (locks a.s done ++ a.s.set flp :: locks a.s after) a.ld o b t ↔
      Granted (locks a.s done ++ locks a.s after) { a.ld with lStart, lEnd } o b t) :
    Base ⟨delflck flp a.s, insrtp, { a.ld with lStart, lEnd }⟩ (done ++ after) ∧
      Moves a ⟨delflck flp a.s, insrtp, { a.ld with lStart, lEnd }⟩ (done ++ flp :: after) (done ++ after) := by
  obtain ⟨holds, set, _⟩ := delflck_spec scan.holds
  have same : ∀ l, locks (delflck flp a.s) l = locks a.s l := fun l => by rw [locks, set, locks]
  refine ⟨⟨holds, ?_, ranged, fun locked p member other overlap => ?_, fun locked => ?_⟩,
    ⟨delflck_keeps scan.holds, rfl, rfl, fun o b t => ?_⟩⟩
  · rw [same, locks_append]
    exact (legal_middle.mp scan.middle).1
  · rw [set] at other overlap ⊢
    have old : p ∈ done ++ flp :: after := by
      simp only [List.mem_append, List.mem_cons] at member ⊢
      tauto
    rcases near _ (scan.ordered_of old) overlap with overlap | ⟨type, owner, overlap⟩
    · exact scan.shared locked p old other overlap
    · have both := (scan.fits member).shared (fun equal => other (equal.symm.trans owner)) ⟨overlap.2, overlap.1⟩
      exact ⟨both.2, type.trans both.1⟩
  · simp only [Placed, set]
    exact placed locked
  · rw [locks_middle, same, locks_append]
    exact granted o b t

end turn

end Svr4.Proofs.FlockScan
