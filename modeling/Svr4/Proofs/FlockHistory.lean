import Svr4.Proofs.FlockTurns
import Svr4.Proofs.FlockSleep

/-! Record locks over any order of calls: the lists stay legal, a granted request changes
just its own bytes, and nobody sleeps on a lock that is not in the way. -/

namespace Svr4.Proofs.FlockHistory
open Function Chain DoubleChain Flock FlockLists FlockRanges FlockScan FlockTurns FlockSleep

variable {a : Adjust} {retval : Option Errno}

structure Conflict (k ld : FlockT) : Prop where
  owner : k.owner ≠ ld.owner
  overlap : Overlap k ld
  exclusive : k.lType = .F_WRLCK ∨ ld.lType = .F_WRLCK

section blocked
variable {s : Filocks} {l : List Nat} {ld : FlockT} {time : Nat} {insrt : Option Nat}

private theorem conflicts_iff {k : FlockT} (type : k.lType = .F_RDLCK ∨ k.lType = .F_WRLCK) (low : k.lStart ≤ ld.lEnd) :
    conflicts k ld = true ↔ Conflict k ld := by
  have facts : conflicts k ld = true ↔
      ld.lStart ≤ k.lEnd ∧ k.owner ≠ ld.owner ∧ (k.lType = .F_WRLCK ∨ (k.lType = .F_RDLCK ∧ ld.lType = .F_WRLCK)) := by
    simp [conflicts]
  rw [facts]
  constructor
  · rintro ⟨high, owner, kind⟩
    exact ⟨owner, ⟨low, high⟩, kind.imp id (fun both => both.2)⟩
  · rintro ⟨owner, ⟨_, high⟩, exclusive⟩
    refine ⟨high, owner, ?_⟩
    tauto

private theorem shared_of {k : FlockT} (type : k.lType = .F_RDLCK ∨ k.lType = .F_WRLCK) (type' : ld.lType = .F_RDLCK ∨ ld.lType = .F_WRLCK)
    (free : conflicts k ld = false) (owner : k.owner ≠ ld.owner) (overlap : Overlap k ld) : k.lType = .F_RDLCK ∧ ld.lType = .F_RDLCK := by
  have none_ : ¬ Conflict k ld := fun conflict => by
    rw [(conflicts_iff type overlap.1).mpr conflict] at free
    cases free
  have : ¬ (k.lType = .F_WRLCK ∨ ld.lType = .F_WRLCK) := fun exclusive => none_ ⟨owner, overlap, exclusive⟩
  tauto

private theorem from_last (before : List Nat) {after : List Nat} (holds : Holds s (before ++ after)) :
    ∃ done rest, before ++ after = done ++ rest ∧ before.getLast?.or s.head = rest.head? ∧ ∀ p ∈ done, p ∈ before := by
  rcases List.eq_nil_or_concat before with rfl | ⟨front, i, rfl⟩
  · exact ⟨[], after, rfl, holds.forward.head, by simp⟩
  · exact ⟨front, i :: after, by simp, by simp, by simp +contextual⟩

structure Seen (s : Filocks) (l done : List Nat) (ld : FlockT) (found insrt : Option Nat) : Prop where
  early : ∀ p ∈ done, (s.set p).owner = ld.owner → (s.set p).lEnd + 1 < ld.lStart
  first : insrt = none → ∀ p ∈ l, ld.lStart ≤ (s.set p).lStart
  place : ∀ i, insrt = some i → i ∈ l ∧ (s.set i).lStart < ld.lStart
  blocks : ∀ f, found = some f → f ∈ l ∧ conflicts (s.set f) ld = true ∧ (s.set f).lStart ≤ ld.lEnd
  free : found = none → ∀ p ∈ l, ld.lEnd < (s.set p).lStart ∨ conflicts (s.set p) ld = false

theorem blocked_spec (holds : Holds s l) (legal : Legal (locks s l)) (ranged : Ranged ld) {found : Option Nat}
    (call : blocked time ld s = some (found, insrt)) :
    ∃ done rest, l = done ++ rest ∧ insrt.or s.head = rest.head? ∧ Seen s l done ld found insrt := by
  have ordered := ranged.ordered
  obtain ⟨⟨last, stop⟩, walked, answer⟩ := Option.bind_eq_some_iff.mp call
  rcases walk_ended holds.forward walked with ⟨rfl, rfl, passes⟩ | ⟨before, f, after, rfl, stops, rfl, rfl, passes⟩
  · cases answer
    simp only [decide_eq_false_iff_not, not_or, not_not, not_and, Bool.not_eq_true] at passes
    obtain ⟨done, rest, split, start, inside⟩ := from_last l (show Holds s (l ++ []) by simpa using holds)
    rw [List.append_nil] at split
    refine ⟨done, rest, split, start, ⟨fun p member own => ?_, fun none_ => ?_, fun i some_ => ?_, fun f none_ => (by cases none_), ?_⟩⟩
    · have := (passes p (inside p member)).2.1 own
      omega
    · simp [List.getLast?_eq_none_iff.mp none_]
    · have member := List.mem_of_getLast? some_
      exact ⟨member, (passes i member).1⟩
    · exact fun _ p member => .inr (passes p member).2.2
  · simp only [decide_eq_false_iff_not, decide_eq_true_eq, not_or, not_not, not_and, Bool.not_eq_true] at passes stops
    have sorted := sorted_after legal
    dsimp only at answer
    -- The two places of `insrt` have the locks of the owner before the request behind them.
    have seen : ∀ insrt', insrt' = (if (s.set f).lStart < ld.lStart then some f else before.getLast?) → ∃ done rest,
        before ++ f :: after = done ++ rest ∧ insrt'.or s.head = rest.head? ∧
        (∀ p ∈ done, (s.set p).owner = ld.owner → (s.set p).lEnd + 1 < ld.lStart) ∧
        (insrt' = none → ∀ p ∈ before ++ f :: after, ld.lStart ≤ (s.set p).lStart) ∧
        ∀ i, insrt' = some i → i ∈ before ++ f :: after ∧ (s.set i).lStart < ld.lStart := by
      rintro insrt' rfl
      by_cases early : (s.set f).lStart < ld.lStart
      · rw [if_pos early]
        refine ⟨before, f :: after, rfl, rfl, fun p member own => ?_, fun none_ => (by cases none_), ?_⟩
        · have := (passes p member).2.1 own
          omega
        · rintro i some_
          cases some_
          exact ⟨by simp, early⟩
      · rw [if_neg early]
        obtain ⟨done, rest, split, start, inside⟩ := from_last before holds
        refine ⟨done, rest, split, start, fun p member own => ?_, fun none_ p member => ?_, fun i some_ => ?_⟩
        · have := (passes p (inside p member)).2.1 own
          omega
        · obtain rfl := List.getLast?_eq_none_iff.mp none_
          simp only [List.nil_append, List.mem_cons] at member
          rcases member with rfl | late
          · omega
          · have := sorted.2 p late
            omega
        · have member := List.mem_of_getLast? some_
          exact ⟨List.mem_append_left _ member, (passes i member).1⟩
    split at answer
    · next both =>
      cases answer
      obtain ⟨done, rest, split, start, early, first, place⟩ := seen _ rfl
      refine ⟨done, rest, split, start, early, first, place, ?_, fun none_ => by cases none_⟩
      rintro g some_
      cases some_
      exact ⟨by simp, both.2, by omega⟩
    · next notBoth =>
      obtain ⟨⟨_, again⟩, walked', answer⟩ := Option.bind_eq_some_iff.mp answer
      cases answer
      obtain ⟨done, rest, split, start, early, first, place⟩ := seen _ rfl
      refine ⟨done, rest, split, start, early, first, place, ?_, ?_⟩
      · rcases walk_ended (Holds.rest holds) walked' with ⟨rfl, _, _⟩ | ⟨front, g, late, split', stops', rfl, _, _⟩
        · rintro g none_
          cases none_
        · rintro h found_
          rw [Option.filter_some] at found_
          split at found_
          · next low =>
            cases found_
            simp only [decide_eq_true_eq, not_lt] at low stops'
            have member : g ∈ before ++ f :: after := List.mem_append_right _ (split' ▸ by simp)
            exact ⟨member, stops'.resolve_left (by omega), low⟩
          · cases found_
      · intro none_ p member
        rcases List.mem_append.mp member with front | back
        · exact .inr (passes p front).2.2
        · rcases walk_ended (Holds.rest holds) walked' with ⟨_, _, passes'⟩ | ⟨front, g, late, split', stops', rfl, _, passes'⟩
          · simp only [decide_eq_false_iff_not, not_or, Bool.not_eq_true] at passes'
            exact .inr (passes' p back).2
          · simp only [decide_eq_false_iff_not, not_or, Bool.not_eq_true] at passes'
            have low : ld.lEnd < (s.set g).lStart := by
              by_contra reaches
              simp [Option.filter_some, reaches] at none_
            rw [split'] at back
            rcases List.mem_append.mp back with inside | behind
            · exact .inr (passes' p inside).2
            · rcases List.mem_cons.mp behind with rfl | behind
              · exact .inl low
              · rw [split', ← List.append_assoc] at legal
                exact .inl (low.trans_le ((sorted_after legal).2 p behind))

variable (holds : Holds s l) (legal : Legal (locks s l)) (ranged : Ranged ld)
include holds legal ranged

theorem blocked_some {found : Nat} (call : blocked time ld s = some (some found, insrt)) : found ∈ l ∧ Conflict (s.set found) ld := by
  obtain ⟨done, rest, split, start, seen⟩ := blocked_spec holds legal ranged call
  obtain ⟨member, conflict, low⟩ := seen.blocks found rfl
  exact ⟨member, (conflicts_iff (legal.types _ (List.mem_map_of_mem member)) low).mp conflict⟩

theorem blocked_none (type : ld.lType = .F_RDLCK ∨ ld.lType = .F_WRLCK) (call : blocked time ld s = some (none, insrt)) :
    ∃ done rest, l = done ++ rest ∧ insrt.or s.head = rest.head? ∧ Scan ⟨s, insrt, ld⟩ done rest := by
  obtain ⟨done, rest, rfl, start, seen⟩ := blocked_spec holds legal ranged call
  refine ⟨done, rest, rfl, start, ⟨⟨holds, legal, ranged, fun _ p member other overlap => ?_, fun _ => ?_⟩, fun p member own => ?_⟩⟩
  · rcases seen.free rfl p member with low | free
    · have := overlap.1
      dsimp only at this
      omega
    · exact shared_of (legal.types _ (List.mem_map_of_mem member)) type free other overlap
  · cases insrt with
    | none => exact seen.first rfl
    | some i =>
      obtain ⟨member, low⟩ := seen.place i rfl
      exact ⟨member, low.le⟩
  · have near := seen.early p member own
    exact ⟨(Int.lt_succ _).trans near, fun _ => near⟩

theorem unlock_scan (unlock : ld.lType = .F_UNLCK) : s.head.or s.head = l.head? ∧ Scan ⟨s, s.head, ld⟩ [] l := by
  refine ⟨by rw [Option.or_self]; exact holds.forward.head, ⟨⟨holds, legal, ranged, fun locked => absurd unlock locked,
    fun locked => absurd unlock locked⟩, ?_⟩⟩
  intro p member
  cases member

omit legal ranged in
theorem blocked_ends (ld : FlockT) (enough : l.length ≤ time) : ∃ found insrt, blocked time ld s = some (found, insrt) := by
  unfold blocked
  dsimp only
  obtain ⟨last, walked⟩ := walk_find (fun p => decide (¬ (s.set p).lStart < ld.lStart ∨
    ((s.set p).owner = ld.owner ∧ ld.lStart - 1 ≤ (s.set p).lEnd) ∨ conflicts (s.set p) ld = true)) time holds.forward enough
  simp only [walked, Option.bind_eq_bind, Option.bind_some]
  cases stop : l.find? _ with
  | none => exact ⟨_, _, rfl⟩
  | some f =>
    obtain ⟨before, after, rfl⟩ := List.append_of_mem (List.mem_of_find?_eq_some stop)
    dsimp only
    split
    · exact ⟨_, _, rfl⟩
    · rw [List.length_append] at enough
      obtain ⟨prev, walked'⟩ := walk_find (fun p => decide (ld.lEnd < (s.set p).lStart ∨ conflicts (s.set p) ld = true)) time
        (Holds.rest holds) (by omega)
      rw [walked']
      exact ⟨_, _, rfl⟩

end blocked

def Locked (s : Filocks) (o : Owner) (b : Int) (t : LType) : Prop := ∃ l, Holds s l ∧ Held (locks s l) o b t

structure Lists (k : System) (l : Nat → List Nat) (w : List Nat) : Prop where
  files : ∀ vp, Holds (k.files vp) (l vp)
  legal : ∀ vp, Legal (locks (k.files vp) (l vp))
  waits : Holds k.sleeplcks w
  apart : ∀ vp v, vp ≠ v → ∀ p ∈ l vp, p ∉ l v
  outside : ∀ vp, ∀ p ∈ l vp, p ∉ w

section lists
variable {k : System} {l : Nat → List Nat} {w w' l' : List Nat} {vp : Nat} {s t : Filocks} {o : Owner} {b : Int} {ty : LType}

theorem locked_iff {l : List Nat} (holds : Holds s l) : Locked s o b ty ↔ Held (locks s l) o b ty := by
  constructor
  · rintro ⟨l', holds', held⟩
    rwa [holds.forward.unique holds'.forward]
  · exact fun held => ⟨l, holds, held⟩

theorem Agree.locks {l : List Nat} (agree : Agree s t l) : locks t l = FlockScan.locks s l := List.map_congr_left agree.set

theorem Agree.locked {l : List Nat} (holds : Holds s l) (agree : Agree s t l) : Locked t o b ty ↔ Locked s o b ty := by
  rw [locked_iff agree.holds, locked_iff holds, Agree.locks agree]

theorem files_setFile (k : System) (vp : Nat) (s : Filocks) : (k.setFile vp s).files vp = s := by
  simp [System.files, System.setFile]

theorem files_setFile_of_ne {v : Nat} (k : System) (other : v ≠ vp) (s : Filocks) : (k.setFile vp s).files v = ⟨s.toHeap, k.vFilocks v⟩ := by
  simp [System.files, System.setFile, update_of_ne other]

theorem Lists.file (lists : Lists k l w) (holds : Holds t l') (legal : Legal (locks t l')) (frame : Frame k.heap t.toHeap (l vp) l') :
    Lists (k.setFile vp t) (update l vp l') w ∧ (∀ v ≠ vp, Agree (k.files v) ((k.setFile vp t).files v) (l v)) ∧
      Agree k.sleeplcks (k.setFile vp t).sleeplcks w := by
  have other : ∀ v ≠ vp, Agree (k.files v) ((k.setFile vp t).files v) (l v) ∧ ∀ p ∈ l v, p ∉ l' := fun v apart => by
    rw [files_setFile_of_ne k apart]
    exact frame.agree (lists.files v) fun p member => lists.apart v vp apart p member
  obtain ⟨agree, outside⟩ := frame.agree lists.waits fun p member inside => lists.outside vp p inside member
  have each : ∀ v, Holds ((k.setFile vp t).files v) (update l vp l' v) ∧ Legal (locks ((k.setFile vp t).files v) (update l vp l' v)) ∧
      ∀ p ∈ update l vp l' v, p ∉ w := by
    intro v
    by_cases same : v = vp
    · subst same
      rw [update_self, files_setFile]
      exact ⟨holds, legal, fun p member inside => outside p inside member⟩
    · rw [update_of_ne same]
      exact ⟨(other v same).1.holds, Agree.locks (other v same).1 ▸ lists.legal v, lists.outside v⟩
  refine ⟨⟨fun v => (each v).1, fun v => (each v).2.1, agree.holds, fun v v' apart p member => ?_, fun v => (each v).2.2⟩,
    fun v apart => (other v apart).1, agree⟩
  by_cases same : v = vp
  · subst same
    rw [update_self] at member
    rw [update_of_ne (Ne.symm apart)]
    exact fun inside => (other v' (Ne.symm apart)).2 p inside member
  · rw [update_of_ne same] at member
    by_cases same' : v' = vp
    · subst same'
      rw [update_self]
      exact (other v same).2 p member
    · rw [update_of_ne same']
      exact lists.apart v v' apart p member

theorem Lists.waiting (lists : Lists k l w) (holds : Holds t w') (frame : Frame k.heap t.toHeap w w') :
    Lists (k.setSleeplcks t) l w' ∧ ∀ v, Agree (k.files v) ((k.setSleeplcks t).files v) (l v) := by
  have each : ∀ v, Agree (k.files v) ((k.setSleeplcks t).files v) (l v) ∧ ∀ p ∈ l v, p ∉ w' := fun v =>
    frame.agree (lists.files v) (lists.outside v)
  exact ⟨⟨fun v => (each v).1.holds, fun v => Agree.locks (each v).1 ▸ lists.legal v, holds, lists.apart, fun v => (each v).2⟩, fun v => (each v).1⟩

end lists

section owner
variable {kmem : Filocks → Option Nat} {time : Nat}

def Turn.owner : Turn → Owner
  | .ret _ a => a.ld.owner
  | .next _ a => a.ld.owner

theorem flckadjTurn_owner {flp : Nat} {turn : Turn} (call : flckadjTurn kmem time flp a = some turn) :
    Turn.owner turn = a.ld.owner := by
  unfold flckadjTurn at call
  dsimp only at call
  split at call
  all_goals
    first
    | (cases call; rfl)
    | (split at call <;> cases call <;> rfl)
    | (split at call
       · cases call
         rfl
       · obtain ⟨piece, _, rest⟩ := Option.bind_eq_some_iff.mp call
         cases piece <;> cases rest <;> rfl)

theorem flckadjScan_owner {nflp : Option Nat} {turn : Turn} (call : flckadjScan kmem time nflp a = some turn) :
    Turn.owner turn = a.ld.owner := by
  induction time generalizing nflp a with
  | zero =>
    cases nflp with
    | none =>
      cases call
      rfl
    | some flp => cases call
  | succ time ih =>
    cases nflp with
    | none =>
      cases call
      rfl
    | some flp =>
      rw [flckadjScan] at call
      split at call
      · obtain ⟨step, turned, rest⟩ := Option.bind_eq_some_iff.mp call
        have same := flckadjTurn_owner turned
        cases step with
        | ret retval b =>
          cases rest
          exact same
        | next nflp b => exact (ih rest).trans same
      · exact ih call

theorem flckadj_owner {insrtp : Option Nat} {ld : FlockT} {s : Filocks}
    (call : flckadj kmem time insrtp ld s = some (retval, a)) : a.ld.owner = ld.owner := by
  obtain ⟨turn, scanned, rest⟩ := Option.bind_eq_some_iff.mp call
  have same := flckadjScan_owner scanned
  cases turn with
  | ret r b =>
    cases rest
    exact same
  | next nflp b =>
    dsimp only at rest
    split at rest
    · obtain ⟨place, _, rest⟩ := Option.bind_eq_some_iff.mp rest
      split at rest <;> cases rest <;> exact same
    · cases rest
      exact same

end owner

inductive Effect (s : Filocks) (l : List Nat) (lckdat : FlockT) (cmd : Cmd) : Outcome → Filocks → List Nat → Prop
  | same {t : Filocks} {retval : Option Errno} {ld : FlockT} {cleaned : Bool} (denied : retval = none → cmd.setflck = false)
      (agree : Agree s t l) : Effect s l lckdat cmd (.ret retval ld cleaned) t l
  | adjusted {t u : Filocks} {l' : List Nat} {retval : Option Errno} {ld : FlockT} {cleaned : Bool} (set : cmd.setflck = true)
      (adjusted : Adjusted s t l l' lckdat retval) (agree : Agree t u l') (woken : ∀ p ∈ t.woken, p ∈ u.woken) :
      Effect s l lckdat cmd (.ret retval ld cleaned) u l'
  | sleep {t : Filocks} {found sf : Nat} (member : found ∈ l) (conflict : Conflict (s.set found) lckdat)
      (agree : Agree (s.setWakeflg found (int (s.wakeflg found + 1))) t l) : Effect s l lckdat cmd (.sleep found sf) t l

inductive Asleep (s : Filocks) (w : List Nat) (lckdat : FlockT) (cmd : Cmd) : Outcome → Filocks → List Nat → Prop
  | same {t : Filocks} {retval : Option Errno} {ld : FlockT} (agree : Agree s t w) : Asleep s w lckdat cmd (.ret retval ld false) t w
  | remote {t : Filocks} {sf : Nat} {blck : Owner} {time : Nat} {retval : Option Errno} {ld : FlockT}
      (waits : Waits s t w lckdat sf blck) (checked : deadflck s lckdat time blck = some false) :
      Asleep s w lckdat cmd (.ret retval ld false) t (sf :: w)
  | sleep {t : Filocks} {sf found : Nat} {blck : Owner} {time : Nat} (waits : Waits s t w lckdat sf blck)
      (checked : deadflck s lckdat time blck = some false) : Asleep s w lckdat cmd (.sleep found sf) t (sf :: w)
  | cleaned {t : Filocks} {retval : Option Errno} {ld : FlockT} (asks : cmd.rcmdlck = true)
      (owner : ld.owner = lckdat.owner) (removed : Removed s t w ⟨fun sf => cleans (s.set sf) ld, ld⟩) :
      Asleep s w lckdat cmd (.ret retval ld true) t (w.filter (fun sf => !cleans (s.set sf) ld))

structure Acts (k k' : System) (l : Nat → List Nat) (w : List Nat) (vp : Nat) (lckdat : FlockT) (cmd : Cmd) (out : Outcome)
    (l' w' : List Nat) : Prop where
  sleepers : k'.sleepers = k.sleepers
  lists : Lists k' (update l vp l') w'
  effect : Effect (k.files vp) (l vp) lckdat cmd out (k'.files vp) l'
  asleep : Asleep k.sleeplcks w lckdat cmd out k'.sleeplcks w'
  others : ∀ v ≠ vp, Agree (k.files v) (k'.files v) (l v)

section turns
variable {k k' : System} {l : Nat → List Nat} {w : List Nat} {kmem : Filocks → Option Nat} {time vp : Nat} {lckdat : FlockT}
  {cmd : Cmd} {out : Outcome}

theorem Acts.none (lists : Lists k l w) {ld : FlockT} (denied : retval = .none → cmd.setflck = false) :
    Acts k k l w vp lckdat cmd (.ret retval ld false) (l vp) w :=
  ⟨rfl, by rwa [update_eq_self], .same denied (.refl (lists.files vp)), .same (.refl lists.waits), fun v _ => .refl (lists.files v)⟩

theorem setWakeflg_holds {s : Filocks} {l : List Nat} (holds : Holds s l) {found : Nat} (inside : found ∈ l) (n : Int) :
    Holds (s.setWakeflg found n) l ∧ Frame s.toHeap (s.setWakeflg found n).toHeap l l :=
  ⟨⟨holds.toDoubly, holds.used⟩,
    fun p member outside => ⟨outside, member, rfl, update_of_ne (fun same : p = found => outside (same ▸ inside)) _ _, rfl, rfl⟩,
      fun _ member => member⟩

theorem reclockBlocked_acts (lists : Lists k l w) (fresh : Fresh kmem) {found : Nat} (member : found ∈ l vp)
    (conflict : Conflict ((k.files vp).set found) lckdat) (call : reclockBlocked kmem time vp lckdat cmd found k = some (out, k')) :
    ∃ l' w', Acts k k' l w vp lckdat cmd out l' w' := by
  unfold reclockBlocked at call
  dsimp only at call
  split at call
  · obtain ⟨dead, checked, rest⟩ := Option.bind_eq_some_iff.mp call
    cases dead with
    | true =>
      cases rest
      exact ⟨_, _, .none lists (by simp)⟩
    | false =>
      simp only [Bool.false_eq_true, if_false] at rest
      split at rest
      · obtain ⟨⟨last, already⟩, _, rest⟩ := Option.bind_eq_some_iff.mp rest
        cases already with
        | some sf =>
          cases rest
          exact ⟨_, _, .none lists (by simp)⟩
        | none =>
          dsimp only at rest
          split at rest
          · cases rest
            exact ⟨_, _, .none lists (by simp)⟩
          · next sf t made =>
            cases rest
            obtain ⟨_, waits, frame⟩ := insertSleep_spec lists.waits fresh made
            obtain ⟨lists', agree⟩ := lists.waiting waits.holds frame
            exact ⟨l vp, _, rfl, by rwa [update_eq_self], .same (by simp) (agree vp), .remote waits checked, fun v _ => agree v⟩
      · split at rest
        · cases rest
          exact ⟨_, _, .none lists (by simp)⟩
        · next sf t made =>
          cases rest
          obtain ⟨_, waits, frame⟩ := insertSleep_spec lists.waits fresh made
          obtain ⟨lists₁, agree₁⟩ := lists.waiting waits.holds frame
          obtain ⟨holds, frame'⟩ := setWakeflg_holds (lists₁.files vp) member (int (((k.setSleeplcks t).files vp).wakeflg found + 1))
          obtain ⟨lists₂, agree₂, still⟩ := lists₁.file holds (lists₁.legal vp) frame'
          refine ⟨l vp, _, rfl, lists₂, .sleep member conflict ?_, .sleep (waits.agree still) checked, fun v other => (agree₁ v).trans (agree₂ v other)⟩
          rw [files_setFile]
          have blk := (agree₁ vp).blk
          refine ⟨holds, (agree₁ vp).set, fun p inside => ?_⟩
          simp only [Filocks.setWakeflg, Filocks.wakeflg, blk found member]
          by_cases here : p = found
          · rw [here, update_self, update_self]
          · rw [update_of_ne here, update_of_ne here, blk p inside]
  · split at call
    · cases call
      exact ⟨_, _, .none lists (by simp)⟩
    · next no =>
      cases call
      exact ⟨_, _, .none lists fun _ => by simpa using no⟩

theorem cleaning (lists : Lists k l w) {s t : Filocks} (agree : Agree s k.sleeplcks w) {ld : FlockT} {cleaned : Bool}
    (asks : cleaned = true → cmd.rcmdlck = true) (owner : ld.owner = lckdat.owner)
    (call : (if cleaned = true then cleanslp ld time k.sleeplcks else some k.sleeplcks) = some t) :
    ∃ w', Lists (k.setSleeplcks t) l w' ∧ (∀ v, Agree (k.files v) ((k.setSleeplcks t).files v) (l v)) ∧
      Asleep s w lckdat cmd (.ret retval ld cleaned) t w' ∧ ∀ p ∈ k.heap.woken, p ∈ t.woken := by
  cases cleaned with
  | false =>
    cases call
    exact ⟨w, lists, fun v => .refl (lists.files v), .same agree, fun _ member => member⟩
  | true =>
    obtain ⟨removed, frame⟩ := cleanslp_spec lists.waits call
    obtain ⟨lists', agree'⟩ := lists.waiting removed.holds frame
    have alike : ∀ sf ∈ w, cleans (k.sleeplcks.set sf) ld = cleans (s.set sf) ld := fun sf member => by rw [agree.set sf member]
    have before := Removed.before agree removed (y := ⟨fun sf => cleans (s.set sf) ld, ld⟩) alike rfl
    have kept : w.filter (fun sf => !cleans (k.sleeplcks.set sf) ld) = w.filter fun sf => !cleans (s.set sf) ld :=
      List.filter_congr fun sf member => by rw [alike sf member]
    exact ⟨_, kept ▸ lists', agree', .cleaned (asks rfl) owner before, frame.woken⟩

variable (fresh : Fresh kmem) (ranged : Ranged lckdat) (lists : Lists k l w)
include fresh ranged lists

theorem reclockSet_acts (type : lckdat.lType = .F_RDLCK ∨ lckdat.lType = .F_WRLCK)
    (call : reclockSet kmem time vp lckdat cmd k = some (out, k')) : ∃ l' w', Acts k k' l w vp lckdat cmd out l' w' := by
  have holds := lists.files vp
  have legal := lists.legal vp
  obtain ⟨⟨found, insrt⟩, asked, rest⟩ := Option.bind_eq_some_iff.mp call
  cases found with
  | some found =>
    obtain ⟨member, conflict⟩ := blocked_some holds legal ranged asked
    exact reclockBlocked_acts lists fresh member conflict rest
  | none =>
    obtain ⟨⟨retval, a⟩, adjusted, rest⟩ := Option.bind_eq_some_iff.mp rest
    obtain ⟨t, cleaned, rest⟩ := Option.bind_eq_some_iff.mp rest
    cases rest
    have asks : (cmd.rcmdlck && cmd.slpflck) = true → cmd.rcmdlck = true := fun both => (Bool.and_eq_true_iff.mp both).1
    split at adjusted
    · next set =>
      obtain ⟨done, rest, split, start, scan⟩ := blocked_none holds legal ranged type asked
      obtain ⟨l', result⟩ := flckadj_spec fresh (fun _ => type) scan start adjusted
      rw [← split] at result
      obtain ⟨lists₁, others, agree⟩ := lists.file result.holds result.legal result.keeps.frame
      obtain ⟨w', lists₂, still, asleep, woken⟩ := cleaning lists₁ agree asks (flckadj_owner adjusted) cleaned
      refine ⟨l', w', rfl, lists₂, .adjusted set result ?_ woken, asleep, fun v other => (others v other).trans (by simpa [other] using still v)⟩
      simpa [files_setFile] using still vp
    · next no =>
      cases adjusted
      have same : k.setFile vp (k.files vp) = k := by simp [System.setFile, System.files]
      rw [same] at cleaned ⊢
      have owner : ({ lckdat with lType := .F_UNLCK } : FlockT).owner = lckdat.owner := rfl
      obtain ⟨w', lists₂, still, asleep, woken⟩ := cleaning lists (.refl lists.waits) asks owner cleaned
      exact ⟨l vp, w', rfl, by rwa [update_eq_self], .same (fun _ => by simpa using no) (still vp), asleep, fun v _ => still v⟩

theorem reclockUnset_acts (unlock : lckdat.lType = .F_UNLCK)
    (call : reclockUnset kmem time vp lckdat cmd k = some (out, k')) : ∃ l' w', Acts k k' l w vp lckdat cmd out l' w' := by
  obtain ⟨⟨retval, a⟩, adjusted, rest⟩ := Option.bind_eq_some_iff.mp call
  obtain ⟨t, cleaned, rest⟩ := Option.bind_eq_some_iff.mp rest
  cases rest
  split at adjusted
  · next set =>
    obtain ⟨start, scan⟩ := unlock_scan (lists.files vp) (lists.legal vp) ranged unlock
    obtain ⟨l', result⟩ := flckadj_spec fresh (fun locked => absurd unlock locked) scan start adjusted
    obtain ⟨lists₁, others, agree⟩ := lists.file result.holds result.legal result.keeps.frame
    obtain ⟨w', lists₂, still, asleep, woken⟩ := cleaning lists₁ agree id (flckadj_owner adjusted) cleaned
    refine ⟨l', w', rfl, lists₂, .adjusted set result ?_ woken, asleep, fun v other => (others v other).trans (by simpa [other] using still v)⟩
    simpa [files_setFile] using still vp
  · next no =>
    cases adjusted
    have same : k.setFile vp (k.files vp) = k := by simp [System.setFile, System.files]
    rw [same] at cleaned ⊢
    have owner : lckdat.owner = lckdat.owner := rfl
    obtain ⟨w', lists₂, still, asleep, woken⟩ := cleaning lists (.refl lists.waits) id owner cleaned
    exact ⟨l vp, w', rfl, by rwa [update_eq_self], .same (fun _ => by simpa using no) (still vp), asleep, fun v _ => still v⟩

theorem reclockTurn_acts (call : reclockTurn kmem time vp lckdat cmd k = some (out, k')) : ∃ l' w', Acts k k' l w vp lckdat cmd out l' w' := by
  unfold reclockTurn at call
  split at call
  · next type => exact reclockSet_acts fresh ranged lists (.inl type) call
  · next type => exact reclockSet_acts fresh ranged lists (.inr type) call
  · next unlock => exact reclockUnset_acts fresh ranged lists unlock call
  · cases call
    exact ⟨_, _, .none lists nofun⟩

end turns

section clean
variable {s t : Filocks} {done rest : List Nat} {pid sysid : Int} {time : Nat}

def cleaned (pid sysid : Int) (o : Owner) : Prop := (o.lPid = pid ∨ pid = IGN_PID) ∧ o.lSysid = sysid

private theorem cleaned_done (holds : Holds s done) (legal : Legal (locks s done)) (kept : ∀ p ∈ done, ¬ cleaned pid sysid (s.set p).owner) :
    ∃ l', Holds s l' ∧ Legal (locks s l') ∧ Keeps s s done l' ∧
      ∀ o b ty, Held (locks s l') o b ty ↔ Held (locks s done) o b ty ∧ ¬ cleaned pid sysid o := by
  refine ⟨done, holds, legal, .refl _ _, fun o b ty => ⟨fun held => ⟨held, ?_⟩, fun both => both.1⟩⟩
  obtain ⟨k, member, covered, _⟩ := held
  obtain ⟨p, inside, rfl⟩ := mem_locks.mp member
  exact covered.1 ▸ kept p inside

theorem cleanlocksLoop_spec (holds : Holds s (done ++ rest)) (legal : Legal (locks s (done ++ rest)))
    (kept : ∀ p ∈ done, ¬ cleaned pid sysid (s.set p).owner) (call : cleanlocksLoop pid sysid time rest.head? s = some t) :
    ∃ l', Holds t l' ∧ Legal (locks t l') ∧ Keeps s t (done ++ rest) l' ∧
      ∀ o b ty, Held (locks t l') o b ty ↔ Held (locks s (done ++ rest)) o b ty ∧ ¬ cleaned pid sysid o := by
  induction time generalizing s done rest with
  | zero =>
    cases rest with
    | nil =>
      cases call
      rw [List.append_nil] at holds legal ⊢
      exact cleaned_done holds legal kept
    | cons flp rest => cases call
  | succ time ih =>
    cases rest with
    | nil =>
      cases call
      rw [List.append_nil] at holds legal ⊢
      exact cleaned_done holds legal kept
    | cons flp rest =>
      rw [List.head?_cons, cleanlocksLoop] at call
      rw [holds.next_eq] at call
      split at call
      · next goes =>
        obtain ⟨holds', set, _⟩ := delflck_spec holds
        have same : ∀ l, locks (delflck flp s) l = locks s l := fun l => by rw [locks, set, locks]
        have legal' := legal
        rw [locks_middle] at legal'
        obtain ⟨l', final, legal'', keeps, held⟩ := ih holds' (by rw [same, locks_append]; exact (legal_middle.mp legal').1)
          (by rwa [set]) call
        refine ⟨l', final, legal'', (delflck_keeps holds).trans keeps, fun o b ty => ?_⟩
        rw [held, same, locks_middle, locks_append, held_middle]
        constructor
        · exact fun both => ⟨.inr both.1, both.2⟩
        · rintro ⟨⟨covered, _⟩ | held', other⟩
          · exact absurd (covered.1 ▸ goes) other
          · exact ⟨held', other⟩
      · next stays =>
        rw [show done ++ flp :: rest = (done ++ [flp]) ++ rest by simp] at holds legal ⊢
        refine ih holds legal (fun p member => ?_) call
        rcases List.mem_append.mp member with old | new
        · exact kept p old
        · rw [List.mem_singleton.mp new]
          exact stays

theorem cleanlocks_spec {l : List Nat} (holds : Holds s l) (legal : Legal (locks s l)) (call : cleanlocks time pid sysid s = some t) :
    ∃ l', Holds t l' ∧ Legal (locks t l') ∧ Keeps s t l l' ∧
      ∀ o b ty, Held (locks t l') o b ty ↔ Held (locks s l) o b ty ∧ ¬ cleaned pid sysid o := by
  rw [cleanlocks, show s.head = l.head? from holds.forward.head] at call
  exact cleanlocksLoop_spec (show Holds s ([] ++ l) from holds) legal (by simp) call

end clean

def Waiting (s : Filocks) (l : List Nat) (found : Nat) (lckdat : FlockT) : Prop :=
  found ∈ l ∧ s.wakeflg found ≠ 0 ∧ Conflict (s.set found) lckdat

section waiting
variable {s t : Filocks} {l l' : List Nat} {found : Nat} {ld lckdat : FlockT} {cmd : Cmd} {out : Outcome}

theorem Agree.waiting (agree : Agree s t l) (waiting : Waiting s l found ld) : Waiting t l found ld := by
  obtain ⟨member, asleep, conflict⟩ := waiting
  refine ⟨member, ?_, agree.set found member ▸ conflict⟩
  rwa [Filocks.wakeflg, agree.blk found member]

theorem Keeps.waiting (keeps : Keeps s t l l') (waiting : Waiting s l found ld) : Waiting t l' found ld ∨ found ∈ t.woken := by
  obtain ⟨member, asleep, conflict⟩ := waiting
  rcases keeps.kept found member asleep with ⟨member', set, wakeflg⟩ | woken
  · exact .inl ⟨member', wakeflg ▸ asleep, set ▸ conflict⟩
  · exact .inr woken

theorem setWakeflg_waiting {n : Int} (counts : n ≠ 0) (waiting : Waiting s l found ld) (p : Nat) : Waiting (s.setWakeflg p n) l found ld := by
  refine ⟨waiting.1, ?_, waiting.2.2⟩
  by_cases here : found = p
  · simpa [Filocks.wakeflg, Filocks.setWakeflg, here] using counts
  · simpa [Filocks.wakeflg, Filocks.setWakeflg, update_of_ne here] using waiting.2.1

theorem Effect.waiting (effect : Effect s l lckdat cmd out t l') (counts : ∀ p sf, out = .sleep p sf → int (s.wakeflg p + 1) ≠ 0)
    (waiting : Waiting s l found ld) : Waiting t l' found ld ∨ found ∈ t.woken := by
  cases effect with
  | same denied agree => exact .inl (Agree.waiting agree waiting)
  | adjusted set adjusted agree woken => exact (Keeps.waiting adjusted.keeps waiting).imp (Agree.waiting agree) fun inside => woken found inside
  | sleep member conflict agree => exact .inl (Agree.waiting agree (setWakeflg_waiting (counts _ _ rfl) waiting _))

theorem Effect.asleep {p sf : Nat} (effect : Effect s l lckdat cmd (.sleep p sf) t l') (counts : int (s.wakeflg p + 1) ≠ 0) :
    Waiting t l' p lckdat := by
  cases effect with
  | sleep member conflict agree =>
    refine Agree.waiting agree ⟨member, ?_, conflict⟩
    simpa [Filocks.wakeflg, Filocks.setWakeflg] using counts

end waiting

/-- Everything that happens to the locks of files and to the requests that wait, with the entries
that a step takes off `sleeplcks`. With `apart` the lock manager asks for no owner that a process
sleeps for, and with `counted` no sleep brings the `wakeflg` of its lock to zero. -/
inductive Step (apart counted : Prop) (k : System) : Option Removal → System → Prop
  | call {kmem : Filocks → Option Nat} {time p vp : Nat} {lckdat ld : FlockT} {cmd : Cmd} {retval : Option Errno}
      {cleaned : Bool} {k' : System} (fresh : Fresh kmem) (idle : k.sleepers p = none) (ranged : Ranged lckdat)
      (remote : apart → cmd.rcmdlck = true → ∀ q z, k.sleepers q = some z → z.lckdat.owner ≠ lckdat.owner)
      (step : reclockStep kmem time p vp lckdat cmd k = some (.ret retval ld cleaned, k')) :
      Step apart counted k (if cleaned then some ⟨fun sf => cleans (k.sleeplcks.set sf) ld, ld⟩ else none) k'
  | sleep {kmem : Filocks → Option Nat} {time p vp found sf : Nat} {lckdat : FlockT} {cmd : Cmd} {k' : System}
      (fresh : Fresh kmem) (idle : k.sleepers p = none) (ranged : Ranged lckdat)
      (counts : counted → int ((k.files vp).wakeflg found + 1) ≠ 0)
      (step : reclockStep kmem time p vp lckdat cmd k = some (.sleep found sf, k')) : Step apart counted k none k'
  | wake {p : Nat} {z : Sleeper} (asleep : k.sleepers p = some z) :
      Step apart counted k (some ⟨fun sf => sf = z.sf, z.lckdat⟩) (reclockWake p z k)
  | cleanlocks {vp time : Nat} {pid sysid : Int} {s : Filocks} (call : cleanlocks time pid sysid (k.files vp) = some s) :
      Step apart counted k none (wakeprocs (k.setFile vp s))

inductive Run (apart counted : Prop) (allowed : Filocks → Removal → Prop) : System → Prop
  | start {k : System} (files : ∀ vp, k.vFilocks vp = none) (sleeplcks : k.sleephead = none)
      (sleepers : ∀ p, k.sleepers p = none) : Run apart counted allowed k
  | step {k k' : System} {r : Option Removal} (run : Run apart counted allowed k) (step : Step apart counted k r k')
      (may : ∀ x, r = some x → allowed k.sleeplcks x) : Run apart counted allowed k'

structure Kept (counted : Prop) (k : System) (l : Nat → List Nat) (w : List Nat) : Prop extends Lists k l w where
  entry : ∀ p z, k.sleepers p = some z → z.sf ∈ w ∧ (k.sleeplcks.set z.sf).owner = z.lckdat.owner
  once : ∀ p q z z', k.sleepers p = some z → k.sleepers q = some z' → p ≠ q → z.sf ≠ z'.sf
  asleep : counted → ∀ p z, k.sleepers p = some z → z.awake = false → Waiting (k.files z.vp) (l z.vp) z.found z.lckdat

inductive Changed (s : Filocks) (w : List Nat) : Option Removal → Filocks → List Nat → Prop
  | same {t : Filocks} (agree : Agree s t w) : Changed s w none t w
  | more {t : Filocks} {lckdat : FlockT} {sf time : Nat} {blck : Owner} (waits : Waits s t w lckdat sf blck)
      (checked : deadflck s lckdat time blck = some false) : Changed s w none t (sf :: w)
  | less {t : Filocks} {x : Removal} (removed : Removed s t w x) : Changed s w (some x) t (w.filter fun sf => !x.gone sf)

section steps
variable {apart counted : Prop} {k k' : System} {l l₁ : Nat → List Nat} {w w' : List Nat} {r : Option Removal}

theorem Lists.wakeprocs (lists : Lists k l w) : Lists (Flock.wakeprocs k) l w :=
  ⟨fun vp => ⟨(lists.files vp).toDoubly, (lists.files vp).used⟩, lists.legal, ⟨lists.waits.toDoubly, lists.waits.used⟩, lists.apart, lists.outside⟩

theorem kept_wakeprocs (lists : Lists k l w)
    (entry : ∀ p z, k.sleepers p = some z → z.sf ∈ w ∧ (k.sleeplcks.set z.sf).owner = z.lckdat.owner)
    (once : ∀ p q z z', k.sleepers p = some z → k.sleepers q = some z' → p ≠ q → z.sf ≠ z'.sf)
    (asleep : counted → ∀ p z, k.sleepers p = some z → z.awake = false →
      Waiting (k.files z.vp) (l z.vp) z.found z.lckdat ∨ z.found ∈ k.heap.woken) : Kept counted (wakeprocs k) l w := by
  have before : ∀ p z, (wakeprocs k).sleepers p = some z → ∃ z', k.sleepers p = some z' ∧ z = { z' with awake := z'.awake || z'.found ∈ k.heap.woken } :=
    fun p z found => by
      obtain ⟨z', was, same⟩ := Option.map_eq_some_iff.mp found
      exact ⟨z', was, same.symm⟩
  refine ⟨lists.wakeprocs, fun p z found => ?_, fun p q z z' found found' => ?_, fun counts p z found idle => ?_⟩
  · obtain ⟨z', was, rfl⟩ := before p z found
    exact entry p z' was
  · obtain ⟨y, was, rfl⟩ := before p z found
    obtain ⟨y', was', rfl⟩ := before q z' found'
    exact once p q y y' was was'
  · obtain ⟨z', was, rfl⟩ := before p z found
    simp only [Bool.or_eq_false_iff, decide_eq_false_iff_not] at idle
    exact (asleep counts p z' was idle.1).resolve_right idle.2

theorem Changed.wakeprocs {s : Filocks} (changed : Changed s w r k.sleeplcks w') : Changed s w r (wakeprocs k).sleeplcks w' := by
  cases changed with
  | same agree => exact .same ⟨⟨agree.holds.toDoubly, agree.holds.used⟩, agree.set, agree.blk⟩
  | more waits checked => exact .more ⟨waits.fresh, ⟨waits.holds.toDoubly, waits.holds.used⟩, waits.new, waits.old⟩ checked
  | less removed => exact .less ⟨⟨removed.holds.toDoubly, removed.holds.used⟩, removed.set, removed.blk, removed.owner⟩

variable {kmem : Filocks → Option Nat} {time p vp : Nat} {lckdat : FlockT} {cmd : Cmd}

theorem kept_ret (kept : Kept counted k l w) (fresh : Fresh kmem) (ranged : Ranged lckdat) {ld : FlockT} {cleaned : Bool}
    (remote : cmd.rcmdlck = true → ∀ q z, k.sleepers q = some z → z.lckdat.owner ≠ lckdat.owner)
    (turned : reclockTurn kmem time vp lckdat cmd k = some (.ret retval ld cleaned, k')) :
    ∃ l₁ w', Kept counted (wakeprocs k') l₁ w' ∧ Changed k.sleeplcks w
      (if cleaned then some ⟨fun sf => cleans (k.sleeplcks.set sf) ld, ld⟩ else none) k'.sleeplcks w' := by
  obtain ⟨l', w', acts⟩ := reclockTurn_acts fresh ranged kept.toLists turned
  have waits : counted → ∀ q z, k'.sleepers q = some z → z.awake = false →
      Waiting (k'.files z.vp) (update l vp l' z.vp) z.found z.lckdat ∨ z.found ∈ k'.heap.woken := fun counts q z asleep idle => by
    have was := kept.asleep counts q z (acts.sleepers ▸ asleep) idle
    by_cases same : z.vp = vp
    · rw [same] at was ⊢
      rw [update_self]
      exact Effect.waiting acts.effect nofun was
    · rw [update_of_ne same]
      exact .inl (Agree.waiting (acts.others z.vp same) was)
  have changed : Changed k.sleeplcks w (if cleaned then some ⟨fun sf => cleans (k.sleeplcks.set sf) ld, ld⟩ else none) k'.sleeplcks w' ∧
      ∀ q z, k.sleepers q = some z → z.sf ∈ w' ∧ (k'.sleeplcks.set z.sf).owner = z.lckdat.owner := by
    have asleep := acts.asleep
    generalize k'.sleeplcks = t at asleep ⊢
    cases asleep with
    | same agree =>
      refine ⟨.same agree, fun q z asleep => ?_⟩
      obtain ⟨member, owner⟩ := kept.entry q z asleep
      exact ⟨member, by rw [agree.set z.sf member, owner]⟩
    | remote waits checked =>
      refine ⟨.more waits checked, fun q z asleep => ?_⟩
      obtain ⟨member, owner⟩ := kept.entry q z asleep
      exact ⟨List.mem_cons_of_mem _ member, by rw [(waits.old z.sf member).1, owner]⟩
    | cleaned asks owner removed =>
      refine ⟨.less removed, fun q z asleep => ?_⟩
      obtain ⟨member, same⟩ := kept.entry q z asleep
      have stays : cleans (k.sleeplcks.set z.sf) ld = false := by
        by_contra going
        simp only [Bool.not_eq_false, cleans, decide_eq_true_eq] at going
        exact remote asks q z asleep (by rw [← same, going.2.2.2, owner])
      have inside : z.sf ∈ w.filter fun sf => !cleans (k.sleeplcks.set sf) ld := List.mem_filter.mpr ⟨member, by simp [stays]⟩
      exact ⟨inside, by rw [removed.set z.sf inside, same]⟩
  refine ⟨_, _, kept_wakeprocs acts.lists ?_ ?_ waits, changed.1⟩
  · rw [acts.sleepers]
    exact changed.2
  · rw [acts.sleepers]
    exact kept.once

theorem kept_sleep (kept : Kept counted k l w) (fresh : Fresh kmem) (ranged : Ranged lckdat) (idle : k.sleepers p = none) {found sf : Nat}
    (counts : counted → int ((k.files vp).wakeflg found + 1) ≠ 0)
    (turned : reclockTurn kmem time vp lckdat cmd k = some (.sleep found sf, k')) :
    ∃ l₁ w', Kept counted (wakeprocs { k' with sleepers := update k'.sleepers p (some ⟨vp, lckdat, cmd, found, sf, false⟩) }) l₁ w' ∧
      Changed k.sleeplcks w none k'.sleeplcks w' := by
  obtain ⟨l', w', acts⟩ := reclockTurn_acts fresh ranged kept.toLists turned
  cases acts.asleep with
  | sleep waits checked =>
    have each : ∀ q z, update k'.sleepers p (some ⟨vp, lckdat, cmd, found, sf, false⟩) q = some z →
        (q = p ∧ z = ⟨vp, lckdat, cmd, found, sf, false⟩) ∨ (q ≠ p ∧ k.sleepers q = some z) := by
      intro q z asleep
      by_cases same : q = p
      · subst same
        rw [update_self] at asleep
        exact .inl ⟨rfl, (Option.some.inj asleep).symm⟩
      · rw [update_of_ne same, acts.sleepers] at asleep
        exact .inr ⟨same, asleep⟩
    have other : ∀ q z, k.sleepers q = some z → z.sf ≠ sf := fun q z asleep same => waits.fresh (same ▸ (kept.entry q z asleep).1)
    refine ⟨_, _, kept_wakeprocs ⟨acts.lists.files, acts.lists.legal, acts.lists.waits, acts.lists.apart, acts.lists.outside⟩
      (fun q z asleep => ?_) (fun q q' z z' asleep asleep' apart => ?_) (fun counted q z asleep idle => ?_), .more waits checked⟩
    · rcases each q z asleep with ⟨rfl, rfl⟩ | ⟨_, before⟩
      · exact ⟨List.mem_cons_self, congrArg FlockT.owner waits.new.1⟩
      · obtain ⟨member, owner⟩ := kept.entry q z before
        exact ⟨List.mem_cons_of_mem _ member, (congrArg FlockT.owner (waits.old z.sf member).1).trans owner⟩
    · rcases each q z asleep with ⟨rfl, rfl⟩ | ⟨_, before⟩
      · rcases each q' z' asleep' with ⟨rfl, rfl⟩ | ⟨_, before'⟩
        · exact absurd rfl apart
        · exact (other q' z' before').symm
      · rcases each q' z' asleep' with ⟨rfl, rfl⟩ | ⟨_, before'⟩
        · exact other q z before
        · exact kept.once q q' z z' before before' apart
    · rcases each q z asleep with ⟨rfl, rfl⟩ | ⟨_, before⟩
      · dsimp only
        rw [update_self]
        exact .inl (Effect.asleep acts.effect (counts counted))
      · have was := kept.asleep counted q z before idle
        by_cases same : z.vp = vp
        · rw [same] at was ⊢
          rw [update_self]
          refine Effect.waiting acts.effect ?_ was
          rintro _ _ ⟨⟩
          exact counts counted
        · rw [update_of_ne same]
          exact .inl (Agree.waiting (acts.others z.vp same) was)

theorem kept_wake (kept : Kept counted k l w) {z : Sleeper} (asleep : k.sleepers p = some z) :
    ∃ l₁ w', Kept counted (reclockWake p z k) l₁ w' ∧
      Changed k.sleeplcks w (some ⟨fun sf => sf = z.sf, z.lckdat⟩) (reclockWake p z k).sleeplcks w' ∧
        ∀ vp, Agree (k.files vp) ((reclockWake p z k).files vp) (l vp) := by
  obtain ⟨member, owner⟩ := kept.entry p z asleep
  obtain ⟨before, after, rfl⟩ := List.append_of_mem member
  have zeroed : Holds { k.sleeplcks with blk := update k.sleeplcks.blk z.sf ⟨0, 0⟩ } (before ++ z.sf :: after) :=
    ⟨kept.waits.toDoubly, kept.waits.used⟩
  have removed := removed_one (x := ⟨fun sf => sf = z.sf, z.lckdat⟩) zeroed (fun p _ => by simp) owner
  obtain ⟨_, _, _, frame⟩ := delflck_spec zeroed
  have kept_ : (before ++ z.sf :: after).filter (fun sf => !decide (sf = z.sf)) = before ++ after := by
    have early : z.sf ∉ before := kept.waits.once.1
    have once := kept.waits.nodup.erase_eq_filter z.sf
    rw [List.erase_append_right _ early, List.erase_cons_head] at once
    rw [once]
    exact List.filter_congr (fun sf _ => by simp [bne, BEq.beq])
  have elsewhere : ∀ q ∈ before ++ after, q ≠ z.sf := fun q inside same =>
    (List.mem_append.mp (same ▸ inside)).elim kept.waits.once.1 kept.waits.once.2
  have frame' : Frame k.heap (delflck z.sf { k.sleeplcks with blk := update k.sleeplcks.blk z.sf ⟨0, 0⟩ }).toHeap
      (before ++ z.sf :: after) (before ++ after) := by
    refine ⟨fun q inside outside => ?_, frame.woken⟩
    obtain ⟨outside', alike⟩ := frame.apart q inside outside
    have other : q ≠ z.sf := fun same => outside (by simp [same])
    exact ⟨outside', alike.used, alike.set, alike.blk.trans (update_of_ne other _ _), alike.next, alike.prev⟩
  have gone : Removed k.sleeplcks (delflck z.sf { k.sleeplcks with blk := update k.sleeplcks.blk z.sf ⟨0, 0⟩ })
      (before ++ z.sf :: after) ⟨fun sf => sf = z.sf, z.lckdat⟩ := by
    refine ⟨removed.holds, removed.set, fun q inside => (removed.blk q inside).trans (update_of_ne ?_ _ _), removed.owner⟩
    exact elsewhere q (kept_ ▸ inside)
  obtain ⟨lists, agree⟩ := kept.toLists.waiting (kept_ ▸ gone.holds) frame'
  have others : ∀ q z', (reclockWake p z k).sleepers q = some z' → q ≠ p ∧ k.sleepers q = some z' := by
    intro q z' found
    simp only [reclockWake] at found
    by_cases same : q = p
    · subst same
      rw [update_self] at found
      cases found
    · rw [update_of_ne same] at found
      exact ⟨same, found⟩
  refine ⟨l, _, ⟨⟨lists.files, lists.legal, ?_, lists.apart, ?_⟩, fun q z' found => ?_, fun q q' z₁ z₂ found found' => ?_,
    fun counts q z' found idle => ?_⟩, .less gone, agree⟩
  · exact gone.holds
  · intro vp q inside
    rw [kept_]
    exact lists.outside vp q inside
  · obtain ⟨other, was⟩ := others q z' found
    obtain ⟨member', owner'⟩ := kept.entry q z' was
    have inside : z'.sf ∈ (before ++ z.sf :: after).filter fun sf => !decide (sf = z.sf) :=
      List.mem_filter.mpr ⟨member', by simpa using kept.once q p z' z was asleep other⟩
    exact ⟨inside, (congrArg FlockT.owner (gone.set z'.sf inside)).trans owner'⟩
  · exact kept.once q q' z₁ z₂ (others q z₁ found).2 (others q' z₂ found').2
  · exact Agree.waiting (agree z'.vp) (kept.asleep counts q z' (others q z' found).2 idle)

theorem kept_cleanlocks (kept : Kept counted k l w) {pid sysid : Int} {s : Filocks} (call : cleanlocks time pid sysid (k.files vp) = some s) :
    ∃ l₁ w', Kept counted (wakeprocs (k.setFile vp s)) l₁ w' ∧ Changed k.sleeplcks w none (k.setFile vp s).sleeplcks w' := by
  obtain ⟨l', holds, legal, keeps, _⟩ := cleanlocks_spec (kept.files vp) (kept.legal vp) call
  obtain ⟨lists, others, agree⟩ := kept.toLists.file holds legal keeps.frame
  refine ⟨_, _, kept_wakeprocs lists (fun q z asleep => ?_) kept.once (fun counts q z asleep idle => ?_), .same agree⟩
  · obtain ⟨member, owner⟩ := kept.entry q z asleep
    exact ⟨member, by rw [agree.set z.sf member, owner]⟩
  · have was := kept.asleep counts q z asleep idle
    by_cases same : z.vp = vp
    · rw [same] at was ⊢
      rw [update_self, files_setFile]
      exact Keeps.waiting keeps was
    · rw [update_of_ne same]
      exact .inl (Agree.waiting (others z.vp same) was)

theorem Step.kept (yes : apart) (kept : Kept counted k l w) (step : Step apart counted k r k') :
    ∃ l₁ w', Kept counted k' l₁ w' ∧ Changed k.sleeplcks w r k'.sleeplcks w' := by
  cases step with
  | call fresh idle ranged remote step =>
    obtain ⟨⟨out, k₁⟩, turned, rest⟩ := Option.bind_eq_some_iff.mp step
    cases out with
    | sleep found sf => cases rest
    | ret retval ld cleaned =>
      cases rest
      obtain ⟨l₁, w', kept', changed⟩ := kept_ret kept fresh ranged (remote yes) turned
      exact ⟨l₁, w', kept', changed.wakeprocs⟩
  | sleep fresh idle ranged counts step =>
    obtain ⟨⟨out, k₁⟩, turned, rest⟩ := Option.bind_eq_some_iff.mp step
    cases out with
    | ret retval ld cleaned => cases rest
    | sleep found sf =>
      cases rest
      obtain ⟨l₁, w', kept', changed⟩ := kept_sleep kept fresh ranged idle counts turned
      exact ⟨l₁, w', kept', Changed.wakeprocs (k := { k₁ with sleepers := update k₁.sleepers _ _ }) changed⟩
  | wake asleep =>
    obtain ⟨l₁, w', kept', changed, _⟩ := kept_wake kept asleep
    exact ⟨l₁, w', kept', changed⟩
  | cleanlocks call =>
    obtain ⟨l₁, w', kept', changed⟩ := kept_cleanlocks kept call
    exact ⟨l₁, w', kept', changed.wakeprocs⟩

theorem Run.kept {allowed : Filocks → Removal → Prop} (run : Run True counted allowed k) : ∃ l w, Kept counted k l w := by
  induction run with
  | @start k files sleeplcks sleepers =>
    have none_ : ∀ p z, k.sleepers p = some z → False := fun p z asleep => by
      rw [sleepers p] at asleep
      cases asleep
    have lists : Lists k (fun _ => []) [] :=
      ⟨fun vp => ⟨⟨files vp, rfl⟩, by simp⟩, fun vp => ⟨by simp [locks], by simp [locks], by simp [locks], by simp [locks]⟩,
        ⟨⟨sleeplcks, rfl⟩, by simp⟩, fun _ _ _ _ => nofun, fun _ _ => nofun⟩
    refine ⟨fun _ => [], [], lists, ?_, ?_, ?_⟩
    · exact fun p z asleep => (none_ p z asleep).elim
    · exact fun p q z z' asleep => (none_ p z asleep).elim
    · exact fun _ p z asleep => (none_ p z asleep).elim
  | step run step may ih =>
    obtain ⟨l, w, kept⟩ := ih
    obtain ⟨l₁, w', kept', _⟩ := step.kept trivial kept
    exact ⟨l₁, w', kept'⟩

end steps

/-- The owner's bytes in the range of the request get its type, and no others change. -/
def Sets (s t : Filocks) (lckdat : FlockT) : Prop :=
  ∀ o b ty, Locked t o b ty ↔ (covers lckdat o b ∧ lckdat.lType = ty ∧ ty ≠ .F_UNLCK) ∨ (¬ covers lckdat o b ∧ Locked s o b ty)

def Same (s t : Filocks) : Prop := ∀ o b ty, Locked t o b ty ↔ Locked s o b ty

section exact_
variable {s t : Filocks} {l l' : List Nat} {lckdat : FlockT} {cmd : Cmd} {k k' : System} {kmem : Filocks → Option Nat} {time p vp : Nat}
  {out : Outcome}

theorem Agree.same (holds : Holds s l) (agree : Agree s t l) : Same s t := fun _ _ _ => Agree.locked holds agree

theorem Effect.granted {ld : FlockT} {cleaned : Bool} (holds : Holds s l) (effect : Effect s l lckdat cmd (.ret none ld cleaned) t l')
    (set : cmd.setflck = true) : Sets s t lckdat := by
  cases effect with
  | same denied agree =>
    rw [denied rfl] at set
    cases set
  | adjusted set adjusted agree woken =>
    intro o b ty
    rw [locked_iff agree.holds, Agree.locks agree, ← adjusted.held rfl, Granted, locked_iff holds]

theorem Effect.denied (holds : Holds s l) (effect : Effect s l lckdat cmd out t l')
    (other : cmd.setflck = false ∨ ∀ ld cleaned, out ≠ .ret none ld cleaned ∧ out ≠ .ret (some .ENOLCK) ld cleaned) : Same s t := by
  cases effect with
  | same denied agree => exact Agree.same holds agree
  | @adjusted t u l' retval ld cleaned set adjusted agree woken =>
    obtain ⟨notGranted, notFull⟩ := other.resolve_left (by simp [set]) ld cleaned
    rcases adjusted.result with rfl | rfl
    · exact absurd rfl notGranted
    · exact absurd rfl notFull
  | sleep member conflict agree =>
    intro o b ty
    rw [locked_iff agree.holds, Agree.locks agree, locked_iff holds]
    rfl

theorem wakeprocs_same (vp : Nat) (holds : Holds (k.files vp) l) : Same (k.files vp) ((wakeprocs k).files vp) :=
  Agree.same holds ⟨⟨holds.toDoubly, holds.used⟩, fun _ _ => rfl, fun _ _ => rfl⟩

theorem reclockStep_acts (fresh : Fresh kmem) (ranged : Ranged lckdat) {l : Nat → List Nat} {w : List Nat} (lists : Lists k l w)
    (step : reclockStep kmem time p vp lckdat cmd k = some (out, k')) :
    ∃ k₁ l' w', Acts k k₁ l w vp lckdat cmd out l' w' ∧ ∀ v, Same (k₁.files v) (k'.files v) := by
  obtain ⟨⟨out', k₁⟩, turned, rest⟩ := Option.bind_eq_some_iff.mp step
  obtain ⟨l', w', acts⟩ := reclockTurn_acts fresh ranged lists turned
  have clear : ∀ v, Same (k₁.files v) ((wakeprocs k₁).files v) := fun v => wakeprocs_same v (acts.lists.files v)
  cases out' with
  | ret retval ld cleaned =>
    cases rest
    exact ⟨k₁, l', w', acts, clear⟩
  | sleep found sf =>
    cases rest
    exact ⟨k₁, l', w', acts, clear⟩

theorem locked_unique (holds : Holds s l) (legal : Legal (locks s l)) {o : Owner} {b : Int} {ty ty' : LType} (first : Locked s o b ty)
    (second : Locked s o b ty') : ty = ty' := by
  rw [locked_iff holds] at first second
  obtain ⟨k, member, covered, type⟩ := first
  obtain ⟨before, after, split⟩ := List.append_of_mem member
  rw [split] at legal second
  rcases held_middle.mp second with ⟨_, same⟩ | rest
  · exact type.symm.trans same
  · exact absurd rest (legal.alone covered)

theorem lock_ends (holds : Holds s l) (legal : Legal (locks s l)) (ranged : Ranged lckdat) :
    ∃ enough, ∀ time ≥ enough,
      ((lckdat.lType = .F_RDLCK ∨ lckdat.lType = .F_WRLCK) → ∃ found insrt, blocked time lckdat s = some (found, insrt) ∧
        (found = none → ∀ kmem, Fresh kmem → ∃ r, flckadj kmem time insrt lckdat s = some r)) ∧
      (lckdat.lType = .F_UNLCK → ∀ kmem, Fresh kmem → ∃ r, flckadj kmem time s.head lckdat s = some r) := by
  refine ⟨l.length + 1, fun time enough => ⟨fun type => ?_, fun unlock kmem fresh => ?_⟩⟩
  · obtain ⟨found, insrt, asked⟩ := blocked_ends holds lckdat (show l.length ≤ time by omega)
    refine ⟨found, insrt, asked, ?_⟩
    rintro rfl kmem fresh
    obtain ⟨done, rest, rfl, start, scan⟩ := blocked_none holds legal ranged type asked
    exact flckadj_ends fresh scan start (by omega)
  · obtain ⟨start, scan⟩ := unlock_scan holds legal ranged unlock
    exact flckadj_ends fresh scan start (by simp; omega)

end exact_

/-- In every state that calls of `reclock` and `cleanlocks` lead to, as long as the lock manager
asks for no owner that a process sleeps for, the lists are legal, and granted requests change
what they ask for and nothing else. -/
theorem locks_exact (k : System) (run : Run True False (fun _ _ => True) k) :
    (∀ vp, (∃ l, Holds (k.files vp) l ∧ Legal (locks (k.files vp) l)) ∧
      ∀ o b ty ty', Locked (k.files vp) o b ty → Locked (k.files vp) o b ty' → ty = ty') ∧
    (∀ vp lckdat, Ranged lckdat → ∃ enough, ∀ time ≥ enough,
      ((lckdat.lType = .F_RDLCK ∨ lckdat.lType = .F_WRLCK) → ∃ found insrt, blocked time lckdat (k.files vp) = some (found, insrt) ∧
        (found = none → ∀ kmem, Fresh kmem → ∃ r, flckadj kmem time insrt lckdat (k.files vp) = some r)) ∧
      (lckdat.lType = .F_UNLCK → ∀ kmem, Fresh kmem → ∃ r, flckadj kmem time (k.files vp).head lckdat (k.files vp) = some r)) ∧
    (∀ kmem time p vp lckdat cmd out k', Fresh kmem → Ranged lckdat → reclockStep kmem time p vp lckdat cmd k = some (out, k') →
      (∀ ld cleaned, out = .ret none ld cleaned → cmd.setflck = true → Sets (k.files vp) (k'.files vp) lckdat) ∧
      ((cmd.setflck = false ∨ ∀ ld cleaned, out ≠ .ret none ld cleaned ∧ out ≠ .ret (some .ENOLCK) ld cleaned) →
        Same (k.files vp) (k'.files vp)) ∧
      ∀ vp' ≠ vp, Same (k.files vp') (k'.files vp')) ∧
    (∀ p z, k.sleepers p = some z → ∀ vp, Same (k.files vp) ((reclockWake p z k).files vp)) ∧
    ∀ time vp pid sysid s, cleanlocks time pid sysid (k.files vp) = some s →
      (∀ o b ty, Locked s o b ty ↔ Locked (k.files vp) o b ty ∧ ¬ cleaned pid sysid o) ∧
      ∀ vp' ≠ vp, Same (k.files vp') ((k.setFile vp s).files vp') := by
  obtain ⟨l, w, kept⟩ := run.kept
  refine ⟨fun vp => ⟨⟨l vp, kept.files vp, kept.legal vp⟩, fun o b ty ty' => locked_unique (kept.files vp) (kept.legal vp)⟩,
    fun vp lckdat ranged => lock_ends (kept.files vp) (kept.legal vp) ranged, ?_, ?_, ?_⟩
  · intro kmem time p vp lckdat cmd out k' fresh ranged step
    obtain ⟨k₁, l', w', acts, after⟩ := reclockStep_acts fresh ranged kept.toLists step
    refine ⟨?_, fun other o b ty => ?_, fun vp' apart o b ty => ?_⟩
    · rintro ld cleaned rfl set o b ty
      rw [after vp o b ty, acts.effect.granted (kept.files vp) set o b ty]
    · rw [after vp o b ty, acts.effect.denied (kept.files vp) other o b ty]
    · rw [after vp' o b ty, Agree.same (kept.files vp') (acts.others vp' apart) o b ty]
  · intro p z asleep vp
    obtain ⟨_, _, _, _, agree⟩ := kept_wake kept asleep
    exact Agree.same (kept.files vp) (agree vp)
  · intro time vp pid sysid s call
    obtain ⟨l', holds, legal, keeps, held⟩ := cleanlocks_spec (kept.files vp) (kept.legal vp) call
    obtain ⟨_, others, _⟩ := kept.toLists.file holds legal keeps.frame
    refine ⟨fun o b ty => ?_, fun vp' apart => Agree.same (kept.files vp') (others vp' apart)⟩
    rw [locked_iff holds, locked_iff (kept.files vp)]
    exact held o b ty

inductive Event
  | asks (p vp : Nat) (lckdat : FlockT) (cmd : Cmd)
  | wakes (p : Nat)

def may (apart : Bool) (p : Nat) (lckdat : FlockT) (cmd : Cmd) (k : System) : Bool :=
  decide (p < 8) && (k.sleepers p).isNone && decide (0 ≤ lckdat.lStart ∧ lckdat.lStart ≤ lckdat.lEnd ∧ lckdat.lEnd ≤ MAXEND) &&
    (!(apart && cmd.rcmdlck) || (List.range 8).all fun q => (k.sleepers q).all fun z => z.lckdat.owner ≠ lckdat.owner)

def replay (apart : Bool) : List Event → System → Option System
  | [], k => some k
  | .asks p vp lckdat cmd :: rest, k =>
    if may apart p lckdat cmd k then
      match reclockStep pick 8 p vp lckdat cmd k with
      | some (.ret _ _ _, k') => replay apart rest k'
      | some (.sleep found _, k') => if int ((k.files vp).wakeflg found + 1) ≠ 0 then replay apart rest k' else none
      | none => none
    else none
  | .wakes p :: rest, k =>
    match k.sleepers p with
    | some z => replay apart rest (reclockWake p z k)
    | none => none

section replay
variable {apart counted : Prop} {allowed : Filocks → Removal → Prop} {k k' : System} {watched : Bool}

private theorem reclockBlocked_sleepers {kmem : Filocks → Option Nat} {time vp found : Nat} {lckdat : FlockT} {cmd : Cmd} {out : Outcome}
    (call : reclockBlocked kmem time vp lckdat cmd found k = some (out, k')) : k'.sleepers = k.sleepers := by
  unfold reclockBlocked at call
  dsimp only at call
  split at call
  · obtain ⟨dead, _, rest⟩ := Option.bind_eq_some_iff.mp call
    cases dead with
    | true =>
      cases rest
      rfl
    | false =>
      simp only [Bool.false_eq_true, if_false] at rest
      split at rest
      · obtain ⟨⟨_, already⟩, _, rest⟩ := Option.bind_eq_some_iff.mp rest
        cases already with
        | some sf =>
          cases rest
          rfl
        | none =>
          dsimp only at rest
          split at rest <;> cases rest <;> rfl
      · split at rest <;> cases rest <;> rfl
  · split at call <;> cases call <;> rfl

private theorem reclockTurn_sleepers {kmem : Filocks → Option Nat} {time vp : Nat} {lckdat : FlockT} {cmd : Cmd} {out : Outcome}
    (call : reclockTurn kmem time vp lckdat cmd k = some (out, k')) : k'.sleepers = k.sleepers := by
  have set : reclockSet kmem time vp lckdat cmd k = some (out, k') → k'.sleepers = k.sleepers := fun call => by
    obtain ⟨⟨found, insrt⟩, _, rest⟩ := Option.bind_eq_some_iff.mp call
    cases found with
    | some found => exact reclockBlocked_sleepers rest
    | none =>
      obtain ⟨⟨retval, a⟩, _, rest⟩ := Option.bind_eq_some_iff.mp rest
      obtain ⟨t, _, rest⟩ := Option.bind_eq_some_iff.mp rest
      cases rest
      rfl
  unfold reclockTurn at call
  split at call
  · exact set call
  · exact set call
  · obtain ⟨⟨retval, a⟩, _, rest⟩ := Option.bind_eq_some_iff.mp call
    obtain ⟨t, _, rest⟩ := Option.bind_eq_some_iff.mp rest
    cases rest
    rfl
  · cases call
    rfl

theorem step_idle {kmem : Filocks → Option Nat} {time p vp : Nat} {lckdat : FlockT} {cmd : Cmd} {out : Outcome}
    (step : reclockStep kmem time p vp lckdat cmd k = some (out, k')) {q : Nat} (other : q ≠ p) (idle : k.sleepers q = none) :
    k'.sleepers q = none := by
  obtain ⟨⟨out', k₁⟩, turned, rest⟩ := Option.bind_eq_some_iff.mp step
  have same := reclockTurn_sleepers turned
  cases out' with
  | ret retval ld cleaned =>
    cases rest
    simp [wakeprocs, same, idle]
  | sleep found sf =>
    cases rest
    simp [wakeprocs, same, idle, update_of_ne other]

theorem Run.idle (run : Run apart counted allowed k) : ∃ n, ∀ q ≥ n, k.sleepers q = none := by
  induction run with
  | start files sleeplcks sleepers => exact ⟨0, fun q _ => sleepers q⟩
  | step run step may ih =>
    obtain ⟨n, idle⟩ := ih
    cases step with
    | @call kmem time p vp lckdat ld cmd retval cleaned k' fresh free ranged remote step =>
      exact ⟨max n (p + 1), fun q late => step_idle step (by omega) (idle q (by omega))⟩
    | @sleep kmem time p vp found sf lckdat cmd k' fresh free ranged counts step =>
      exact ⟨max n (p + 1), fun q late => step_idle step (by omega) (idle q (by omega))⟩
    | @wake p z asleep =>
      refine ⟨n, fun q late => ?_⟩
      by_cases same : q = p
      · simp [reclockWake, same]
      · simp [reclockWake, update_of_ne same, System.setSleeplcks, idle q late]
    | cleanlocks call => exact ⟨n, fun q late => by simp [wakeprocs, System.setFile, idle q late]⟩

theorem replay_run {l : List Event} (allow : ∀ s x, allowed s x) (watch : apart → watched = true) (run : Run apart counted allowed k)
    (idle : ∀ q ≥ 8, k.sleepers q = none) (done : replay watched l k = some k') : Run apart counted allowed k' := by
  induction l generalizing k with
  | nil =>
    cases done
    exact run
  | cons event rest ih =>
    cases event with
    | asks p vp lckdat cmd =>
      rw [replay] at done
      split at done
      · next allowed =>
        simp only [may, Bool.and_eq_true, decide_eq_true_eq, Option.isNone_iff_eq_none] at allowed
        obtain ⟨⟨⟨inside, free⟩, low, ordered, high⟩, remote⟩ := allowed
        split at done
        · next step =>
          refine ih (run.step (.call pick_fresh free ⟨low, ordered, high⟩ (fun yes asks q z asleep => ?_) step) (fun x _ => allow _ x))
            (fun q late => step_idle step (by omega) (idle q late)) done
          by_cases early : q < 8
          · simp only [watch yes, asks, Bool.and_self, Bool.not_true, Bool.false_or, List.all_eq_true, List.mem_range] at remote
            have apart := remote q early
            rw [asleep] at apart
            simpa using apart
          · rw [idle q (by omega)] at asleep
            cases asleep
        · next step =>
          split at done
          · next counts =>
            exact ih (run.step (.sleep pick_fresh free ⟨low, ordered, high⟩ (fun _ => counts) step) (fun x _ => allow _ x))
              (fun q late => step_idle step (by omega) (idle q late)) done
          · cases done
        · cases done
      · cases done
    | wakes p =>
      rw [replay] at done
      split at done
      · next z asleep =>
        refine ih (run.step (.wake asleep) (fun x _ => allow _ x)) (fun q late => ?_) done
        by_cases same : q = p
        · simp [reclockWake, same]
        · simp [reclockWake, update_of_ne same, System.setSleeplcks, idle q late]
      · cases done

end replay

def boot : System :=
  ⟨⟨fun _ => ⟨.F_UNLCK, 0, 0, 0, ⟨0, 0⟩⟩, fun _ => ⟨0, 0⟩, fun _ => none, fun _ => none, [], []⟩, fun _ => none, none, fun _ => none⟩

theorem boot_run {apart counted : Prop} {allowed : Filocks → Removal → Prop} : Run apart counted allowed boot :=
  .start (fun _ => rfl) rfl (fun _ => rfl)

private def ask (lType : LType) (pid first last : Int) : FlockT := ⟨lType, 0, first, last, ⟨0, pid⟩⟩

private def setlk : Cmd := ⟨true, false, false⟩

private def setlkw : Cmd := ⟨true, true, false⟩

private def rsetlk : Cmd := ⟨true, false, true⟩

/-- The first records of a list, with where they start and end. -/
private def shown (s : Filocks) : Nat → Option Nat → List (Int × Int × Int)
  | time + 1, some p => ((s.set p).owner.lPid, (s.set p).lStart, (s.set p).lEnd) :: shown s time (s.next p)
  | _, _ => []

private def sharing : List Event :=
  [.asks 1 0 (ask .F_WRLCK 20 0 9) setlk, .asks 1 0 (ask .F_WRLCK 20 10 19) setlk, .asks 2 0 (ask .F_RDLCK 30 30 39) setlk,
    .asks 3 0 (ask .F_WRLCK 40 0 9) setlkw, .asks 1 0 (ask .F_RDLCK 20 35 44) setlk]

private theorem sharing_ends : ((replay true sharing boot).bind fun k =>
    match reclockStep pick 8 1 0 (ask .F_UNLCK 20 5 36) setlk k with
    | some (.ret none _ _, k') => some (shown (k.files 0) 8 (k.files 0).head, shown (k'.files 0) 8 (k'.files 0).head)
    | _ => none) = some ([(20, 0, 19), (30, 30, 39), (20, 35, 44)], [(20, 0, 4), (30, 30, 39), (20, 37, 44)]) := by
  decide +kernel

/-- The theorem at an unlock by one of two owners. -/
theorem locks_exact_two : ∃ k k' : System, Run True False (fun _ _ => True) k ∧
    shown (k.files 0) 8 (k.files 0).head = [(20, 0, 19), (30, 30, 39), (20, 35, 44)] ∧
    shown (k'.files 0) 8 (k'.files 0).head = [(20, 0, 4), (30, 30, 39), (20, 37, 44)] ∧ Sets (k.files 0) (k'.files 0) (ask .F_UNLCK 20 5 36) := by
  obtain ⟨k, done, after⟩ := Option.bind_eq_some_iff.mp sharing_ends
  have run : Run True False (fun _ _ => True) k := replay_run (fun _ _ => trivial) (fun _ => rfl) boot_run (fun _ _ => rfl) done
  split at after
  · next ld cleaned k' step =>
    simp only [Option.some.injEq, Prod.mk.injEq] at after
    have ranged : Ranged (ask .F_UNLCK 20 5 36) :=
      ⟨(by decide : (0 : Int) ≤ 5), (by decide : (5 : Int) ≤ 36), (by decide : (36 : Int) ≤ MAXEND)⟩
    exact ⟨k, k', run, after.1, after.2, ((locks_exact k run).2.2.1 _ _ _ _ _ _ _ _ pick_fresh ranged step).1 _ _ rfl rfl⟩
  · cases after

/-- The lock manager frees the entry of the process 0.100, which sleeps. The record becomes
a lock of 0.30 on another file, on which 0.40 sleeps. -/
private def stray : List Event :=
  [.asks 1 0 (ask .F_WRLCK 20 0 9) setlk, .asks 2 0 (ask .F_WRLCK 100 0 9) setlkw, .asks 3 0 (ask .F_UNLCK 100 0 9) rsetlk,
    .asks 4 1 (ask .F_WRLCK 30 0 9) setlk, .asks 5 1 (ask .F_WRLCK 40 0 9) setlkw, .wakes 2]

private theorem stray_ends : (replay false (stray ++ [.asks 6 0 (ask .F_WRLCK 50 20 29) setlk]) boot).map (fun k =>
    [(k.files 1).head, (k.files 1).prev 2, (k.files 0).head, (k.files 0).next 1]) = some [some 2, some 1, some 1, some 2] := by
  decide +kernel

/-- When 0.100 goes on it frees that lock, and the next lock of another file is put in its
place: the first lock of the list follows one of another file. -/
theorem stray_delflck : ∃ k, Run False False (fun _ _ => True) k ∧ ¬ ∃ l, Holds (k.files 1) l := by
  obtain ⟨k, done, facts⟩ := Option.map_eq_some_iff.mp stray_ends
  refine ⟨k, replay_run (fun _ _ => trivial) nofun boot_run (fun _ _ => rfl) done, ?_⟩
  simp only [List.cons.injEq, and_true] at facts
  obtain ⟨head, prev, _⟩ := facts
  rintro ⟨l, holds⟩
  cases l with
  | nil => simp [holds.forward.head] at head
  | cons p rest =>
    obtain rfl : p = 2 := by simpa [holds.forward.head] using head
    have first : (k.files 1).prev 2 = none := (show Doubly _ _ _ ([] ++ 2 :: rest) from holds.toDoubly).prev_eq
    rw [prev] at first
    cases first

/-- As long as no sleep brings the `wakeflg` of its lock to zero nobody sleeps on a lock that is
gone, or does not conflict, or does not say that someone sleeps on it. -/
theorem sleepers_wait (k : System) (run : Run True True (fun _ _ => True) k) (p : Nat) (z : Sleeper) (asleep : k.sleepers p = some z)
    (idle : z.awake = false) :
    ∃ l, Holds (k.files z.vp) l ∧ z.found ∈ l ∧ (k.files z.vp).wakeflg z.found ≠ 0 ∧ Conflict ((k.files z.vp).set z.found) z.lckdat := by
  obtain ⟨l, w, kept⟩ := run.kept
  exact ⟨l z.vp, kept.files z.vp, kept.asleep trivial p z asleep idle⟩

private def waiting : List Event :=
  [.asks 1 0 (ask .F_WRLCK 20 0 9) setlk, .asks 2 0 (ask .F_RDLCK 30 0 4) setlkw, .asks 3 0 (ask .F_WRLCK 40 5 9) setlkw,
    .asks 1 0 (ask .F_WRLCK 20 10 19) setlk, .wakes 2, .asks 2 0 (ask .F_RDLCK 30 0 4) setlkw]

private theorem waiting_ends : ((replay true waiting boot).bind fun k => (k.sleepers 2).map fun z =>
    (z.found, z.awake, shown (k.files 0) 8 (k.files 0).head)) = some (1, false, [(20, 0, 19)]) := by
  decide +kernel

/-- The theorem with one that sleeps again on the lock that two have been joined to. -/
theorem sleepers_wait_joined : ∃ (k : System) (z : Sleeper), k.sleepers 2 = some z ∧ z.found = 1 ∧
    ∃ l, Holds (k.files z.vp) l ∧ z.found ∈ l ∧ (k.files z.vp).wakeflg z.found ≠ 0 ∧ Conflict ((k.files z.vp).set z.found) z.lckdat := by
  obtain ⟨k, done, facts⟩ := Option.bind_eq_some_iff.mp waiting_ends
  have run : Run True True (fun _ _ => True) k := replay_run (fun _ _ => trivial) (fun _ => rfl) boot_run (fun _ _ => rfl) done
  obtain ⟨z, asleep, facts⟩ := Option.map_eq_some_iff.mp facts
  simp only [Prod.mk.injEq] at facts
  obtain ⟨found, idle, _⟩ := facts
  exact ⟨k, z, asleep, found, sleepers_wait k run 2 z asleep idle⟩

private theorem stray_sleeps : ((replay false stray boot).bind fun k => (k.sleepers 5).map fun z =>
    (z.vp, z.found, z.awake, (k.files 1).wakeflg 2, k.heap.used)) = some (1, 2, false, 0, [3, 1]) := by
  decide +kernel

/-- When 0.100 has freed the lock of 0.30 the process 0.40 sleeps on for ever. -/
theorem stray_sleeper : ∃ (k : System) (z : Sleeper), Run False True (fun _ _ => True) k ∧ k.sleepers 5 = some z ∧ z.awake = false ∧
    ¬ ∃ l, Holds (k.files z.vp) l ∧ z.found ∈ l ∧ (k.files z.vp).wakeflg z.found ≠ 0 ∧ Conflict ((k.files z.vp).set z.found) z.lckdat := by
  obtain ⟨k, done, facts⟩ := Option.bind_eq_some_iff.mp stray_sleeps
  obtain ⟨z, asleep, facts⟩ := Option.map_eq_some_iff.mp facts
  simp only [Prod.mk.injEq] at facts
  obtain ⟨file, found, idle, wakeflg, _⟩ := facts
  refine ⟨k, z, replay_run (fun _ _ => trivial) nofun boot_run (fun _ _ => rfl) done, asleep, idle, ?_⟩
  rintro ⟨l, _, _, counts, _⟩
  rw [file, found] at counts
  exact counts wakeflg

end Svr4.Proofs.FlockHistory
