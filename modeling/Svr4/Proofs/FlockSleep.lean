import Svr4.Proofs.FlockLists
import Svr4.Library.Follow

/-! The requests that wait on `sleeplcks`: who waits for whom, and when the search of
`deadflck` along them ends. -/

namespace Svr4.Proofs.FlockSleep
open Function Chain DoubleChain Follow Flock FlockLists

def waitsFor (s : Filocks) (l : List Nat) (o : Owner) : Option Owner :=
  (l.find? (fun sf => (s.set sf).owner = o)).map s.blk

def Ends (s : Filocks) : Prop := ∀ lckdat blck, ∃ time r, deadflck s lckdat time blck = some r

section search
variable {s t : Filocks} {l : List Nat} {lckdat : FlockT} {time : Nat} {o : Owner} {r : Bool}

theorem deadflck_search (holds : Holds s l) (ended : deadflck s lckdat time o = some r) :
    search (waitsFor s l) lckdat.owner time o = some r := by
  induction time generalizing o with
  | zero => cases ended
  | succ time ih =>
    rw [deadflck] at ended
    rw [search]
    split at ended
    · next same => rwa [if_pos same]
    · next other =>
      rw [if_neg other]
      obtain ⟨⟨last, found⟩, walked, rest⟩ := Option.bind_eq_some_iff.mp ended
      have first := walk_find_eq holds.forward walked
      cases found with
      | none =>
        rw [waitsFor, ← first]
        exact rest
      | some sf =>
        rw [waitsFor, ← first]
        exact ih rest

theorem search_deadflck (holds : Holds s l) (ended : search (waitsFor s l) lckdat.owner time o = some r) :
    deadflck s lckdat (time + l.length) o = some r := by
  induction time generalizing o with
  | zero => cases ended
  | succ time ih =>
    rw [search] at ended
    rw [Nat.add_right_comm, deadflck]
    split at ended
    · next same => rwa [if_pos same]
    · next other =>
      rw [if_neg other]
      obtain ⟨last, walked⟩ := walk_find (fun sf => (s.set sf).owner = o) _ holds.forward (Nat.le_add_left l.length time)
      simp only [walked, Option.bind_eq_bind, Option.bind_some]
      rw [waitsFor] at ended
      cases first : l.find? (fun sf => (s.set sf).owner = o) with
      | none =>
        rw [first] at ended
        exact ended
      | some sf =>
        rw [first] at ended
        exact ih ended

theorem Agree.waitsFor (agree : Agree s t l) : waitsFor t l = FlockSleep.waitsFor s l := by
  funext a
  have same : l.find? (fun sf => (t.set sf).owner = a) = l.find? (fun sf => (s.set sf).owner = a) :=
    List.find?_congr fun sf member => by rw [agree.set sf member]
  rw [FlockSleep.waitsFor, FlockSleep.waitsFor, same]
  cases first : l.find? (fun sf => (s.set sf).owner = a) with
  | none => rfl
  | some sf => rw [Option.map_some, Option.map_some, agree.blk sf (List.mem_of_find?_eq_some first)]

theorem waits_inside (a b : Owner) (step : waitsFor s l a = some b) : a ∈ l.map (fun sf => (s.set sf).owner) := by
  obtain ⟨sf, first, _⟩ := Option.map_eq_some_iff.mp step
  have same := List.find?_some first
  exact List.mem_map.mpr ⟨sf, List.mem_of_find?_eq_some first, of_decide_eq_true same⟩

instance : Infinite Owner := Infinite.of_injective (fun n : Int => (⟨n, 0⟩ : Owner)) (fun _ _ same => congrArg Owner.lSysid same)

theorem ends_iff (holds : Holds s l) : Ends s ↔ Acyclic (waitsFor s l) := by
  constructor
  · intro ends a b step back
    obtain ⟨o, outside⟩ := Infinite.exists_notMem_finset (l.map (fun sf => (s.set sf).owner)).toFinset
    have stuck : waitsFor s l o = none := by
      by_contra waits
      obtain ⟨c, next⟩ := Option.ne_none_iff_exists'.mp waits
      exact outside (List.mem_toFinset.mpr (waits_inside o c next))
    obtain ⟨time, r, ended⟩ := ends ⟨.F_RDLCK, 0, 0, 0, o⟩ a
    have never := search_never step back stuck time
    rw [deadflck_search holds ended] at never
    cases never
  · intro acyclic lckdat o
    obtain ⟨r, ended⟩ := acyclic.search_ends waits_inside lckdat.owner o (Nat.lt_succ_self _)
    exact ⟨_, r, search_deadflck holds ended⟩

theorem Agree.ends_iff (holds : Holds s l) (agree : Agree s t l) : Ends t ↔ Ends s := by
  rw [FlockSleep.ends_iff agree.holds, FlockSleep.ends_iff holds, Agree.waitsFor agree]

end search

/-- Entries of one owner that go at once, and a request of that owner. -/
structure Removal where
  gone : Nat → Bool
  lckdat : FlockT

/-- The removal makes an older entry the first of its owner whose blocking owner, so
`deadflck` says before, waits for that owner. -/
def Uncovers (s : Filocks) (x : Removal) : Prop :=
  ∃ l older time, Holds s l ∧ (l.filter (fun sf => !x.gone sf)).find? (fun sf => (s.set sf).owner = x.lckdat.owner) = some older ∧
    deadflck s x.lckdat time (s.blk older) = some true

structure Removed (s t : Filocks) (l : List Nat) (x : Removal) : Prop where
  holds : Holds t (l.filter (fun sf => !x.gone sf))
  set : ∀ sf ∈ l.filter (fun sf => !x.gone sf), t.set sf = s.set sf
  blk : ∀ sf ∈ l.filter (fun sf => !x.gone sf), t.blk sf = s.blk sf
  owner : ∀ sf ∈ l, x.gone sf = true → (s.set sf).owner = x.lckdat.owner

structure Waits (s t : Filocks) (l : List Nat) (lckdat : FlockT) (sf : Nat) (blck : Owner) : Prop where
  fresh : sf ∉ l
  holds : Holds t (sf :: l)
  new : t.set sf = lckdat ∧ t.blk sf = blck
  old : ∀ p ∈ l, t.set p = s.set p ∧ t.blk p = s.blk p

section changes
variable {s t u : Filocks} {l : List Nat} {lckdat : FlockT} {sf : Nat} {o : Owner}

theorem insertSleep_spec (holds : Holds s l) {kmem : Filocks → Option Nat} (fresh : Fresh kmem) {found : FlockT}
    (call : insertSleep kmem lckdat found s = some (sf, t)) :
    sf ∉ s.used ∧ Waits s t l lckdat sf found.owner ∧ Frame s.toHeap t.toHeap l (sf :: l) := by
  obtain ⟨⟨new, u⟩, made, rest⟩ := Option.bind_eq_some_iff.mp call
  cases rest
  obtain ⟨c, memory, _⟩ := Option.bind_eq_some_iff.mp made
  obtain ⟨v, done, inserted⟩ := insflck_spec (show Holds s ([] ++ l) from holds) memory (fresh s c memory) lckdat
  rw [List.getLast?_nil] at done
  rw [made] at done
  cases done
  have other : ∀ p ∈ s.used, p ≠ sf := fun p inside same => inserted.fresh (same ▸ inside)
  refine ⟨inserted.fresh, ⟨fun member => inserted.fresh (holds.used sf member), ⟨inserted.holds.toDoubly, inserted.holds.used⟩, ⟨?_, update_self ..⟩,
    fun p member => ⟨?_, ?_⟩⟩, ⟨fun p inside outside => ?_, inserted.frame.woken⟩⟩
  · exact (congrFun inserted.set sf).trans (update_self ..)
  · exact (congrFun inserted.set p).trans (update_of_ne (other p (holds.used p member)) _ _)
  · refine (update_of_ne (other p (holds.used p member)) _ _).trans ?_
    rw [inserted.blk, update_of_ne (other p (holds.used p member))]
  · obtain ⟨outside', alike⟩ := inserted.frame.apart p inside outside
    exact ⟨outside', alike.used, alike.set, (update_of_ne (other p inside) _ _).trans alike.blk, alike.next, alike.prev⟩

theorem Waits.agree (waits : Waits s t l lckdat sf o) (agree : Agree t u (sf :: l)) : Waits s u l lckdat sf o := by
  have here := List.mem_cons_self (a := sf) (l := l)
  refine ⟨waits.fresh, agree.holds, ⟨(agree.set sf here).trans waits.new.1, (agree.blk sf here).trans waits.new.2⟩, fun p member => ?_⟩
  have there := List.mem_cons_of_mem sf member
  exact ⟨(agree.set p there).trans (waits.old p member).1, (agree.blk p there).trans (waits.old p member).2⟩

theorem Waits.waitsFor (waits : Waits s t l lckdat sf o) :
    waitsFor t (sf :: l) = update (FlockSleep.waitsFor s l) lckdat.owner (some o) := by
  funext a
  have rest : l.find? (fun p => (t.set p).owner = a) = l.find? (fun p => (s.set p).owner = a) :=
    List.find?_congr (fun p member => by rw [(waits.old p member).1])
  by_cases same : a = lckdat.owner
  · subst same
    rw [update_self, FlockSleep.waitsFor, List.find?_cons_of_pos (by simp [waits.new.1]), Option.map_some, waits.new.2]
  · have other : lckdat.owner ≠ a := fun equal => same equal.symm
    rw [update_of_ne same, FlockSleep.waitsFor, FlockSleep.waitsFor, List.find?_cons_of_neg (by simp [waits.new.1, other]), rest]
    cases first : l.find? (fun p => (s.set p).owner = a) with
    | none => rfl
    | some p => rw [Option.map_some, Option.map_some, (waits.old p (List.mem_of_find?_eq_some first)).2]

theorem Waits.ends (waits : Waits s t l lckdat sf o) (holds : Holds s l) (ends : Ends s) {time : Nat}
    (checked : deadflck s lckdat time o = some false) : Ends t := by
  rw [ends_iff waits.holds, waits.waitsFor]
  exact ((ends_iff holds).mp ends).update_some_iff.mpr (search_misses (deadflck_search holds checked))

theorem Removed.waitsFor {x : Removal} (removed : Removed s t l x) :
    waitsFor t (l.filter (fun sf => !x.gone sf)) = update (FlockSleep.waitsFor s l) x.lckdat.owner
      (((l.filter (fun sf => !x.gone sf)).find? (fun sf => (s.set sf).owner = x.lckdat.owner)).map s.blk) := by
  have kept : ∀ a, FlockSleep.waitsFor t (l.filter (fun sf => !x.gone sf)) a =
      ((l.filter (fun sf => !x.gone sf)).find? (fun sf => (s.set sf).owner = a)).map s.blk := by
    intro a
    rw [FlockSleep.waitsFor, List.find?_congr fun sf member => by rw [removed.set sf member]]
    cases first : (l.filter (fun sf => !x.gone sf)).find? (fun sf => (s.set sf).owner = a) with
    | none => rfl
    | some sf => rw [Option.map_some, Option.map_some, removed.blk sf (List.mem_of_find?_eq_some first)]
  funext a
  by_cases same : a = x.lckdat.owner
  · rw [same, update_self, kept]
  · rw [update_of_ne same, kept, FlockSleep.waitsFor, List.find?_filter]
    refine congrArg _ (List.find?_congr (fun sf member => ?_))
    by_cases here : (s.set sf).owner = a
    · have stays : x.gone sf = false := by
        by_contra going
        exact same (here.symm.trans (removed.owner sf member (by simpa using going)))
      simp [here, stays]
    · simp [here]

theorem Removed.ends_iff {x : Removal} (removed : Removed s t l x) (holds : Holds s l) (ends : Ends s) :
    Ends t ↔ ¬ Uncovers s x := by
  have acyclic := (FlockSleep.ends_iff holds).mp ends
  rw [FlockSleep.ends_iff removed.holds, removed.waitsFor]
  cases first : (l.filter (fun sf => !x.gone sf)).find? (fun sf => (s.set sf).owner = x.lckdat.owner) with
  | none =>
    refine ⟨fun _ => ?_, fun _ => acyclic.update_none⟩
    rintro ⟨l', older, time, holds', uncovered, _⟩
    rw [holds'.forward.unique holds.forward, first] at uncovered
    cases uncovered
  | some older =>
    rw [Option.map_some, acyclic.update_some_iff, not_iff_not]
    constructor
    · intro leads
      obtain ⟨time, r, ended⟩ := ends x.lckdat (s.blk older)
      refine ⟨l, older, time, holds, first, ?_⟩
      cases r with
      | true => exact ended
      | false => exact absurd leads (search_misses (deadflck_search holds ended))
    · rintro ⟨l', older', time, holds', uncovered, found⟩
      rw [holds'.forward.unique holds.forward, first] at uncovered
      cases uncovered
      exact search_leads (deadflck_search holds found)

theorem Removed.before {x y : Removal} (agree : Agree s t l) (removed : Removed t u l x) (same : ∀ sf ∈ l, x.gone sf = y.gone sf)
    (lckdat : x.lckdat = y.lckdat) : Removed s u l y := by
  have kept : l.filter (fun sf => !x.gone sf) = l.filter fun sf => !y.gone sf := List.filter_congr fun sf member => by rw [same sf member]
  have inside : ∀ sf ∈ l.filter (fun sf => !y.gone sf), sf ∈ l.filter (fun sf => !x.gone sf) ∧ sf ∈ l := fun sf member =>
    ⟨kept ▸ member, (List.mem_filter.mp member).1⟩
  refine ⟨kept ▸ removed.holds, fun sf member => ?_, fun sf member => ?_, fun sf member gone => ?_⟩
  · exact (removed.set sf (inside sf member).1).trans (agree.set sf (inside sf member).2)
  · exact (removed.blk sf (inside sf member).1).trans (agree.blk sf (inside sf member).2)
  · rw [← agree.set sf member, ← lckdat]
    exact removed.owner sf member ((same sf member).trans gone)

theorem removed_one {before after : List Nat} {x : Removal} (holds : Holds s (before ++ sf :: after))
    (gone : ∀ p ∈ before ++ sf :: after, x.gone p = true ↔ p = sf) (owner : (s.set sf).owner = x.lckdat.owner) :
    Removed s (delflck sf s) (before ++ sf :: after) x := by
  obtain ⟨holds', set, blk, _⟩ := delflck_spec holds
  have rest : ∀ p ∈ before ++ after, x.gone p = false := fun p member => by
    have there : p ∈ before ++ sf :: after := by
      simp only [List.mem_append, List.mem_cons] at member ⊢
      tauto
    by_contra going
    obtain rfl := (gone p there).mp (by simpa using going)
    exact (List.mem_append.mp member).elim holds.once.1 holds.once.2
  have kept : (before ++ sf :: after).filter (fun p => !x.gone p) = before ++ after := by
    rw [List.filter_append, List.filter_cons_of_neg (by simp [(gone sf (by simp)).mpr rfl]), ← List.filter_append]
    exact List.filter_eq_self.mpr fun p member => by simp [rest p member]
  refine ⟨kept.symm ▸ holds', fun p _ => congrFun set p, fun p member => blk p ?_, fun p member going => ?_⟩
  · rintro rfl
    rw [kept] at member
    exact (List.mem_append.mp member).elim holds.once.1 holds.once.2
  · rw [(gone p member).mp going, owner]

theorem cleanslp_spec {time : Nat} (holds : Holds s l) (call : cleanslp lckdat time s = some t) :
    Removed s t l ⟨fun sf => cleans (s.set sf) lckdat, lckdat⟩ ∧
      Frame s.toHeap t.toHeap l (l.filter fun sf => !cleans (s.set sf) lckdat) := by
  induction time generalizing s l with
  | zero => cases call
  | succ time ih =>
    rw [cleanslp] at call
    obtain ⟨⟨last, found⟩, walked, rest⟩ := Option.bind_eq_some_iff.mp call
    have first := walk_find_eq holds.forward walked
    have owner : ∀ sf ∈ l, cleans (s.set sf) lckdat = true → (s.set sf).owner = lckdat.owner := by
      intro sf _ matching
      simp only [cleans, decide_eq_true_eq] at matching
      exact matching.2.2.2
    cases found with
    | none =>
      cases rest
      have all : l.filter (fun sf => !cleans (t.set sf) lckdat) = l := by
        refine List.filter_eq_self.mpr (fun sf member => ?_)
        simpa using List.find?_eq_none.mp first.symm sf member
      rw [all]
      exact ⟨⟨all.symm ▸ holds, fun _ _ => rfl, fun _ _ => rfl, owner⟩, .refl _ _⟩
    | some sf =>
      obtain ⟨matching, before, after, rfl, _⟩ := List.find?_eq_some_iff_append.mp first.symm
      obtain ⟨holds', set, blk, frame⟩ := delflck_spec holds
      obtain ⟨removed, frame'⟩ := ih holds' rest
      have same : (before ++ sf :: after).filter (fun sf => !cleans (s.set sf) lckdat) =
          (before ++ after).filter (fun sf => !cleans (s.set sf) lckdat) := by
        rw [List.filter_append, List.filter_append, List.filter_cons_of_neg (by simpa using matching)]
      rw [set] at frame'
      have holds'' := removed.holds
      have sets := removed.set
      have blks := removed.blk
      simp only [set] at holds'' sets blks
      rw [same]
      refine ⟨⟨same ▸ holds'', fun p member => ?_, fun p member => ?_, owner⟩, frame.trans frame'⟩
      · simp only [same] at member
        exact sets p member
      · simp only [same] at member
        refine (blks p member).trans (blk p ?_)
        rintro rfl
        exact (List.mem_append.mp (List.mem_filter.mp member).1).elim holds.once.1 holds.once.2

end changes

end Svr4.Proofs.FlockSleep
