import Svr4.ProcTree

/-! Every process is on one list of children and on one list of orphans, as long as init
does not exit with children. -/

namespace Svr4.Proofs.ProcTrees
open Function Chain Threaded ProcTree

variable {procs : Finset Nat} {lists : Nat → List Nat} {t : Threads Nat}

/-- The processes, and for each that is in `newproc` the child it copies itself to. -/
structure System where
  s : State
  forking : Nat → Option Nat

inductive Event
  | newproc (pp cp : Nat)
  | refused (cp : Nat)
  | copied (pp : Nat)
  | failed (pp : Nat)
  | exit (p : Nat)
  | freeproc (p : Nat)

def step (time : Nat) (k : System) : Event → Option System
  | .newproc pp cp => some ⟨newproc k.s pp cp, update k.forking pp (some cp)⟩
  | .refused cp => some { k with s := newprocRefused k.s cp }
  | .copied pp => (k.forking pp).map fun cp => ⟨{ k.s with pStat := update k.s.pStat cp .SRUN }, update k.forking pp none⟩
  | .failed pp => (k.forking pp).bind fun cp => (newprocFailed time k.s cp).map fun s => ⟨s, update k.forking pp none⟩
  | .exit p => (ProcTree.exit time k.s p).map fun s => { k with s := s }
  | .freeproc p => (freeproc time k.s p).map fun s => { k with s := s }

/-- The structure of a new process is not in use. A process that is copied does nothing
else, process 0 runs the scheduler and neither exits nor waits for its children. -/
def Enabled (k : System) : Event → Prop
  | .newproc pp cp => pp ∈ k.s.procs ∧ k.s.pStat pp = .SRUN ∧ k.forking pp = none ∧ cp ∉ k.s.procs
  | .refused cp => cp ∉ k.s.procs
  | .copied pp => k.forking pp ≠ none
  | .failed pp => k.forking pp ≠ none
  | .exit p => p ∈ k.s.procs ∧ k.s.pStat p = .SRUN ∧ k.forking p = none ∧ p ≠ proc_sched
  | .freeproc p => p ∈ k.s.procs ∧ k.s.pStat p = .SZOMB ∧ k.s.sibs.owner p ≠ some proc_sched

def Guarded (k : System) : Event → Prop
  | .exit p => p = proc_init → k.s.sibs.first p = none
  | _ => True

def boot : System where
  s := {
    procs := {proc_sched, proc_init}
    sibs := ⟨update (fun _ => none) proc_sched (some proc_init), fun _ => none, update (fun _ => none) proc_init (some proc_sched)⟩
    kin := ⟨update (fun _ => none) proc_sched (some proc_init), fun _ => none, update (fun _ => none) proc_init (some proc_sched)⟩
    pStat := fun _ => .SRUN }
  forking _ := none

inductive Run (allowed : System → Event → Prop) : System → Prop
  | start : Run allowed boot
  | step {k k' : System} {event : Event} (time : Nat) (before : Run allowed k) (may : allowed k event) (enabled : Enabled k event)
      (done : step time k event = some k') : Run allowed k'

structure Valid (k : System) (children orphans : Nat → List Nat) (born : Nat → Nat) : Prop where
  sibs : Forest k.s.sibs k.s.procs children
  kin : Forest k.s.kin k.s.procs orphans
  raised : ∀ x ∈ k.s.procs, x ≠ proc_sched → ∃ p, k.s.sibs.owner x = some p
  related : ∀ x ∈ k.s.procs, x ≠ proc_sched → ∃ p, k.s.kin.owner x = some p
  parents : ∀ x ∈ k.s.procs, ∀ p, k.s.sibs.owner x = some p → p = proc_init ∨ k.s.pStat p = .SRUN
  relatives : ∀ x ∈ k.s.procs, ∀ p, k.s.kin.owner x = some p → k.s.pStat p = .SRUN ∧ born p < born x
  sched : proc_sched ∈ k.s.procs ∧ k.s.pStat proc_sched = .SRUN
  init : proc_init ∈ k.s.procs ∧ k.s.sibs.owner proc_init = some proc_sched
  forks : ∀ pp cp, k.forking pp = some cp →
    cp ∈ k.s.procs ∧ k.s.pStat cp = .SIDL ∧ cp ≠ proc_init ∧ k.s.sibs.owner cp = some pp

variable {k k' : System} {event : Event} {children orphans : Nat → List Nat} {born : Nat → Nat} {time p pp cp : Nat} {s : State}

theorem boot_valid : Valid boot (update (fun _ => []) proc_sched [proc_init]) (update (fun _ => []) proc_sched [proc_init]) id := by
  have family : Forest boot.s.sibs boot.s.procs (update (fun _ => []) proc_sched [proc_init]) := by
    refine ⟨fun p inside => ?_, fun p inside x => ?_, fun x inside p owns => ?_⟩
    · by_cases here : p = proc_sched
      · subst here
        simp [boot, Linked, seg_cons, seg_nil]
      · simp [boot, update_of_ne here, linked_none]
    · by_cases here : p = proc_sched
      · subst here
        by_cases is : x = 1 <;> simp [boot, is, proc_sched, proc_init]
      · by_cases is : x = proc_init <;> simp [boot, is, here, Ne.symm here]
    · by_cases is : x = proc_init
      · simp only [boot, is, update_self, Option.some.injEq] at owns
        simp [boot, ← owns]
      · simp [boot, is] at owns
  refine ⟨family, family, ?_, ?_, fun _ _ _ _ => .inr rfl, ?_, ?_, ?_, ?_⟩ <;> simp [boot, proc_sched, proc_init]

private theorem zero_congr (forest : Forest t procs lists)
    (fresh : cp ∉ procs) : Forest (t.zero cp) procs lists := by
  have apart : ∀ y ∈ procs, y ≠ cp := fun y member same => fresh (same ▸ member)
  refine ⟨fun p inside => ?_, fun p inside x => ?_, fun x inside p owns => ?_⟩
  · simp only [Threads.zero, update_of_ne (apart p inside)]
    exact (forest.linked p inside).update _ fun there => fresh ((forest.owned p inside cp).mp there).1
  · rw [forest.owned p inside x]
    simp only [Threads.zero, Finset.mem_coe]
    refine and_congr_right fun there => ?_
    rw [update_of_ne (apart x there)]
  · simp only [Threads.zero, update_of_ne (apart x inside)] at owns
    exact forest.home x inside p owns

theorem Valid.refused (valid : Valid k children orphans born) (fresh : cp ∉ k.s.procs) :
    Valid { k with s := newprocRefused k.s cp } children orphans born := by
  have apart : ∀ y ∈ k.s.procs, y ≠ cp := fun y member same => fresh (same ▸ member)
  have owner : ∀ (t : Threads Nat) y, y ∈ k.s.procs → (t.zero cp).owner y = t.owner y :=
    fun t y inside => update_of_ne (apart y inside) _ _
  have stat : ∀ y ∈ k.s.procs, (newprocRefused k.s cp).pStat y = k.s.pStat y := fun y inside => update_of_ne (apart y inside) _ _
  refine ⟨zero_congr valid.sibs fresh, zero_congr valid.kin fresh, fun x inside other => ?_, fun x inside other => ?_,
    fun x inside p owns => ?_, fun x inside p owns => ?_, ?_, ?_, fun pp c copies => ?_⟩
  · obtain ⟨p, owns⟩ := valid.raised x inside other
    exact ⟨p, (owner _ x inside).trans owns⟩
  · obtain ⟨p, owns⟩ := valid.related x inside other
    exact ⟨p, (owner _ x inside).trans owns⟩
  · have owns := (owner _ x inside).symm.trans owns
    rw [stat p (valid.sibs.home x inside p owns)]
    exact valid.parents x inside p owns
  · have owns := (owner _ x inside).symm.trans owns
    rw [stat p (valid.kin.home x inside p owns)]
    exact valid.relatives x inside p owns
  · exact ⟨valid.sched.1, (stat _ valid.sched.1).trans valid.sched.2⟩
  · exact ⟨valid.init.1, (owner _ _ valid.init.1).trans valid.init.2⟩
  · obtain ⟨inside, idle, other, owns⟩ := valid.forks pp c copies
    exact ⟨inside, (stat c inside).trans idle, other, (owner _ c inside).trans owns⟩

private theorem adopted (forest : Forest t procs lists)
    (inside : pp ∈ procs) (fresh : cp ∉ procs) :
    Forest ((t.zero cp).link pp cp) (insert cp procs : Finset Nat) (update (update lists cp []) pp (cp :: lists pp)) := by
  have apart : pp ≠ cp := fun same => fresh (same ▸ inside)
  have zeroed := forest.zero (x := cp) fresh
  have linked := zeroed.link (x := cp) (.inl rfl) (.inr inside) (by simp [Threads.zero])
  rw [update_of_ne apart] at linked
  rwa [Finset.coe_insert]

section
variable (valid : Valid k children orphans born)
include valid

theorem Valid.newproc (inside : pp ∈ k.s.procs) (runs : k.s.pStat pp = .SRUN) (fresh : cp ∉ k.s.procs) :
    Valid ⟨newproc k.s pp cp, update k.forking pp (some cp)⟩ (update (update children cp []) pp (cp :: children pp))
      (update (update orphans cp []) pp (cp :: orphans pp)) (update born cp (born pp + 1)) := by
  have apart : ∀ y ∈ k.s.procs, y ≠ cp := fun y member same => fresh (same ▸ member)
  have owner : ∀ (t : Threads Nat) y, y ≠ cp → ((t.zero cp).link pp cp).owner y = t.owner y := by
    intro t y other
    simp [Threads.zero, Threads.link, other]
  have own : ∀ t : Threads Nat, ((t.zero cp).link pp cp).owner cp = some pp := fun t => by simp [Threads.link]
  have stat : ∀ y ∈ k.s.procs, (ProcTree.newproc k.s pp cp).pStat y = k.s.pStat y := fun y inside => update_of_ne (apart y inside) _ _
  refine ⟨adopted valid.sibs inside fresh, adopted valid.kin inside fresh, fun x there other => ?_, fun x there other => ?_,
    fun x there p owns => ?_, fun x there p owns => ?_, ?_, ?_, fun q c copies => ?_⟩
  · by_cases new : x = cp
    · exact ⟨pp, new ▸ own _⟩
    · obtain ⟨p, owns⟩ := valid.raised x (Finset.mem_of_mem_insert_of_ne there new) other
      exact ⟨p, (owner _ x new).trans owns⟩
  · by_cases new : x = cp
    · exact ⟨pp, new ▸ own _⟩
    · obtain ⟨p, owns⟩ := valid.related x (Finset.mem_of_mem_insert_of_ne there new) other
      exact ⟨p, (owner _ x new).trans owns⟩
  · by_cases new : x = cp
    · subst new
      obtain rfl := Option.some.inj ((own _).symm.trans owns)
      exact .inr ((stat pp inside).trans runs)
    · have old := Finset.mem_of_mem_insert_of_ne there new
      have owns := (owner _ x new).symm.trans owns
      rw [stat p (valid.sibs.home x old p owns)]
      exact valid.parents x old p owns
  · by_cases new : x = cp
    · subst new
      obtain rfl := Option.some.inj ((own _).symm.trans owns)
      refine ⟨(stat pp inside).trans runs, ?_⟩
      rw [update_self, update_of_ne (apart pp inside)]
      exact Nat.lt_succ_self _
    · have old := Finset.mem_of_mem_insert_of_ne there new
      have owns := (owner _ x new).symm.trans owns
      have home := valid.kin.home x old p owns
      rw [stat p home, update_of_ne new, update_of_ne (apart p home)]
      exact valid.relatives x old p owns
  · exact ⟨Finset.mem_insert_of_mem valid.sched.1, (stat _ valid.sched.1).trans valid.sched.2⟩
  · exact ⟨Finset.mem_insert_of_mem valid.init.1, (owner _ _ (apart _ valid.init.1)).trans valid.init.2⟩
  · by_cases here : q = pp
    · subst here
      obtain rfl : cp = c := by simpa using copies
      exact ⟨Finset.mem_insert_self _ _, update_self .., fun same => fresh (same ▸ valid.init.1), own _⟩
    · simp only [update_of_ne here] at copies
      obtain ⟨old, idle, other, owns⟩ := valid.forks q c copies
      exact ⟨Finset.mem_insert_of_mem old, (stat c old).trans idle, other, (owner _ c (apart c old)).trans owns⟩

theorem Valid.copied (copies : k.forking pp = some cp) :
    Valid ⟨{ k.s with pStat := update k.s.pStat cp .SRUN }, update k.forking pp none⟩ children orphans born := by
  have runs : ∀ p, k.s.pStat p = .SRUN → update k.s.pStat cp .SRUN p = .SRUN := by
    intro p runs
    by_cases here : p = cp
    · rw [here, update_self]
    · rwa [update_of_ne here]
  refine ⟨valid.sibs, valid.kin, valid.raised, valid.related, fun x inside p owns => ?_, fun x inside p owns => ?_, ?_, valid.init,
    fun q c copies' => ?_⟩
  · exact (valid.parents x inside p owns).imp_right (runs p)
  · exact (valid.relatives x inside p owns).imp_left (runs p)
  · exact valid.sched.imp_right (runs _)
  · by_cases here : q = pp
    · simp [here] at copies'
    · simp only [update_of_ne here] at copies'
      obtain ⟨inside, idle, other, owns⟩ := valid.forks q c copies'
      have apart : c ≠ cp := by
        rintro rfl
        obtain ⟨_, _, _, owns'⟩ := valid.forks pp c copies
        exact here (Option.some.inj (owns.symm.trans owns'))
      exact ⟨inside, (update_of_ne apart _ _).trans idle, other, owns⟩

theorem Valid.removed (inside : p ∈ k.s.procs) (childless : children p = [])
    (heirless : orphans p = []) (other : p ≠ proc_init) (dead : k.s.pStat p ≠ .SRUN) (done : remove time k.s p = some s)
    (forking : Nat → Option Nat) (fewer : ∀ pp cp, forking pp = some cp → k.forking pp = some cp ∧ cp ≠ p) :
    ∃ children' orphans', Valid ⟨s, forking⟩ children' orphans' born := by
  have notSched : p ≠ proc_sched := fun same => dead (same ▸ valid.sched.2)
  obtain ⟨parent, child⟩ := valid.raised p inside notSched
  obtain ⟨nokp, orphan⟩ := valid.related p inside notSched
  simp only [remove, Option.bind_eq_bind, Option.bind_eq_some_iff, Option.some.injEq] at done
  obtain ⟨kin, unkin, sibs, unsib, rfl⟩ := done
  obtain ⟨ownersK, _, _, _, kinned⟩ := valid.kin.unlink inside orphan heirless unkin
  obtain ⟨ownersS, _, _, _, sibbed⟩ := valid.sibs.unlink inside child childless unsib
  rw [← Finset.coe_erase] at kinned sibbed
  have old : ∀ x ∈ k.s.procs.erase p, x ∈ k.s.procs := fun x => Finset.mem_of_mem_erase
  refine ⟨_, _, sibbed, kinned, fun x there other => ?_, fun x there other => ?_, fun x there q owns => ?_, fun x there q owns => ?_,
    ?_, ?_, fun pp cp copies => ?_⟩
  · rw [ownersS]
    exact valid.raised x (old x there) other
  · rw [ownersK]
    exact valid.related x (old x there) other
  · rw [ownersS] at owns
    exact valid.parents x (old x there) q owns
  · rw [ownersK] at owns
    exact valid.relatives x (old x there) q owns
  · exact ⟨Finset.mem_erase_of_ne_of_mem (Ne.symm notSched) valid.sched.1, valid.sched.2⟩
  · rw [ownersS]
    exact ⟨Finset.mem_erase_of_ne_of_mem (Ne.symm other) valid.init.1, valid.init.2⟩
  · obtain ⟨copies, apart⟩ := fewer pp cp copies
    rw [ownersS]
    obtain ⟨there, idle, notInit, owns⟩ := valid.forks pp cp copies
    exact ⟨Finset.mem_erase_of_ne_of_mem apart there, idle, notInit, owns⟩

theorem Valid.alone (inside : p ∈ k.s.procs) (other : p ≠ proc_init) (dead : k.s.pStat p ≠ .SRUN) :
    children p = [] ∧ orphans p = [] := by
  constructor
  · apply List.eq_nil_iff_forall_not_mem.mpr
    intro x member
    obtain ⟨there, owns⟩ := (valid.sibs.owned p inside x).mp member
    exact (valid.parents x there p owns).elim other dead
  · apply List.eq_nil_iff_forall_not_mem.mpr
    intro x member
    obtain ⟨there, owns⟩ := (valid.kin.owned p inside x).mp member
    exact dead (valid.relatives x there p owns).1

theorem remove_ends (inside : p ∈ k.s.procs) (other : p ≠ proc_sched) :
    ∃ time s, remove time k.s p = some s := by
  obtain ⟨parent, child⟩ := valid.raised p inside other
  obtain ⟨nokp, orphan⟩ := valid.related p inside other
  obtain ⟨kin, unkin⟩ := valid.kin.unlink_ends inside orphan (Nat.le_max_left _ (children parent).length)
  obtain ⟨sibs, unsib⟩ := valid.sibs.unlink_ends inside child (Nat.le_max_right (orphans nokp).length _)
  refine ⟨max (orphans nokp).length (children parent).length, { k.s with procs := k.s.procs.erase p, sibs := sibs, kin := kin }, ?_⟩
  simp only [remove, unkin, unsib, Option.bind_eq_bind, Option.bind_some]

end

/-- The children of a process that exits are given to init, and its orphans to its next of
kin, in front of those they have. -/
structure Handed (s s' : State) (p : Nat) (children orphans children' orphans' : Nat → List Nat) : Prop where
  toInit : children' proc_init = children p ++ children proc_init ∧ (p ≠ proc_init → children' p = [])
  toKin : ∃ nokp, s.kin.owner p = some nokp ∧ orphans' nokp = orphans p ++ orphans nokp ∧ orphans' p = [] ∧
    ∀ q, q ≠ p → q ≠ nokp → orphans' q = orphans q
  others : ∀ q, q ≠ p → q ≠ proc_init → children' q = children q
  zombie : s'.procs = s.procs ∧ s'.pStat = update s.pStat p .SZOMB

theorem giveOrphans_eq {nokp : Nat} (nextofkin : s.kin.owner p = some nokp) : giveOrphans time s p = s.kin.give time p nokp := by
  unfold giveOrphans
  split
  case isTrue none_ => simp only [Threads.give, none_]
  case isFalse => rw [nextofkin, Option.bind_some]

section
variable (valid : Valid k children orphans born)
include valid

theorem Valid.exit (enabled : Enabled k (.exit p)) (guarded : Guarded k (.exit p))
    (done : ProcTree.exit time k.s p = some s) : ∃ children' orphans', Valid { k with s := s } children' orphans' born ∧
      Handed k.s s p children orphans children' orphans' := by
  obtain ⟨inside, runs, idle, other⟩ := enabled
  obtain ⟨nokp, nextofkin⟩ := valid.related p inside other
  have home := valid.kin.home p inside nokp nextofkin
  obtain ⟨kinRuns, older⟩ := valid.relatives p inside nokp nextofkin
  have apart : p ≠ nokp := fun same => absurd older (same ▸ lt_irrefl _)
  simp only [ProcTree.exit, Option.bind_eq_bind, Option.bind_eq_some_iff, Option.some.injEq] at done
  obtain ⟨kin, given, sibs, given', rfl⟩ := done
  rw [giveOrphans_eq nextofkin] at given
  obtain ⟨ownersK, kinned⟩ := valid.kin.give inside home apart given
  obtain ⟨children', sibbed, ownersS, toInit, others⟩ : ∃ children', Forest sibs k.s.procs children' ∧
      (∀ x, sibs.owner x = if x ∈ children p then some proc_init else k.s.sibs.owner x) ∧
      (children' proc_init = children p ++ children proc_init ∧ (p ≠ proc_init → children' p = [])) ∧
      ∀ q, q ≠ p → q ≠ proc_init → children' q = children q := by
    by_cases is : p = proc_init
    · have none_ := guarded is
      have empty : children p = [] := by
        have linked := valid.sibs.linked p inside
        rw [none_] at linked
        exact linked.empty
      simp only [Threads.give, none_, Option.some.injEq] at given'
      subst given'
      refine ⟨children, valid.sibs, by simp [empty], ⟨by simp [empty], fun isnt => absurd is isnt⟩, fun _ _ _ => rfl⟩
    · obtain ⟨owners, sibbed⟩ := valid.sibs.give inside valid.init.1 is given'
      refine ⟨_, sibbed, owners, ⟨?_, fun _ => update_self ..⟩, fun q notP notInit => ?_⟩
      · rw [update_of_ne (Ne.symm is), update_self]
      · rw [update_of_ne notP, update_of_ne notInit]
  have notOwned : ∀ (t : Threads Nat) lists, Forest t k.s.procs lists → ∀ x ∈ k.s.procs, x ∉ lists p → t.owner x ≠ some p :=
    fun t lists forest x there absent owns => absent ((forest.owned p inside x).mpr ⟨there, owns⟩)
  have stat : ∀ q, q ≠ p → update k.s.pStat p Stat.SZOMB q = k.s.pStat q := fun q apart => update_of_ne apart _ _
  refine ⟨children', _, ⟨sibbed, kinned, fun x there notSched => ?_, fun x there notSched => ?_, fun x there q owns => ?_,
    fun x there q owns => ?_, ?_, ?_, fun pp cp copies => ?_⟩, toInit, ⟨nokp, nextofkin, ?_, update_self .., fun q notP notKin => ?_⟩,
    others, rfl, rfl⟩
  · rw [ownersS]
    split
    · exact ⟨_, rfl⟩
    · exact valid.raised x there notSched
  · rw [ownersK]
    split
    · exact ⟨_, rfl⟩
    · exact valid.related x there notSched
  · rw [ownersS] at owns
    split at owns
    case isTrue => exact .inl (Option.some.inj owns).symm
    case isFalse absent =>
      have notP : q ≠ p := fun same => notOwned _ _ valid.sibs x there absent (same ▸ owns)
      exact (valid.parents x there q owns).imp_right ((stat q notP).trans ·)
  · rw [ownersK] at owns
    split at owns
    case isTrue member =>
      obtain rfl := Option.some.inj owns
      have elder := (valid.relatives x there p ((valid.kin.owned p inside x).mp member).2).2
      exact ⟨(stat _ (Ne.symm apart)).trans kinRuns, older.trans elder⟩
    case isFalse absent =>
      have notP : q ≠ p := fun same => notOwned _ _ valid.kin x there absent (same ▸ owns)
      exact (valid.relatives x there q owns).imp_left ((stat q notP).trans ·)
  · exact ⟨valid.sched.1, (stat _ (Ne.symm other)).trans valid.sched.2⟩
  · refine ⟨valid.init.1, ?_⟩
    rw [ownersS, if_neg]
    · exact valid.init.2
    · intro member
      have owns := ((valid.sibs.owned p inside _).mp member).2
      rw [valid.init.2] at owns
      exact other (Option.some.inj owns).symm
  · obtain ⟨there, fresh, notInit, owns⟩ := valid.forks pp cp copies
    have notP : cp ≠ p := by
      rintro rfl
      rw [runs] at fresh
      cases fresh
    refine ⟨there, (stat cp notP).trans fresh, notInit, ?_⟩
    rw [ownersS, if_neg]
    · exact owns
    · intro member
      have owns' := ((valid.sibs.owned p inside _).mp member).2
      rw [owns] at owns'
      rw [Option.some.inj owns', idle] at copies
      cases copies
  · rw [update_of_ne (Ne.symm apart), update_self]
  · rw [update_of_ne notP, update_of_ne notKin]

theorem exit_ends (inside : p ∈ k.s.procs) (other : p ≠ proc_sched) :
    ∃ time s, ProcTree.exit time k.s p = some s := by
  obtain ⟨nokp, nextofkin⟩ := valid.related p inside other
  obtain ⟨kin, given⟩ := valid.kin.give_ends nokp inside (Nat.le_max_left _ (children p).length)
  obtain ⟨sibs, given'⟩ := valid.sibs.give_ends proc_init inside (Nat.le_max_right (orphans p).length _)
  refine ⟨max (orphans p).length (children p).length, { k.s with sibs := sibs, kin := kin, pStat := update k.s.pStat p .SZOMB }, ?_⟩
  simp only [ProcTree.exit, giveOrphans_eq nextofkin, given, given', Option.bind_eq_bind, Option.bind_some]

theorem step_valid (enabled : Enabled k event) (guarded : Guarded k event)
    (done : step time k event = some k') : ∃ children' orphans' born', Valid k' children' orphans' born' := by
  cases event with
  | newproc pp cp =>
    obtain ⟨inside, runs, _, fresh⟩ := enabled
    obtain rfl := Option.some.inj done
    exact ⟨_, _, _, valid.newproc inside runs fresh⟩
  | refused cp =>
    obtain rfl := Option.some.inj done
    exact ⟨_, _, _, valid.refused enabled⟩
  | copied pp =>
    obtain ⟨cp, copies, rfl⟩ := Option.map_eq_some_iff.mp done
    exact ⟨_, _, _, valid.copied copies⟩
  | failed pp =>
    obtain ⟨cp, copies, removes⟩ := Option.bind_eq_some_iff.mp done
    obtain ⟨s, removed, rfl⟩ := Option.map_eq_some_iff.mp removes
    obtain ⟨inside, fresh, notInit, owns⟩ := valid.forks pp cp copies
    have dead : k.s.pStat cp ≠ .SRUN := by simp [fresh]
    obtain ⟨childless, heirless⟩ := valid.alone inside notInit dead
    have fewer : ∀ q c, update k.forking pp none q = some c → k.forking q = some c ∧ c ≠ cp := by
      intro q c copies'
      by_cases here : q = pp
      · simp [here] at copies'
      · rw [update_of_ne here] at copies'
        refine ⟨copies', ?_⟩
        rintro rfl
        have owns' := (valid.forks q c copies').2.2.2
        exact here (Option.some.inj (owns'.symm.trans owns))
    obtain ⟨children', orphans', after⟩ := valid.removed inside childless heirless notInit dead removed _ fewer
    exact ⟨children', orphans', born, after⟩
  | exit p =>
    obtain ⟨s, exited, rfl⟩ := Option.map_eq_some_iff.mp done
    obtain ⟨children', orphans', after, _⟩ := valid.exit enabled guarded exited
    exact ⟨children', orphans', born, after⟩
  | freeproc p =>
    obtain ⟨s, freed, rfl⟩ := Option.map_eq_some_iff.mp done
    obtain ⟨inside, zombie, waited⟩ := enabled
    rw [freeproc, if_pos zombie] at freed
    have dead : k.s.pStat p ≠ .SRUN := by simp [zombie]
    have notInit : p ≠ proc_init := fun same => waited (same ▸ valid.init.2)
    obtain ⟨childless, heirless⟩ := valid.alone inside notInit dead
    have fewer : ∀ q c, k.forking q = some c → k.forking q = some c ∧ c ≠ p := by
      intro q c copies
      refine ⟨copies, ?_⟩
      rintro rfl
      have fresh := (valid.forks q c copies).2.1
      rw [zombie] at fresh
      cases fresh
    obtain ⟨children', orphans', after⟩ := valid.removed inside childless heirless notInit dead freed _ fewer
    exact ⟨children', orphans', born, after⟩

theorem step_ends (enabled : Enabled k event) : ∃ time k', step time k event = some k' := by
  cases event with
  | newproc pp cp => exact ⟨0, _, rfl⟩
  | refused cp => exact ⟨0, _, rfl⟩
  | copied pp =>
    obtain ⟨cp, copies⟩ := Option.ne_none_iff_exists'.mp enabled
    exact ⟨0, _, by simp only [step, copies, Option.map_some]; rfl⟩
  | failed pp =>
    obtain ⟨cp, copies⟩ := Option.ne_none_iff_exists'.mp enabled
    obtain ⟨inside, fresh, _⟩ := valid.forks pp cp copies
    have notSched : cp ≠ proc_sched := by
      rintro rfl
      rw [valid.sched.2] at fresh
      cases fresh
    obtain ⟨time, s, removed⟩ := remove_ends valid inside notSched
    exact ⟨time, _, by simp only [step, copies, Option.bind_some, newprocFailed, removed, Option.map_some]; rfl⟩
  | exit p =>
    obtain ⟨inside, _, _, notSched⟩ := enabled
    obtain ⟨time, s, exited⟩ := exit_ends valid inside notSched
    exact ⟨time, _, by simp only [step, exited, Option.map_some]; rfl⟩
  | freeproc p =>
    obtain ⟨inside, zombie, _⟩ := enabled
    have notSched : p ≠ proc_sched := by
      rintro rfl
      rw [valid.sched.2] at zombie
      cases zombie
    obtain ⟨time, s, removed⟩ := remove_ends valid inside notSched
    exact ⟨time, _, by simp only [step, freeproc, if_pos zombie, removed, Option.map_some]; rfl⟩

end

theorem Run.valid (run : Run Guarded k) : ∃ children orphans born, Valid k children orphans born := by
  induction run with
  | start => exact ⟨_, _, _, boot_valid⟩
  | step time _ may enabled done ih =>
    obtain ⟨children, orphans, born, valid⟩ := ih
    exact step_valid valid enabled may done

/-- Each process has a list that ends, and each but process 0 is on one of them, that of
its owner, which is in use. -/
structure Family (t : Threads Nat) (procs : Finset Nat) (lists : Nat → List Nat) : Prop where
  linked : ∀ p ∈ procs, Linked t.next (t.first p) (lists p) ∧ (lists p).Nodup ∧ ∀ x ∈ lists p, x ∈ procs
  placed : ∀ x ∈ procs, x ≠ proc_sched → ∃ p ∈ procs, t.owner x = some p ∧ x ∈ lists p ∧ ∀ q ∈ procs, x ∈ lists q → q = p

theorem Family.of_forest (forest : Forest t procs lists)
    (owned : ∀ x ∈ procs, x ≠ proc_sched → ∃ p, t.owner x = some p) : Family t procs lists := by
  refine ⟨fun p inside => ?_, fun x inside other => ?_⟩
  · have linked := forest.linked p inside
    exact ⟨linked, linked.nodup, fun x member => ((forest.owned p inside x).mp member).1⟩
  · obtain ⟨p, owns⟩ := owned x inside other
    have home := forest.home x inside p owns
    refine ⟨p, home, owns, (forest.owned p home x).mpr ⟨inside, owns⟩, fun q there member => ?_⟩
    have owns' := ((forest.owned q there x).mp member).2
    exact Option.some.inj (owns'.symm.trans owns)

/-- As long as init does not exit with children, every process is on one list of children
and one of orphans, no list operation goes astray, and what a process that exits had on its
lists is handed on. -/
theorem process_trees (k : System) (run : Run Guarded k) :
    (∃ children orphans, Family k.s.sibs k.s.procs children ∧ Family k.s.kin k.s.procs orphans) ∧
      (∀ event, Enabled k event → ∃ time k', step time k event = some k') ∧
      ∀ p time k', Enabled k (.exit p) → Guarded k (.exit p) → step time k (.exit p) = some k' → ∃ children orphans children' orphans',
        Family k.s.sibs k.s.procs children ∧ Family k.s.kin k.s.procs orphans ∧
        Family k'.s.sibs k'.s.procs children' ∧ Family k'.s.kin k'.s.procs orphans' ∧ Handed k.s k'.s p children orphans children' orphans' := by
  obtain ⟨children, orphans, born, valid⟩ := Run.valid run
  have before := Family.of_forest valid.sibs valid.raised
  have beforeKin := Family.of_forest valid.kin valid.related
  refine ⟨⟨children, orphans, before, beforeKin⟩, fun event enabled => step_ends valid enabled, fun p time k' enabled guarded done => ?_⟩
  obtain ⟨s, exited, rfl⟩ := Option.map_eq_some_iff.mp done
  obtain ⟨children', orphans', after, handed⟩ := valid.exit enabled guarded exited
  exact ⟨children, orphans, children', orphans', before, beforeKin, Family.of_forest after.sibs after.raised,
    Family.of_forest after.kin after.related, handed⟩

def oneChild : System := ⟨newproc boot.s proc_init 2, update boot.forking proc_init (some 2)⟩

def oneCopied : System := ⟨{ oneChild.s with pStat := update oneChild.s.pStat 2 .SRUN }, update oneChild.forking proc_init none⟩

theorem oneCopied_run (allowed : System → Event → Prop) (may : ∀ k, (∀ pp cp, allowed k (.newproc pp cp)) ∧ ∀ pp, allowed k (.copied pp)) :
    Run allowed oneCopied := by
  have forked : Run allowed oneChild := .step 0 .start ((may _).1 proc_init 2) (by simp [Enabled, boot, proc_sched, proc_init]) rfl
  exact .step 0 forked ((may _).2 proc_init) (by simp [Enabled, oneChild]) rfl

theorem process_trees_one_child : ∃ children orphans, Family oneCopied.s.sibs oneCopied.s.procs children ∧
    Family oneCopied.s.kin oneCopied.s.procs orphans :=
  (process_trees oneCopied (oneCopied_run Guarded fun _ => ⟨fun _ _ => trivial, fun _ => trivial⟩)).1

/-- Init exits: its child has init for a parent, and is on no list. -/
theorem init_exits_with_child : ∃ k, Run (fun _ _ => True) k ∧ 2 ∈ k.s.procs ∧ k.s.sibs.owner 2 = some proc_init ∧
    k.s.sibs.first proc_init = none ∧ ¬ ∃ children, Family k.s.sibs k.s.procs children := by
  obtain ⟨s, exited⟩ : ∃ s, ProcTree.exit 2 oneCopied.s proc_init = some s := ⟨_, rfl⟩
  have enabled : Enabled oneCopied (.exit proc_init) := by
    simp [Enabled, oneCopied, oneChild, newproc, boot, proc_init, proc_sched]
  have run : Run (fun _ _ => True) { oneCopied with s := s } := by
    apply Run.step 2 (oneCopied_run _ fun _ => ⟨fun _ _ => trivial, fun _ => trivial⟩) trivial enabled
    simp [step, exited]
  refine ⟨_, run, ?_⟩
  obtain rfl := Option.some.inj exited
  have owner : (2 : Nat) ∈ oneCopied.s.procs := by decide
  refine ⟨owner, rfl, rfl, ?_⟩
  rintro ⟨children, family⟩
  obtain ⟨p, inside, owns, member, _⟩ := family.placed 2 owner (by decide)
  obtain rfl : proc_init = p := Option.some.inj owns
  have linked := (family.linked _ inside).1
  rw [Linked.empty linked] at member
  cases member

end Svr4.Proofs.ProcTrees
