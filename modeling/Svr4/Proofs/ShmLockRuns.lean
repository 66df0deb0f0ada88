import Svr4.Proofs.ShmLocks

/-! Runs with the locks of others. A segment has one lock on each of its pages while `shm_lkcnt` is not zero, as long
as no SHM_LOCK fails, no segment goes and no header is removed where this would take another's lock or leave one. -/

namespace Svr4.Proofs.ShmLockRuns
open Function PageLock ShmLock ShmPages ShmLocks

/-- A segment, and the locks that have been set on its pages in other ways than through mappings of the whole of it. -/
structure World (n : Nat) (Proc : Type) where
  s : ShmLock.State n Proc
  outside : Fin n → Nat

/-- The calls about the segment, those of the holders of other locks, and what happens to the pages around them. -/
inductive Op (n : Nat) (Proc : Type)
  | lock (p : Proc) (suser : Bool) (e : Around n)
  | unlock (suser : Bool)
  | rmid (owner : Bool)
  | attach (p : Proc) (e : Around n)
  | detach (k : Nat)
  | ctl (k : Nat) (func : MC) (fails : Fin n → Bool)
  | take (i : Fin n)
  | drop (i : Fin n)
  | pagein (i : Fin n)
  | pageout (i : Fin n)
  | around (mem : PageLock.State (Fin n))

variable {n : Nat} {Proc : Type} [DecidableEq Proc]

/-- The calls that are only about the segment's own locks. -/
def Op.own : Op n Proc → Bool
  | .lock .. => true
  | .unlock _ => true
  | .rmid _ => true
  | _ => false

def perform (w : World n Proc) : Op n Proc → Except Panic (Option Errno × World n Proc)
  | .lock p suser e => (shmctl_lock w.s p suser e).map fun r => (r.1, { w with s := r.2 })
  | .unlock suser => (shmctl_unlock w.s suser).map fun r => (r.1, { w with s := r.2 })
  | .rmid owner => (shmctl_rmid w.s owner).map fun r => (r.1, { w with s := r.2 })
  | .attach p e => .ok ((shmat w.s p e).1, { w with s := (shmat w.s p e).2 })
  | .detach k => (kshmdt w.s k).map fun s => (none, { w with s := s })
  | .ctl k func fails => .ok ((as_ctl w.s k func fails).1, { w with s := (as_ctl w.s k func fails).2 })
  | .take i =>
    let (locked, mem) := page_pp_lock w.s.pages.mem i false false
    .ok (none, ⟨{ w.s with pages := { w.s.pages with mem := mem } }, if locked then update w.outside i (w.outside i + 1) else w.outside⟩)
  | .drop i =>
    .ok (none, ⟨{ w.s with pages := { w.s.pages with mem := page_pp_unlock w.s.pages.mem i false false } }, update w.outside i (w.outside i - 1)⟩)
  | .pagein i => .ok (none, { w with s := { w.s with pages := segvn_fault w.s.pages i } })
  | .pageout i => .ok (none, { w with s := { w.s with pages := { w.s.pages with core := update w.s.pages.core i false } } })
  | .around mem => .ok (none, { w with s := { w.s with pages := { w.s.pages with mem := mem } } })

/-- A segment is attached while it has its header, a page that is locked is there and stays, and who unlocks has a lock. -/
def Enabled (w : World n Proc) : Op n Proc → Prop
  | .attach _ _ => w.s.shm_amp = true
  | .detach k => k < w.s.segs.length
  | .ctl k _ _ => k < w.s.segs.length
  | .take i => Here w.s.pages i
  | .drop i => 0 < w.outside i
  | .pagein _ => w.s.shm_amp = true ∨ w.s.segs ≠ []
  | .pageout i => lckcnt w.s.pages i = 0
  | .around mem => ∀ i, (mem.pages i).p_lckcnt = lckcnt w.s.pages i
  | _ => True

/-- The locks that others than the segment have on a page. -/
def others (w : World n Proc) (i : Fin n) : Nat := w.outside i + mapped w.s i

/-- The locks that `shm_lock` sets on a page, one of them for the time of the call where no mapping is locked. -/
def locks_set (s : ShmLock.State n Proc) (p : Proc) : Nat :=
  match attached s p with
  | some k => if (s.segs[k]?.bind fun m => m.vpage).isSome then 1 else 2
  | none => 2

def Enough (s : ShmLock.State n Proc) (p : Proc) (e : Around n) : Prop :=
  match attached s p with
  | some k => (s.segs[k]?.bind fun m => m.vpage).isSome ∨ (∀ i, e.fails i = false) ∧ Affordable s
  | none => e.no_addr = false ∧ e.no_map = none ∧ (∀ i, e.fails i = false) ∧ Affordable s

/-- The steps that keep the locks apart. No count goes beyond its maximum. Nobody else has a lock on a page when a
SHM_LOCK fails or the segment goes, and a header is not removed from a locked segment that is attached. -/
def Meets (w : World n Proc) : Op n Proc → Prop
  | .lock p suser e => w.s.shm_amp = true → suser = true →
      if w.s.shm_lkcnt = 0 then (∀ i, lckcnt w.s.pages i + locks_set w.s p ≤ 65535) ∧ (Enough w.s p e ∨ ∀ i, others w i = 0)
      else w.s.shm_lkcnt < 65535
  | .rmid owner => w.s.shm_amp = true → owner = true → if w.s.segs = [] then ∀ i, w.outside i = 0 else w.s.shm_lkcnt = 0
  | .attach p _ => w.s.a_paglck p = true → ∀ i, lckcnt w.s.pages i < 65535
  | .detach _ => w.s.shm_amp = false → w.s.segs.length = 1 → ∀ i, w.outside i = 0
  | .ctl k func _ => func = .MC_LOCK → ∀ m, w.s.segs[k]? = some m → ∀ i, pplock i m = false → lckcnt w.s.pages i < 65535
  | .take i => lckcnt w.s.pages i < 65535
  | _ => True

/-- From a segment that has been got. With `careful` every step meets its condition. -/
inductive Run (careful : Bool) : World n Proc → Prop
  | start {w : World n Proc} (lckcnt : ∀ i, lckcnt w.s.pages i = 0) (outside : ∀ i, w.outside i = 0) (refcnt : w.s.refcnt = 2)
      (shm_amp : w.s.shm_amp = true) (shm_lkcnt : w.s.shm_lkcnt = 0) (segs : w.s.segs = []) : Run careful w
  | step {w t : World n Proc} {op : Op n Proc} {error : Option Errno} (run : Run careful w) (enabled : Enabled w op)
      (met : careful = true → Meets w op) (call : perform w op = .ok (error, t)) : Run careful t

/-- The segment has one lock on each page while it is locked, and none otherwise. -/
def Balanced (w : World n Proc) : Prop := ∀ i, lckcnt w.s.pages i = others w i + if 0 < w.s.shm_lkcnt then 1 else 0

structure Kept (w : World n Proc) : Prop where
  level : Level w.s fun i => w.outside i + if 0 < w.s.shm_lkcnt then 1 else 0
  ushort : w.s.shm_lkcnt ≤ 65535
  refcnt : w.s.refcnt = (if w.s.shm_amp then 2 else 1) + 2 * w.s.segs.length
  removed : w.s.shm_amp = false → w.s.shm_lkcnt = 0

variable {w : World n Proc} {p : Proc} {e : Around n} {excess : Fin n → Nat}

omit [DecidableEq Proc] in
theorem Kept.balanced (kept : Kept w) : Balanced w := by
  intro i
  have := kept.level.counts i
  unfold others
  omega

structure Sound (w : World n Proc) (op : Op n Proc) (error : Option Errno) (t : World n Proc) : Prop where
  kept : Kept t
  outside : (∀ i, op ≠ .drop i) → ∀ i, w.outside i ≤ t.outside i
  mapped : op.own = true → ∀ i, mapped t.s i = mapped w.s i
  failed : ∀ p suser e, op = .lock p suser e → error ≠ none → ∀ i, lckcnt t.s.pages i = lckcnt w.s.pages i

theorem attached_at {s : ShmLock.State n Proc} {k : Nat} (found : attached s p = some k) :
    ∃ a m b, s.segs = a ++ m :: b ∧ a.length = k ∧ check_locked m.vpage ≠ 1 := by
  obtain ⟨few, holds, -⟩ := List.findIdx?_eq_some_iff_getElem.mp found
  obtain ⟨a, m, b, at_, length, here⟩ := split_at few
  rw [here] at holds
  exact ⟨a, m, b, at_, length, by simpa using (of_decide_eq_true (by simpa using holds) : m.proc = p ∧ _).2⟩

theorem shm_lock_levels {s : ShmLock.State n Proc} (e : Around n) (level : Level s excess) (few : ∀ i, lckcnt s.pages i + locks_set s p ≤ 65535) :
    ∃ error t, shm_lock s p e = .ok (error, t) ∧ Same s t ∧ Level t (fun i => excess i + if error = none then 1 else 0) ∧
      (Enough s p e → error = none) := by
  unfold shm_lock Enough
  unfold locks_set at few
  cases found : attached s p with
  | none =>
    simp only [found] at few
    obtain ⟨error, t, run, same, locked, succeeds⟩ := lock_mapped (e := e) level few
    exact ⟨error, t, run, same, locked, fun ⟨no_addr, no_map, faults, enough⟩ => succeeds no_addr no_map faults enough⟩
  | some k =>
    simp only [found] at few
    obtain ⟨a, m, b, at_, rfl, whole⟩ := attached_at found
    have here : (s.segs[a.length]?.bind fun m => m.vpage) = m.vpage := by simp [at_]
    simp only [here] at few ⊢
    cases vpage : m.vpage with
    | none =>
      obtain ⟨error, t, run, same, locked, succeeds⟩ := lock_attached e.fails level at_ vpage (by simpa [vpage] using few)
      exact ⟨error, t, run, same, locked, by rintro (⟨⟨⟩⟩ | ⟨faults, enough⟩); exact succeeds faults enough⟩
    | some vpp =>
      have all : ∀ i, vpp i = true := by
        rw [vpage, check_locked] at whole
        split_ifs at whole with all
        · exact fun i => List.all_eq_true.mp all i (List.mem_finRange i)
        · exact absurd rfl whole
      obtain ⟨t, run, same, locked⟩ := lock_attached_locked e.fails level at_ vpage all (by simpa [vpage] using few)
      exact ⟨none, t, run, same, by simpa using locked, fun _ => rfl⟩

theorem Enough.of_lkcnt {s : ShmLock.State n Proc} {c : Nat} (enough : Enough s p e) : Enough { s with shm_lkcnt := c } p e := enough

omit [DecidableEq Proc] in
theorem Kept.unchanged (kept : Kept w) (op : Op n Proc) (error : Option Errno) : Sound w op error w :=
  ⟨kept, fun _ _ => le_rfl, fun _ _ => rfl, fun _ _ _ _ _ _ => rfl⟩

theorem Kept.lock (kept : Kept w) (p : Proc) (suser : Bool) (e : Around n) (met : Meets w (.lock p suser e)) :
    ∃ error t, shmctl_lock w.s p suser e = .ok (error, t) ∧ Sound w (.lock p suser e) error { w with s := t } := by
  obtain ⟨level, ushort, refcnt, removed⟩ := kept
  have kept : Kept w := ⟨level, ushort, refcnt, removed⟩
  unfold shmctl_lock
  by_cases shm_amp : w.s.shm_amp = true
  swap
  · exact ⟨some .EINVAL, w.s, by simp [shm_amp], kept.unchanged ..⟩
  by_cases root : suser = true
  swap
  · exact ⟨some .EPERM, w.s, by simp [shm_amp, root], kept.unchanged ..⟩
  have met := met shm_amp root
  rw [if_neg (by simp [shm_amp]), if_neg (by simp [root])]
  by_cases first : w.s.shm_lkcnt = 0
  · rw [if_pos first] at met
    obtain ⟨few, enough⟩ := met
    have begun : Level { w.s with shm_lkcnt := 1 } w.outside := by
      refine Level.of_segs (s := w.s) ?_ rfl fun _ => rfl
      simpa [first] using level
    obtain ⟨error, t, run, same, locked, succeeds⟩ := shm_lock_levels e begun few
    dsimp only
    rw [if_pos first, first, show increment 0 = 1 from rfl, run]
    cases error with
    | none =>
      refine ⟨none, t, rfl, ⟨?_, ?_, ?_, ?_⟩, fun _ _ => le_rfl, fun _ => same.mapped, fun _ _ _ _ failed => absurd rfl failed⟩
      · rw [show t.shm_lkcnt = 1 from same.shm_lkcnt]
        exact locked
      · rw [show t.shm_lkcnt = 1 from same.shm_lkcnt]
        decide
      · rw [same.shm_amp, same.refcnt, same.length]
        exact refcnt
      · intro gone
        exact absurd (gone.symm.trans (same.shm_amp.trans shm_amp)) (by decide)
    | some error =>
      -- A call that fails takes a lock from every page: there must be none.
      have none_ : ∀ i, w.outside i + mapped w.s i = 0 := by
        rcases enough with enough | none_
        · exact absurd (succeeds enough.of_lkcnt) (by simp)
        · exact none_
      have zero' : decrement t.shm_lkcnt = 0 := by
        rw [show t.shm_lkcnt = 1 from same.shm_lkcnt]
        rfl
      have free : Level { t with shm_lkcnt := 0 } w.outside := by
        refine Level.of_segs (s := t) ?_ rfl fun _ => rfl
        simpa using locked
      have zero : ∀ i, lckcnt t.pages i = 0 := by
        intro i
        have counts : lckcnt t.pages i = w.outside i + mapped t i := free.counts i
        have : mapped t i = mapped w.s i := same.mapped i
        have := none_ i
        omega
      obtain ⟨pages, run', unlocked⟩ := unlock_nothing free zero
      refine ⟨some .ENOMEM, { t with shm_lkcnt := 0, pages := pages }, ?_, ⟨unlocked, Nat.zero_le _, ?_, ?_⟩, fun _ _ => le_rfl, fun _ => same.mapped, ?_⟩
      · simp only [bind, Except.bind, reduceCtorEq, if_false, zero', run']
        rfl
      · exact (same.refcnt.trans refcnt).trans (by rw [same.shm_amp, same.length])
      · intro gone
        exact absurd (gone.symm.trans (same.shm_amp.trans shm_amp)) (by decide)
      · intro _ _ _ _ _ i
        have counts : lckcnt pages i = w.outside i + mapped t i := unlocked.counts i
        have before := level.counts i
        rw [first] at before
        have : mapped t i = mapped w.s i := same.mapped i
        show lckcnt pages i = lckcnt w.s.pages i
        simp only [lt_irrefl, if_false] at before
        omega
  · rw [if_neg first] at met
    have more : increment w.s.shm_lkcnt = w.s.shm_lkcnt + 1 := by
      unfold increment
      omega
    dsimp only
    rw [if_neg first, more]
    refine ⟨none, { w.s with shm_lkcnt := w.s.shm_lkcnt + 1 }, rfl, ⟨?_, met, refcnt, ?_⟩, fun _ _ => le_rfl, fun _ _ => rfl, fun _ _ _ _ _ _ => rfl⟩
    · refine Level.of_segs (s := w.s) ?_ rfl fun _ => rfl
      simpa [Nat.pos_of_ne_zero first] using level
    · intro gone
      exact absurd (gone.symm.trans shm_amp) (by decide)

omit [DecidableEq Proc] in
theorem Kept.unlock (kept : Kept w) (suser : Bool) :
    ∃ error t, shmctl_unlock w.s suser = .ok (error, t) ∧ Sound w (.unlock suser) error { w with s := t } := by
  obtain ⟨level, ushort, refcnt, removed⟩ := kept
  have kept : Kept w := ⟨level, ushort, refcnt, removed⟩
  unfold shmctl_unlock
  by_cases shm_amp : w.s.shm_amp = true
  swap
  · exact ⟨some .EINVAL, w.s, by simp [shm_amp], kept.unchanged ..⟩
  by_cases root : suser = true
  swap
  · exact ⟨some .EPERM, w.s, by simp [shm_amp, root], kept.unchanged ..⟩
  rw [if_neg (by simp [shm_amp]), if_neg (by simp [root])]
  by_cases none_ : w.s.shm_lkcnt = 0
  · exact ⟨none, w.s, by rw [if_pos none_], kept.unchanged ..⟩
  rw [if_neg none_]
  have less : decrement w.s.shm_lkcnt = w.s.shm_lkcnt - 1 := by
    unfold decrement
    omega
  have alive : w.s.shm_amp = false → ∀ c, c = 0 := fun gone => absurd (gone.symm.trans shm_amp) (by decide)
  dsimp only
  rw [less]
  by_cases last : w.s.shm_lkcnt - 1 = 0
  · have locked : Level { w.s with shm_lkcnt := 0 } fun i => w.outside i + 1 := by
      refine Level.of_segs (s := w.s) ?_ rfl fun _ => rfl
      simpa [Nat.pos_of_ne_zero none_] using level
    obtain ⟨pages, run, unlocked⟩ := unlock_levels true locked
    rw [if_pos last, last, run]
    exact ⟨none, _, rfl, ⟨unlocked, Nat.zero_le _, refcnt, fun gone => alive gone _⟩, fun _ _ => le_rfl, fun _ _ => rfl, nofun⟩
  · rw [if_neg last]
    refine ⟨none, _, rfl, ⟨?_, (Nat.sub_le ..).trans ushort, refcnt, fun gone => alive gone _⟩, fun _ _ => le_rfl, fun _ _ => rfl, nofun⟩
    refine Level.of_segs (s := w.s) ?_ rfl fun _ => rfl
    simpa [Nat.pos_of_ne_zero none_, Nat.pos_of_ne_zero last] using level

omit [DecidableEq Proc] in
theorem rm_levels {s : ShmLock.State n Proc} {lck : Bool} (level : Level s fun _ => if lck then 1 else 0) (detached : s.segs = []) :
    ∃ pages, shm_rm_amp s lck = .ok { s with pages := pages } ∧ ∀ i, lckcnt pages i = 0 := by
  have no_maps : ∀ i, mapped s i = 0 := fun i => by rw [mapped, detached]; rfl
  obtain ⟨pages, run, zero⟩ : ∃ pages, shm_unlock s lck = .ok { s with pages := pages } ∧ ∀ i, lckcnt pages i = 0 := by
    cases lck with
    | true =>
      obtain ⟨pages, run, unlocked⟩ := unlock_levels true (show Level s fun _ => 0 + 1 from level)
      exact ⟨pages, run, fun i => (unlocked.counts i).trans ((Nat.zero_add _).trans (no_maps i))⟩
    | false =>
      have zero : ∀ i, lckcnt s.pages i = 0 := fun i => (level.counts i).trans ((Nat.zero_add _).trans (no_maps i))
      obtain ⟨pages, run, unlocked⟩ := unlock_nothing level zero
      exact ⟨pages, run, fun i => (unlocked.counts i).trans ((Nat.zero_add _).trans (no_maps i))⟩
  exact ⟨anon_free (List.finRange n) pages, by rw [shm_rm_amp, run]; rfl, anon_free_counts zero⟩

omit [DecidableEq Proc] in
theorem Level.nothing {s : ShmLock.State n Proc} (zero : ∀ i, lckcnt s.pages i = 0) (detached : s.segs = []) : Level s fun _ => 0 :=
  ⟨fun i => by rw [zero, mapped, detached]; rfl, fun i some_ => absurd (zero i) some_, fun i => by rw [zero]; exact Nat.zero_le _⟩

theorem Kept.rmid (kept : Kept w) (owner : Bool) (met : Meets w (.rmid owner)) :
    ∃ error t, shmctl_rmid w.s owner = .ok (error, t) ∧ Sound w (.rmid owner) error { w with s := t } := by
  obtain ⟨level, ushort, refcnt, removed⟩ := kept
  have kept : Kept w := ⟨level, ushort, refcnt, removed⟩
  unfold shmctl_rmid
  by_cases shm_amp : w.s.shm_amp = true
  swap
  · exact ⟨some .EINVAL, w.s, by simp [shm_amp], kept.unchanged ..⟩
  by_cases owns : owner = true
  swap
  · exact ⟨some .EPERM, w.s, by simp [shm_amp, owns], kept.unchanged ..⟩
  have met := met shm_amp owns
  rw [if_neg (by simp [shm_amp]), if_neg (by simp [owns])]
  rw [if_pos shm_amp] at refcnt
  dsimp only
  by_cases detached : w.s.segs = []
  · rw [if_pos detached] at met
    have alone : w.s.refcnt - 1 = 1 := by rw [refcnt, detached]; rfl
    have own : Level { w.s with refcnt := w.s.refcnt - 1 } fun _ => if decide (w.s.shm_lkcnt ≠ 0) = true then 1 else 0 := by
      refine Level.of_segs (s := w.s) ?_ rfl fun _ => rfl
      simpa [met, Nat.pos_iff_ne_zero] using level
    obtain ⟨pages, run, zero⟩ := rm_levels own detached
    rw [if_pos alone, run]
    refine ⟨none, { w.s with pages := pages, refcnt := w.s.refcnt - 1, shm_lkcnt := 0, shm_amp := false }, rfl, ⟨?_, Nat.zero_le _, ?_, fun _ => rfl⟩,
      fun _ _ => le_rfl, fun _ _ => rfl, nofun⟩
    · have gone := Level.nothing (s := { w.s with pages := pages, refcnt := w.s.refcnt - 1, shm_lkcnt := 0, shm_amp := false }) zero detached
      simpa [met] using gone
    · show w.s.refcnt - 1 = 1 + 2 * w.s.segs.length
      rw [alone, detached]
      rfl
  · rw [if_neg detached] at met
    have some_ : 0 < w.s.segs.length := List.length_pos_iff.mpr detached
    rw [if_neg (by omega)]
    refine ⟨none, { w.s with refcnt := w.s.refcnt - 1, shm_lkcnt := 0, shm_amp := false }, rfl, ⟨?_, Nat.zero_le _, ?_, fun _ => rfl⟩, fun _ _ => le_rfl,
      fun _ _ => rfl, nofun⟩
    · refine Level.of_segs (s := w.s) ?_ rfl fun _ => rfl
      simpa [met] using level
    · show w.s.refcnt - 1 = 1 + 2 * w.s.segs.length
      omega

theorem Kept.attach (kept : Kept w) (p : Proc) (e : Around n) (met : Meets w (.attach p e)) :
    Sound w (.attach p e) (shmat w.s p e).1 { w with s := (shmat w.s p e).2 } := by
  obtain ⟨level, ushort, refcnt, removed⟩ := kept
  unfold shmat
  rcases map_levels (e := e) level met with ⟨error, pages, run, failed, -⟩ | ⟨vpage, pages, run, done, -, -⟩
  · rw [run]
    exact ⟨⟨failed, ushort, refcnt, removed⟩, fun _ _ => le_rfl, nofun, nofun⟩
  · rw [run]
    refine ⟨⟨done.of_segs rfl fun _ => rfl, ushort, ?_, removed⟩, fun _ _ => le_rfl, nofun, nofun⟩
    · have length : (w.s.segs.take e.place ++ w.s.segs.drop e.place).length = w.s.segs.length := by rw [List.take_append_drop]
      show w.s.refcnt + 1 + 1 = (if w.s.shm_amp then 2 else 1) + 2 * (w.s.segs.take e.place ++ ⟨p, vpage⟩ :: w.s.segs.drop e.place).length
      rw [List.length_append] at length ⊢
      rw [List.length_cons]
      omega

theorem Kept.detach (kept : Kept w) (k : Nat) (enabled : Enabled w (.detach k)) (met : Meets w (.detach k)) :
    ∃ t, kshmdt w.s k = .ok t ∧ Sound w (.detach k) none { w with s := t } := by
  obtain ⟨level, ushort, refcnt, removed⟩ := kept
  obtain ⟨a, m, b, at_, rfl, -⟩ := split_at enabled
  obtain ⟨pages, run, unmapped⟩ := unmap_levels level at_
  have length : w.s.segs.length = (a ++ b).length + 1 := by
    rw [at_, List.length_append, List.length_append, List.length_cons]
    omega
  unfold kshmdt
  rw [run]
  dsimp only
  by_cases last : w.s.refcnt - 1 - 1 = 1
  · have gone : w.s.shm_amp = false := by
      rw [← Bool.not_eq_true]
      intro shm_amp
      rw [if_pos shm_amp] at refcnt
      omega
    rw [gone, if_neg (by decide)] at refcnt
    have detached : a ++ b = [] := List.eq_nil_of_length_eq_zero (by omega)
    have met := met gone (by omega)
    have none_ := removed gone
    have own : Level { w.s with pages := pages, segs := a ++ b, refcnt := w.s.refcnt - 1 - 1 } fun _ => if false = true then 1 else 0 := by
      refine unmapped.of_segs (t := { w.s with pages := pages, segs := a ++ b, refcnt := w.s.refcnt - 1 - 1 }) rfl (fun _ => rfl) |> fun level => ?_
      simpa [met, none_] using level
    obtain ⟨pages', run', zero⟩ := rm_levels own detached
    rw [if_pos last, run']
    refine ⟨_, rfl, ⟨?_, ushort, ?_, removed⟩, fun _ _ => le_rfl, nofun, nofun⟩
    · have gone_ := Level.nothing (s := { w.s with pages := pages', segs := a ++ b, refcnt := w.s.refcnt - 1 - 1 }) zero detached
      simpa [met, none_] using gone_
    · show w.s.refcnt - 1 - 1 = (if w.s.shm_amp then 2 else 1) + 2 * (a ++ b).length
      rw [last, detached, gone]
      rfl
  · rw [if_neg last]
    refine ⟨_, rfl, ⟨unmapped.of_segs rfl fun _ => rfl, ushort, ?_, removed⟩, fun _ _ => le_rfl, nofun, nofun⟩
    show w.s.refcnt - 1 - 1 = (if w.s.shm_amp then 2 else 1) + 2 * (a ++ b).length
    omega

theorem Kept.ctl (kept : Kept w) (k : Nat) (func : MC) (fails : Fin n → Bool) (enabled : Enabled w (.ctl k func fails))
    (met : Meets w (.ctl k func fails)) :
    Sound w (.ctl k func fails) (as_ctl w.s k func fails).1 { w with s := (as_ctl w.s k func fails).2 } := by
  obtain ⟨level, ushort, refcnt, removed⟩ := kept
  obtain ⟨a, m, b, at_, rfl, -⟩ := split_at enabled
  have length : ∀ vpage, (a ++ { m with vpage := vpage } :: b).length = w.s.segs.length := fun vpage => by rw [at_]; simp
  cases func with
  | MC_LOCK =>
    obtain ⟨error, vpp, pages, run, locked, -⟩ := ctl_locks fails level at_ (met rfl m (by simp [at_]))
    rw [run]
    exact ⟨⟨locked, ushort, by simpa only [length] using refcnt, removed⟩, fun _ _ => le_rfl, nofun, nofun⟩
  | MC_UNLOCK =>
    obtain ⟨vpage, pages, run, unlocked, -⟩ := ctl_unlocks fails level at_
    rw [run]
    exact ⟨⟨unlocked, ushort, by simpa only [length] using refcnt, removed⟩, fun _ _ => le_rfl, nofun, nofun⟩

omit [DecidableEq Proc] in
theorem Kept.pages (kept : Kept w) {pages : Pages n} {outside : Fin n → Nat}
    (counts : ∀ i, lckcnt pages i + w.outside i = lckcnt w.s.pages i + outside i)
    (here : ∀ i, lckcnt pages i ≠ 0 → Here pages i) (small : ∀ i, lckcnt pages i ≤ 65535) :
    Kept (⟨{ w.s with pages := pages }, outside⟩ : World n Proc) := by
  obtain ⟨level, ushort, refcnt, removed⟩ := kept
  refine ⟨⟨?_, here, small⟩, ushort, refcnt, removed⟩
  intro i
  have before := level.counts i
  have := counts i
  show lckcnt pages i = outside i + (if 0 < w.s.shm_lkcnt then 1 else 0) + mapped w.s i
  omega

theorem Kept.take (kept : Kept w) (i : Fin n) (enabled : Enabled w (.take i)) (met : Meets w (.take i)) :
    ∃ error t, perform w (.take i) = .ok (error, t) ∧ Sound w (.take i) error t := by
  have counted := lock_counts met
  unfold perform
  dsimp only
  generalize page_pp_lock w.s.pages.mem i false false = r at counted ⊢
  obtain ⟨locked, mem⟩ := r
  have counted : ∀ j, lckcnt { w.s.pages with mem := mem } j = lckcnt w.s.pages j + if j = i ∧ locked = true then 1 else 0 := counted
  refine ⟨none, _, rfl, kept.pages ?_ ?_ ?_, ?_, nofun, nofun⟩
  · intro j
    rw [counted]
    by_cases same : j = i <;> cases locked <;> simp [same]
    omega
  · intro j some_
    by_cases same : j = i
    · exact same ▸ enabled
    · rw [counted, if_neg fun both => same both.1] at some_
      exact kept.level.here j some_
  · intro j
    rw [counted]
    split_ifs with taken
    · exact taken.1 ▸ met
    · exact kept.level.small j
  · intro _ j
    show w.outside j ≤ (if locked = true then update w.outside i (w.outside i + 1) else w.outside) j
    split_ifs
    · by_cases same : j = i <;> simp [same]
    · rfl

theorem Kept.drop (kept : Kept w) (i : Fin n) (enabled : Enabled w (.drop i)) :
    ∃ error t, perform w (.drop i) = .ok (error, t) ∧ Sound w (.drop i) error t := by
  have held : 0 < w.outside i := enabled
  have level := kept.level.counts i
  have some_ : lckcnt w.s.pages i ≠ 0 := by omega
  have counted : ∀ j, lckcnt { w.s.pages with mem := page_pp_unlock w.s.pages.mem i false false } j = lckcnt w.s.pages j - if j = i then 1 else 0 :=
    unlock_counts some_ (kept.level.small i)
  refine ⟨none, _, rfl, kept.pages ?_ ?_ ?_, fun other => absurd rfl (other i), nofun, nofun⟩
  · intro j
    rw [counted]
    by_cases same : j = i
    · subst same
      rw [if_pos rfl, update_self]
      omega
    · simp [same]
  · intro j some_
    rw [counted] at some_
    exact kept.level.here j fun zero => some_ (by rw [zero, Nat.zero_sub])
  · intro j
    rw [counted]
    exact (Nat.sub_le ..).trans (kept.level.small j)

theorem Kept.sound (kept : Kept w) (op : Op n Proc) (enabled : Enabled w op) (met : Meets w op) :
    ∃ error t, perform w op = .ok (error, t) ∧ Sound w op error t := by
  have still : ∀ i, lckcnt w.s.pages i + w.outside i = lckcnt w.s.pages i + w.outside i := fun _ => rfl
  cases op with
  | lock p suser e =>
    obtain ⟨error, t, run, sound⟩ := kept.lock p suser e met
    exact ⟨error, _, by rw [perform, run]; rfl, sound⟩
  | unlock suser =>
    obtain ⟨error, t, run, sound⟩ := kept.unlock suser
    exact ⟨error, _, by rw [perform, run]; rfl, sound⟩
  | rmid owner =>
    obtain ⟨error, t, run, sound⟩ := kept.rmid owner met
    exact ⟨error, _, by rw [perform, run]; rfl, sound⟩
  | attach p e => exact ⟨_, _, rfl, kept.attach p e met⟩
  | detach k =>
    obtain ⟨t, run, sound⟩ := kept.detach k enabled met
    exact ⟨none, _, by rw [perform, run]; rfl, sound⟩
  | ctl k func fails => exact ⟨_, _, rfl, kept.ctl k func fails enabled met⟩
  | take i => exact kept.take i enabled met
  | drop i => exact kept.drop i enabled
  | pagein i => exact ⟨none, _, rfl, kept.pages still (fun j some_ => (kept.level.here j some_).fault i) kept.level.small,
    fun _ _ => le_rfl, nofun, nofun⟩
  | pageout i =>
    refine ⟨none, _, rfl, kept.pages still ?_ kept.level.small, fun _ _ => le_rfl, nofun, nofun⟩
    intro j some_
    have other : j ≠ i := fun same => some_ (same ▸ enabled)
    exact ⟨(kept.level.here j some_).1, (update_of_ne other ..).trans (kept.level.here j some_).2⟩
  | around mem =>
    have same : ∀ i, lckcnt { w.s.pages with mem := mem } i = lckcnt w.s.pages i := enabled
    refine ⟨none, _, rfl, kept.pages (fun i => by rw [same]) ?_ ?_, fun _ _ => le_rfl, nofun, nofun⟩
    · intro i some_
      exact kept.level.here i (same i ▸ some_)
    · intro i
      rw [same]
      exact kept.level.small i

theorem Run.kept (run : Run true w) : Kept w := by
  induction run with
  | start lckcnt outside refcnt shm_amp shm_lkcnt segs =>
    refine ⟨⟨?_, fun i some_ => absurd (lckcnt i) some_, fun i => by rw [lckcnt]; exact Nat.zero_le _⟩, by rw [shm_lkcnt]; exact Nat.zero_le _, ?_, ?_⟩
    · intro i
      rw [lckcnt, outside, shm_lkcnt, mapped, segs]
      rfl
    · rw [refcnt, shm_amp, segs]
      rfl
    · exact fun _ => shm_lkcnt
  | step run enabled met call ih =>
    obtain ⟨error', t', call', sound⟩ := ih.sound _ enabled (met rfl)
    obtain ⟨-, rfl⟩ := Prod.mk.inj (Except.ok.inj (call'.symm.trans call))
    exact sound.kept

/-- Where every step meets its condition, the segment has one lock on each of its pages while `shm_lkcnt` is not zero
and none otherwise. No call takes another's lock, none stops the system, and a SHM_LOCK that fails leaves every count. -/
theorem locks_balance (run : Run true w) :
    Balanced w ∧ ∀ op, Enabled w op → Meets w op → ∃ error t, perform w op = .ok (error, t) ∧ Balanced t ∧
      ((∀ i, op ≠ .drop i) → ∀ i, w.outside i ≤ t.outside i) ∧ (op.own = true → ∀ i, mapped t.s i = mapped w.s i) ∧
      ∀ p suser e, op = .lock p suser e → error ≠ none → ∀ i, lckcnt t.s.pages i = lckcnt w.s.pages i := by
  refine ⟨run.kept.balanced, fun op enabled met => ?_⟩
  obtain ⟨error, t, call, sound⟩ := run.kept.sound op enabled met
  exact ⟨error, t, call, sound.kept.balanced, sound.outside, sound.mapped, sound.failed⟩

def got : World 2 Unit where
  s := ⟨⟨⟨fun _ => ⟨true, false, false, 0, 0, 0⟩, 100, 0, 0, 10⟩, fun _ => false, fun _ => false⟩, 2, true, 0, [], fun _ => false⟩
  outside := fun _ => 0

def calm : Around 2 := ⟨0, false, none, fun _ => false, false⟩

def faulty : Around 2 := ⟨0, false, none, fun i => i = 1, false⟩

def after (w : World 2 Unit) (ops : List (Op 2 Unit)) : World 2 Unit :=
  ops.foldl (fun w op => ((perform w op).toOption.map Prod.snd).getD w) w

/-- Another holder has locked the first page, and the segment is locked. -/
def shared : World 2 Unit := after got [.pagein 0, .take 0, .lock () true calm]

def unshared : World 2 Unit := after shared [.unlock true, .drop 0]

theorem shared_run : Run true shared := by
  have fresh : Run true got := .start (fun _ => rfl) (fun _ => rfl) rfl rfl rfl rfl
  have here : Run true (after got [.pagein 0]) := .step fresh (show Enabled got (.pagein 0) from .inl rfl) (fun _ => trivial) rfl
  have few : lckcnt (after got [.pagein 0]).s.pages 0 < 65535 := by decide +kernel
  have taken : Run true (after got [.pagein 0, .take 0]) := .step here (show Enabled _ (.take 0) from ⟨rfl, rfl⟩) (fun _ => few) rfl
  have free : (List.finRange 2).countP (Unlocked (after got [.pagein 0, .take 0]).s.pages) = 1 := by decide +kernel
  have affords : Affordable (after got [.pagein 0, .take 0]).s := by
    rw [Affordable, free]
    intro k below
    obtain rfl : k = 0 := by omega
    decide +kernel
  have met : Meets (after got [.pagein 0, .take 0]) (.lock () true calm) :=
    fun _ _ => ⟨by decide +kernel, .inl ⟨rfl, rfl, fun _ => rfl, affords⟩⟩
  exact .step taken (show Enabled _ (.lock () true calm) from trivial) (fun _ => met) rfl

theorem unshared_run : Run true unshared := by
  have unlocked : Run true (after shared [.unlock true]) := .step shared_run (show Enabled shared (.unlock true) from trivial) (fun _ => trivial) rfl
  have held : 0 < (after shared [.unlock true]).outside 0 := by decide +kernel
  exact .step unlocked (show Enabled _ (.drop 0) from held) (fun _ => trivial) rfl

/-- The first SHM_LOCK is beside another's lock, the second one fails. -/
theorem locks_balance_got : Run true shared ∧ Balanced shared ∧ others shared 0 = 1 ∧ lckcnt shared.s.pages 0 = 2 ∧ Run true unshared ∧
    ∃ t, perform unshared (.lock () true faulty) = .ok (some .ENOMEM, t) ∧ Balanced t ∧ ∀ i, lckcnt t.s.pages i = lckcnt unshared.s.pages i := by
  have met : Meets unshared (.lock () true faulty) := fun _ _ => ⟨by decide +kernel, .inr (by decide +kernel)⟩
  obtain ⟨error, t, call, balanced, _, _, failed⟩ := (locks_balance unshared_run).2 (.lock () true faulty) trivial met
  have fails : (perform unshared (.lock () true faulty)).toOption.map Prod.fst = some (some .ENOMEM) := by decide +kernel
  rw [call] at fails
  obtain rfl : error = some .ENOMEM := Option.some.inj fails
  exact ⟨shared_run, (locks_balance shared_run).1, by decide +kernel, by decide +kernel, unshared_run, t, call, balanced, failed () true faulty rfl nofun⟩

/-- Another holder locks the first page. A SHM_LOCK that fails at the second takes this lock away. -/
theorem failure_releases :
    ∃ w t : World 2 Unit, Run false w ∧ lckcnt w.s.pages 0 = 1 ∧ others w 0 = 1 ∧ perform w (.lock () true faulty) = .ok (some .ENOMEM, t) ∧
      others t 0 = 1 ∧ lckcnt t.s.pages 0 = 0 := by
  have fresh : Run false got := .start (fun _ => rfl) (fun _ => rfl) rfl rfl rfl rfl
  exact ⟨_, _, .step (.step fresh (show Enabled got (.pagein 0) from .inl rfl) nofun rfl) (show Enabled _ (.take 0) from ⟨rfl, rfl⟩) nofun rfl,
    rfl, rfl, rfl, rfl, rfl⟩

end Svr4.Proofs.ShmLockRuns
