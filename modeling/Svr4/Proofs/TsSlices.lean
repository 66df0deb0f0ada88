import Svr4.Ts

/-! The time slices: a process that is queued at a user mode priority has some of its slice
left, unless the slice ran out around a fork. -/

namespace Svr4.Proofs.TsSlices
open Function Ts

variable {c : Config} {s s' s'' : State} {p o : Nat} {t t' : Tsproc} {stat : Stat} {queued current : Prop} {wasonq : Bool} {e : Event}

/-- The table of the dispatcher is valid and its quanta are positive. -/
structure Valid (c : Config) : Prop where
  levels : 0 ≤ c.ts_maxumdpri
  quantum : ∀ l, 0 ≤ l → l ≤ c.ts_maxumdpri → 0 < (c.ts_dptbl l).ts_quantum
  tqexp : ∀ l, 0 ≤ l → l ≤ c.ts_maxumdpri → 0 ≤ (c.ts_dptbl l).ts_tqexp ∧ (c.ts_dptbl l).ts_tqexp ≤ c.ts_maxumdpri
  slpret : ∀ l, 0 ≤ l → l ≤ c.ts_maxumdpri → 0 ≤ (c.ts_dptbl l).ts_slpret ∧ (c.ts_dptbl l).ts_slpret ≤ c.ts_maxumdpri
  lwait : ∀ l, 0 ≤ l → l ≤ c.ts_maxumdpri → 0 ≤ (c.ts_dptbl l).ts_lwait ∧ (c.ts_dptbl l).ts_lwait ≤ c.ts_maxumdpri

/-- The levels of a process are in the table, and its slice is not longer than that of a level. -/
structure Levels (c : Config) (t : Tsproc) : Prop where
  cpupri : 0 ≤ t.ts_cpupri ∧ t.ts_cpupri ≤ c.ts_maxumdpri
  umdpri : 0 ≤ t.ts_umdpri ∧ t.ts_umdpri ≤ c.ts_maxumdpri
  most : ∃ l, 0 ≤ l ∧ l ≤ c.ts_maxumdpri ∧ t.ts_timeleft ≤ (c.ts_dptbl l).ts_quantum

structure Sound (c : Config) (t : Tsproc) (stat : Stat) (queued current : Prop) : Prop where
  levels : Levels c t
  asleep : stat = .SSLEEP → t.tskpri = true
  ready : queued ∨ stat = .SIDL → t.tskpri = false → 0 < t.ts_timeleft
  runs : current → stat = .SONPROC → t.tskpri = false → 0 < t.ts_timeleft ∨ (t.tsbackq = true ∧ t.tsfork = false)

def Sliced (c : Config) (s : State) : Prop :=
  ∀ p t, s.tsproc p = some t → Sound c t (s.p_stat p) (p ∈ s.dispq) (p = s.curproc)

structure Touches (p : Nat) (s s' : State) : Prop where
  tsproc : ∀ o, o ≠ p → s'.tsproc o = s.tsproc o
  stat : ∀ o, o ≠ p → s'.p_stat o = s.p_stat o
  queued : ∀ o, o ≠ p → (o ∈ s'.dispq ↔ o ∈ s.dispq)
  curproc : s'.curproc = s.curproc

theorem Touches.trans (first : Touches p s s') (second : Touches p s' s'') : Touches p s s'' where
  tsproc o other := (second.tsproc o other).trans (first.tsproc o other)
  stat o other := (second.stat o other).trans (first.stat o other)
  queued o other := (second.queued o other).trans (first.queued o other)
  curproc := second.curproc.trans first.curproc

theorem touches_set (s : State) (p : Nat) (t : Tsproc) : Touches p s (s.set p t) :=
  ⟨fun _ other => update_of_ne other _ _, fun _ _ => rfl, fun _ _ => Iff.rfl, rfl⟩

theorem touches_set_pri (s : State) (p : Nat) (pri : Int) : Touches p s (s.set_pri p pri) :=
  ⟨fun _ _ => rfl, fun _ _ => rfl, fun _ _ => Iff.rfl, rfl⟩

theorem touches_set_stat (s : State) (p : Nat) (stat : Stat) : Touches p s (s.set_stat p stat) :=
  ⟨fun _ _ => rfl, fun _ other => update_of_ne other _ _, fun _ _ => Iff.rfl, rfl⟩

theorem touches_setbackdq (s : State) (p : Nat) : Touches p s (setbackdq s p) :=
  ⟨fun _ _ => rfl, fun _ _ => rfl, fun o other => by simp [setbackdq, other], rfl⟩

theorem touches_setfrontdq (s : State) (p : Nat) : Touches p s (setfrontdq s p) :=
  ⟨fun _ _ => rfl, fun _ _ => rfl, fun o other => by simp [setfrontdq, other], rfl⟩

theorem touches_dispdeq (s : State) (p : Nat) : Touches p s (dispdeq s p) :=
  ⟨fun _ _ => rfl, fun _ _ => rfl, fun o other => by simp [dispdeq, other], rfl⟩

theorem Sliced.touch (sliced : Sliced c s) (touches : Touches p s s')
    (here : ∀ t, s'.tsproc p = some t → Sound c t (s'.p_stat p) (p ∈ s'.dispq) (p = s'.curproc)) : Sliced c s' := by
  intro o t known
  by_cases same : o = p
  · subst same
    exact here t known
  · rw [touches.tsproc o same] at known
    rw [touches.stat o same, touches.curproc]
    have sound := sliced o t known
    exact ⟨sound.levels, sound.asleep, fun ready => sound.ready (ready.imp_left (touches.queued o same).mp), sound.runs⟩

theorem newumdpri_level (valid : Valid c) (t : Tsproc) :
    0 ≤ (TS_NEWUMDPRI c t).ts_umdpri ∧ (TS_NEWUMDPRI c t).ts_umdpri ≤ c.ts_maxumdpri := by
  have levels := valid.levels
  simp only [TS_NEWUMDPRI]
  split
  · exact ⟨levels, le_rfl⟩
  · split
    · exact ⟨le_rfl, levels⟩
    · omega

theorem quantum_pos (valid : Valid c) (levels : Levels c t) : 0 < quantum c t := valid.quantum _ levels.umdpri.1 levels.umdpri.2

theorem refilled (levels : Levels c t) (same : t'.ts_cpupri = t.ts_cpupri) (level : t'.ts_umdpri = t.ts_umdpri)
    (full : t'.ts_timeleft = quantum c t) : Levels c t' :=
  ⟨same ▸ levels.cpupri, level ▸ levels.umdpri, ⟨t.ts_umdpri, levels.umdpri.1, levels.umdpri.2, full.le⟩⟩

theorem full_sound (valid : Valid c) (levels : Levels c t) (same : t'.ts_cpupri = t.ts_cpupri) (level : t'.ts_umdpri = t.ts_umdpri)
    (full : t'.ts_timeleft = quantum c t) (asleep : stat = .SSLEEP → t'.tskpri = true) : Sound c t' stat queued current :=
  have positive : 0 < t'.ts_timeleft := full ▸ quantum_pos valid levels
  ⟨refilled levels same level full, asleep, fun _ _ => positive, fun _ _ _ => .inl positive⟩

theorem kernel_sound (levels : Levels c t) (kernel : t.tskpri = true) : Sound c t stat queued current := by
  have user : ¬ t.tskpri = false := by simp [kernel]
  exact ⟨levels, fun _ => kernel, fun _ at_user => absurd at_user user, fun _ _ at_user => absurd at_user user⟩

def Here (c : Config) (s : State) (p : Nat) : Prop :=
  ∀ t, s.tsproc p = some t → Sound c t (s.p_stat p) (p ∈ s.dispq) (p = s.curproc)

theorem set_here (sound : Sound c t (s.p_stat p) (p ∈ s.dispq) (p = s.curproc)) : Here c (s.set p t) p := by
  intro t' known
  obtain rfl : t = t' := Option.some.inj ((set_tsproc s p t).symm.trans known)
  exact sound

theorem setbackdq_here (sound : Sound c t (s.p_stat p) True (p = s.curproc)) : Here c (setbackdq (s.set p t) p) p := by
  intro t' known
  obtain rfl : t = t' := Option.some.inj ((set_tsproc s p t).symm.trans known)
  exact ⟨sound.levels, sound.asleep, fun _ => sound.ready (.inl trivial), sound.runs⟩

theorem touches_requeue (s : State) (p : Nat) (t : Tsproc) (wasonq : Bool) : Touches p s (requeue c s p t wasonq) := by
  rw [requeue]
  split
  · exact (touches_set s p _).trans (touches_setbackdq _ p)
  · exact touches_set s p _

theorem requeue_here (valid : Valid c) (levels : Levels c t) (absent : p ∉ s.dispq) (asleep : s.p_stat p = .SSLEEP → t.tskpri = true)
    (idle : wasonq = false → s.p_stat p = .SIDL → t.tskpri = false → 0 < t.ts_timeleft)
    (runs : wasonq = false → p = s.curproc → s.p_stat p = .SONPROC → t.tskpri = false → 0 < t.ts_timeleft ∨ t.tsfork = false) :
    Here c (requeue c s p t wasonq) p := by
  rw [requeue]
  split
  case isTrue => exact setbackdq_here (full_sound valid levels rfl rfl rfl asleep)
  case isFalse not_queued =>
    have was : wasonq = false := by simpa using not_queued
    refine set_here ⟨⟨levels.cpupri, levels.umdpri, levels.most⟩, asleep, fun ready => ?_, fun current stat user => ?_⟩
    · exact idle was (ready.resolve_left absent)
    · exact (runs was current stat user).imp_right fun none => ⟨rfl, none⟩

theorem touches_resetpri (s : State) (p : Nat) (t : Tsproc) (maxrunpri : Int) : Touches p s (resetpri c s p t maxrunpri) := by
  rw [resetpri]
  split
  · split
    · exact (touches_set_pri s p _).trans (touches_set _ p _)
    · exact (touches_set_pri s p _).trans (touches_set _ p _)
  · exact ((touches_dispdeq s p).trans (touches_set_pri _ p _)).trans (touches_requeue _ p t _)

theorem not_mem_dispdeq : p ∉ (dispdeq s p).dispq := by simp [dispdeq]

/-- `ts_parmsset` gives a new slice to a process that is not at a kernel mode priority, or
leaves it what it has. -/
theorem resetpri_here (valid : Valid c) (sound : Sound c t (s.p_stat p) (p ∈ s.dispq) (p = s.curproc)) (maxrunpri : Int) :
    Here c (resetpri c s p t maxrunpri) p := by
  have levels := sound.levels
  rw [resetpri]
  split
  case isTrue current =>
    split
    · exact set_here (full_sound valid levels rfl rfl rfl sound.asleep)
    · exact set_here ⟨⟨levels.cpupri, levels.umdpri, levels.most⟩, sound.asleep, sound.ready,
        fun current stat user => (sound.runs current stat user).imp_right fun both => ⟨rfl, both.2⟩⟩
  case isFalse other =>
    exact requeue_here valid levels not_mem_dispdeq sound.asleep (fun _ idle => sound.ready (.inr idle)) fun _ current => absurd current other

theorem Sliced.requeue (sliced : Sliced c s) (valid : Valid c) (levels : Levels c t) (asleep : s.p_stat p = .SSLEEP → t.tskpri = true)
    (idle : p ∉ s.dispq → s.p_stat p = .SIDL → t.tskpri = false → 0 < t.ts_timeleft)
    (runs : p ∉ s.dispq → p = s.curproc → s.p_stat p = .SONPROC → t.tskpri = false → 0 < t.ts_timeleft ∨ t.tsfork = false) (pri : Int) :
    Sliced c (requeue c ((dispdeq s p).set_pri p pri) p t (p ∈ s.dispq)) := by
  have touches := ((touches_dispdeq s p).trans (touches_set_pri _ p pri)).trans (touches_requeue (c := c) _ p t (p ∈ s.dispq))
  exact sliced.touch touches (requeue_here valid levels not_mem_dispdeq asleep (fun was => idle (by simpa using was))
    fun was => runs (by simpa using was))

theorem tick_sliced (valid : Valid c) (sliced : Sliced c s) (onproc : s.p_stat s.curproc = .SONPROC) (known : s.tsproc s.curproc = some t)
    (spared : t.tskpri = false → t.ts_timeleft = 1 → s.curproc ∉ s.dispq → t.tsfork = false) : Sliced c (ts_tick c s s.curproc t) := by
  have sound := sliced _ t known
  obtain ⟨l, low, high, most⟩ := sound.levels.most
  have awake : ∀ {q : Prop}, s.p_stat s.curproc = .SSLEEP → q := fun asleep => by rw [onproc] at asleep; cases asleep
  have busy : ∀ {q : Prop}, s.p_stat s.curproc = .SIDL → q := fun idle => by rw [onproc] at idle; cases idle
  rw [ts_tick]
  split
  case isTrue => exact sliced
  case isFalse user =>
    rw [Bool.not_eq_true] at user
    split
    case isTrue used =>
      have one : t.ts_timeleft = 1 := by omega
      have level := valid.tqexp _ sound.levels.cpupri.1 sound.levels.cpupri.2
      have shorter : t.ts_timeleft - 1 ≤ (c.ts_dptbl l).ts_quantum := by omega
      have levels : Levels c (expired c t) := ⟨level, newumdpri_level valid _, ⟨l, low, high, shorter⟩⟩
      exact sliced.requeue valid levels awake (fun _ => busy) (fun absent _ _ _ => .inr (spared user one absent)) _
    case isFalse running =>
      refine sliced.touch (touches_set s _ _) (set_here ⟨⟨sound.levels.cpupri, sound.levels.umdpri, ⟨l, low, high, ?_⟩⟩, awake, ?_, ?_⟩)
      · show t.ts_timeleft - 1 ≤ _
        omega
      · intro ready user
        have positive := sound.ready ready user
        show 0 < t.ts_timeleft - 1
        omega
      · intro current stat user
        refine (sound.runs current stat user).imp_left fun positive => ?_
        show 0 < t.ts_timeleft - 1
        omega

theorem trapret_sliced (valid : Valid c) (sliced : Sliced c s) (running : s.running) (known : s.tsproc s.curproc = some t) :
    Sliced c (ts_trapret c s s.curproc t) := by
  have sound := sliced _ t known
  have awake : ∀ {q : Prop}, s.p_stat s.curproc = .SSLEEP → q := fun asleep => by rw [running.1] at asleep; cases asleep
  have level := valid.slpret _ sound.levels.cpupri.1 sound.levels.cpupri.2
  rw [ts_trapret]
  split
  case isTrue =>
    have levels : Levels c (returned c t) := ⟨level, newumdpri_level valid _, sound.levels.most⟩
    exact sliced.touch ((touches_set_pri s s.curproc _).trans (touches_set _ _ _)) (set_here (full_sound valid levels rfl rfl rfl awake))
  case isFalse => exact sliced

theorem update_one_sliced (valid : Valid c) (sliced : Sliced c s) (sprocio : Nat → Bool) (p : Nat) : Sliced c (update_one c sprocio s p) := by
  rw [Ts.update_one]
  split
  · exact sliced
  · rename_i t known
    have sound := sliced p t known
    split
    · exact sliced
    · split
      · exact sliced
      · split
        · exact sliced.touch (touches_set s p _) (set_here ⟨⟨sound.levels.cpupri, sound.levels.umdpri, sound.levels.most⟩, sound.asleep,
            sound.ready, sound.runs⟩)
        · have level := valid.lwait _ sound.levels.cpupri.1 sound.levels.cpupri.2
          have levels : Levels c (waited c t) := ⟨level, newumdpri_level valid _, sound.levels.most⟩
          exact sliced.requeue valid levels sound.asleep
            (fun _ idle => sound.ready (.inr idle)) (fun _ current stat user => (sound.runs current stat user).imp_right And.right) _

theorem updates_sliced (valid : Valid c) (sprocio : Nat → Bool) (plist : List Nat) (sliced : Sliced c s) :
    Sliced c (plist.foldl (update_one c sprocio) s) := by
  induction plist generalizing s with
  | nil => exact sliced
  | cons p plist ih => exact ih (update_one_sliced valid sliced sprocio p)

theorem parmsset_sliced (valid : Valid c) (sliced : Sliced c s) (known : s.tsproc p = some t) (parms : Tsparms) (cred : Option Bool)
    (maxrunpri : Int) : Sliced c (done s (ts_parmsset c s p t parms cred maxrunpri)) := by
  have sound := sliced p t known
  rw [ts_parmsset]
  split
  · exact sliced
  · have levels : Levels c (with_parms c parms t) := ⟨sound.levels.cpupri, newumdpri_level valid _, sound.levels.most⟩
    split
    · exact sliced.touch (touches_set s p _) (set_here ⟨levels, sound.asleep, sound.ready, sound.runs⟩)
    · have changed : Sound c { with_parms c parms t with ts_dispwait := 0 } (s.p_stat p) (p ∈ s.dispq) (p = s.curproc) :=
        ⟨⟨levels.cpupri, levels.umdpri, levels.most⟩, sound.asleep, sound.ready, sound.runs⟩
      exact sliced.touch (touches_resetpri s p _ _) (resetpri_here valid changed maxrunpri)

theorem preempt_sliced (valid : Valid c) (sliced : Sliced c s) (running : s.running) (known : s.tsproc s.curproc = some t) :
    Sliced c (ts_preempt c s s.curproc t) := by
  have sound := sliced _ t known
  have levels := sound.levels
  have awake : ∀ {q : Prop}, s.p_stat s.curproc = .SSLEEP → q := fun asleep => by rw [running.1] at asleep; cases asleep
  have touches := fun t => (touches_set s s.curproc t).trans (touches_setbackdq _ s.curproc)
  have left := sound.runs rfl running.1
  rw [ts_preempt]
  split
  case h_1 => exact sliced.touch (touches _) (setbackdq_here (full_sound valid levels rfl rfl rfl awake))
  case h_2 back kernel fork =>
    exact sliced.touch (touches _) (setbackdq_here (kernel_sound ⟨levels.cpupri, levels.umdpri, levels.most⟩ kernel))
  case h_3 back user fork =>
    have positive : 0 < t.ts_timeleft := (left user).resolve_right fun both => by simp [fork] at both
    exact sliced.touch (touches _) (setbackdq_here ⟨⟨levels.cpupri, levels.umdpri, levels.most⟩, awake, fun _ _ => positive,
      fun _ _ _ => .inl positive⟩)
  case h_4 not_back not_kernel not_fork =>
    refine sliced.touch (touches_setfrontdq s _) fun t' known' => ?_
    obtain rfl : t = t' := Option.some.inj (known.symm.trans known')
    have positive : t.tskpri = false → 0 < t.ts_timeleft := by
      intro user
      refine (left user).resolve_right fun both => ?_
      exact not_back both.1 user both.2
    exact ⟨levels, awake, fun _ => positive, fun _ _ user => .inl (positive user)⟩

theorem set_nice_sliced (sliced : Sliced c s) (nice : Int) (p : Nat) : Sliced c (set_nice nice s p) := by
  have touches : Touches p s (set_nice nice s p) := ⟨fun _ other => update_of_ne other _ _, fun _ _ => rfl, fun _ _ => Iff.rfl, rfl⟩
  refine sliced.touch touches fun t' known' => ?_
  have there : (set_nice nice s p).tsproc p = (s.tsproc p).map fun t => { t with ts_nice := nice } := update_self ..
  rw [there] at known'
  obtain ⟨t, known, rfl⟩ := Option.map_eq_some_iff.mp known'
  have sound := sliced p t known
  exact ⟨⟨sound.levels.cpupri, sound.levels.umdpri, sound.levels.most⟩, sound.asleep, sound.ready, sound.runs⟩

theorem donice_sliced (valid : Valid c) (sliced : Sliced c s) (known : s.tsproc p = some t) (incr maxrunpri : Int) :
    Sliced c (done s (ts_donice c s p t incr maxrunpri)) := by
  have set := parmsset_sliced valid sliced known (nice_parms c (newnice t incr)) none maxrunpri
  rw [ts_donice]
  cases result : ts_parmsset c s p t (nice_parms c (newnice t incr)) none maxrunpri with
  | error => exact sliced
  | ok s' =>
    rw [result] at set
    exact set_nice_sliced set _ p

theorem fork_sliced (valid : Valid c) (sliced : Sliced c s) (known : s.tsproc s.curproc = some t) (child : Nat) :
    Sliced c (ts_fork c (s.set_stat child .SIDL) child t) := by
  have levels := (sliced _ t known).levels
  have touches : Touches child s (ts_fork c (s.set_stat child .SIDL) child t) :=
    ⟨fun _ other => update_of_ne other _ _, fun _ other => update_of_ne other _ _, fun _ _ => Iff.rfl, rfl⟩
  refine sliced.touch touches fun t' born => ?_
  obtain rfl : { t with ts_timeleft := quantum c t, ts_dispwait := 0, tsbackq := false } = t' :=
    Option.some.inj ((set_tsproc (s.set_stat child .SIDL) child _).symm.trans born)
  have idle : (ts_fork c (s.set_stat child .SIDL) child t).p_stat child = .SIDL := update_self ..
  exact full_sound valid levels rfl rfl rfl fun asleep => by rw [idle] at asleep; cases asleep

theorem forkret_sliced (sliced : Sliced c s) (running : s.running) (idle : s.p_stat p = .SIDL) (known : s.tsproc s.curproc = some t)
    (spared : t.tskpri = false → 0 < t.ts_timeleft) : Sliced c (ts_forkret (s.set_stat p .SRUN) p (some (s.curproc, t))) := by
  have parent := sliced _ t known
  have other : s.curproc ≠ p := by
    rintro rfl
    rw [running.1] at idle
    cases idle
  have born : Sliced c (setbackdq (s.set_stat p .SRUN) p) := by
    refine sliced.touch ((touches_set_stat s p .SRUN).trans (touches_setbackdq _ p)) fun t' known' => ?_
    have sound := sliced p t' known'
    have runs : (setbackdq (s.set_stat p .SRUN) p).p_stat p = .SRUN := update_self ..
    rw [runs]
    exact ⟨sound.levels, nofun, fun _ => sound.ready (.inr idle), nofun⟩
  refine born.touch (touches_set _ s.curproc _) (set_here ?_)
  have stat : (setbackdq (s.set_stat p .SRUN) p).p_stat s.curproc = .SONPROC := (update_of_ne other ..).trans running.1
  rw [stat]
  exact ⟨⟨parent.levels.cpupri, parent.levels.umdpri, parent.levels.most⟩, nofun, fun _ => spared, fun _ _ user => .inl (spared user)⟩

theorem sleep_sliced (sliced : Sliced c s) (known : s.tsproc s.curproc = some t) (disp : Nat) :
    Sliced c (ts_sleep c (s.set_stat s.curproc .SSLEEP) s.curproc t disp) := by
  have levels := (sliced _ t known).levels
  have touches := ((touches_set_stat s s.curproc .SSLEEP).trans (touches_set _ s.curproc { t with tskpri := true })).trans
    (touches_set_pri _ s.curproc (c.ts_kmdpris (c.ts_maxkmdpri - (disp &&& PMASK : Nat))))
  refine sliced.touch touches fun t' known' => ?_
  obtain rfl : { t with tskpri := true } = t' := Option.some.inj ((set_tsproc (s.set_stat s.curproc .SSLEEP) s.curproc _).symm.trans known')
  exact kernel_sound ⟨levels.cpupri, levels.umdpri, levels.most⟩ rfl

theorem wakeup_sliced (sliced : Sliced c s) (asleep : s.p_stat p = .SSLEEP) (known : s.tsproc p = some t) :
    Sliced c (ts_wakeup (s.set_stat p .SRUN) p t) := by
  have sound := sliced p t known
  have levels : Levels c { t with tsbackq := false, tsfork := false } := ⟨sound.levels.cpupri, sound.levels.umdpri, sound.levels.most⟩
  have touches := ((touches_set_stat s p .SRUN).trans (touches_set _ p { t with tsbackq := false, tsfork := false })).trans
    (touches_setbackdq _ p)
  exact sliced.touch touches (setbackdq_here (kernel_sound levels (sound.asleep asleep)))

theorem setrun_sliced (valid : Valid c) (sliced : Sliced c s) (known : s.tsproc p = some t) :
    Sliced c (ts_setrun c (s.set_stat p .SRUN) p t) := by
  have sound := sliced p t known
  have touches := fun t => ((touches_set_stat s p .SRUN).trans (touches_set _ p t)).trans (touches_setbackdq _ p)
  have awake : (s.set_stat p .SRUN).p_stat p = .SRUN := update_self ..
  refine sliced.touch (touches _) (setbackdq_here ?_)
  split
  case isTrue kernel => exact kernel_sound ⟨sound.levels.cpupri, sound.levels.umdpri, sound.levels.most⟩ kernel
  case isFalse => exact full_sound valid sound.levels rfl rfl rfl fun asleep => by rw [awake] at asleep; cases asleep

theorem stop_sliced (sliced : Sliced c s) (running : s.running) : Sliced c (s.set_stat s.curproc .SSTOP) := by
  refine sliced.touch (touches_set_stat s s.curproc .SSTOP) fun t known => ?_
  have sound := sliced _ t known
  have stat : (s.set_stat s.curproc .SSTOP).p_stat s.curproc = .SSTOP := update_self ..
  rw [stat]
  exact ⟨sound.levels, nofun, fun ready => absurd (ready.resolve_right nofun) running.2, nofun⟩

theorem other_sliced (sliced : Sliced c s) (unknown : s.tsproc p = none) : Sliced c (setbackdq s p) :=
  sliced.touch (touches_setbackdq s p) fun t known => by cases unknown.symm.trans known

theorem put_off_sliced (sliced : Sliced c s) :
    Sliced c (if s.p_stat s.curproc = .SONPROC then s.set_stat s.curproc .SRUN else s) := by
  split
  case isTrue onproc =>
    refine sliced.touch (touches_set_stat s s.curproc .SRUN) fun t known => ?_
    have sound := sliced _ t known
    have stat : (s.set_stat s.curproc .SRUN).p_stat s.curproc = .SRUN := update_self ..
    rw [stat]
    exact ⟨sound.levels, nofun, fun ready => sound.ready (.inl (ready.resolve_right nofun)), nofun⟩
  case isFalse => exact sliced

theorem pswtch_sliced (sliced : Sliced c s) (queued : p ∈ s.dispq) : Sliced c (pswtch s p) := by
  have off := put_off_sliced sliced
  rw [pswtch]
  obtain ⟨s1, same⟩ : ∃ s1, (if s.p_stat s.curproc = .SONPROC then s.set_stat s.curproc .SRUN else s) = s1 := ⟨_, rfl⟩
  have queued1 : p ∈ s1.dispq := by
    rw [← same]
    split <;> exact queued
  rw [same] at off ⊢
  intro o t known
  have sound := off o t known
  by_cases here : o = p
  · subst here
    have positive := sound.ready (.inl queued1)
    have stat : ((dispdeq s1 o).set_stat o .SONPROC).p_stat o = .SONPROC := update_self ..
    show Sound c t (((dispdeq s1 o).set_stat o .SONPROC).p_stat o) _ _
    rw [stat]
    exact ⟨sound.levels, nofun, fun _ => positive, fun _ _ user => .inl (positive user)⟩
  · have stat : ((dispdeq s1 p).set_stat p .SONPROC).p_stat o = s1.p_stat o := update_of_ne here ..
    show Sound c t (((dispdeq s1 p).set_stat p .SONPROC).p_stat o) (o ∈ (dispdeq s1 p).dispq) (o = p)
    rw [stat]
    exact ⟨sound.levels, sound.asleep, fun ready => sound.ready (ready.imp_left ((touches_dispdeq s1 p).queued o here).mp),
      fun current => absurd current here⟩

def InClass : Event → Prop
  | .enterclass .. => False
  | _ => True

/-- No slice runs out in a process that has forked and is not preempted yet, and no process
forks whose slice has run out. -/
def Spares (s : State) : Event → Prop
  | .tick => ∀ t ∈ s.tsproc s.curproc, t.tskpri = false → t.ts_timeleft = 1 → s.curproc ∉ s.dispq → t.tsfork = false
  | .forkret _ => ∀ t ∈ s.tsproc s.curproc, t.tskpri = false → 0 < t.ts_timeleft
  | _ => True

theorem step_sliced (valid : Valid c) (sliced : Sliced c s) (inside : InClass e) (spares : Spares s e) (happens : step c s e = some s') :
    Sliced c s' := by
  cases e with
  | enterclass => cases inside
  | fork child =>
    obtain ⟨guards, happens⟩ := Option.ite_none_right_eq_some.mp happens
    obtain ⟨t, known, rfl⟩ := Option.map_eq_some_iff.mp happens
    exact fork_sliced valid sliced known child
  | forkret child =>
    obtain ⟨⟨running, idle, -⟩, happens⟩ := Option.ite_none_right_eq_some.mp happens
    obtain ⟨t, known, rfl⟩ := Option.map_eq_some_iff.mp happens
    exact forkret_sliced sliced running idle known (spares t known)
  | parmsset p parms cred maxrunpri =>
    obtain ⟨t, known, happens⟩ := Option.bind_eq_some_iff.mp happens
    obtain ⟨-, happens⟩ := Option.ite_none_right_eq_some.mp happens
    cases happens
    exact parmsset_sliced valid sliced known parms cred maxrunpri
  | donice p incr maxrunpri =>
    obtain ⟨t, known, rfl⟩ := Option.map_eq_some_iff.mp happens
    exact donice_sliced valid sliced known incr maxrunpri
  | preempt =>
    obtain ⟨running, happens⟩ := Option.ite_none_right_eq_some.mp happens
    obtain ⟨t, known, rfl⟩ := Option.map_eq_some_iff.mp happens
    exact preempt_sliced valid sliced running known
  | tick =>
    obtain ⟨onproc, happens⟩ := Option.ite_none_right_eq_some.mp happens
    obtain ⟨t, known, rfl⟩ := Option.map_eq_some_iff.mp happens
    exact tick_sliced valid sliced onproc known (spares t known)
  | trapret =>
    obtain ⟨running, happens⟩ := Option.ite_none_right_eq_some.mp happens
    obtain ⟨t, known, rfl⟩ := Option.map_eq_some_iff.mp happens
    exact trapret_sliced valid sliced running known
  | sleep disp =>
    obtain ⟨-, happens⟩ := Option.ite_none_right_eq_some.mp happens
    obtain ⟨t, known, rfl⟩ := Option.map_eq_some_iff.mp happens
    exact sleep_sliced sliced known disp
  | wakeup p =>
    obtain ⟨asleep, happens⟩ := Option.ite_none_right_eq_some.mp happens
    obtain ⟨t, known, rfl⟩ := Option.map_eq_some_iff.mp happens
    exact wakeup_sliced sliced asleep known
  | setrun p =>
    obtain ⟨-, happens⟩ := Option.ite_none_right_eq_some.mp happens
    obtain ⟨t, known, rfl⟩ := Option.map_eq_some_iff.mp happens
    exact setrun_sliced valid sliced known
  | stop =>
    obtain ⟨running, happens⟩ := Option.ite_none_right_eq_some.mp happens
    cases happens
    exact stop_sliced sliced running
  | update sprocio =>
    cases happens
    exact updates_sliced valid sprocio s.ts_plist sliced
  | swtch p =>
    obtain ⟨⟨queued, -⟩, happens⟩ := Option.ite_none_right_eq_some.mp happens
    cases happens
    exact pswtch_sliced sliced queued
  | other p =>
    obtain ⟨unknown, happens⟩ := Option.ite_none_right_eq_some.mp happens
    cases happens
    exact other_sliced sliced unknown

theorem run_sliced (valid : Valid c) (sliced : Sliced c s) (run : Run c (fun s e => InClass e ∧ Spares s e) s s') : Sliced c s' := by
  induction run with
  | start => exact sliced
  | next _ met happens ih => exact step_sliced valid ih met.1 met.2 happens

/-- Every process of the class has a slice, and sleeps at a kernel mode priority if it does. -/
def Started (c : Config) (s : State) : Prop :=
  ∀ p t, s.tsproc p = some t → Levels c t ∧ 0 < t.ts_timeleft ∧ (s.p_stat p = .SSLEEP → t.tskpri = true)

theorem started_sliced (started : Started c s) : Sliced c s := by
  intro p t known
  obtain ⟨levels, positive, asleep⟩ := started p t known
  exact ⟨levels, asleep, fun _ _ => positive, fun _ _ _ => .inl positive⟩

/-- A process that is selected to run at a user mode priority has some of its slice left, and
no more than a slice. -/
theorem slices_expire (valid : Valid c) (started : Started c s) (run : Run c (fun s e => InClass e ∧ Spares s e) s s')
    (selected : step c s' (.swtch p) = some s'') (known : s''.tsproc p = some t) (user : t.tskpri = false) :
    0 < t.ts_timeleft ∧ ∃ l, 0 ≤ l ∧ l ≤ c.ts_maxumdpri ∧ t.ts_timeleft ≤ (c.ts_dptbl l).ts_quantum := by
  obtain ⟨⟨queued, -⟩, happens⟩ := Option.ite_none_right_eq_some.mp selected
  cases happens
  have same : (pswtch s' p).tsproc = s'.tsproc := by
    rw [pswtch]
    split <;> rfl
  rw [same] at known
  have sound := run_sliced valid (started_sliced started) run p t known
  exact ⟨sound.ready (.inl queued) user, sound.levels.most⟩

def one_level : Config := ⟨fun _ => ⟨0, 2, 0, 0, 0, 0⟩, fun _ => 60, 20, 0, 0⟩

def one_process : State :=
  ⟨update (fun _ => none) 1 (some ⟨1, 0, 0, 0, 0, 20, 0, false, false, false⟩), [1], fun _ => .SONPROC, fun _ => 0, [], 1⟩

theorem one_level_valid : Valid one_level := by
  have zero : ∀ l : Int, 0 ≤ l → l ≤ one_level.ts_maxumdpri → (0 : Int) ≤ 0 ∧ (0 : Int) ≤ one_level.ts_maxumdpri := by
    intro l _ _
    exact ⟨le_rfl, le_rfl⟩
  exact ⟨le_rfl, fun _ _ _ => show (0 : Int) < 2 by decide, zero, zero, zero⟩

theorem one_process_started : Started one_level one_process := by
  intro p t known
  have first : p = 1 := by
    by_contra other
    have absent : one_process.tsproc p = none := update_of_ne other _ (fun _ => none)
    cases absent.symm.trans known
  subst first
  cases known
  exact ⟨⟨⟨le_rfl, le_rfl⟩, ⟨le_rfl, le_rfl⟩, ⟨0, le_rfl, le_rfl, by decide⟩⟩, by decide, nofun⟩

theorem slices_expire_one : ∃ s' s'', steps one_level one_process [.tick, .preempt] = some s' ∧ step one_level s' (.swtch 1) = some s'' ∧
    ∃ t, s''.tsproc 1 = some t ∧ t.tskpri = false ∧ 0 < t.ts_timeleft ∧
      ∃ l, 0 ≤ l ∧ l ≤ one_level.ts_maxumdpri ∧ t.ts_timeleft ≤ (one_level.ts_dptbl l).ts_quantum := by
  have run : Run one_level (fun s e => InClass e ∧ Spares s e) one_process _ :=
    (Run.next .start ⟨trivial, fun t known _ _ _ => by cases known; rfl⟩ (show step one_level one_process .tick = some _ from rfl)).next
      (show InClass .preempt ∧ Spares _ .preempt from ⟨trivial, trivial⟩) rfl
  refine ⟨_, _, rfl, rfl, _, rfl, rfl, ?_⟩
  exact slices_expire (p := 1) one_level_valid one_process_started run rfl rfl rfl

/-- The last tick of a slice, between a fork and the preemption: the process is selected with
nothing left. -/
theorem slice_lost_in_fork : ¬ ∀ c s s' s'' p t, Valid c → Started c s → Run c (fun _ e => InClass e) s s' →
    step c s' (.swtch p) = some s'' → s''.tsproc p = some t → t.tskpri = false → 0 < t.ts_timeleft := by
  intro expires
  have run : ∃ s', Run one_level (fun _ e => InClass e) one_process s' ∧ ((step one_level s' (.swtch 1)).bind fun s => s.tsproc 1) =
      some ⟨0, 0, 0, 0, 0, 20, 0, false, false, false⟩ := by
    refine ⟨_, Run.steps [.fork 2, .forkret 2, .tick, .preempt, .swtch 2, .sleep 0] .start ?_ rfl, rfl⟩
    intro e member _
    fin_cases member <;> trivial
  obtain ⟨s', run, selected⟩ := run
  obtain ⟨s'', selected, known⟩ := Option.bind_eq_some_iff.mp selected
  exact absurd (expires _ _ _ _ _ _ one_level_valid one_process_started run selected known rfl) (by decide)

end Svr4.Proofs.TsSlices
