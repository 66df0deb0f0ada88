import Svr4.Ts

/-! The nice values: they stay in their range and in step with the user priorities, as long as
the requested priorities need no correction. -/

namespace Svr4.Proofs.TsNice
open Function Ts

variable {c : Config} {s s' s'' : State} {p : Nat} {t t' : Tsproc} {e : Event} {parms : Tsparms} {cred cred' : Option Bool} {upri n : Int}
  {maxrunpri : Int}

/-- The user priorities go from `-ts_maxupri` to `ts_maxupri`, a positive `short`. -/
def Scaled (c : Config) : Prop := 0 < c.ts_maxupri ∧ c.ts_maxupri < 32768

def nice_of (c : Config) (upri : Int) : Int := min (20 - (20 * upri).tdiv c.ts_maxupri) 39

structure InRange (c : Config) (upri uprilim nice : Int) : Prop where
  least : -c.ts_maxupri ≤ upri
  limited : upri ≤ uprilim
  most : uprilim ≤ c.ts_maxupri
  nice : 0 ≤ nice ∧ nice < 2 * NZERO

def Nices (c : Config) (s : State) : Prop := ∀ p t, s.tsproc p = some t → InRange c t.ts_upri t.ts_uprilim t.ts_nice

theorem Nices.set (nices : Nices c s) (range : InRange c t.ts_upri t.ts_uprilim t.ts_nice) : Nices c (s.set p t) := by
  intro o t' known
  by_cases same : o = p
  · subst same
    obtain rfl : t = t' := Option.some.inj ((set_tsproc s o t).symm.trans known)
    exact range
  · exact nices o t' ((show (s.set p t).tsproc o = s.tsproc o from update_of_ne same ..).symm.trans known)

theorem Nices.requeue (nices : Nices c s) (range : InRange c t.ts_upri t.ts_uprilim t.ts_nice) (wasonq : Bool) :
    Nices c (requeue c s p t wasonq) := by
  rw [Ts.requeue]
  split
  · exact nices.set range
  · exact nices.set range

theorem Nices.resetpri (nices : Nices c s) (range : InRange c t.ts_upri t.ts_uprilim t.ts_nice) (maxrunpri : Int) :
    Nices c (resetpri c s p t maxrunpri) := by
  rw [Ts.resetpri]
  split
  · split
    · exact Nices.set nices range
    · exact Nices.set nices range
  · exact Nices.requeue (s := (dispdeq s p).set_pri p (globpri c t)) nices range _

theorem quotient_below (below : upri ≤ 0) : (20 * upri).tdiv c.ts_maxupri = -((20 * -upri) / c.ts_maxupri) := by
  have nonneg : 0 ≤ 20 * -upri := by omega
  rw [← Int.tdiv_eq_ediv_of_nonneg nonneg, ← Int.neg_tdiv]
  congr 1
  omega

theorem scaled_quotient (scaled : Scaled c) (least : -c.ts_maxupri ≤ upri) (most : upri ≤ c.ts_maxupri) :
    -20 ≤ (20 * upri).tdiv c.ts_maxupri ∧ (20 * upri).tdiv c.ts_maxupri ≤ 20 := by
  have positive := scaled.1
  rcases Int.le_total 0 upri with above | below
  · rw [Int.tdiv_eq_ediv_of_nonneg (by omega)]
    have low := Int.ediv_nonneg (show 0 ≤ 20 * upri by omega) positive.le
    have high := Int.ediv_le_of_le_mul positive (show 20 * upri ≤ 20 * c.ts_maxupri by omega)
    omega
  · rw [quotient_below below]
    have low := Int.ediv_nonneg (show 0 ≤ 20 * -upri by omega) positive.le
    have high := Int.ediv_le_of_le_mul positive (show 20 * -upri ≤ 20 * c.ts_maxupri by omega)
    omega

theorem scaled_quotient_above (scaled : Scaled c) (above_least : -c.ts_maxupri < upri) : -20 < (20 * upri).tdiv c.ts_maxupri := by
  have positive := scaled.1
  rcases Int.le_total 0 upri with above | below
  · rw [Int.tdiv_eq_ediv_of_nonneg (by omega)]
    have low := Int.ediv_nonneg (show 0 ≤ 20 * upri by omega) positive.le
    omega
  · rw [quotient_below below]
    have high := Int.ediv_lt_of_lt_mul positive (show 20 * -upri < 20 * c.ts_maxupri by omega)
    omega

theorem char_small (low : -128 ≤ n) (high : n < 128) : char n = n := by
  rw [char, Int.bmod]
  omega

theorem short_small (low : -32768 ≤ n) (high : n < 32768) : short n = n := by
  rw [short, Int.bmod]
  omega

theorem parms_nice_eq (scaled : Scaled c) (least : -c.ts_maxupri ≤ parms.ts_upri) (most : parms.ts_upri ≤ c.ts_maxupri) :
    parms_nice c parms = nice_of c parms.ts_upri := by
  have quotient := scaled_quotient scaled least most
  rw [parms_nice, nice_of, Int.mul_comm parms.ts_upri, char_small (by omega) (by omega)]
  split
  case isTrue forty => rw [forty]; rfl
  case isFalse => omega

theorem nice_of_range (scaled : Scaled c) (least : -c.ts_maxupri ≤ upri) (most : upri ≤ c.ts_maxupri) :
    0 ≤ nice_of c upri ∧ nice_of c upri < 2 * NZERO := by
  have quotient := scaled_quotient scaled least most
  rw [nice_of, NZERO]
  omega

theorem accepted_parms {target : Option Tsproc} (accepted : ts_parmsin c parms cred target = none) :
    (parms.ts_uprilim = TS_NOCHANGE ∨ (-c.ts_maxupri ≤ parms.ts_uprilim ∧ parms.ts_uprilim ≤ c.ts_maxupri)) ∧
      (parms.ts_upri = TS_NOCHANGE ∨ (-c.ts_maxupri ≤ parms.ts_upri ∧ parms.ts_upri ≤ c.ts_maxupri)) := by
  unfold ts_parmsin at accepted
  split at accepted
  case isTrue => cases accepted
  case isFalse lim =>
    split at accepted
    case isTrue => cases accepted
    case isFalse pri => omega

theorem enter_bounds (scaled : Scaled c) (accepted : ts_parmsin c parms cred none = none) :
    -c.ts_maxupri ≤ enter_upri parms ∧ enter_upri parms ≤ enter_uprilim parms ∧ enter_uprilim parms ≤ c.ts_maxupri := by
  have positive := scaled.1
  obtain ⟨lim, pri⟩ := accepted_parms accepted
  have limit : -c.ts_maxupri ≤ enter_uprilim parms ∧ enter_uprilim parms ≤ c.ts_maxupri := by
    rw [enter_uprilim]
    split
    case isTrue => omega
    case isFalse given => exact lim.resolve_left given
  rw [enter_upri]
  split
  case isTrue => omega
  case isFalse given =>
    split
    case isTrue => omega
    case isFalse => omega

theorem entered_range (scaled : Scaled c) {timeleft : Int} (accepted : ts_parmsin c parms cred none = none)
    (above_least : enter_upri parms ≠ -c.ts_maxupri) (new : new_tsproc c timeleft cred' (some parms) = .ok t) :
    InRange c t.ts_upri t.ts_uprilim t.ts_nice := by
  obtain ⟨least, limited, most⟩ := enter_bounds scaled accepted
  have quotient := scaled_quotient scaled least (limited.trans most)
  have above : -20 < (20 * enter_upri parms).tdiv c.ts_maxupri := scaled_quotient_above scaled (by omega)
  rw [new_tsproc] at new
  split at new
  case isTrue => cases new
  case isFalse =>
    cases new
    refine ⟨least, limited, most, ?_⟩
    show 0 ≤ char (20 - (20 * enter_upri parms).tdiv c.ts_maxupri) ∧ char (20 - (20 * enter_upri parms).tdiv c.ts_maxupri) < 2 * NZERO
    rw [char_small (by omega) (by omega), NZERO]
    omega

theorem enterclass_nices (scaled : Scaled c) (nices : Nices c s) {entering : Option Tsparms} {memory : Option Int}
    (accepted : ∀ parms ∈ entering, ts_parmsin c parms cred' none = none) (above_least : ∀ parms ∈ entering, enter_upri parms ≠ -c.ts_maxupri) :
    Nices c (done s (ts_enterclass c s p entering cred memory maxrunpri)) := by
  have positive := scaled.1
  cases memory with
  | none => exact nices
  | some timeleft =>
    rw [ts_enterclass]
    cases made : new_tsproc c timeleft cred entering with
    | error => exact nices
    | ok t =>
      refine Nices.resetpri (s := { s with ts_plist := p :: s.ts_plist }) nices ?_ maxrunpri
      cases entering with
      | none =>
        cases made
        exact ⟨show -c.ts_maxupri ≤ 0 by omega, le_rfl, show 0 ≤ c.ts_maxupri by omega, show (0 : Int) ≤ 20 ∧ (20 : Int) < 2 * 20 by decide⟩
      | some parms => exact entered_range scaled (accepted parms rfl) (above_least parms rfl) made

/-- The parameters need no correction: a user priority is given, and it is within the limit. -/
def Exact (parms : Tsparms) (t : Tsproc) : Prop := parms.ts_upri ≠ TS_NOCHANGE ∧ parms.ts_upri ≤ reqtsuprilim parms t

theorem reqtsupri_exact (exact : Exact parms t) : reqtsupri parms t = parms.ts_upri := by
  rw [reqtsupri, if_neg exact.1, if_neg (not_lt.mpr exact.2)]

theorem with_parms_range (scaled : Scaled c) (range : InRange c t.ts_upri t.ts_uprilim t.ts_nice)
    (lim : parms.ts_uprilim = TS_NOCHANGE ∨ (-c.ts_maxupri ≤ parms.ts_uprilim ∧ parms.ts_uprilim ≤ c.ts_maxupri))
    (least : -c.ts_maxupri ≤ parms.ts_upri) (most : parms.ts_upri ≤ c.ts_maxupri) (exact : Exact parms t) :
    InRange c (with_parms c parms t).ts_upri (with_parms c parms t).ts_uprilim (with_parms c parms t).ts_nice := by
  have limit : reqtsuprilim parms t ≤ c.ts_maxupri := by
    rw [reqtsuprilim]
    split
    case isTrue => exact range.most
    case isFalse given => exact (lim.resolve_left given).2
  refine ⟨?_, ?_, limit, ?_⟩
  · show -c.ts_maxupri ≤ reqtsupri parms t
    rw [reqtsupri_exact exact]
    exact least
  · show reqtsupri parms t ≤ reqtsuprilim parms t
    rw [reqtsupri_exact exact]
    exact exact.2
  · show 0 ≤ parms_nice c parms ∧ parms_nice c parms < 2 * NZERO
    rw [parms_nice_eq scaled least most]
    exact nice_of_range scaled least most

theorem parmsset_nices (scaled : Scaled c) (nices : Nices c s) (known : s.tsproc p = some t)
    (lim : parms.ts_uprilim = TS_NOCHANGE ∨ (-c.ts_maxupri ≤ parms.ts_uprilim ∧ parms.ts_uprilim ≤ c.ts_maxupri))
    (least : -c.ts_maxupri ≤ parms.ts_upri) (most : parms.ts_upri ≤ c.ts_maxupri) (exact : Exact parms t) :
    Nices c (done s (ts_parmsset c s p t parms cred maxrunpri)) := by
  have range := with_parms_range scaled (nices p t known) lim least most exact
  rw [ts_parmsset]
  split
  · exact nices
  · split
    · exact nices.set range
    · exact Nices.resetpri (t := { with_parms c parms t with ts_dispwait := 0 }) nices range maxrunpri

theorem newnice_range (nice : 0 ≤ t.ts_nice ∧ t.ts_nice < 2 * NZERO) (incr : Int) : 0 ≤ newnice t incr ∧ newnice t incr < 2 * NZERO := by
  have bound : (NZERO : Int) = 20 := rfl
  rw [newnice]
  split
  · omega
  · split
    · omega
    · omega

theorem nice_parms_range (scaled : Scaled c) (nice : 0 ≤ n ∧ n < 2 * NZERO) :
    -c.ts_maxupri ≤ (nice_parms c n).ts_upri ∧ (nice_parms c n).ts_upri ≤ c.ts_maxupri := by
  obtain ⟨positive, bound⟩ := scaled
  have zero : (NZERO : Int) = 20 := rfl
  have low : -20 * c.ts_maxupri ≤ (n - NZERO) * c.ts_maxupri := Int.mul_le_mul_of_nonneg_right (by omega) positive.le
  have high : (n - NZERO) * c.ts_maxupri ≤ 20 * c.ts_maxupri := Int.mul_le_mul_of_nonneg_right (by omega) positive.le
  obtain ⟨product, same⟩ : ∃ x, (n - NZERO) * c.ts_maxupri = x := ⟨_, rfl⟩
  rw [same] at low high
  have quotient : -c.ts_maxupri ≤ (-product).tdiv NZERO ∧ (-product).tdiv NZERO ≤ c.ts_maxupri := by
    rw [zero]
    rcases Int.le_total 0 product with above | below
    · rw [Int.neg_tdiv, Int.tdiv_eq_ediv_of_nonneg above]
      omega
    · rw [Int.tdiv_eq_ediv_of_nonneg (by omega)]
      omega
  show -c.ts_maxupri ≤ short ((-((n - NZERO) * c.ts_maxupri)).tdiv NZERO) ∧ short ((-((n - NZERO) * c.ts_maxupri)).tdiv NZERO) ≤ c.ts_maxupri
  rw [same, short_small (by omega) (by omega)]
  exact quotient

theorem set_nice_nices (nices : Nices c s) (nice : 0 ≤ n ∧ n < 2 * NZERO) (p : Nat) : Nices c (set_nice n s p) := by
  intro o t' known
  by_cases same : o = p
  · subst same
    have there : (set_nice n s o).tsproc o = (s.tsproc o).map fun t => { t with ts_nice := n } := update_self ..
    obtain ⟨t, before, rfl⟩ := Option.map_eq_some_iff.mp (there.symm.trans known)
    have range := nices o t before
    exact ⟨range.least, range.limited, range.most, nice⟩
  · exact nices o t' ((show (set_nice n s p).tsproc o = s.tsproc o from update_of_ne same ..).symm.trans known)

theorem donice_nices (scaled : Scaled c) (nices : Nices c s) (known : s.tsproc p = some t) (incr : Int) :
    Nices c (done s (ts_donice c s p t incr maxrunpri)) := by
  have zero : (NZERO : Int) = 20 := rfl
  have nice := newnice_range (nices p t known).nice incr
  obtain ⟨least, most⟩ := nice_parms_range scaled nice
  have given : (nice_parms c (newnice t incr)).ts_upri ≠ TS_NOCHANGE := by
    have bound := scaled.2
    rw [TS_NOCHANGE]
    omega
  have exact : Exact (nice_parms c (newnice t incr)) t := ⟨given, (if_neg given).ge⟩
  have set : Nices c (done s (ts_parmsset c s p t (nice_parms c (newnice t incr)) none maxrunpri)) :=
    parmsset_nices scaled nices known (.inr ⟨least, most⟩) least most exact
  rw [ts_donice]
  cases result : ts_parmsset c s p t (nice_parms c (newnice t incr)) none maxrunpri with
  | error => exact nices
  | ok s' =>
    rw [result] at set
    have same : char (newnice t incr) = newnice t incr := char_small (by omega) (by omega)
    show Nices c (set_nice (char (newnice t incr)) s' p)
    rw [same]
    exact set_nice_nices set nice p

theorem update_one_nices (nices : Nices c s) (sprocio : Nat → Bool) (p : Nat) : Nices c (update_one c sprocio s p) := by
  rw [Ts.update_one]
  split
  · exact nices
  · rename_i t known
    have range := nices p t known
    split
    · exact nices
    · split
      · exact nices
      · split
        · exact nices.set range
        · exact Nices.requeue (s := (dispdeq s p).set_pri p (globpri c (waited c t))) (t := waited c t) nices range _

theorem updates_nices (sprocio : Nat → Bool) (plist : List Nat) (nices : Nices c s) : Nices c (plist.foldl (update_one c sprocio) s) := by
  induction plist generalizing s with
  | nil => exact nices
  | cons p plist ih => exact ih (update_one_nices nices sprocio p)

theorem preempt_nices (nices : Nices c s) (known : s.tsproc p = some t) : Nices c (ts_preempt c s p t) := by
  have range := nices p t known
  rw [ts_preempt]
  split
  · exact nices.set range
  · exact nices.set range
  · exact nices.set range
  · exact nices

theorem tick_nices (nices : Nices c s) (known : s.tsproc p = some t) : Nices c (ts_tick c s p t) := by
  have range := nices p t known
  rw [ts_tick]
  split
  · exact nices
  · split
    · exact Nices.requeue (s := (dispdeq s p).set_pri p (globpri c (expired c t))) (t := expired c t) nices range _
    · exact nices.set range

theorem trapret_nices (nices : Nices c s) (known : s.tsproc p = some t) : Nices c (ts_trapret c s p t) := by
  have range := nices p t known
  rw [ts_trapret]
  split
  · exact Nices.set (s := s.set_pri p (globpri c (returned c t))) nices range
  · exact nices

theorem setrun_nices (nices : Nices c s) (known : s.tsproc p = some t) : Nices c (ts_setrun c (s.set_stat p .SRUN) p t) := by
  have range := nices p t known
  rw [ts_setrun]
  split
  · exact Nices.set (s := s.set_stat p .SRUN) nices range
  · exact Nices.set (s := s.set_stat p .SRUN) nices range

/-- The parameters of an entering process do not ask for the least user priority, and those of
one that is in the class need no correction. -/
def Heeds (c : Config) (s : State) : Event → Prop
  | .enterclass _ entering .. => ∀ parms ∈ entering, enter_upri parms ≠ -c.ts_maxupri
  | .parmsset p parms .. => ∀ t ∈ s.tsproc p, Exact parms t
  | _ => True

theorem step_nices (scaled : Scaled c) (nices : Nices c s) (heeds : Heeds c s e) (happens : step c s e = some s') : Nices c s' := by
  cases e with
  | enterclass p entering cred memory maxrunpri =>
    obtain ⟨⟨-, accepted⟩, happens⟩ := Option.ite_none_right_eq_some.mp happens
    cases happens
    exact enterclass_nices scaled nices accepted heeds
  | fork child =>
    obtain ⟨-, happens⟩ := Option.ite_none_right_eq_some.mp happens
    obtain ⟨t, known, rfl⟩ := Option.map_eq_some_iff.mp happens
    exact Nices.set (s := s.set_stat child .SIDL) nices (nices _ t known)
  | forkret child =>
    obtain ⟨-, happens⟩ := Option.ite_none_right_eq_some.mp happens
    obtain ⟨t, known, rfl⟩ := Option.map_eq_some_iff.mp happens
    exact Nices.set (s := setbackdq (s.set_stat child .SRUN) child) nices (nices _ t known)
  | parmsset p parms cred maxrunpri =>
    obtain ⟨t, known, happens⟩ := Option.bind_eq_some_iff.mp happens
    obtain ⟨accepted, happens⟩ := Option.ite_none_right_eq_some.mp happens
    cases happens
    obtain ⟨lim, pri⟩ := accepted_parms accepted
    have exact := heeds t known
    obtain ⟨least, most⟩ := pri.resolve_left exact.1
    exact parmsset_nices scaled nices known lim least most exact
  | donice p incr maxrunpri =>
    obtain ⟨t, known, rfl⟩ := Option.map_eq_some_iff.mp happens
    exact donice_nices scaled nices known incr
  | preempt =>
    obtain ⟨-, happens⟩ := Option.ite_none_right_eq_some.mp happens
    obtain ⟨t, known, rfl⟩ := Option.map_eq_some_iff.mp happens
    exact preempt_nices nices known
  | tick =>
    obtain ⟨-, happens⟩ := Option.ite_none_right_eq_some.mp happens
    obtain ⟨t, known, rfl⟩ := Option.map_eq_some_iff.mp happens
    exact tick_nices nices known
  | trapret =>
    obtain ⟨-, happens⟩ := Option.ite_none_right_eq_some.mp happens
    obtain ⟨t, known, rfl⟩ := Option.map_eq_some_iff.mp happens
    exact trapret_nices nices known
  | sleep disp =>
    obtain ⟨-, happens⟩ := Option.ite_none_right_eq_some.mp happens
    obtain ⟨t, known, rfl⟩ := Option.map_eq_some_iff.mp happens
    exact Nices.set (s := s.set_stat s.curproc .SSLEEP) nices (nices _ t known)
  | wakeup p =>
    obtain ⟨-, happens⟩ := Option.ite_none_right_eq_some.mp happens
    obtain ⟨t, known, rfl⟩ := Option.map_eq_some_iff.mp happens
    exact Nices.set (s := s.set_stat p .SRUN) nices (nices _ t known)
  | setrun p =>
    obtain ⟨-, happens⟩ := Option.ite_none_right_eq_some.mp happens
    obtain ⟨t, known, rfl⟩ := Option.map_eq_some_iff.mp happens
    exact setrun_nices nices known
  | stop =>
    obtain ⟨-, happens⟩ := Option.ite_none_right_eq_some.mp happens
    cases happens
    exact nices
  | update sprocio =>
    cases happens
    exact updates_nices sprocio s.ts_plist nices
  | swtch p =>
    obtain ⟨-, happens⟩ := Option.ite_none_right_eq_some.mp happens
    cases happens
    rw [pswtch]
    split
    · exact nices
    · exact nices
  | other p =>
    obtain ⟨-, happens⟩ := Option.ite_none_right_eq_some.mp happens
    cases happens
    exact nices

theorem run_nices (scaled : Scaled c) (start : Nices c s) (run : Run c (Heeds c) s s') : Nices c s' := by
  induction run with
  | start => exact start
  | next _ met happens ih => exact step_nices scaled ih met happens

theorem resetpri_nice (s : State) (p : Nat) (t : Tsproc) (maxrunpri : Int) :
    ∃ t', (resetpri c s p t maxrunpri).tsproc p = some t' ∧ t'.ts_upri = t.ts_upri ∧ t'.ts_nice = t.ts_nice := by
  rw [resetpri, requeue]
  split
  · split
    · exact ⟨_, update_self .., rfl, rfl⟩
    · exact ⟨_, update_self .., rfl, rfl⟩
  · split
    · exact ⟨_, update_self .., rfl, rfl⟩
    · exact ⟨_, update_self .., rfl, rfl⟩

theorem parmsset_nice (scaled : Scaled c) (accepted : ts_parmsin c parms cred (some t) = none) (exact : Exact parms t)
    (set : ts_parmsset c s p t parms cred' maxrunpri = .ok s') (known : s'.tsproc p = some t') : t'.ts_nice = nice_of c t'.ts_upri := by
  obtain ⟨least, most⟩ := (accepted_parms accepted).2.resolve_left exact.1
  have same : (with_parms c parms t).ts_nice = nice_of c (with_parms c parms t).ts_upri := by
    show parms_nice c parms = nice_of c (reqtsupri parms t)
    rw [reqtsupri_exact exact, parms_nice_eq scaled least most]
  rw [ts_parmsset] at set
  split at set
  case isTrue => cases set
  case isFalse =>
    split at set
    case isTrue =>
      cases set
      obtain rfl : with_parms c parms t = t' := Option.some.inj ((set_tsproc s p _).symm.trans known)
      exact same
    case isFalse =>
      cases set
      obtain ⟨t1, there, upri, nice⟩ := resetpri_nice (c := c) s p { with_parms c parms t with ts_dispwait := 0 } maxrunpri
      obtain rfl : t1 = t' := Option.some.inj (there.symm.trans known)
      rw [upri, nice]
      exact same

/-- The nice values are in their range, and those that `ts_parmsset` sets are in step. -/
theorem nice_in_step (scaled : Scaled c) (start : ∀ p, s.tsproc p = none) (run : Run c (Heeds c) s s') :
    (∀ p t, s'.tsproc p = some t → 0 ≤ t.ts_nice ∧ t.ts_nice < 2 * NZERO ∧ t.ts_upri ≤ t.ts_uprilim) ∧
      ∀ p t parms cred cred' maxrunpri s'' t', s'.tsproc p = some t → ts_parmsin c parms cred (some t) = none → Exact parms t →
        ts_parmsset c s' p t parms cred' maxrunpri = .ok s'' → s''.tsproc p = some t' → t'.ts_nice = nice_of c t'.ts_upri := by
  have nices := run_nices scaled (fun p t known => by cases (start p).symm.trans known) run
  refine ⟨fun p t known => ?_, fun p t parms cred cred' maxrunpri s'' t' _ accepted exact set there => ?_⟩
  · have range := nices p t known
    exact ⟨range.nice.1, range.nice.2, range.limited⟩
  · exact parmsset_nice scaled accepted exact set there

def twenty : Config := ⟨fun _ => ⟨0, 2, 0, 0, 0, 0⟩, fun _ => 60, 20, 0, 0⟩

def nobody : State := ⟨fun _ => none, [], fun _ => .SRUN, fun _ => 0, [], 0⟩

/-- A process enters with the limit 10, and sets its priority to the limit. -/
theorem nice_in_step_ten : ∃ s' s'' t t', steps twenty nobody [.enterclass 1 (some ⟨10, 0⟩) none (some 0) 0] = some s' ∧
    s'.tsproc 1 = some t ∧ ts_parmsset twenty s' 1 t ⟨10, 10⟩ none 0 = .ok s'' ∧ s''.tsproc 1 = some t' ∧
      t'.ts_nice = nice_of twenty t'.ts_upri := by
  have heeds : Heeds twenty nobody (.enterclass 1 (some ⟨10, 0⟩) none (some 0) 0) := by
    rintro _ ⟨⟩
    decide
  have run : Run twenty (Heeds twenty) nobody _ :=
    Run.next .start heeds (show step twenty nobody (.enterclass 1 (some ⟨10, 0⟩) none (some 0) 0) = some _ from rfl)
  have in_step := (nice_in_step ⟨by decide, by decide⟩ (fun _ => rfl) run).2
  exact ⟨_, _, _, _, rfl, rfl, rfl, rfl, in_step 1 _ ⟨10, 10⟩ none none 0 _ _ rfl (by decide) ⟨by decide, by decide⟩ rfl rfl⟩

/-- A process that enters with the least user priority, and one that asks for more than its
limit. -/
theorem nice_out_of_step : (∃ s', Run twenty (fun _ _ => True) nobody s' ∧ ∃ t, s'.tsproc 1 = some t ∧ ¬ t.ts_nice < 2 * NZERO) ∧
    ∃ s' s'' t t', Run twenty (fun _ _ => True) nobody s' ∧ s'.tsproc 1 = some t ∧ ts_parmsin twenty ⟨0, 20⟩ none (some t) = none ∧
      ts_parmsset twenty s' 1 t ⟨0, 20⟩ none 0 = .ok s'' ∧ s''.tsproc 1 = some t' ∧ t'.ts_nice ≠ nice_of twenty t'.ts_upri := by
  refine ⟨⟨_, Run.steps [.enterclass 1 (some ⟨-20, -20⟩) none (some 0) 0] .start (fun _ _ _ => trivial) rfl, _, rfl, by decide⟩, ?_⟩
  exact ⟨_, _, _, _, Run.steps [.enterclass 1 none none (some 0) 0] .start (fun _ _ _ => trivial) rfl, rfl, by decide, rfl, rfl, by decide⟩

end Svr4.Proofs.TsNice
