import Svr4.Proofs.CronFields

/-! The days and the months that `localtime` and `days_btwn` count. -/

namespace Svr4.Proofs.CronDays
open Cron

variable {lengths : List Nat} {days' mday' month' : Nat}

/-- The year, the month and the day of a day since the epoch, the last two from 0. -/
def date (days : Nat) : Nat × Nat × Nat :=
  ((year_day EPOCH_YEAR days).1,
    mon_day (mon_lengths (isleap (year_day EPOCH_YEAR days).1)) (year_day EPOCH_YEAR days).2)

/-- The length of a month. Months are counted from the year 0 on. -/
def length (month : Nat) : Nat := (mon_lengths (isleap (month / 12))).getD (month % 12) 0

def On (days month mday : Nat) : Prop := date days = (month / 12, month % 12, mday) ∧ mday < length month

variable {y days month mday k : Nat}

theorem year_day_lt (y days : Nat) : (year_day y days).2 < year_lengths (isleap (year_day y days).1) := by
  fun_induction year_day y days with
  | case1 y days inside => exact inside
  | case2 y days beyond ih => exact ih

theorem year_day_start (y : Nat) : year_day y 0 = (y, 0) := by rw [year_day, if_pos (year_some _)]

theorem year_day_succ (y days : Nat) :
    year_day y (days + 1) = if (year_day y days).2 + 1 < year_lengths (isleap (year_day y days).1) then
        ((year_day y days).1, (year_day y days).2 + 1)
      else ((year_day y days).1 + 1, 0) := by
  fun_induction year_day y days with
  | case1 y days inside =>
    dsimp only
    split
    case isTrue more => rw [year_day, if_pos more]
    case isFalse last =>
      have whole : days + 1 - year_lengths (isleap y) = 0 := by omega
      rw [year_day, if_neg last, whole, year_day_start]
  | case2 y days beyond ih =>
    have less : days + 1 - year_lengths (isleap y) = days - year_lengths (isleap y) + 1 := by omega
    rw [year_day, if_neg (by omega), less, ih]

theorem mon_day_lt (inside : days < lengths.sum) :
    (mon_day lengths days).1 < lengths.length ∧ (mon_day lengths days).2 < lengths.getD (mon_day lengths days).1 0 := by
  induction lengths generalizing days with
  | nil => simp at inside
  | cons ip rest ih =>
    rw [List.sum_cons] at inside
    unfold mon_day
    split
    case isTrue here => exact ⟨Nat.succ_pos _, here⟩
    case isFalse beyond =>
      obtain ⟨first, second⟩ := @ih (days - ip) (by omega)
      exact ⟨Nat.succ_lt_succ first, second⟩

theorem mon_day_start (full : ∀ ip ∈ lengths, 0 < ip) : mon_day lengths 0 = (0, 0) := by
  cases lengths with
  | nil => rfl
  | cons ip rest => rw [mon_day, if_pos (full ip (by simp))]

theorem mon_day_succ (full : ∀ ip ∈ lengths, 0 < ip) (inside : days < lengths.sum) :
    (days + 1 < lengths.sum → mon_day lengths (days + 1) =
      if (mon_day lengths days).2 + 1 < lengths.getD (mon_day lengths days).1 0 then ((mon_day lengths days).1, (mon_day lengths days).2 + 1)
      else ((mon_day lengths days).1 + 1, 0)) ∧
    (days + 1 = lengths.sum → (mon_day lengths days).1 + 1 = lengths.length ∧
      (mon_day lengths days).2 + 1 = lengths.getD (mon_day lengths days).1 0) := by
  induction lengths generalizing days with
  | nil => simp at inside
  | cons ip rest ih =>
    have one : 0 < ip := full ip (by simp)
    have others : ∀ ip ∈ rest, 0 < ip := fun x member => full x (by simp [member])
    rw [List.sum_cons] at inside ⊢
    by_cases here : days < ip
    · have at_ : mon_day (ip :: rest) days = (0, days) := if_pos here
      rw [at_]
      dsimp only
      rw [List.getD_cons_zero]
      refine ⟨fun _ => ?_, fun last => ?_⟩
      · by_cases more : days + 1 < ip
        · rw [mon_day, if_pos more, if_pos more]
        · have whole : days + 1 - ip = 0 := by omega
          rw [mon_day, if_neg more, if_neg more, whole, mon_day_start others]
      · cases rest with
        | nil => exact ⟨rfl, by simpa using last⟩
        | cons ip' rest =>
          have := others ip' (by simp)
          rw [List.sum_cons] at last
          omega
    · have at_ : mon_day (ip :: rest) days = ((mon_day rest (days - ip)).1 + 1, (mon_day rest (days - ip)).2) := if_neg here
      have next : mon_day (ip :: rest) (days + 1) = ((mon_day rest (days - ip + 1)).1 + 1, (mon_day rest (days - ip + 1)).2) := by
        have less : days + 1 - ip = days - ip + 1 := by omega
        rw [mon_day, if_neg (by omega), less]
      obtain ⟨more, last⟩ := @ih (days - ip) others (by omega)
      rw [at_]
      dsimp only
      rw [List.getD_cons_succ]
      refine ⟨fun inside' => ?_, fun ends => ?_⟩
      · rw [next, more (by omega)]
        split <;> rfl
      · obtain ⟨first, second⟩ := last (by omega)
        exact ⟨by rw [List.length_cons, first], second⟩

theorem mon_lengths_full (yleap : Bool) : (∀ ip ∈ mon_lengths yleap, 0 < ip) ∧ (mon_lengths yleap).sum = year_lengths yleap ∧
    (mon_lengths yleap).length = 12 := by
  cases yleap <;> decide

theorem length_bounds (month : Nat) : 28 ≤ length month ∧ length month ≤ 31 := by
  have within : ∀ yleap, ∀ m < 12, 28 ≤ (mon_lengths yleap).getD m 0 ∧ (mon_lengths yleap).getD m 0 ≤ 31 := by decide
  exact within _ _ (Nat.mod_lt _ (by omega))

theorem On.unique (first : On days month mday) (second : On days month' mday') : month = month' ∧ mday = mday' := by
  have same := first.1.symm.trans second.1
  simp only [Prod.mk.injEq] at same
  omega

theorem On.next (is : On days month mday) :
    On (days + 1) (if mday + 1 < length month then month else month + 1) (if mday + 1 < length month then mday + 1 else 0) := by
  obtain ⟨at_, inside⟩ := is
  unfold date at at_
  simp only [Prod.mk.injEq] at at_
  obtain ⟨year, mon⟩ := at_
  obtain ⟨full, whole, twelve⟩ := mon_lengths_full (isleap (month / 12))
  have within := year_day_lt EPOCH_YEAR days
  have after := year_day_succ EPOCH_YEAR days
  rw [year] at mon within after
  rw [← whole] at within after
  obtain ⟨more, last⟩ := mon_day_succ full within
  rw [mon] at more last
  dsimp only at more last
  change (_ → mon_day _ _ = if mday + 1 < length month then _ else _) at more
  change (_ → _ ∧ mday + 1 = length month) at last
  by_cases ends : (year_day EPOCH_YEAR days).2 + 1 < (mon_lengths (isleap (month / 12))).sum
  · rw [if_pos ends] at after
    have now := more ends
    split
    case isTrue goes =>
      rw [if_pos goes] at now
      refine ⟨?_, goes⟩
      unfold date
      rw [after]
      dsimp only
      rw [now]
    case isFalse stops =>
      rw [if_neg stops] at now
      have bound := (mon_day_lt ends).1
      rw [now, twelve] at bound
      have bound : month % 12 + 1 < 12 := bound
      refine ⟨?_, by have := length_bounds (month + 1); omega⟩
      unfold date
      rw [after]
      dsimp only
      rw [now]
      have same : (month + 1) / 12 = month / 12 := by omega
      have up : (month + 1) % 12 = month % 12 + 1 := by omega
      rw [same, up]
  · rw [if_neg ends] at after
    obtain ⟨december, end_⟩ := last (by omega)
    rw [twelve] at december
    rw [if_neg (by omega), if_neg (by omega)]
    refine ⟨?_, by have := length_bounds (month + 1); omega⟩
    unfold date
    rw [after]
    dsimp only
    rw [mon_day_start (mon_lengths_full _).1]
    have up : (month + 1) / 12 = month / 12 + 1 := by omega
    have zero : (month + 1) % 12 = 0 := by omega
    rw [up, zero]

theorem on_zero : On 0 (12 * 1970) 0 := by
  refine ⟨?_, by decide⟩
  unfold date
  rw [EPOCH_YEAR, year_day_start]
  decide

theorem on_exists (days : Nat) : ∃ month mday, On days month mday := by
  induction days with
  | zero => exact ⟨_, _, on_zero⟩
  | succ days ih =>
    obtain ⟨month, mday, is⟩ := ih
    exact ⟨_, _, is.next⟩

theorem On.later (is : On days month mday) (inside : mday + k < length month) : On (days + k) month (mday + k) := by
  induction k with
  | zero => exact is
  | succ k ih =>
    have next := (ih (by omega)).next
    rw [if_pos (by omega), if_pos (by omega)] at next
    exact next

theorem On.month_end (is : On days month mday) : On (days + (length month - mday)) (month + 1) 0 := by
  have inside := is.2
  have last := (is.later (k := length month - mday - 1) (by omega)).next
  rw [if_neg (by omega), if_neg (by omega)] at last
  have whole : days + (length month - mday - 1) + 1 = days + (length month - mday) := by omega
  rw [← whole]
  exact last

theorem On.first (is : On days month mday) : ∃ start, On start month 0 ∧ start + mday = days := by
  induction days generalizing month mday with
  | zero =>
    obtain ⟨rfl, rfl⟩ := is.unique on_zero
    exact ⟨0, is, rfl⟩
  | succ days ih =>
    obtain ⟨month', mday', before⟩ := on_exists days
    obtain ⟨rfl, rfl⟩ := is.unique before.next
    split
    case isTrue more =>
      obtain ⟨start, first, same⟩ := ih before
      exact ⟨start, first, by omega⟩
    case isFalse => exact ⟨days + 1, by simpa [*] using is, rfl⟩

theorem On.months (is : On days month 0) (count : Nat) : ∃ start, On start (month + count) 0 ∧ start ≤ days + 31 * count := by
  induction count with
  | zero => exact ⟨days, is, le_rfl⟩
  | succ count ih =>
    obtain ⟨start, first, near⟩ := ih
    have bounds := length_bounds (month + count)
    exact ⟨_, first.month_end, by omega⟩

theorem On.lt (is : On days month mday) (is' : On days' month' mday') (before : days < days') :
    32 * month + mday < 32 * month' + mday' := by
  induction before generalizing month' mday' with
  | refl =>
    obtain ⟨rfl, rfl⟩ := is.next.unique is'
    have := is.2
    have := length_bounds month
    split <;> omega
  | @step x before ih =>
    obtain ⟨month1, mday1, on⟩ := on_exists x
    have up := ih on
    obtain ⟨rfl, rfl⟩ := on.next.unique is'
    have := on.2
    have := length_bounds month1
    split <;> omega

theorem On.lt_iff (is : On days month mday) (is' : On days' month' mday') :
    days < days' ↔ 32 * month + mday < 32 * month' + mday' := by
  refine ⟨is.lt is', fun less => ?_⟩
  rcases lt_trichotomy days days' with before | rfl | after
  · exact before
  · obtain ⟨rfl, rfl⟩ := is.unique is'
    omega
  · have := is'.lt is after
    omega

theorem On.same (is : On days month mday) (is' : On days' month mday) : days = days' := by
  have := is.lt_iff is'
  have := is'.lt_iff is
  omega

theorem days_in_mon_eq (month : Nat) (after : 1901 ≤ month / 12) (before : month / 12 ≤ 2099) :
    days_in_mon (month % 12 : Nat) ((month / 12 : Nat) - TM_YEAR_BASE) = length month := by
  have leap : isleap (month / 12) = decide (((month / 12 : Nat) - TM_YEAR_BASE) % 4 = 0) := by
    unfold isleap TM_YEAR_BASE
    apply Bool.decide_congr
    omega
  unfold days_in_mon length
  rw [leap, Int.toNat_natCast]
  have small : month % 12 < 12 := Nat.mod_lt _ (by omega)
  generalize month % 12 = m at small ⊢
  generalize ((month / 12 : Nat) - TM_YEAR_BASE) % 4 = r
  by_cases zero : r = 0
  · simp only [zero, decide_true]
    revert small
    revert m
    decide
  · simp only [zero, decide_false, and_false, if_false]
    revert small
    revert m
    decide

theorem months_btwn_done {start stop count time : Nat} (first : On start month 0) (last : On stop (month + count) 0) (few : count < 12)
    (enough : count < time) (after : 1902 ≤ month / 12) (before : (month + count) / 12 ≤ 2099) (total : Int) :
    months_btwn ((month + count) % 12 : Nat) time (month % 12 : Nat) (((month - 1) / 12 : Nat) - TM_YEAR_BASE) total = total + (stop - start) := by
  induction count generalizing start month time total with
  | zero =>
    cases time with
    | zero => omega
    | succ time =>
      obtain rfl := first.same last
      rw [Nat.add_zero, months_btwn, if_pos rfl]
      omega
  | succ count ih =>
    cases time with
    | zero => omega
    | succ time =>
      have apart : ¬ ((month % 12 : Nat) : Int) = ((month + (count + 1)) % 12 : Nat) := by omega
      have year : (if ((month % 12 : Nat) : Int) = 0 then ((month - 1) / 12 : Nat) - TM_YEAR_BASE + 1 else ((month - 1) / 12 : Nat) - TM_YEAR_BASE) =
          (((month + 1 - 1) / 12 : Nat) : Int) - TM_YEAR_BASE := by
        split <;> omega
      have next : (((month % 12 : Nat) : Int) + 1) % 12 = ((month + 1) % 12 : Nat) := by omega
      have ends : month + (count + 1) = month + 1 + count := by omega
      have long := days_in_mon_eq month (by omega) (by omega)
      rw [months_btwn, if_neg apart]
      dsimp only
      rw [year, next]
      rw [ends] at last before ⊢
      rw [ih first.month_end last (by omega) (by omega) (by omega) before]
      have same : month + 1 - 1 = month := rfl
      rw [same, long]
      have := length_bounds month
      omega

theorem days_btwn_done {stop : Nat} (count : Nat) (day : Int) (is : On days month mday) (last : On stop (month + count) 0) (few : count ≤ 12)
    (now : count = 0 → mday + 1 < day) (year : count = 12 → day ≤ mday + 1) (after : 1902 ≤ month / 12) (before : month / 12 ≤ 2098) :
    days + 1 + days_btwn (month % 12 : Nat) (mday + 1) ((month / 12 : Nat) - TM_YEAR_BASE) ((month + count) % 12 : Nat) day
      (((month + count) / 12 : Nat) - TM_YEAR_BASE) = stop + day - 1 := by
  have inside := is.2
  unfold days_btwn
  cases count with
  | zero =>
    rw [Nat.add_zero] at last ⊢
    have front := last.later (k := mday) (by omega)
    rw [Nat.zero_add] at front
    have same := is.same front
    have less := now rfl
    rw [if_neg (by omega), if_pos (by omega)]
    omega
  | succ count =>
    have next : (((month % 12 : Nat) : Int) + 1) % 12 = ((month + 1) % 12 : Nat) := by omega
    have ends : month + (count + 1) = month + 1 + count := by omega
    have long := days_in_mon_eq month (by omega) (by omega)
    rw [if_neg (by omega), if_neg (by omega), next, long]
    rw [ends] at last ⊢
    have done := months_btwn_done is.month_end last (by omega) (Nat.lt_of_lt_of_le (Nat.lt_succ_self count) few) (by omega) (by omega)
      (length month - (mday + 1) + (day - 1))
    have same : month + 1 - 1 = month := rfl
    rw [same] at done
    rw [done]
    omega

end Svr4.Proofs.CronDays
