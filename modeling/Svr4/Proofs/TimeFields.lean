import Svr4.Library.Calendar
import Svr4.TimeComm

/-! The fields of a time are those of the calendar. -/

namespace Svr4.Proofs.TimeFields
open Library TimeComm

structure Shows (f : tm) (clock : Int) : Prop where
  yday : 0 ≤ f.tm_yday ∧ f.tm_yday < Calendar.yearDays (1900 + f.tm_year)
  sum : clock = 86400 * (Calendar.yearStart (1900 + f.tm_year) + f.tm_yday) + 3600 * f.tm_hour + 60 * f.tm_min + f.tm_sec
  hour : 0 ≤ f.tm_hour ∧ f.tm_hour < 24
  min : 0 ≤ f.tm_min ∧ f.tm_min < 60
  sec : 0 ≤ f.tm_sec ∧ f.tm_sec < 60
  month : ∃ m : Nat, m < 12 ∧ f.tm_mon = m ∧ f.tm_yday = Calendar.monthStart (Calendar.leap (1900 + f.tm_year)) m + (f.tm_mday - 1)
  mday : 1 ≤ f.tm_mday ∧ f.tm_mday ≤ Calendar.monthDays (Calendar.leap (1900 + f.tm_year)) f.tm_mon.toNat
  wday : f.tm_wday = Calendar.weekday (Calendar.yearStart (1900 + f.tm_year) + f.tm_yday)

variable {x y days mon clock : Int} {l rest : List Int} {f : tm}

theorem tmod_zero (x d : Int) : x.tmod d = 0 ↔ x % d = 0 := by rw [← Int.dvd_iff_tmod_eq_zero, Int.dvd_iff_emod_eq_zero]

theorem isleap_eq (y : Int) : isleap y = Calendar.leap y := by
  unfold isleap Calendar.leap
  simp only [tmod_zero, ne_eq]

theorem year_lengths_eq (y : Int) : __year_lengths (isleap y) = Calendar.yearDays y := by
  rw [isleap_eq]
  rfl

theorem years_found (start : 0 ≤ days) :
    Calendar.yearStart (years y days).1 + (years y days).2 = Calendar.yearStart y + days ∧ 0 ≤ (years y days).2 ∧
      (years y days).2 < Calendar.yearDays (years y days).1 := by
  fun_induction years y days with
  | case1 y days inside => exact ⟨rfl, start, by rwa [← year_lengths_eq]⟩
  | case2 y days outside ih =>
    rw [year_lengths_eq] at outside ih ⊢
    obtain ⟨same, low, high⟩ := ih (by omega)
    have := Calendar.yearStart_succ y
    exact ⟨by omega, low, high⟩

theorem years_before_found (start : days < 0) :
    Calendar.yearStart (years_before y days).1 + (years_before y days).2 = Calendar.yearStart y + days ∧ 0 ≤ (years_before y days).2 ∧
      (years_before y days).2 < Calendar.yearDays (years_before y days).1 := by
  fun_induction years_before y days with
  | case1 y days outside ih =>
    rw [year_lengths_eq] at outside ih
    obtain ⟨same, low, high⟩ := ih outside
    have := Calendar.yearStart_succ (y - 1)
    rw [sub_add_cancel] at this
    rw [year_lengths_eq] at *
    exact ⟨by omega, low, high⟩
  | case2 y days inside =>
    rw [year_lengths_eq] at inside ⊢
    have := Calendar.yearStart_succ (y - 1)
    rw [sub_add_cancel] at this
    simp only
    exact ⟨by omega, by omega, by omega⟩

theorem months_found (mon : Int) (rest : List Int) (low : 0 ≤ days) (high : days < l.sum) :
    ∃ j, j < l.length ∧ months (l ++ rest) mon days = some (mon + j, days - (l.take j).sum) ∧ 0 ≤ days - (l.take j).sum ∧
      days - (l.take j).sum < l.getD j 0 := by
  induction l generalizing mon days with
  | nil => simp only [List.sum_nil] at high; omega
  | cons length l ih =>
    by_cases inside : days < length
    · refine ⟨0, by simp, ?_, by simpa using low, by simpa using inside⟩
      rw [List.cons_append, months, if_neg (by omega)]
      simp
    · rw [List.sum_cons] at high
      obtain ⟨j, inside', found, low', high'⟩ := ih (mon + 1) (show 0 ≤ days - length by omega) (by omega)
      refine ⟨j + 1, by simpa using inside', ?_, by simp only [List.take_succ_cons, List.sum_cons]; omega,
        by simp only [List.take_succ_cons, List.sum_cons, List.getD_cons_succ]; omega⟩
      rw [List.cons_append, months, if_pos (by omega), found, List.take_succ_cons, List.sum_cons]
      simp only [Option.some.injEq, Prod.mk.injEq]
      push_cast
      exact ⟨by omega, by omega⟩

theorem mon_lengths_eq (leap : Bool) : ∃ rest, __mon_lengths.drop (if leap then MONS_PER_YEAR else 0) = Calendar.months leap ++ rest := by
  cases leap
  · exact ⟨_, rfl⟩
  · exact ⟨[], rfl⟩

theorem months_sum (leap : Bool) : (Calendar.months leap).sum = if leap then 366 else 365 := by
  cases leap <;> decide

theorem days_rem (clock : Int) : ∃ days rem : Int,
    (if clock.tmod SEC_PER_DAY < 0 then (clock.tdiv SEC_PER_DAY - 1, clock.tmod SEC_PER_DAY + SEC_PER_DAY)
      else (clock.tdiv SEC_PER_DAY, clock.tmod SEC_PER_DAY)) = (days, rem) ∧ 0 ≤ rem ∧ rem < 86400 ∧ clock = 86400 * days + rem := by
  have total : clock.tmod 86400 + 86400 * clock.tdiv 86400 = clock := Int.tmod_add_mul_tdiv clock 86400
  have low := Int.lt_tmod_of_pos clock (show (0 : Int) < 86400 by decide)
  have high := Int.tmod_lt_of_pos clock (show (0 : Int) < 86400 by decide)
  simp only [show SEC_PER_DAY = 86400 from rfl]
  by_cases negative : clock.tmod 86400 < 0
  · exact ⟨_, _, if_pos negative, by omega, by omega, by omega⟩
  · exact ⟨_, _, if_neg negative, by omega, by omega, by omega⟩

theorem year_found (days : Int) : ∃ y yday : Int, (if days ≥ 0 then years EPOCH_YEAR days else years_before EPOCH_YEAR days) = (y, yday) ∧
    Calendar.yearStart y + yday = days ∧ 0 ≤ yday ∧ yday < Calendar.yearDays y := by
  have epoch : Calendar.yearStart EPOCH_YEAR = 0 := by decide
  by_cases after : days ≥ 0
  · have found := years_found (y := EPOCH_YEAR) after
    rw [epoch, zero_add] at found
    exact ⟨_, _, if_pos after, found⟩
  · have found := years_before_found (y := EPOCH_YEAR) (not_le.mp after)
    rw [epoch, zero_add] at found
    exact ⟨_, _, if_neg after, found⟩

theorem rem_split {rem : Int} (low : 0 ≤ rem) (high : rem < 86400) :
    rem = 3600 * rem.tdiv SEC_PER_HOUR + 60 * (rem.tmod SEC_PER_HOUR).tdiv SEC_PER_MIN + (rem.tmod SEC_PER_HOUR).tmod SEC_PER_MIN ∧
      (0 ≤ rem.tdiv SEC_PER_HOUR ∧ rem.tdiv SEC_PER_HOUR < 24) ∧
      (0 ≤ (rem.tmod SEC_PER_HOUR).tdiv SEC_PER_MIN ∧ (rem.tmod SEC_PER_HOUR).tdiv SEC_PER_MIN < 60) ∧
      0 ≤ (rem.tmod SEC_PER_HOUR).tmod SEC_PER_MIN ∧ (rem.tmod SEC_PER_HOUR).tmod SEC_PER_MIN < 60 := by
  simp only [show SEC_PER_HOUR = 3600 from rfl, show SEC_PER_MIN = 60 from rfl]
  have left : 0 ≤ rem % 3600 := by omega
  rw [Int.tmod_eq_emod_of_nonneg low, Int.tdiv_eq_ediv_of_nonneg low, Int.tmod_eq_emod_of_nonneg left, Int.tdiv_eq_ediv_of_nonneg left]
  omega

theorem wday_eq (days : Int) :
    (if (EPOCH_WDAY + days).tmod DAYS_PER_WEEK < 0 then (EPOCH_WDAY + days).tmod DAYS_PER_WEEK + DAYS_PER_WEEK
      else (EPOCH_WDAY + days).tmod DAYS_PER_WEEK) = Calendar.weekday days := by
  simp only [show EPOCH_WDAY = 4 from rfl, show DAYS_PER_WEEK = 7 from rfl]
  have total : (4 + days).tmod 7 + 7 * (4 + days).tdiv 7 = 4 + days := Int.tmod_add_mul_tdiv ..
  have low := Int.lt_tmod_of_pos (4 + days) (show (0 : Int) < 7 by decide)
  have high := Int.tmod_lt_of_pos (4 + days) (show (0 : Int) < 7 by decide)
  unfold Calendar.weekday
  split_ifs <;> omega

theorem gmtime_shows (clock : Int) : ∃ f, gmtime clock = some f ∧ Shows f clock ∧ f.tm_isdst = 0 := by
  obtain ⟨days, rem, split_, low, high, total⟩ := days_rem clock
  obtain ⟨y, yday, walk, same, inside⟩ := year_found days
  obtain ⟨rest, table⟩ := mon_lengths_eq (Calendar.leap y)
  obtain ⟨j, month, found, first, last⟩ := months_found 0 rest (l := Calendar.months (Calendar.leap y)) inside.1
    (by rw [months_sum]; exact inside.2)
  rw [zero_add] at found
  obtain ⟨parts, hour, min, sec⟩ := rem_split low high
  refine ⟨_, by simp only [gmtime, split_, walk, isleap_eq, table, found]; rfl, ?_, rfl⟩
  have year : 1900 + (y - TM_YEAR_BASE) = y := by
    unfold TM_YEAR_BASE
    omega
  constructor <;> simp only [year]
  · exact inside
  · omega
  · exact hour
  · exact min
  · exact sec
  · exact ⟨j, month, rfl, by unfold Calendar.monthStart; omega⟩
  · rw [Int.toNat_natCast]
    unfold Calendar.monthDays
    omega
  · rw [same]
    exact wday_eq days

theorem long_eq (low : -2 ^ 31 ≤ x) (high : x < 2 ^ 31) : long x = x := by
  unfold long
  apply Int.bmod_eq_of_le_mul_two
  · push_cast
    omega
  · push_cast
    omega

theorem long_bounds (x : Int) : -2 ^ 31 ≤ long x ∧ long x < 2 ^ 31 := by
  unfold long Int.bmod
  push_cast
  split_ifs <;> omega

theorem long_add (x y : Int) : long (long x + y) = long (x + y) := Int.bmod_add_bmod

theorem Shows.near (shows_ : Shows f clock) (low : -2 ^ 31 ≤ clock) (high : clock < 2 ^ 31) : 1 ≤ f.tm_year ∧ f.tm_year ≤ 138 := by
  have first : Calendar.yearStart 1901 = -25202 := by decide
  have last : Calendar.yearStart 2039 = 25202 := by decide
  have sum := shows_.sum
  obtain ⟨begins, inside⟩ := shows_.yday
  have := shows_.hour
  have := shows_.min
  have := shows_.sec
  constructor
  · by_contra before
    have := Calendar.yearStart_mono (show 1900 + f.tm_year < 1901 by omega)
    omega
  · by_contra after
    rcases (show 2039 ≤ 1900 + f.tm_year by omega).eq_or_lt with same | later
    · rw [← same, last] at sum
      omega
    · have := Calendar.yearStart_mono later
      have := Calendar.yearDays_bounds 2039
      omega

end Svr4.Proofs.TimeFields
