import Svr4.Proofs.CronAhead

/-! `next_time` returns the next minute at which an event is due. -/

namespace Svr4.Proofs.CronTimes
open Cron CronFields CronDays CronAhead

variable {e : Ct} {tm : Tm} {days : Nat} {current lower upper hour minute offset t : Int} {s : Str}

/-- An event may occur in a minute of local time since the epoch. -/
def OnMinute (e : Ct) (n : Nat) : Prop := Listed e.minute (n % 60 : Nat) ∧ Listed e.hour (n / 60 % 24 : Nat) ∧ OnDay e (n / 1440)

/-- The first minute after the current one in which the event may occur. -/
structure Due (e : Ct) (now n : Nat) : Prop where
  after : now < n
  on_minute : OnMinute e n
  first : ∀ k, now < k → k < n → ¬ OnMinute e k

def DueToday (e : Ct) (now : Nat) : Prop := ∃ n, now < n ∧ n / 1440 = now / 1440 ∧ OnMinute e n

def minute_now (offset t : Int) : Nat := ((t + offset) / 60).toNat

theorem next_ge_here (current : Int) (field : Field lower upper s) (small : upper < DUMMY) (low : lower ≤ current) (high : current ≤ upper) :
    current = next_ge current s ↔ Listed s current := by
  obtain ⟨listed, _, _, first⟩ := next_ge_done current field small low high
  generalize next_ge current s = r at *
  refine ⟨fun same => same ▸ listed, fun now => ?_⟩
  rcases first with ⟨after, none_⟩ | ⟨_, none_, _⟩
  · by_contra other
    exact none_ current le_rfl (by omega) now
  · exact absurd now (none_ current le_rfl high)

theorem next_ge_first (field : Field lower upper s) (small : upper < DUMMY) (some_ : lower ≤ upper) :
    Listed s (next_ge lower s) ∧ lower ≤ next_ge lower s ∧ next_ge lower s ≤ upper ∧ ∀ x, lower ≤ x → x < next_ge lower s → ¬ Listed s x := by
  obtain ⟨listed, low, high, first⟩ := next_ge_done _ field small le_rfl some_
  rcases first with ⟨_, none_⟩ | ⟨before, _⟩
  · exact ⟨listed, low, high, none_⟩
  · omega

structure OnClock (e : Ct) (hour minute : Int) : Prop where
  hours : Listed e.hour hour
  minutes : Listed e.minute minute
  hour_low : 0 ≤ hour
  hour_high : hour ≤ 23
  minute_low : 0 ≤ minute
  minute_high : minute ≤ 59

structure Clock (e : Ct) (tm : Tm) (hr min : Int) (carry : Bool) : Prop where
  found : carry = false → OnClock e hr min ∧ 60 * tm.tm_hour + tm.tm_min < 60 * hr + min ∧
    ∀ h m, OnClock e h m → 60 * tm.tm_hour + tm.tm_min < 60 * h + m → 60 * hr + min ≤ 60 * h + m
  none_ : carry = true → ∀ h m, OnClock e h m → 60 * h + m ≤ 60 * tm.tm_hour + tm.tm_min

theorem later_done (fields : Fields e) (hour_low : 0 ≤ tm.tm_hour) (hour_high : tm.tm_hour ≤ 23) (min_low : 0 ≤ tm.tm_min)
    (min_high : tm.tm_min ≤ 59) : Clock e tm (later e tm).1 (later e tm).2.1 (later e tm).2.2 := by
  have same : tm.tm_hour % 24 = tm.tm_hour := Int.emod_eq_of_lt hour_low (by omega)
  obtain ⟨listed, low, high, first⟩ := next_ge_done tm.tm_hour fields.hour (by decide) hour_low hour_high
  unfold later
  dsimp only
  rw [same]
  by_cases sooner : tm.tm_hour + 1 ≤ next_ge tm.tm_hour e.hour
  · -- a later hour, from its first minute on
    obtain ⟨listed', low', high', least⟩ := next_ge_first fields.minute (by decide) (by decide)
    have start : (0 : Int) % 60 = 0 := rfl
    rw [if_pos sooner, start, if_neg (not_lt.mpr low'), add_zero, same, decide_eq_false (by omega)]
    refine ⟨fun _ => ⟨⟨listed, listed', low, high, low', high'⟩, by omega, fun h m clock after => ?_⟩, (fun no => by cases no)⟩
    have none_ : ∀ x, tm.tm_hour ≤ x → x < next_ge tm.tm_hour e.hour → ¬ Listed e.hour x := by
      rcases first with ⟨_, none_⟩ | ⟨before, _⟩
      · exact none_
      · omega
    have later_hour : next_ge tm.tm_hour e.hour ≤ h := by
      by_contra earlier
      have := clock.minute_high
      exact none_ h (by omega) (by omega) clock.hours
    by_contra earlier
    have := clock.minute_low
    exact least m (by omega) (by omega) clock.minutes
  rw [if_neg sooner]
  -- no later hour before the current one comes again
  have no_hour : next_ge tm.tm_hour e.hour = tm.tm_hour ∨ ∀ x, tm.tm_hour ≤ x → x ≤ 23 → ¬ Listed e.hour x := by
    rcases first with ⟨after, _⟩ | ⟨_, none_, _⟩
    · exact .inl (by omega)
    · exact .inr none_
  -- the minute in the current hour, or that of another
  have minutes : ∀ min, next_ge ((tm.tm_min + 1) % 60) e.minute = min → Listed e.minute min ∧ 0 ≤ min ∧ min ≤ 59 ∧
      (tm.tm_min + 1 ≤ min ∧ (∀ x, tm.tm_min + 1 ≤ x → x < min → ¬ Listed e.minute x) ∨
        min < tm.tm_min + 1 ∧ (∀ x, tm.tm_min + 1 ≤ x → x ≤ 59 → ¬ Listed e.minute x) ∧ ∀ x, 0 ≤ x → x < min → ¬ Listed e.minute x) := by
    rintro min rfl
    rcases Int.lt_or_eq_of_le min_high with more | last
    · rw [Int.emod_eq_of_lt (by omega) (by omega)]
      obtain ⟨listed', low', high', first'⟩ := next_ge_done (tm.tm_min + 1) fields.minute (by decide) (by omega) (by omega)
      exact ⟨listed', low', high', first'⟩
    · have start : (tm.tm_min + 1) % 60 = 0 := by omega
      rw [start]
      obtain ⟨listed', low', high', least⟩ := next_ge_first fields.minute (by decide) (by decide)
      exact ⟨listed', low', high', .inr ⟨by omega, fun x after before => by omega, least⟩⟩
  generalize min_is : next_ge ((tm.tm_min + 1) % 60) e.minute = min
  obtain ⟨listed', low', high', ⟨after, none_⟩ | ⟨before, none_, least⟩⟩ := minutes min min_is
  · rw [if_neg (by omega), add_zero, same]
    rcases no_hour with now | never
    · rw [now, decide_eq_false (lt_irrefl _)]
      rw [now] at listed
      refine ⟨fun _ => ⟨⟨listed, listed', hour_low, hour_high, low', high'⟩, by omega, fun h m clock past => ?_⟩, (fun no => by cases no)⟩
      by_contra earlier
      have := clock.minute_low
      have := clock.minute_high
      have is_hour : h = tm.tm_hour := by omega
      exact none_ m (by omega) (by omega) clock.minutes
    · have around : next_ge tm.tm_hour e.hour < tm.tm_hour := by
        by_contra other
        exact never _ (by omega) high listed
      rw [decide_eq_true around]
      refine ⟨(fun no => by cases no), fun _ h m clock => ?_⟩
      by_contra past
      have := clock.minute_high
      exact never h (by omega) clock.hour_high clock.hours
  · rw [if_pos before]
    have rest : ∀ h m, OnClock e h m → 60 * tm.tm_hour + tm.tm_min < 60 * h + m → tm.tm_hour + 1 ≤ h := by
      intro h m clock past
      have := clock.minute_high
      by_contra not_
      have is_hour : h = tm.tm_hour := by omega
      exact none_ m (by omega) this clock.minutes
    rcases Int.lt_or_eq_of_le hour_high with more | last
    · rw [Int.emod_eq_of_lt (show 0 ≤ tm.tm_hour + 1 by omega) (by omega)]
      obtain ⟨hours, hr_low, hr_high, hr_first⟩ := next_ge_done (tm.tm_hour + 1) fields.hour (by decide) (by omega) (by omega)
      rcases hr_first with ⟨on_, none_'⟩ | ⟨around, none_', _⟩
      · rw [decide_eq_false (not_lt.mpr on_)]
        refine ⟨fun _ => ⟨⟨hours, listed', hr_low, hr_high, low', high'⟩, by omega, fun h m clock past => ?_⟩, (fun no => by cases no)⟩
        have next := rest h m clock past
        have later_hour : next_ge (tm.tm_hour + 1) e.hour ≤ h := by
          by_contra earlier
          exact none_' h next (by omega) clock.hours
        by_contra earlier
        have := clock.minute_low
        exact least m (by omega) (by omega) clock.minutes
      · rw [decide_eq_true around]
        refine ⟨(fun no => by cases no), fun _ h m clock => ?_⟩
        by_contra past
        exact none_' h (rest h m clock (by omega)) clock.hour_high clock.hours
    · have start : (tm.tm_hour + 1) % 24 = 0 := by omega
      rw [start]
      obtain ⟨_, _, hr_high, _⟩ := next_ge_first fields.hour (by decide) (by decide)
      rw [decide_eq_true (by omega)]
      refine ⟨(fun no => by cases no), fun _ h m clock => ?_⟩
      by_contra past
      have := rest h m clock (by omega)
      have := clock.hour_high
      omega

theorem today_iff (fields : Fields e) {month mday : Nat} (is : On days month mday) (fits : Fits tm days month mday) :
    today e tm = true ↔ OnDay e days := by
  obtain ⟨mon, md, _, wd⟩ := fits
  have inside := is.2
  have bounds := length_bounds month
  have here : 0 ≤ wday days ∧ wday days ≤ 6 := by
    unfold wday
    omega
  have months := @month_listed_iff e month fields
  have mdays := next_ge_here ((mday : Int) + 1) fields.daymon (by decide) (by omega) (by omega)
  have wdays := next_ge_here (wday days) fields.dayweek (by decide) here.1 here.2
  unfold today
  rw [mon, md, wd, on_day_iff is]
  dsimp only
  rw [decide_eq_true_iff]
  unfold Rule
  by_cases monthly : e.daymon = ['*']
  · have all := listed_star monthly (mday + 1)
    rw [if_pos monthly]
    tauto
  · rw [if_neg monthly]
    by_cases weekly : e.dayweek = ['*']
    · have all := listed_star weekly (wday days)
      rw [if_pos weekly]
      tauto
    · rw [if_neg weekly]
      tauto

structure Local (offset t : Int) (days month mday : Nat) : Prop where
  on_ : On days month mday
  fits : Fits (localtime offset t) days month mday
  hour_low : 0 ≤ (localtime offset t).tm_hour
  hour_high : (localtime offset t).tm_hour ≤ 23
  min_low : 0 ≤ (localtime offset t).tm_min
  min_high : (localtime offset t).tm_min ≤ 59
  sec_low : 0 ≤ (localtime offset t).tm_sec
  sec_high : (localtime offset t).tm_sec ≤ 59
  whole : t + offset = 86400 * days + 3600 * (localtime offset t).tm_hour + 60 * (localtime offset t).tm_min + (localtime offset t).tm_sec

theorem localtime_done (since : 0 ≤ t + offset) : ∃ month mday, Local offset t (minute_now offset t / 1440) month mday := by
  have days_is : minute_now offset t / 1440 = ((t + offset) / 86400).toNat := by
    unfold minute_now
    omega
  rw [days_is]
  obtain ⟨month, mday, on_⟩ := on_exists ((t + offset) / 86400).toNat
  have at_ := on_.1
  unfold date at at_
  simp only [Prod.mk.injEq] at at_
  obtain ⟨year, mon⟩ := at_
  rw [year] at mon
  have weekday : (EPOCH_WDAY + (t + offset) / 86400) % 7 = wday ((t + offset) / 86400).toNat := by
    unfold wday
    omega
  refine ⟨month, mday, on_, ⟨?_, ?_, ?_, weekday⟩, ?_, ?_, ?_, ?_, ?_, ?_, ?_⟩
  · simp only [localtime, year, mon]
  · simp only [localtime, year, mon]
  · simp only [localtime, year]
  all_goals
    simp only [localtime]
    omega

theorem on_minute_iff {hr min : Nat} (hour_high : hr < 24) (min_high : min < 60) :
    OnMinute e (1440 * days + 60 * hr + min) ↔ OnClock e hr min ∧ OnDay e days := by
  have day : (1440 * days + 60 * hr + min) / 1440 = days := by omega
  have hour : (1440 * days + 60 * hr + min) / 60 % 24 = hr := by omega
  have minute : (1440 * days + 60 * hr + min) % 60 = min := by omega
  unfold OnMinute
  rw [day, hour, minute]
  constructor
  · rintro ⟨minutes, hours, on_day⟩
    exact ⟨⟨hours, minutes, by omega, by omega, by omega, by omega⟩, on_day⟩
  · rintro ⟨clock, on_day⟩
    exact ⟨clock.minutes, clock.hours, on_day⟩

theorem on_minute_clock (n : Nat) : OnMinute e n ↔ OnClock e (n / 60 % 24 : Nat) (n % 60 : Nat) ∧ OnDay e (n / 1440) := by
  have whole : n = 1440 * (n / 1440) + 60 * (n / 60 % 24) + n % 60 := by omega
  have split_ := @on_minute_iff e (n / 1440) (n / 60 % 24) (n % 60) (by omega) (by omega)
  rwa [← whole] at split_

theorem due_today {hr min : Nat} {now : Nat} {h m : Int} (now_is : (now : Int) = 1440 * days + 60 * h + m) (hour_low : 0 ≤ h) (hour_high : h ≤ 23)
    (min_low : 0 ≤ m) (min_high : m ≤ 59) (clock : OnClock e hr min) (after : 60 * h + m < 60 * hr + min)
    (least : ∀ h' m', OnClock e h' m' → 60 * h + m < 60 * h' + m' → 60 * (hr : Int) + min ≤ 60 * h' + m') (on_day : OnDay e days) :
    Due e now (1440 * days + 60 * hr + min) := by
  have high := clock.hour_high
  have high' := clock.minute_high
  refine ⟨by omega, (on_minute_iff (by omega) (by omega)).mpr ⟨clock, on_day⟩, fun k past before on_minute => ?_⟩
  obtain ⟨earlier, _⟩ := (on_minute_clock k).mp on_minute
  have := least _ _ earlier (by omega)
  omega

theorem due_later_iff (fields : Fields e) {now days' hr min : Nat} (same : now / 1440 = days) (after : days < days') (none_ : ¬ DueToday e now)
    (hr_is : next_ge 0 e.hour = hr) (min_is : next_ge 0 e.minute = min) :
    Due e now (1440 * days' + 60 * hr + min) ↔ FirstDay e days days' := by
  obtain ⟨hours, _, hr_high, hr_least⟩ := next_ge_first fields.hour (by decide) (by decide)
  obtain ⟨minutes, _, min_high, min_least⟩ := next_ge_first fields.minute (by decide) (by decide)
  rw [hr_is] at hours hr_high hr_least
  rw [min_is] at minutes min_high min_least
  have clock : OnClock e hr min := ⟨hours, minutes, by omega, hr_high, by omega, min_high⟩
  have split_ := fun d => @on_minute_iff e d hr min (by omega) (by omega)
  constructor
  · intro due
    refine ⟨after, ((split_ days').mp due.on_minute).2, fun k past before on_day => ?_⟩
    exact due.first _ (by omega) (by omega) ((split_ k).mpr ⟨clock, on_day⟩)
  · intro first_day
    refine ⟨by omega, (split_ days').mpr ⟨clock, first_day.on_day⟩, fun k past before on_minute => ?_⟩
    obtain ⟨earlier, on_day⟩ := (on_minute_clock k).mp on_minute
    rcases Nat.lt_or_ge (k / 1440) days' with sooner | later
    · rcases Nat.eq_or_lt_of_le (show days ≤ k / 1440 by omega) with today_ | next
      · exact none_ ⟨k, past, by omega, on_minute⟩
      · exact first_day.first _ next sooner on_day
    · have hour_later : hr ≤ k / 60 % 24 := by
        by_contra less
        exact hr_least _ (by omega) (by omega) earlier.hours
      by_contra
      exact min_least _ (by omega) (by omega) earlier.minutes

theorem next_time_done (fields : Fields e) (since : 0 ≤ t + offset) (until_ : (localtime offset t).tm_year ≤ 137) :
    ∃ n : Nat, next_time e offset t = long (60 * n - offset) ∧ minute_now offset t < n ∧ n ≤ minute_now offset t + 1440 * 502 ∧
      (Due e (minute_now offset t) n ↔ DueToday e (minute_now offset t) ∨
        ¬ Overrun e (minute_now offset t / 1440) ∧ ¬ Lacking e (minute_now offset t / 1440)) := by
  obtain ⟨month, mday, on_, fits, hour_low, hour_high, min_low, min_high, sec_low, sec_high, whole⟩ := localtime_done since
  have now_is : (minute_now offset t : Int) = 1440 * (minute_now offset t / 1440 : Nat) + 60 * (localtime offset t).tm_hour +
      (localtime offset t).tm_min := by
    unfold minute_now at *
    omega
  have clock := later_done fields hour_low hour_high min_low min_high
  have today_is := today_iff fields on_ fits
  have year := fits.year
  have epoch : 1970 ≤ month / 12 := by
    rcases Nat.eq_zero_or_pos (minute_now offset t / 1440) with none_ | some_
    · rw [none_] at on_
      obtain ⟨rfl, _⟩ := on_.unique on_zero
      decide
    · have less := on_zero.lt on_ some_
      have := on_.2
      have := length_bounds month
      omega
  unfold TM_YEAR_BASE at year
  have chosen := ahead_done fields on_ (by omega) (by omega) fits
  obtain ⟨days', days_is, after, near, first_iff⟩ := chosen_done on_ (by omega) (by omega) chosen
  rw [← fits.mon, ← fits.day, ← fits.year] at days_is
  unfold next_time
  dsimp only
  obtain ⟨⟨hr, min, carry⟩, later_is⟩ : ∃ x, later e (localtime offset t) = x := ⟨_, rfl⟩
  obtain ⟨⟨mon, day, yr⟩, ahead_is⟩ : ∃ x, ahead e (localtime offset t) = x := ⟨_, rfl⟩
  rw [later_is] at clock
  rw [ahead_is] at days_is
  rw [later_is, ahead_is]
  dsimp only at clock days_is ⊢
  generalize minute_now offset t = now at *
  generalize localtime offset t = tm at *
  by_cases on_today : ¬ carry = true ∧ today e tm = true
  · obtain ⟨still, on_day⟩ := on_today
    obtain ⟨found, later, least⟩ := clock.found (Bool.eq_false_of_not_eq_true still)
    obtain ⟨hr, rfl⟩ := Int.eq_ofNat_of_zero_le found.hour_low
    obtain ⟨min, rfl⟩ := Int.eq_ofNat_of_zero_le found.minute_low
    have due := due_today now_is hour_low hour_high min_low min_high found later least (today_is.mp on_day)
    have on_hour := found.hour_high
    have on_min := found.minute_high
    refine ⟨1440 * (now / 1440) + 60 * hr + min, ?_, due.after, by omega, fun _ => .inl ⟨_, due.after, by omega, due.on_minute⟩, fun _ => due⟩
    rw [if_pos ⟨still, on_day⟩]
    split
    all_goals
      congr 1
      push_cast
      omega
  · have none_ : ¬ DueToday e now := by
      rintro ⟨n, past, same, on_minute⟩
      obtain ⟨on_clock, on_day⟩ := (on_minute_clock n).mp on_minute
      rw [same] at on_day
      refine on_today ⟨fun carried => ?_, today_is.mpr on_day⟩
      have := clock.none_ carried _ _ on_clock
      omega
    obtain ⟨_, low, high, _⟩ := next_ge_first fields.hour (by decide) (by decide)
    obtain ⟨_, low', high', _⟩ := next_ge_first fields.minute (by decide) (by decide)
    obtain ⟨hr0, hr_is⟩ := Int.eq_ofNat_of_zero_le low
    obtain ⟨min0, min_is⟩ := Int.eq_ofNat_of_zero_le low'
    have due_iff := due_later_iff fields rfl after none_ hr_is min_is
    refine ⟨1440 * days' + 60 * hr0 + min0, ?_, by omega, by omega, ?_⟩
    · rw [if_neg on_today, hr_is, min_is]
      congr 1
      push_cast
      omega
    · rw [due_iff, first_iff]
      exact ⟨.inr, fun either => either.resolve_left none_⟩

theorem long_small {n : Int} (low : -2 ^ 31 ≤ n) (high : n < 2 ^ 31) : long n = n := by
  unfold long Int.bmod
  dsimp only
  split <;> omega

theorem long_large {n : Int} (low : 2 ^ 31 ≤ n) (high : n < 2 ^ 32) : long n = n - 2 ^ 32 := by
  unfold long Int.bmod
  dsimp only
  split <;> omega

/-- `next_time` is the next minute in which the event may occur, exactly if that can be
expressed and the event is still due today, or neither the current month nor the next of the list
lacks the day that is next in the list of days. -/
theorem next_time_due_iff {line : Str} (given : fields line = .ok e) (low : -2 ^ 31 ≤ t) (high : t < 2 ^ 31) (since : 0 ≤ t + offset)
    (until_ : (localtime offset t).tm_year ≤ 137) :
    (∃ n : Nat, Due e (minute_now offset t) n ∧ next_time e offset t = 60 * n - offset) ↔
      (∃ n : Nat, minute_now offset t < n ∧ OnMinute e n ∧ 60 * n - offset < 2 ^ 31) ∧
        (DueToday e (minute_now offset t) ∨
          ¬ Overrun e (minute_now offset t / 1440) ∧ ¬ Lacking e (minute_now offset t / 1440)) := by
  obtain ⟨n, is, after, near, due_iff⟩ := next_time_done (fields_done given) since until_
  rw [is]
  have past : 60 * (minute_now offset t : Int) ≤ t + offset ∧ t + offset < 60 * (minute_now offset t + 1) := by
    unfold minute_now
    omega
  constructor
  · rintro ⟨n', due, same⟩
    have after' := due.after
    have small : 60 * (n : Int) - offset < 2 ^ 31 := by
      by_contra large
      rw [long_large (not_lt.mp large) (by omega)] at same
      omega
    rw [long_small (by omega) small] at same
    obtain rfl : n' = n := by omega
    exact ⟨⟨n', after', due.on_minute, small⟩, due_iff.mp due⟩
  · rintro ⟨⟨n', after', on_minute, small⟩, fine⟩
    have due := due_iff.mpr fine
    have first : n ≤ n' := by
      by_contra sooner
      exact due.first n' after' (by omega) on_minute
    exact ⟨n, due, long_small (by omega) (by omega)⟩

theorem thirty_first_local : localtime 0 2592060 = ⟨0, 1, 0, 31, 0, 70, 6⟩ := by
  have year : year_day EPOCH_YEAR 30 = (1970, 30) := by
    rw [year_day]
    exact if_pos (by decide)
  have days : ((2592060 + 0 : Int) / 86400).toNat = 30 := by decide
  simp only [localtime, days, year]
  rfl

theorem early_date (inside : days < 365) : date days = (1970, mon_day (mon_lengths false) days) := by
  have year : year_day EPOCH_YEAR days = (1970, days) := by
    rw [year_day]
    exact if_pos inside
  simp only [date, year]
  rfl

/-- An event of the 31st is due in March again, but not on its third day. -/
theorem thirty_first_overruns :
    ∃ e, fields "0 0 31 * * ".toList = .ok e ∧ (∃ n : Nat, minute_now 0 2592060 < n ∧ OnMinute e n ∧ 60 * n - 0 < 2 ^ 31) ∧
      ¬ ∃ n : Nat, Due e (minute_now 0 2592060) n ∧ next_time e 0 2592060 = 60 * n - 0 := by
  refine ⟨⟨['0'], ['0'], ['3', '1'], ['*'], ['*']⟩, rfl, ⟨1440 * 89, by decide, ⟨by decide, by decide, ?_⟩, by decide⟩, ?_⟩
  · unfold OnDay Rule
    rw [early_date (by decide)]
    decide
  · rintro ⟨n, due, is⟩
    have value : next_time ⟨['0'], ['0'], ['3', '1'], ['*'], ['*']⟩ 0 2592060 = 5270400 := by
      rw [next_time, thirty_first_local]
      decide
    rw [value] at is
    obtain rfl : n = 87840 := by omega
    have on_day := due.on_minute.2.2
    unfold OnDay Rule at on_day
    rw [early_date (by decide)] at on_day
    revert on_day
    decide

/-- The next event of the 15th. -/
theorem fifteenth_due : ∃ n : Nat, Due ⟨['0'], ['0'], ['1', '5'], ['*'], ['*']⟩ (minute_now 0 2592060) n ∧
    next_time ⟨['0'], ['0'], ['1', '5'], ['*'], ['*']⟩ 0 2592060 = 60 * n - 0 := by
  have line : fields "0 0 15 * * ".toList = .ok ⟨['0'], ['0'], ['1', '5'], ['*'], ['*']⟩ := rfl
  have here : On 30 (12 * 1970) 30 := ⟨early_date (by decide), by decide⟩
  refine (next_time_due_iff line (by decide) (by decide) (by decide) (by rw [thirty_first_local]; decide)).mpr
    ⟨⟨1440 * 45, by decide, ⟨by decide, by decide, ?_⟩, by decide⟩, .inr ⟨?_, ?_⟩⟩
  · unfold OnDay Rule
    rw [early_date (by decide)]
    decide
  · rintro ⟨month, mday, x, on_, _, _, reaches, _⟩
    obtain ⟨rfl, rfl⟩ := On.unique on_ here
    exact reaches.first 15 (by decide) (by have := reaches.beyond; have := length_bounds (12 * 1970); omega) (by decide)
  · rintro ⟨month, mday, count, on_, _, _, _, missing⟩
    exact missing 15 (by decide) (by have := length_bounds (month + count); omega) (by decide)

end Svr4.Proofs.CronTimes
