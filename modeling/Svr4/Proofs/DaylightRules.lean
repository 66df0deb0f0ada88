import Svr4.Proofs.ZoneText

/-! The rules for daylight saving time. A fifth week is looked for in the length of the next month, and the year 2000
is not taken for a leap year. -/

namespace Svr4.Proofs.DaylightRules
open Library TimeComm TimeFields ZoneText

variable {y y' wd d length first clock : Int} {m k time : Nat} {f : tm} {day : Day}

def place (y : Int) : Day → Int
  | .n jul => jul
  | .J jul => if Calendar.leap y ∧ 59 ≤ jul then jul + 1 else jul
  | .M m n d => Calendar.monthStart (Calendar.leap y) (m - 1).toNat + Calendar.nthOf y (m - 1).toNat n d - 1

/-- The length of the month behind a month, counted from 1, in a table in which 2000 is a common year. -/
def behind (y m : Int) : Int := Calendar.monthDays (Calendar.leap y ∧ y ≠ 2000) (m % 12).toNat

/-- In 2000, taken for a common year, the days of the year from March on are counted one short. -/
def miscount (y m : Int) : Int := if y = 2000 ∧ 3 ≤ m then 1 else 0

def Unreadable (y m n : Int) : Bool := m = 12 ∧ n ≠ 1 ∧ Calendar.leap y ∧ y ≠ 2000

/-- From March 2000 on, when the first such weekday is the seventh of the month, the last day
of the month before is taken for it. -/
def WeekEarly (y m n d : Int) : Bool := y = 2000 ∧ 3 ≤ m ∧ n < 5 ∧ Calendar.firstOf y (m - 1).toNat d = 7

def HasFifth (y m d : Int) : Bool := Calendar.firstOf y (m - 1).toNat d + 28 ≤ Calendar.monthDays (Calendar.leap y) (m - 1).toNat

/-- The fifth such weekday is looked for in the length of the month behind. -/
def SeesFifth (y m d : Int) : Bool := Calendar.firstOf y (m - 1).toNat d + 28 + miscount y m ≤ behind y m

/-- A last such weekday which is the fifth, and for which the month behind is too short. -/
def FifthMissed (y m n d : Int) : Bool := n = 5 ∧ HasFifth y m d ∧ ¬ SeesFifth y m d

/-- A last such weekday which is the fourth, with a fifth in the month behind. -/
def FifthAdded (y m n d : Int) : Bool := n = 5 ∧ ¬ HasFifth y m d ∧ Calendar.firstOf y (m - 1).toNat d + miscount y m ≠ 8 ∧ SeesFifth y m d

/-- The days by which a rule is missed, by its form and the year. -/
def slip (y : Int) : Day → Option Int
  | .n _ => some 0
  | .J jul => some (if y = 2000 ∧ 59 ≤ jul then -1 else 0)
  | .M m n d =>
    if Unreadable y m n then none
    else if WeekEarly y m n d ∨ FifthMissed y m n d then some (-7)
    else if FifthAdded y m n d then some 7
    else some 0

def moved (y : Int) (day : Day) : Option Int := (slip y day).map (place y day + ·)

theorem slip_weeks {m n d : Int} (month : 1 ≤ m ∧ m ≤ 12) (week : n ≤ 5) :
    slip y (.M m n d) =
      if n ≠ 1 ∧ m = 12 ∧ Calendar.leap y ∧ y ≠ 2000 then none
      else if Calendar.firstOf y (m - 1).toNat d + miscount y m = 8 then some (if n < 5 then -7 else 0)
      else if n < 5 then some 0
      else some ((if Calendar.firstOf y (m - 1).toNat d + 28 + miscount y m ≤ behind y m then 7 else 0) -
        if Calendar.firstOf y (m - 1).toNat d + 28 ≤ Calendar.monthDays (Calendar.leap y) (m - 1).toNat then 7 else 0) := by
  have first := Calendar.firstOf_bounds y (m - 1).toNat d
  have own := (Calendar.monthDays_bounds (Calendar.leap y) (show (m - 1).toNat < 12 by omega)).2
  have next := (Calendar.monthDays_bounds (Calendar.leap y ∧ y ≠ 2000) (show (m % 12).toNat < 12 by omega)).2
  rw [← behind] at next
  have early : miscount y m = if y = 2000 ∧ 3 ≤ m then 1 else 0 := rfl
  by_cases out : n ≠ 1 ∧ m = 12 ∧ Calendar.leap y = true ∧ y ≠ 2000
  · have out' : Unreadable y m n = true := decide_eq_true ⟨out.2.1, out.1, out.2.2⟩
    rw [slip, if_pos out', if_pos out]
  · have in_ : ¬ Unreadable y m n = true := fun other => by
      obtain ⟨december, late, rest⟩ := of_decide_eq_true other
      exact out ⟨late, december, rest⟩
    rw [slip, if_neg in_, if_neg out]
    simp only [WeekEarly, FifthMissed, FifthAdded, HasFifth, SeesFifth, decide_eq_true_eq]
    generalize miscount y m = e at *
    generalize Calendar.firstOf y (m - 1).toNat d = f at *
    generalize Calendar.monthDays (Calendar.leap y) (m - 1).toNat = l at *
    generalize behind y m = b at *
    clear out in_
    split_ifs <;> first | rfl | omega

theorem first_day_found (first wd : Int) (time : Nat) (low : 0 ≤ wd) (high : wd ≤ 6) (low' : 0 ≤ d) (high' : d ≤ 6) (enough : (d - wd) % 7 < time) :
    first_day first wd d time = some (first + (d - wd) % 7) := by
  induction time generalizing first wd with
  | zero => omega
  | succ time ih =>
    unfold first_day
    split_ifs with here
    · rw [here, sub_self, Int.zero_emod, add_zero]
    · rw [Int.tmod_eq_emod_of_nonneg (by omega), show DAYS_PER_WEEK = 7 from rfl]
      rw [ih _ _ (by omega) (by omega) (by push_cast at enough; omega)]
      congr 1
      omega

theorem nth_week_found (low : first ≤ 7) (wide : 28 ≤ length) (few : k ≤ 4) :
    nth_week (some length) first k = some (if k < 4 then first + 7 * k else if first + 28 ≤ length then first + 28 else first + 21) := by
  have turn : ∀ d k, nth_week (some length) d (k + 1) = if d + 7 > length then some d else nth_week (some length) (d + 7) k := by
    intro d k
    rw [nth_week, show DAYS_PER_WEEK = 7 from rfl]
    simp only [Option.bind_eq_bind, Option.bind_some]
    split_ifs <;> rfl
  have stop : ∀ d, nth_week (some length) d 0 = some d := fun _ => rfl
  interval_cases k <;> simp only [turn, stop] <;> split_ifs <;> simp only [Option.some.injEq] <;> omega

theorem code_leap (low : 1901 ≤ y) (high : y ≤ 2099) : isleap (y - 1900) = decide (Calendar.leap y ∧ y ≠ 2000) := by
  rw [isleap_eq, Calendar.leap_near low high]
  unfold Calendar.leap
  simp only [decide_eq_true_eq, decide_eq_decide]
  omega

theorem begins_found (leap : Bool) (inside : m < 12) :
    at_ (if leap then __lyday_to_month else __yday_to_month) m = some (Calendar.monthStart leap m) := by
  cases leap <;> interval_cases m <;> decide

theorem length_found (leap : Bool) (inside : m < 12) :
    at_ __mon_lengths ((if leap then MONS_PER_YEAR else 0 : Nat) + (m + 1 : Int)) =
      if leap ∧ m = 11 then none else some (Calendar.monthDays leap ((m + 1) % 12)) := by
  cases leap <;> interval_cases m <;> decide

theorem wd_jan01_found (shows_ : Shows f clock) :
    (if f.tm_wday - f.tm_yday.tmod DAYS_PER_WEEK < 0 then f.tm_wday - f.tm_yday.tmod DAYS_PER_WEEK + DAYS_PER_WEEK
      else f.tm_wday - f.tm_yday.tmod DAYS_PER_WEEK) = Calendar.weekday (Calendar.yearStart (1900 + f.tm_year)) := by
  have wday := shows_.wday
  have := shows_.yday.1
  rw [show DAYS_PER_WEEK = 7 from rfl, Int.tmod_eq_emod_of_nonneg this]
  unfold Calendar.weekday at *
  split_ifs <;> omega

theorem month_early (low : 1901 ≤ y) (high : y ≤ 2099) (inside : m < 12) :
    Calendar.monthStart (Calendar.leap y) m = Calendar.monthStart (isleap (y - 1900)) m + if y = 2000 ∧ 3 ≤ (m + 1 : Int) then 1 else 0 := by
  rw [code_leap low high]
  by_cases here : y = 2000
  · subst here
    rw [show Calendar.leap 2000 = true by decide, show decide (true = true ∧ (2000 : Int) ≠ 2000) = false by decide, Calendar.monthStart_leap inside]
    congr 1
    split_ifs <;> omega
  · simp [here]

theorem first_early {ys ms early : Int} :
    1 + (d - ((ys + 4) % 7 + ms) % 7) % 7 = 1 + (1 + (d - (ys + (ms + early) + 4) % 7) % 7 - 1 + early) % 7 := by
  omega

/-- The weeks that are counted from a first day that may be `early`, with the lengths of the month behind and of the month. -/
theorem weeks_early {n early first behind length : Int} (ms : Int) (first_low : 1 ≤ first) (first_high : first ≤ 7) (low : 1 ≤ n) (high : n ≤ 5)
    (one : early = 0 ∨ early = 1 ∧ 29 ≤ behind) (short : length ≤ 31) :
    ms + (if (n - 1).toNat < 4 then 1 + (first - 1 + early) % 7 + 7 * (n - 1).toNat
        else if 1 + (first - 1 + early) % 7 + 28 ≤ behind then 1 + (first - 1 + early) % 7 + 28 else 1 + (first - 1 + early) % 7 + 21) - 1 =
      ms + early + (if n < 5 then first + 7 * (n - 1) else if first + 28 ≤ length then first + 28 else first + 21) - 1 +
        if first + early = 8 then (if n < 5 then -7 else 0)
        else if n < 5 then 0 else (if first + 28 + early ≤ behind then 7 else 0) - if first + 28 ≤ length then 7 else 0 := by
  have turned : (first - 1 + early) % 7 = if first + early = 8 then 0 else first - 1 + early := by
    split_ifs <;> omega
  rw [turned]
  by_cases few : n < 5
  · rw [if_pos (show (n - 1).toNat < 4 by omega)]
    simp only [if_pos few]
    split_ifs <;> omega
  · rw [if_neg (show ¬(n - 1).toNat < 4 by omega)]
    simp only [if_neg few]
    split_ifs <;> omega

theorem julian_found (shows_ : Shows f clock) (low : 1 ≤ f.tm_year) (high : f.tm_year ≤ 138) (valid : Valid day) :
    julian f day = moved (1900 + f.tm_year) day := by
  obtain ⟨y, year⟩ : ∃ y, y = 1900 + f.tm_year := ⟨_, rfl⟩
  have before : f.tm_year = y - 1900 := by omega
  have leap := code_leap (y := y) (by omega) (by omega)
  have jan := wd_jan01_found shows_
  rw [← year] at jan ⊢
  cases day with
  | n jul => simp [julian, moved, slip, place]
  | J jul =>
    have later : jul > FEB28 ↔ 59 ≤ jul := by
      unfold FEB28
      omega
    simp only [julian, before, moved, slip, place, Option.map_some, Option.some.injEq, leap, decide_eq_true_eq, later]
    by_cases here : y = 2000
    · have two_thousand : Calendar.leap 2000 = true := by decide
      simp only [here, two_thousand, ne_eq, not_true, and_false, false_and, if_false, true_and]
      split_ifs <;> omega
    · simp only [here, ne_eq, not_false_eq_true, and_true, false_and, if_false, add_zero]
  | M m n d =>
    obtain ⟨⟨m_low, m_high⟩, ⟨n_low, n_high⟩, d_low, d_high⟩ := valid
    obtain ⟨j, rfl⟩ : ∃ j : Nat, m = j + 1 := ⟨(m - 1).toNat, by omega⟩
    have inside : j < 12 := by omega
    have begins := begins_found (isleap (y - 1900)) inside
    have length := length_found (isleap (y - 1900)) inside
    have early := month_early (y := y) (by omega) (by omega) inside
    obtain ⟨e, ahead⟩ : ∃ e : Int, e = if y = 2000 ∧ 3 ≤ (j + 1 : Int) then 1 else 0 := ⟨_, rfl⟩
    rw [← ahead] at early
    have bounds := Calendar.monthStart_bounds (isleap (y - 1900)) inside
    have weekday : Calendar.weekday (Calendar.yearStart y) = (Calendar.yearStart y + 4) % 7 := rfl
    have wd_low : 0 ≤ (Calendar.yearStart y + 4) % 7 := by omega
    have first := first_day_found 1 (((Calendar.yearStart y + 4) % 7 + Calendar.monthStart (isleap (y - 1900)) j) % 7) 7 (d := d)
      (by omega) (by omega) d_low d_high (by omega)
    simp only [julian, before, add_sub_cancel_right, begins, Option.bind_eq_bind, Option.bind_some, length]
    rw [jan, weekday, show DAYS_PER_WEEK = 7 from rfl, Int.tmod_eq_emod_of_nonneg (by omega), first]
    have first' : 1 + (d - ((Calendar.yearStart y + 4) % 7 + Calendar.monthStart (isleap (y - 1900)) j) % 7) % 7 =
        1 + (Calendar.firstOf y j d - 1 + e) % 7 := by
      unfold Calendar.firstOf Calendar.weekday
      rw [early]
      exact first_early
    have behind_eq : behind y (j + 1) = Calendar.monthDays (isleap (y - 1900)) ((j + 1) % 12) := by
      rw [leap, behind, show ((j + 1 : Int) % 12).toNat = (j + 1) % 12 by omega]
    have wide := Calendar.monthDays_bounds (isleap (y - 1900)) (m := (j + 1) % 12) (by omega)
    have short := Calendar.monthDays_bounds (Calendar.leap y) inside
    have one : e = 0 ∨ e = 1 ∧ 29 ≤ behind y (j + 1) := by
      rw [ahead]
      split_ifs with late
      · refine .inr ⟨rfl, ?_⟩
        rw [behind_eq, show isleap (y - 1900) = false by rw [leap]; simp [late.1]]
        have := late.2
        interval_cases j <;> first | omega | decide
      · exact .inl rfl
    obtain ⟨first_low, first_high⟩ := Calendar.firstOf_bounds y j d
    have weeks := weeks_early (Calendar.monthStart (isleap (y - 1900)) j) first_low first_high n_low n_high one short.2
    rw [first']
    simp only [Option.bind_some, moved, slip_weeks ⟨m_low, m_high⟩ n_high, miscount, place, add_sub_cancel_right, Int.toNat_natCast]
    have out_iff : (isleap (y - 1900) = true ∧ j = 11) ↔ (j + 1 : Int) = 12 ∧ Calendar.leap y ∧ y ≠ 2000 := by
      rw [leap, decide_eq_true_eq]
      constructor
      · rintro ⟨leap_, rfl⟩
        exact ⟨by norm_num, leap_⟩
      · rintro ⟨december, leap_⟩
        exact ⟨leap_, by omega⟩
    have merge : ∀ (p q : Prop) [Decidable p] [Decidable q] (x w : Int),
        (if p then some x else if q then some 0 else some w) = some (if p then x else if q then 0 else w) := by
      intro p q _ _ x w
      split_ifs <;> rfl
    have found : ∀ d', d' = (if (n - 1).toNat < 4 then 1 + (Calendar.firstOf y j d - 1 + e) % 7 + 7 * (n - 1).toNat
        else if 1 + (Calendar.firstOf y j d - 1 + e) % 7 + 28 ≤ behind y (j + 1) then 1 + (Calendar.firstOf y j d - 1 + e) % 7 + 28
        else 1 + (Calendar.firstOf y j d - 1 + e) % 7 + 21) → Calendar.monthStart (isleap (y - 1900)) j + d' - 1 = _ := fun d' same => same ▸ weeks
    rw [← ahead]
    by_cases out : isleap (y - 1900) = true ∧ j = 11
    · rw [if_pos out]
      by_cases once : n = 1
      · rw [if_neg fun both => both.1 once, merge, Option.map_some, early]
        subst once
        exact congrArg some (found _ (by simp))
      · obtain ⟨k, weeks_⟩ : ∃ k, (n - 1).toNat = k + 1 := ⟨(n - 1).toNat - 1, by omega⟩
        rw [if_pos ⟨once, out_iff.mp out⟩, weeks_]
        rfl
    · rw [if_neg out, if_neg fun both => out (out_iff.mpr both.2), merge, Option.map_some, early,
        nth_week_found (by omega) wide.1 (by omega), ← behind_eq]
      exact congrArg some (found _ rfl)

theorem moved_bounds {s : Int} (valid : Valid day) (found : moved y day = some s) : 0 ≤ s ∧ s ≤ 400 := by
  cases day with
  | n jul =>
    simp only [moved, slip, place, Option.map_some, Option.some.injEq] at found
    simp only [Valid] at valid
    omega
  | J jul =>
    simp only [moved, slip, place, Option.map_some, Option.some.injEq] at found
    simp only [Valid] at valid
    split_ifs at found <;> omega
  | M m n d =>
    obtain ⟨⟨m_low, m_high⟩, ⟨n_low, n_high⟩, -, -⟩ := valid
    obtain ⟨first_low, first_high⟩ := Calendar.firstOf_bounds y (m - 1).toNat d
    have begins := Calendar.monthStart_bounds (Calendar.leap y) (m := (m - 1).toNat) (by omega)
    have late : y = 2000 → 3 ≤ m → 60 ≤ Calendar.monthStart (Calendar.leap y) (m - 1).toNat := by
      rintro rfl march
      obtain ⟨j, month⟩ : ∃ j : Nat, (m - 1).toNat = j + 2 := ⟨(m - 1).toNat - 2, by omega⟩
      have : j < 10 := by omega
      rw [month]
      interval_cases j <;> decide
    simp only [moved, slip_weeks ⟨m_low, m_high⟩ n_high, miscount, place, Calendar.nthOf] at found
    by_cases out : n ≠ 1 ∧ m = 12 ∧ Calendar.leap y = true ∧ y ≠ 2000
    · simp [if_pos out] at found
    rw [if_neg out] at found
    by_cases early : y = 2000 ∧ 3 ≤ m
    · have := late early.1 early.2
      simp only [if_pos early] at found
      split_ifs at found <;> simp only [Option.map_some, Option.some.injEq] at found <;> omega
    · simp only [if_neg early] at found
      split_ifs at found <;> simp only [Option.map_some, Option.some.injEq] at found <;> omega

def InYear (y local_ : Int) : Prop := 86400 * Calendar.yearStart y ≤ local_ ∧ local_ < 86400 * (Calendar.yearStart y + Calendar.yearDays y)

theorem shows_year (shows_ : Shows f clock) (year : InYear y clock) :
    1900 + f.tm_year = y ∧ second_of_year f = clock - 86400 * Calendar.yearStart y := by
  obtain ⟨low, high⟩ := year
  have sum := shows_.sum
  have yday := shows_.yday
  have := shows_.hour
  have := shows_.min
  have := shows_.sec
  have counted : Calendar.yearStart (1900 + f.tm_year) + f.tm_yday =
      Calendar.yearStart y + (Calendar.yearStart (1900 + f.tm_year) + f.tm_yday - Calendar.yearStart y) := by omega
  obtain ⟨same, -⟩ := Calendar.year_unique yday.1 yday.2 (by omega) (by omega) counted
  refine ⟨same, ?_⟩
  rw [← same]
  simp only [second_of_year, SEC_PER_DAY, SEC_PER_HOUR, SEC_PER_MIN]
  omega

/-- Between the start and the end of daylight saving time, or outside of them when the end precedes the start. -/
def Lies (start end_ c : Int) : Prop := if start ≤ end_ then start ≤ c ∧ c < end_ else ¬(end_ ≤ c ∧ c < start)

instance (start end_ c : Int) : Decidable (Lies start end_ c) :=
  inferInstanceAs (Decidable (if start ≤ end_ then start ≤ c ∧ c < end_ else ¬(end_ ≤ c ∧ c < start)))

theorem in_daylight_eq (start end_ c : Int) : in_daylight start end_ c = decide (Lies start end_ c) := by
  unfold in_daylight Lies
  split_ifs <;> rfl

section Rule

variable (tz : Tz)

/-- The second of the year, in standard time, at which a change on a day is. -/
def startAt (day : Int) : Int := 86400 * day + tz.start.value

def endAt (day : Int) : Int := 86400 * day + tz.end_.value - (tz.timezone - tz.altzone)

def Daylight (y t : Int) : Prop :=
  Lies (startAt tz (place y tz.start.day.day)) (endAt tz (place y tz.end_.day.day)) (t - tz.timezone - 86400 * Calendar.yearStart y)

instance (y t : Int) : Decidable (Daylight tz y t) := inferInstanceAs (Decidable (Lies _ _ _))

structure Applied (y t : Int) (f : tm) : Prop where
  isdst : f.tm_isdst = if Daylight tz y t then 1 else 0
  fields : Shows f (t - if Daylight tz y t then tz.altzone else tz.timezone)

def movedDays (y : Int) : Option (Int × Int) := do return (← moved y tz.start.day.day, ← moved y tz.end_.day.day)

def lookedUp (y y' : Int) : Option (Int × Int) := do
  let (s, e) ← movedDays tz y
  if s ≤ e then some (s, e) else movedDays tz y'

/-- The year whose days are looked up: when the end precedes the start it is that of the alternative time. -/
def ruleYear (y y' : Int) : Option Int := (movedDays tz y).map fun days => if days.1 ≤ days.2 then y else y'

/-- The seconds by which a change is taken late, with the days looked up in the year `yr`. When a zone file has been
loaded before, the time that is compared is not counted from the beginning of the year. -/
def late (z : Zone) (y yr : Int) (day : Day) : Option Int :=
  (slip yr day).map fun days => 86400 * (days + place yr day - place y day) - if z.tz_state then 86400 * Calendar.yearStart y else 0

/-- The window of a change: from the change to the time at which it is taken, or the other way round. -/
def Window (change late c : Int) : Prop := change ≤ c ∧ c < change + late ∨ change + late ≤ c ∧ c < change

instance (change late c : Int) : Decidable (Window change late c) := inferInstanceAs (Decidable (_ ∨ _))

/-- Both days can be looked up, and the time is in the window of neither change, or of both. It is in one of them when
the changes trade places. -/
def Spared (z : Zone) (y y' t : Int) : Prop :=
  let c := t - tz.timezone - 86400 * Calendar.yearStart y
  let start := startAt tz (place y tz.start.day.day)
  let end_ := endAt tz (place y tz.end_.day.day)
  ∃ yr s e, ruleYear tz y y' = some yr ∧ late z y yr tz.start.day.day = some s ∧ late z y yr tz.end_.day.day = some e ∧
    ((Window start s c ↔ Window end_ e c) ↔ (start ≤ end_ ↔ start + s ≤ end_ + e))

end Rule

theorem lies_moved {start end_ late late' ahead c : Int} :
    (Lies (start + late + ahead) (end_ + late' + ahead) (c + ahead) ↔ Lies start end_ c) ↔
      ((Window start late c ↔ Window end_ late' c) ↔ (start ≤ end_ ↔ start + late ≤ end_ + late')) := by
  -- between the changes, just one of them has passed
  have lies : ∀ s e c : Int, Lies s e c ↔ ((s ≤ c ↔ e ≤ c) ↔ ¬ s ≤ e) := by
    intro s e c
    unfold Lies
    split_ifs with order
    · simp only [order, not_true_eq_false, iff_false]
      omega
    · simp only [order, not_false_eq_true, iff_true]
      omega
  have window : ∀ s late c : Int, Window s late c ↔ ¬ (s ≤ c ↔ s + late ≤ c) := by
    intro s late c
    unfold Window
    omega
  rw [lies, lies, window, window, add_le_add_iff_right, add_le_add_iff_right, add_le_add_iff_right]
  generalize start + late = s
  generalize end_ + late' = e
  by_cases started : start ≤ c <;> by_cases ended : end_ ≤ c <;> by_cases starts : s ≤ c <;> by_cases ends : e ≤ c <;>
    simp only [started, ended, starts, ends, iff_self, iff_true, true_iff, iff_false, false_iff, not_not, not_true_eq_false] <;> tauto

variable {tz : Tz} {t s e : Int}

theorem movedDays_bounds (fits : tz.Fits) (found : movedDays tz y = some (s, e)) : (0 ≤ s ∧ s ≤ 400) ∧ 0 ≤ e ∧ e ≤ 400 := by
  unfold movedDays at found
  cases start : moved y tz.start.day.day with
  | none => simp [start] at found
  | some s' =>
    cases end_ : moved y tz.end_.day.day with
    | none => simp [start, end_] at found
    | some e' =>
      simp only [start, end_, Option.bind_eq_bind, Option.bind_some, Option.pure_def, Option.some.injEq, Prod.mk.injEq] at found
      obtain ⟨rfl, rfl⟩ := found
      exact ⟨moved_bounds fits.start.day start, moved_bounds fits.end_.day end_⟩

theorem lookedUp_bounds (fits : tz.Fits) (found : lookedUp tz y y' = some (s, e)) : (0 ≤ s ∧ s ≤ 400) ∧ 0 ≤ e ∧ e ≤ 400 := by
  unfold lookedUp at found
  cases first : movedDays tz y with
  | none => simp [first] at found
  | some days =>
    simp only [first, Option.bind_eq_bind, Option.bind_some] at found
    split_ifs at found
    · exact movedDays_bounds fits (first.trans found)
    · exact movedDays_bounds fits found

theorem days_found (fits : tz.Fits) (shows_ : Shows f clock) (low : -2 ^ 31 ≤ clock) (high : clock < 2 ^ 31) (year : InYear y clock) :
    (julian f tz.start.day.day = moved y tz.start.day.day) ∧ julian f tz.end_.day.day = moved y tz.end_.day.day := by
  obtain ⟨same, -⟩ := shows_year shows_ year
  obtain ⟨low', high'⟩ := shows_.near low high
  rw [← same]
  exact ⟨julian_found shows_ low' high' fits.start.day, julian_found shows_ low' high' fits.end_.day⟩

theorem change_bounds {change : Change} (fits : change.Fits) : 0 ≤ change.value ∧ change.value ≤ 86400 := by
  refine ⟨?_, fits.time⟩
  unfold Change.value
  cases change.time with
  | none => decide
  | some time => exact time.nonneg

theorem posixgetdst_found (fits : tz.Fits) (z : Zone) (low : 0 ≤ t) (high : t < 2145916800) (year : InYear y (t - tz.timezone))
    (year' : InYear y' (t - tz.altzone)) :
    ∃ own, posixgetdst (tz.start.text ++ ',' :: tz.end_.text) (tz.zone z) t =
      (lookedUp tz y y').map fun d => { tz.zone z with start_dst := startAt tz d.1, end_dst := endAt tz d.2, own := own } := by
  obtain ⟨⟨zone_low, zone_high⟩, alt_low, alt_high⟩ := fits.bounds
  have first := posixsubdst_text (',' :: tz.end_.text) fits.start (by rintro c ⟨⟩; rfl)
  have second := posixsubdst_text [] fits.end_ nofun
  rw [List.append_nil] at second
  have standard := long_eq (x := t - tz.timezone) (by omega) (by omega)
  have alternative := long_eq (x := t - tz.altzone) (by omega) (by omega)
  obtain ⟨f, shown, shows_, -⟩ := gmtime_shows (t - tz.timezone)
  obtain ⟨g, shown', shows', -⟩ := gmtime_shows (t - tz.altzone)
  obtain ⟨start, end_⟩ := days_found fits shows_ (by omega) (by omega) year
  obtain ⟨start', end'⟩ := days_found fits shows' (by omega) (by omega) year'
  have starts := change_bounds fits.start
  have ends := change_bounds fits.end_
  have zones : ∀ s e own, (0 ≤ s ∧ s ≤ 400) ∧ 0 ≤ e ∧ e ≤ 400 →
      { tz.zone z with
        start_dst := long (s * SEC_PER_DAY + tz.start.value)
        end_dst := long (e * SEC_PER_DAY + tz.end_.value - (tz.timezone - tz.altzone))
        own := own } = { tz.zone z with start_dst := startAt tz s, end_dst := endAt tz e, own := own } := by
    intro s e own bounds
    have day : SEC_PER_DAY = 86400 := rfl
    rw [long_eq (by rw [day]; omega) (by rw [day]; omega), long_eq (by rw [day]; omega) (by rw [day]; omega), startAt, endAt, day, mul_comm s, mul_comm e]
  unfold posixgetdst
  simp only [first, second, Tz.zone, standard, alternative, shown, shown', Option.bind_eq_bind, Option.bind_some, start, end_, start', end']
  have pair : ∀ (x : Int) (h : tm), ((moved x tz.start.day.day).bind fun a => (moved x tz.end_.day.day).bind fun b => pure (a, b, h)) =
      (movedDays tz x).map fun d => (d.1, d.2, h) := by
    intro x h
    unfold movedDays
    cases moved x tz.start.day.day with
    | none => rfl
    | some a => cases moved x tz.end_.day.day <;> rfl
  simp only [pair, lookedUp, Option.bind_eq_bind]
  cases here : movedDays tz y with
  | none => exact ⟨z.own, rfl⟩
  | some d =>
    simp only [Option.map_some, Option.bind_some]
    by_cases order : d.1 ≤ d.2
    · refine ⟨f, ?_⟩
      simp only [if_pos order]
      exact congrArg some (zones d.1 d.2 f (movedDays_bounds fits here))
    · simp only [if_neg order]
      cases there : movedDays tz y' with
      | none => exact ⟨z.own, rfl⟩
      | some d' => exact ⟨g, congrArg some (zones d'.1 d'.2 g (movedDays_bounds fits there))⟩

def compared (tz : Tz) (z : Zone) (y t : Int) : Int :=
  if z.tz_state then t - tz.timezone else t - tz.timezone - 86400 * Calendar.yearStart y

variable {olson : List Char → Int → Zone → Zone} {z : Zone}

theorem localtime_found (olson : List Char → Int → Zone → Zone) (z : Zone) (fits : tz.Fits) (low : 0 ≤ t) (high : t < 2145916800)
    (year : InYear y (t - tz.timezone)) (year' : InYear y' (t - tz.altzone)) :
    (lookedUp tz y y' = none ∧ localtime olson (some tz.text) z t = none) ∨
      ∃ s e z', lookedUp tz y y' = some (s, e) ∧ localtime olson (some tz.text) z t = some z' ∧
        (z'.own.tm_isdst = if Lies (startAt tz s) (endAt tz e) (compared tz z y t) then 1 else 0) ∧
        Shows z'.own (t - if Lies (startAt tz s) (endAt tz e) (compared tz z y t) then tz.altzone else tz.timezone) := by
  obtain ⟨⟨zone_low, zone_high⟩, alt_low, alt_high⟩ := fits.bounds
  obtain ⟨own, rule⟩ := posixgetdst_found fits z low high year year'
  have set := (ltzset_text olson fits z t).trans rule
  have standard := long_eq (x := t - tz.timezone) (by omega) (by omega)
  have alternative := long_eq (x := t - tz.altzone) (by omega) (by omega)
  obtain ⟨f, shown, shows_, plain⟩ := gmtime_shows (t - tz.timezone)
  obtain ⟨g, shown', shows', -⟩ := gmtime_shows (t - tz.altzone)
  have second := (shows_year shows_ year).2
  cases found : lookedUp tz y y' with
  | none =>
    rw [found, Option.map_none] at set
    refine .inl ⟨rfl, ?_⟩
    unfold localtime
    rw [set]
    rfl
  | some d =>
    obtain ⟨s, e⟩ := d
    rw [found, Option.map_some] at set
    have bounds := lookedUp_bounds fits found
    have starts := change_bounds fits.start
    have some_ : startAt tz s ≠ -1 := by
      unfold startAt
      omega
    refine .inr ⟨s, e, ?_⟩
    unfold localtime
    simp only [set, Tz.zone, Option.bind_eq_bind, Option.bind_some, standard, alternative, shown, shown', one_ne_zero, if_false,
      daylight_days, some_, false_and,
      ne_eq, not_false_eq_true, and_true, second, in_daylight_eq, decide_eq_true_eq, true_and]
    rw [show (if z.tz_state = true then t - tz.timezone else t - tz.timezone - 86400 * Calendar.yearStart y) = compared tz z y t from rfl]
    by_cases during : Lies (startAt tz s) (endAt tz e) (compared tz z y t)
    · simp only [if_pos during]
      refine ⟨_, rfl, rfl, ?_⟩
      obtain ⟨yday, sum, hour, min, sec, month, mday, wday⟩ := shows'
      exact ⟨yday, sum, hour, min, sec, month, mday, wday⟩
    · simp only [if_neg during]
      exact ⟨_, rfl, plain, shows_⟩

theorem lookedUp_iff : lookedUp tz y y' = some (s, e) ↔
    ∃ yr, ruleYear tz y y' = some yr ∧ moved yr tz.start.day.day = some s ∧ moved yr tz.end_.day.day = some e := by
  have days : ∀ yr, movedDays tz yr = some (s, e) ↔ moved yr tz.start.day.day = some s ∧ moved yr tz.end_.day.day = some e := by
    intro yr
    unfold movedDays
    cases moved yr tz.start.day.day <;> cases moved yr tz.end_.day.day <;> simp
  unfold lookedUp ruleYear
  cases here : movedDays tz y with
  | none => simp
  | some d =>
    simp only [Option.bind_eq_bind, Option.bind_some, Option.map_some, Option.some.injEq, exists_eq_left', ← days]
    by_cases order : d.1 ≤ d.2
    · simp only [if_pos order, here]
    · simp only [if_neg order]

theorem late_eq {yr : Int} (found : moved yr day = some s) :
    late z y yr day = some (86400 * (s - place y day) - if z.tz_state then 86400 * Calendar.yearStart y else 0) := by
  obtain ⟨days, slipped, rfl⟩ := Option.map_eq_some_iff.mp found
  rw [late, slipped, Option.map_some]
  congr 2
  ring

theorem late_found {yr l : Int} (found : late z y yr day = some l) :
    ∃ s, moved yr day = some s ∧ l = 86400 * (s - place y day) - if z.tz_state then 86400 * Calendar.yearStart y else 0 := by
  obtain ⟨days, slipped, -⟩ := Option.map_eq_some_iff.mp found
  have there : moved yr day = some (place yr day + days) := by rw [moved, slipped, Option.map_some]
  exact ⟨_, there, Option.some.inj (found.symm.trans (late_eq there))⟩

theorem compared_spared (s e : Int) {ahead : Int} (is : ahead = if z.tz_state then 86400 * Calendar.yearStart y else 0) :
    (Lies (startAt tz s) (endAt tz e) (compared tz z y t) ↔ Daylight tz y t) ↔
      let c := t - tz.timezone - 86400 * Calendar.yearStart y
      let start := startAt tz (place y tz.start.day.day)
      let end_ := endAt tz (place y tz.end_.day.day)
      let late := 86400 * (s - place y tz.start.day.day) - ahead
      let late' := 86400 * (e - place y tz.end_.day.day) - ahead
      ((Window start late c ↔ Window end_ late' c) ↔ (start ≤ end_ ↔ start + late ≤ end_ + late')) := by
  have start : startAt tz s = startAt tz (place y tz.start.day.day) + (86400 * (s - place y tz.start.day.day) - ahead) + ahead := by
    unfold startAt
    ring
  have end_ : endAt tz e = endAt tz (place y tz.end_.day.day) + (86400 * (e - place y tz.end_.day.day) - ahead) + ahead := by
    unfold endAt
    ring
  have clock : compared tz z y t = t - tz.timezone - 86400 * Calendar.yearStart y + ahead := by
    rw [compared, is]
    split_ifs <;> ring
  rw [start, end_, clock]
  exact lies_moved

theorem spared_iff : (∃ s e, lookedUp tz y y' = some (s, e) ∧ (Lies (startAt tz s) (endAt tz e) (compared tz z y t) ↔ Daylight tz y t)) ↔
    Spared tz z y y' t := by
  constructor
  · rintro ⟨s, e, found, agrees⟩
    obtain ⟨yr, year, start, end_⟩ := lookedUp_iff.mp found
    exact ⟨yr, _, _, year, late_eq start, late_eq end_, (compared_spared s e rfl).mp agrees⟩
  · rintro ⟨yr, late₁, late₂, year, starts, ends, agrees⟩
    obtain ⟨s, start, rfl⟩ := late_found starts
    obtain ⟨e, end_, rfl⟩ := late_found ends
    exact ⟨_, _, lookedUp_iff.mpr ⟨yr, year, start, end_⟩, (compared_spared _ _ rfl).mpr agrees⟩

/-- A rule is applied exactly when the time is not between a change and the time at which the code takes it. -/
theorem localtime_applies (fits : tz.Fits) (low : 0 ≤ t) (high : t < 2145916800) (year : InYear y (t - tz.timezone))
    (year' : InYear y' (t - tz.altzone)) :
    (∃ z', localtime olson (some tz.text) z t = some z' ∧ Applied tz y t z'.own) ↔ Spared tz z y y' t := by
  rw [← spared_iff]
  obtain ⟨missed, stuck⟩ | ⟨s, e, z', found, run, isdst, fields⟩ := localtime_found olson z fits low high year year'
  · simp [missed, stuck]
  · constructor
    · rintro ⟨z₁, run', isdst', -⟩
      obtain rfl := Option.some.inj (run.symm.trans run')
      refine ⟨s, e, found, ?_⟩
      rw [isdst] at isdst'
      by_cases during : Lies (startAt tz s) (endAt tz e) (compared tz z y t) <;> by_cases means : Daylight tz y t <;> simp [during, means] at isdst' ⊢
    · rintro ⟨s', e', found', same⟩
      obtain ⟨rfl, rfl⟩ : s = s' ∧ e = e' := by simpa using found.symm.trans found'
      refine ⟨z', run, ?_, ?_⟩
      · rw [isdst]
        exact if_congr same rfl rfl
      · rw [← if_congr same rfl rfl]
        exact fields

def central : Tz where
  std := ⟨['C', 'E', 'T'], by simp, by simp⟩
  offset := ⟨.minus, .h ⟨['1'], by simp, by simp⟩⟩
  dst := ⟨['C', 'E', 'S', 'T'], by simp, by simp⟩
  ahead := none
  start := ⟨.M ⟨['3'], by simp, by simp⟩ ⟨['5'], by simp, by simp⟩ ⟨['0'], by simp, by simp⟩, none⟩
  end_ := ⟨.M ⟨['1', '0'], by simp, by simp⟩ ⟨['5'], by simp, by simp⟩ ⟨['0'], by simp, by simp⟩, some (.h ⟨['3'], by simp, by simp⟩)⟩

theorem central_fits : central.Fits where
  offset := show (1 : Int) ≤ 24 by decide
  ahead := nofun
  start := ⟨show (1 ≤ (3 : Int) ∧ (3 : Int) ≤ 12) ∧ (1 ≤ (5 : Int) ∧ (5 : Int) ≤ 5) ∧ 0 ≤ (0 : Int) ∧ (0 : Int) ≤ 6 by decide, nofun, by decide⟩
  end_ := ⟨show (1 ≤ (10 : Int) ∧ (10 : Int) ≤ 12) ∧ (1 ≤ (5 : Int) ∧ (5 : Int) ≤ 5) ∧ 0 ≤ (0 : Int) ∧ (0 : Int) ≤ 6 by decide,
    by rintro time ⟨⟩; exact show (3 : Int) ≤ 24 by decide, by decide⟩

def unset : Zone := ⟨0, 0, 0, -1, -1, false, ⟨0, 0, 0, 1, 0, 70, 4, 0, 0⟩⟩

/-- The summer of 1999, whose end is missed by a week. -/
theorem localtime_applies_summer :
    ∃ z', localtime (fun _ _ z => z) (some central.text) unset 930787200 = some z' ∧ Applied central 1999 930787200 z'.own :=
  (localtime_applies central_fits (by decide) (by decide) ⟨by decide, by decide⟩
    (show InYear 1999 (930787200 - central.altzone) from ⟨by decide, by decide⟩)).mpr
    ⟨1999, 0, -604800, by decide, by decide, by decide, by decide⟩

/-- On October 28, 1999 there is daylight saving time until the 31st, the last Sunday; the code ends it on the 24th. -/
theorem localtime_ends_early :
    Daylight central 1999 941112000 ∧
      ¬∃ z', localtime (fun _ _ z => z) (some central.text) unset 941112000 = some z' ∧ Applied central 1999 941112000 z'.own := by
  have summer : Daylight central 1999 941112000 := by decide
  have autumn : InYear 1999 (941112000 - central.altzone) := ⟨by decide, by decide⟩
  refine ⟨summer, ?_⟩
  rintro ⟨z₁, run₁, isdst₁, -⟩
  obtain ⟨-, stuck⟩ | ⟨s, e, z', found, run, isdst, -⟩ := localtime_found (fun _ _ z => z) unset central_fits
    (t := 941112000) (y := 1999) (by decide) (by decide) ⟨by decide, by decide⟩ autumn
  · simp [stuck] at run₁
  · obtain rfl := Option.some.inj (run.symm.trans run₁)
    have days : lookedUp central 1999 1999 = some (86, 296) := by decide
    obtain ⟨rfl, rfl⟩ : s = 86 ∧ e = 296 := by simpa using found.symm.trans days
    rw [if_pos summer, isdst, if_neg (by decide)] at isdst₁
    simp at isdst₁

end Svr4.Proofs.DaylightRules
