import Mathlib

/-! The times of cron.c: `next_field` takes the fields of a crontab line, and `next_time` finds
when an event is due next. -/

namespace Svr4.Cron

abbrev Str := List Char

def long (n : Int) : Int := Int.bmod n (2 ^ 32)

def num (n : Int) : Str → Int × Str
  | [] => (n, [])
  | c :: ptr => if c.isDigit then num (long (n * 10 + (c.toNat - '0'.toNat))) ptr else (n, c :: ptr)

inductive Complaint where
  | EOLN
  | UNEXPECT
  | OUTOFBOUND

deriving instance DecidableEq for Complaint

def blank (c : Char) : Bool := c = ' ' ∨ c = '\t'

def number (lower upper : Int) (line : Str) : Except Complaint Str :=
  if (line.headD '\x00').isDigit then
    let (num, line) := num 0 line
    if num < lower ∨ num > upper then .error .OUTOFBOUND else .ok line
  else .error .UNEXPECT

def range (lower upper : Int) (line : Str) : Except Complaint Str := do
  let line ← number lower upper line
  if line.headD '\x00' = '-' then number lower upper line.tail else .ok line

/-- The loop of `next_field`, which leaves `cursor` at the blank. -/
def numbers (lower upper : Int) : Nat → Str → Except Complaint Str
  | 0, _ => .error .EOLN
  | time + 1, line => do
    match ← range lower upper line with
    | [] => .error .EOLN
    | c :: rest =>
      if blank c then .ok (c :: rest)
      else if c ≠ ',' then .error .UNEXPECT
      else numbers lower upper time rest

def next_field (lower upper : Int) (line : Str) : Except Complaint (Str × Str) :=
  let start := line.dropWhile blank
  match start with
  | [] => .error .EOLN
  | '*' :: rest => if blank (rest.headD '\x00') then .ok (['*'], rest) else .error .UNEXPECT
  | start => do
    let rest ← numbers lower upper start.length start
    .ok (start.take (start.length - rest.length), rest)

structure Ct where
  minute : Str
  hour : Str
  daymon : Str
  month : Str
  dayweek : Str

def fields (line : Str) : Except Complaint Ct := do
  let (minute, line) ← next_field 0 59 line
  let (hour, line) ← next_field 0 23 line
  let (daymon, line) ← next_field 1 31 line
  let (month, line) ← next_field 1 12 line
  let (dayweek, _) ← next_field 0 6 line
  return ⟨minute, hour, daymon, month, dayweek⟩

def DUMMY : Int := 100

def next_in (current : Int) : Nat → Str → Int → Int → Int
  | 0, _, min, _ => min
  | time + 1, ptr, min, min_gt =>
    let (n, ptr) := num 0 ptr
    if n = current then current
    else
      let min := if n < min then n else min
      let min_gt := if n > current ∧ n < min_gt then n else min_gt
      let last := fun ptr : Str =>
        match ptr with
        | [] => if min_gt ≠ DUMMY then min_gt else min
        | _ :: ptr => next_in current time ptr min min_gt
      if ptr.headD '\x00' = '-' then
        let (n2, ptr) := num 0 ptr.tail
        if n2 > n then if current > n ∧ current ≤ n2 then current else last ptr
        -- a range that wraps around
        else if current > n then current
        else if current ≤ n2 then current
        else last ptr
      else last ptr

def next_ge (current : Int) (list : Str) : Int :=
  if list = ['*'] then current else next_in current list.length list DUMMY DUMMY

def dom : List Int := [31, 28, 31, 30, 31, 30, 31, 31, 30, 31, 30, 31]

def days_in_mon (m y : Int) : Int := dom.getD m.toNat 0 + if m = 1 ∧ y % 4 = 0 then 1 else 0

def months_btwn (m2 : Int) : Nat → Int → Int → Int → Int
  | 0, _, _, days => days
  | time + 1, m, y1, days =>
    if m = m2 then days
    else
      let y1 := if m = 0 then y1 + 1 else y1
      months_btwn m2 time ((m + 1) % 12) y1 (days + days_in_mon m y1)

def days_btwn (m1 d1 y1 m2 d2 y2 : Int) : Int :=
  if m1 = m2 ∧ d1 = d2 ∧ y1 = y2 then 0
  else if m1 = m2 ∧ d1 < d2 then d2 - d1 - 1
  else months_btwn m2 12 ((m1 + 1) % 12) y1 (days_in_mon m1 y1 - d1 + (d2 - 1))

structure Tm where
  tm_sec : Int
  tm_min : Int
  tm_hour : Int
  tm_mday : Int
  tm_mon : Int
  tm_year : Int
  tm_wday : Int

def isleap (y : Nat) : Bool := y % 4 = 0 ∧ y % 100 ≠ 0 ∨ y % 400 = 0

def mon_lengths (yleap : Bool) : List Nat := [31, if yleap then 29 else 28, 31, 30, 31, 30, 31, 31, 30, 31, 30, 31]

def year_lengths (yleap : Bool) : Nat := if yleap then 366 else 365

theorem year_some (yleap : Bool) : 0 < year_lengths yleap := by cases yleap <;> decide

/-- The year of a day from the start of year `y`, and its day in the year. -/
def year_day (y days : Nat) : Nat × Nat :=
  if days < year_lengths (isleap y) then (y, days) else year_day (y + 1) (days - year_lengths (isleap y))
termination_by days
decreasing_by have := year_some (isleap y); omega

/-- The month of a day of the year, and its day in the month, both from 0. -/
def mon_day : List Nat → Nat → Nat × Nat
  | [], days => (0, days)
  | ip :: rest, days => if days < ip then (0, days) else ((mon_day rest (days - ip)).1 + 1, (mon_day rest (days - ip)).2)

def EPOCH_YEAR : Nat := 1970
def EPOCH_WDAY : Int := 4
def TM_YEAR_BASE : Int := 1900

/-- `localtime` for times from 1970 on, where local time is `offset` ahead. -/
def localtime (offset t : Int) : Tm :=
  let days := (t + offset) / 86400
  let rem := (t + offset) % 86400
  let (y, yday) := year_day EPOCH_YEAR days.toNat
  let (mon, mday) := mon_day (mon_lengths (isleap y)) yday
  { tm_hour := rem / 3600
    tm_min := rem % 3600 / 60
    tm_sec := rem % 3600 % 60
    tm_wday := (EPOCH_WDAY + days) % 7
    tm_year := y - TM_YEAR_BASE
    tm_mon := mon
    tm_mday := mday + 1 }

def today (e : Ct) (tm : Tm) : Bool :=
  let tm_mon := next_ge (tm.tm_mon + 1) e.month - 1
  let tm_mday := next_ge tm.tm_mday e.daymon
  let tm_wday := next_ge tm.tm_wday e.dayweek
  ¬ ((e.daymon = ['*'] ∧ tm.tm_wday ≠ tm_wday) ∨ (e.dayweek = ['*'] ∧ tm.tm_mday ≠ tm_mday) ∨
    (tm.tm_mday ≠ tm_mday ∧ tm.tm_wday ≠ tm_wday) ∨ tm.tm_mon ≠ tm_mon)

/-- The hour and the minute at which the event occurs next, and whether that is on a later day. -/
def later (e : Ct) (tm : Tm) : Int × Int × Bool :=
  let m := if tm.tm_hour + 1 ≤ next_ge (tm.tm_hour % 24) e.hour then 0 else tm.tm_min + 1
  let min := next_ge (m % 60) e.minute
  let carry := if min < m then 1 else 0
  let h := tm.tm_hour + carry
  let hr := next_ge (h % 24) e.hour
  (hr, min, hr < h)

abbrev Monthly (e : Ct) : Prop := e.daymon ≠ ['*'] ∧ e.dayweek = ['*']

abbrev Weekly (e : Ct) : Prop := e.daymon = ['*'] ∧ e.dayweek ≠ ['*']

/-- The next days by the two lists, and whether each is in a later month. -/
def this_month (e : Ct) (tm : Tm) : (Int × Bool) × Int × Bool :=
  let days := days_in_mon tm.tm_mon tm.tm_year
  let d1 := tm.tm_mday + 1
  let day1 := next_ge ((d1 - 1) % days + 1) e.daymon
  let d2 := tm.tm_wday + 1
  let wday := next_ge (d2 % 7) e.dayweek
  let daysahead := if wday < d2 then 7 - d2 + wday else wday - d2
  let day2 := (d1 + daysahead - 1) % days + 1
  let first := if Weekly e then (day2, decide (day2 < d1)) else (day1, decide (day1 < d1))
  let second := if Monthly e then first else (day2, decide (day2 < d1))
  (first, second)

/-- The month, the day and the year in the next month of the list. -/
def later_month (e : Ct) (tm : Tm) : Int × Int × Int :=
  let m := tm.tm_mon + 1
  let mon := next_ge (m % 12 + 1) e.month - 1
  let yr := if mon < m then tm.tm_year + 1 else tm.tm_year
  let day1 := next_ge 1 e.daymon
  let db := days_btwn tm.tm_mon tm.tm_mday tm.tm_year mon 1 yr + 1
  let wd := (tm.tm_wday + db) % 7
  let wday := next_ge wd e.dayweek
  let day2 := if wday < wd then 1 + 7 - wd + wday else 1 + wday - wd
  let day2 := if Monthly e then day1 else day2
  let day1 := if Weekly e then day2 else day1
  (mon, if day1 < day2 then day1 else day2, yr)

/-- The month, the day and the year of the next day, which is after the current one. -/
def ahead (e : Ct) (tm : Tm) : Int × Int × Int :=
  let tm_mon := next_ge (tm.tm_mon + 1) e.month - 1
  let ((day1, carry1), (day2, carry2)) := this_month e tm
  if (carry1 ∧ carry2) ∨ tm.tm_mon ≠ tm_mon then later_month e tm
  else if ¬ carry1 ∧ ¬ carry2 then (tm.tm_mon, if day1 < day2 then day1 else day2, tm.tm_year)
  else if ¬ carry1 then (tm.tm_mon, day1, tm.tm_year)
  else (tm.tm_mon, day2, tm.tm_year)

def next_time (e : Ct) (offset t : Int) : Int :=
  let tm := localtime offset t
  let (hr, min, carry) := later e tm
  if ¬ carry ∧ today e tm then
    if tm.tm_min > min then
      long (t + (hr - tm.tm_hour - 1) * 3600 + (60 - tm.tm_min + min) * 60 - tm.tm_sec)
    else long (t + (hr - tm.tm_hour) * 3600 + (min - tm.tm_min) * 60 - tm.tm_sec)
  else
    let min := next_ge 0 e.minute
    let hr := next_ge 0 e.hour
    let (mon, day, yr) := ahead e tm
    let days := days_btwn tm.tm_mon tm.tm_mday tm.tm_year mon day yr
    long (t + (23 - tm.tm_hour) * 3600 + (60 - tm.tm_min) * 60 + hr * 3600 + min * 60 + days * 86400 - tm.tm_sec)

end Svr4.Cron
