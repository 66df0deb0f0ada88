import Mathlib

/-! Broken-down times and the time zone (lib/libc/port/gen/time_comm.c), without the names of the zones. Where a
function has no result it reads outside of a table. -/

namespace Svr4.TimeComm

set_option linter.style.nameCheck false

def SEC_PER_MIN : Int := 60
def SEC_PER_HOUR : Int := 60 * 60
def SEC_PER_DAY : Int := 24 * 60 * 60
def SEC_PER_YEAR : Int := 365 * 24 * 60 * 60
def LEAP_TO_70 : Int := 70 / 4
def FEB28 : Int := 58
def DAYS_PER_WEEK : Int := 7
def MONS_PER_YEAR : Nat := 12
def EPOCH_YEAR : Int := 1970
def EPOCH_WDAY : Int := 4
def TM_YEAR_BASE : Int := 1900

def isleap (y : Int) : Bool := y.tmod 4 = 0 ∧ y.tmod 100 ≠ 0 ∨ y.tmod 400 = 0

def long (x : Int) : Int := x.bmod (2 ^ 32)

structure tm where
  tm_sec : Int
  tm_min : Int
  tm_hour : Int
  tm_mday : Int
  tm_mon : Int
  tm_year : Int
  tm_wday : Int
  tm_yday : Int
  tm_isdst : Int

def at_ (table : List Int) (i : Int) : Option Int := if i < 0 then none else table[i.toNat]?

def __mon_lengths : List Int :=
  [31, 28, 31, 30, 31, 30, 31, 31, 30, 31, 30, 31,
   31, 29, 31, 30, 31, 30, 31, 31, 30, 31, 30, 31]

def __year_lengths (yleap : Bool) : Int := if yleap then 366 else 365

def __yday_to_month : List Int := [0, 31, 59, 90, 120, 151, 181, 212, 243, 273, 304, 334]
def __lyday_to_month : List Int := [0, 31, 60, 91, 121, 152, 182, 213, 244, 274, 305, 335]

def __daytab : List (Int × Int × Int) :=
  [(87, 96, 303), (76, 119, 303), (75, 58, 303), (74, 5, 333), (69, 119, 303), (0, 119, 303)]

theorem year_lengths_pos (yleap : Bool) : 0 < __year_lengths yleap := by
  cases yleap <;> decide

def years (y days : Int) : Int × Int :=
  if days < __year_lengths (isleap y) then (y, days) else years (y + 1) (days - __year_lengths (isleap y))
  termination_by days.toNat
  decreasing_by
    have := year_lengths_pos (isleap y)
    omega

def years_before (y days : Int) : Int × Int :=
  if days + __year_lengths (isleap (y - 1)) < 0 then years_before (y - 1) (days + __year_lengths (isleap (y - 1)))
  else (y - 1, days + __year_lengths (isleap (y - 1)))
  termination_by (-days).toNat
  decreasing_by
    have := year_lengths_pos (isleap (y - 1))
    omega

/-- The loop over the months, with what is left of their table. -/
def months : List Int → Int → Int → Option (Int × Int)
  | [], _, _ => none
  | length :: ip, mon, days => if days ≥ length then months ip (mon + 1) (days - length) else some (mon, days)

/-- `offtime` with the offset 0, the only one that it is called with. -/
def gmtime (clock : Int) : Option tm := do
  let (days, rem) := (clock.tdiv SEC_PER_DAY, clock.tmod SEC_PER_DAY)
  let (days, rem) := if rem < 0 then (days - 1, rem + SEC_PER_DAY) else (days, rem)
  let wday := (EPOCH_WDAY + days).tmod DAYS_PER_WEEK
  let (y, yday) := if days ≥ 0 then years EPOCH_YEAR days else years_before EPOCH_YEAR days
  let (mon, mday) ← months (__mon_lengths.drop (if isleap y then MONS_PER_YEAR else 0)) 0 yday
  return {
    tm_sec := (rem.tmod SEC_PER_HOUR).tmod SEC_PER_MIN
    tm_min := (rem.tmod SEC_PER_HOUR).tdiv SEC_PER_MIN
    tm_hour := rem.tdiv SEC_PER_HOUR
    tm_mday := mday + 1
    tm_mon := mon
    tm_year := y - TM_YEAR_BASE
    tm_wday := if wday < 0 then wday + DAYS_PER_WEEK else wday
    tm_yday := yday
    tm_isdst := 0 }

/-- The zone that is in force. `tz_state` is whether a zone file has been loaded, and `own` is the structure that the
conversions leave their result in. -/
structure Zone where
  timezone : Int
  altzone : Int
  daylight : Int
  start_dst : Int
  end_dst : Int
  tz_state : Bool
  own : tm

def year_size (y : Int) : Int := if y.tmod 4 ≠ 0 then 365 else 366

def sunday (t : tm) (d : Int) : Int :=
  let d := if d ≥ 58 then d + (year_size t.tm_year - 365) else d
  d - (d - t.tm_yday + t.tm_wday + 700).tmod 7

/-- The days between which there is daylight saving time in the U.S.A. -/
def getusa_row (year : Int) : List (Int × Int × Int) → Option (Int × Int)
  | [] => none
  | (yrbgn, daylb, dayle) :: rows => if year < yrbgn then getusa_row year rows else some (daylb, dayle)

def getusa (t : tm) : Option (Int × Int) := do
  let (s, e) ← getusa_row t.tm_year __daytab
  return (sunday t s * SEC_PER_DAY + 2 * SEC_PER_HOUR, sunday t e * SEC_PER_DAY + SEC_PER_HOUR)

def getdigit_loop : List Char → Int → Int × List Char
  | c :: p, d => if c.isDigit then getdigit_loop p (long (d * 10 + (c.toNat - '0'.toNat : Nat))) else (d, c :: p)
  | [], d => (d, [])

def getdigit (p : List Char) : Option (Int × List Char) :=
  match p with
  | c :: _ => if c.isDigit then some (getdigit_loop p 0) else none
  | [] => none

def gettime_hms (p : List Char) : Int × Option (List Char) :=
  match getdigit p with
  | none => (0, none)
  | some (d, ':' :: p) =>
    let t := d * SEC_PER_HOUR
    match getdigit p with
    | none => (t, none)
    | some (d, ':' :: p) =>
      let t := t + d * SEC_PER_MIN
      match getdigit p with
      | none => (t, none)
      | some (d, p) => (t + d, some p)
    | some (d, p) => (t + d * SEC_PER_MIN, some p)
  | some (d, p) => (d * SEC_PER_HOUR, some p)

def gettime_sign (p : List Char) (f : Bool) : Bool × List Char :=
  match f, p with
  | true, '-' :: p => (true, p)
  | true, '+' :: p => (false, p)
  | _, p => (false, p)

def gettime (p : List Char) (f : Bool) : Int × Option (List Char) :=
  let (sign, p) := gettime_sign p f
  let (t, p) := gettime_hms p
  (long (if sign then -t else t), p)

def getzname (p : List Char) : Option (List Char) :=
  match p with
  | c :: _ => if c.isAlpha then some (p.dropWhile Char.isAlpha) else none
  | [] => none

inductive Day
  | n (jul : Int)
  | J (jul : Int)
  | M (m n d : Int)

def change_time (st : Int) : List Char → Option (Int × List Char)
  | '/' :: p =>
    match gettime p false with
    | (st, some p) => some (st, p)
    | (_, none) => none
  | p => some (st, p)

def posixsubdst (p : List Char) (st : Int) : Option (Day × Int × List Char) := do
  match p with
  | 'J' :: p =>
    let (jul, p) ← getdigit p
    if jul ≤ 0 ∨ jul > 365 then none
    else
      let (st, p) ← change_time st p
      return (.J (jul - 1), st, p)
  | 'M' :: p =>
    let (m, p) ← getdigit p
    if m ≤ 0 ∨ m > 12 then none
    else
      match p with
      | '.' :: p =>
        let (n, p) ← getdigit p
        if n ≤ 0 ∨ n > 5 then none
        else
          match p with
          | '.' :: p =>
            let (d, p) ← getdigit p
            if d < 0 ∨ d > 6 then none
            else
              let (st, p) ← change_time st p
              return (.M m n d, st, p)
          | _ => none
      | _ => none
  | p =>
    let (jul, p) ← getdigit p
    if jul < 0 ∨ jul > 365 then none
    else
      let (st, p) ← change_time st p
      return (.n jul, st, p)

def first_day (d wd stdd : Int) : Nat → Option Int
  | 0 => none
  | time + 1 => if wd = stdd then some d else first_day (d + 1) ((wd + 1).tmod DAYS_PER_WEEK) stdd time

/-- The loop over the weeks of a month, whose length is looked up for each of them. -/
def nth_week (length : Option Int) (d : Int) : Nat → Option Int
  | 0 => some d
  | weeks + 1 => do if d + DAYS_PER_WEEK > (← length) then return d else nth_week length (d + DAYS_PER_WEEK) weeks

def julian (std_tm : tm) : Day → Option Int
  | .n jul => some jul
  | .J jul => some (if isleap std_tm.tm_year ∧ jul > FEB28 then jul + 1 else jul)
  | .M m n d => do
    let leap := isleap std_tm.tm_year
    let wd_jan01 := std_tm.tm_wday - std_tm.tm_yday.tmod DAYS_PER_WEEK
    let wd_jan01 := if wd_jan01 < 0 then wd_jan01 + DAYS_PER_WEEK else wd_jan01
    let begins ← at_ (if leap then __lyday_to_month else __yday_to_month) (m - 1)
    let first ← first_day 1 ((wd_jan01 + begins).tmod DAYS_PER_WEEK) d 7
    let d ← nth_week (at_ __mon_lengths ((if leap then MONS_PER_YEAR else 0) + m)) first (n - 1).toNat
    return begins + d - 1

/-- `start_dst` and `end_dst` are set when the rule can be read. -/
def posixgetdst (p : List Char) (z : Zone) (tim : Int) : Option Zone :=
  match posixsubdst p 7200 with
  | some (std, st, ',' :: p) =>
    match posixsubdst p 7200 with
    | some (alt, et, _) => do
      let days (std_tm : tm) := do return (← julian std_tm std, ← julian std_tm alt, std_tm)
      let (lsd, led, std_tm) ← days (← gmtime (long (tim - z.timezone)))
      let (lsd, led, std_tm) ← if lsd ≤ led then some (lsd, led, std_tm) else days (← gmtime (long (tim - z.altzone)))
      return { z with
        start_dst := long (lsd * SEC_PER_DAY + st)
        end_dst := long (led * SEC_PER_DAY + et - (z.timezone - z.altzone))
        own := std_tm }
    | none => some z
  | _ => some z

/-- Without an end of the rule it takes one that has not been set. -/
def getdst (p : List Char) (z : Zone) : Option Zone :=
  match getdigit p with
  | none => some z
  | some (lsd, p) =>
    if lsd - 1 < 0 ∨ lsd - 1 > 365 then some z
    else
      match change_time 0 p with
      | none => some z
      | some (st, ',' :: p) =>
        match getdigit p with
        | none => some z
        | some (led, p) =>
          if led - 1 < 0 ∨ led - 1 > 365 then some z
          else
            match change_time 0 p with
            | none => some z
            | some (et, _) => some { z with
                start_dst := long ((lsd - 1) * SEC_PER_DAY + st)
                end_dst := long ((led - 1) * SEC_PER_DAY + et - (z.timezone - z.altzone)) }
      | some _ => none

def _ltzset (olson : List Char → Int → Zone → Zone) (TZ : Option (List Char)) (z : Zone) (tim : Int) : Option Zone :=
  match TZ with
  | none | some [] => some { z with timezone := 0, altzone := 0, daylight := 0 }
  | some (':' :: name) => some (olson name tim z)
  | some name =>
    match getzname name with
    | none => some z
    | some name =>
      match gettime name true with
      | (timezone, none) => some { z with timezone := timezone }
      | (timezone, some name) =>
        let z := { z with timezone := timezone, altzone := long (timezone - SEC_PER_HOUR), start_dst := 0, end_dst := 0, daylight := 0 }
        match getzname name with
        | none => some z
        | some name =>
          let z := { z with start_dst := -1, end_dst := -1, daylight := 1 }
          match name with
          | [] => some z
          | ';' :: name => getdst name z
          | ',' :: name => posixgetdst name z tim
          | name =>
            match gettime name true with
            | (altzone, some (';' :: name)) => getdst name { z with altzone := altzone }
            | (altzone, some (',' :: name)) => posixgetdst name { z with altzone := altzone } tim
            | (altzone, _) => some { z with altzone := altzone }

def daylight_days (z : Zone) (t : tm) : Option (Int × Int) :=
  if z.start_dst = -1 ∧ z.end_dst = -1 then getusa t else some (z.start_dst, z.end_dst)

def second_of_year (t : tm) : Int := t.tm_yday * SEC_PER_DAY + t.tm_hour * SEC_PER_HOUR + t.tm_min * SEC_PER_MIN + t.tm_sec

def in_daylight (daybegin dayend curr : Int) : Bool :=
  if daybegin ≤ dayend then curr ≥ daybegin ∧ curr < dayend else ¬(curr ≥ dayend ∧ curr < daybegin)

section Zones

variable (olson : List Char → Int → Zone → Zone) (TZ : Option (List Char))

def localtime (z : Zone) (clock : Int) : Option Zone := do
  let z ← _ltzset olson TZ z clock
  let tmp ← gmtime (long (clock - z.timezone))
  if z.daylight = 0 then return { z with own := tmp }
  else
    let curr := if z.tz_state ∧ z.start_dst ≠ -1 then long (clock - z.timezone) else second_of_year tmp
    let (daybegin, dayend) ← daylight_days z tmp
    if in_daylight daybegin dayend curr then
      let tmp ← gmtime (long (clock - z.altzone))
      return { z with own := { tmp with tm_isdst := 1 } }
    else return { z with own := tmp }

def carry_months (tm_year tm_mon : Int) : Int × Int :=
  if tm_mon ≥ 12 then (long (tm_year + tm_mon.tdiv 12), tm_mon.tmod 12)
  else if tm_mon < 0 then
    let temp := long (-tm_mon)
    (long (tm_year - (1 + temp.tdiv 12)), 12 - temp.tmod 12)
  else (tm_year, tm_mon)

/-- The end of `mktime` when it is not known whether there is daylight saving time. -/
def settle_isdst (z : Zone) (secs : Int) : Option (Int × Zone) := do
  let (daybegin, dayend) ← daylight_days z z.own
  let temp := second_of_year z.own
  let later := z.timezone - z.altzone
  let daylight : Bool := if daybegin ≤ dayend then temp ≥ daybegin ∧ temp < dayend + later else ¬(temp ≥ dayend + later ∨ temp < daybegin)
  if daylight then
    let secs := long (secs - later)
    return (secs, ← localtime olson TZ z secs)
  else return (secs, z)

def mktime (z : Zone) (timeptr : tm) (static : Bool) : Option (Int × tm × Zone) := do
  let secs := long (timeptr.tm_sec + SEC_PER_MIN * timeptr.tm_min + SEC_PER_HOUR * timeptr.tm_hour + SEC_PER_DAY * (timeptr.tm_mday - 1))
  let (tm_year, tm_mon) := carry_months timeptr.tm_year timeptr.tm_mon
  let secs := long (secs + (SEC_PER_YEAR * (tm_year - 70) + SEC_PER_DAY * ((long (tm_year + 3)).tdiv 4 - 1 - LEAP_TO_70)))
  let days ← at_ (if tm_year.tmod 4 = 0 then __lyday_to_month else __yday_to_month) tm_mon
  let secs := long (secs + SEC_PER_DAY * days)
  let z ← _ltzset olson TZ z secs
  let tm_isdst := if static then z.own.tm_isdst else timeptr.tm_isdst
  let secs := long (secs + if tm_isdst > 0 then z.altzone else z.timezone)
  let stm := z.own
  let z ← localtime olson TZ z secs
  let (secs, z) ← if tm_isdst < 0 then settle_isdst olson TZ z secs else some (secs, z)
  return (if secs < 0 then -1 else secs, z.own, if static then z else { z with own := stm })

end Zones
end Svr4.TimeComm
