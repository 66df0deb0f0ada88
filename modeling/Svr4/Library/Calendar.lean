import Mathlib

/-! The days of the Gregorian calendar, counted from the first day of 1970. -/

namespace Svr4.Library.Calendar

def leap (y : Int) : Bool := y % 4 = 0 ∧ y % 100 ≠ 0 ∨ y % 400 = 0

def yearDays (y : Int) : Int := if leap y then 366 else 365

/-- The first day of a year. -/
def yearStart (y : Int) : Int := 365 * (y - 1970) + ((y - 1) / 4 - 492) - ((y - 1) / 100 - 19) + ((y - 1) / 400 - 4)

/-- The lengths of the months. -/
def months (leap : Bool) : List Int := [31, if leap then 29 else 28, 31, 30, 31, 30, 31, 31, 30, 31, 30, 31]

/-- The length of a month, counted from 0. -/
def monthDays (leap : Bool) (m : Nat) : Int := (months leap).getD m 0

/-- The day of the year that a month begins with, counted from 0. -/
def monthStart (leap : Bool) (m : Nat) : Int := ((months leap).take m).sum

/-- Sunday is 0. -/
def weekday (day : Int) : Int := (day + 4) % 7

/-- The day of the month, counted from 1, on which a day of the week is first. -/
def firstOf (y : Int) (m : Nat) (d : Int) : Int := 1 + (d - weekday (yearStart y + monthStart (leap y) m)) % 7

/-- The day of the month on which a day of the week is for the n-th time, or for the last time when n is 5. -/
def nthOf (y : Int) (m : Nat) (n d : Int) : Int :=
  if n < 5 then firstOf y m d + 7 * (n - 1)
  else if firstOf y m d + 28 ≤ monthDays (leap y) m then firstOf y m d + 28
  else firstOf y m d + 21

variable {y y' k k' : Int} {m : Nat} {l : Bool}

theorem yearStart_succ (y : Int) : yearStart (y + 1) = yearStart y + yearDays y := by
  unfold yearStart yearDays leap
  split_ifs with is_leap
  · simp only [decide_eq_true_eq] at is_leap
    omega
  · simp only [decide_eq_true_eq] at is_leap
    omega

theorem yearDays_bounds (y : Int) : 365 ≤ yearDays y ∧ yearDays y ≤ 366 := by
  unfold yearDays
  split_ifs <;> omega

theorem yearStart_mono (before : y < y') : yearStart y + yearDays y ≤ yearStart y' := by
  obtain ⟨n, rfl⟩ : ∃ n : Nat, y' = y + 1 + n := ⟨(y' - (y + 1)).toNat, by omega⟩
  clear before
  induction n with
  | zero => simp [yearStart_succ]
  | succ n ih =>
    have := yearStart_succ (y + 1 + n)
    have := yearDays_bounds (y + 1 + n)
    push_cast
    rw [← add_assoc]
    omega

/-- A day is in one year. -/
theorem year_unique (low : 0 ≤ k) (high : k < yearDays y) (low' : 0 ≤ k') (high' : k' < yearDays y')
    (same : yearStart y + k = yearStart y' + k') : y = y' ∧ k = k' := by
  rcases lt_trichotomy y y' with before | rfl | after
  · have := yearStart_mono before
    omega
  · exact ⟨rfl, by omega⟩
  · have := yearStart_mono after
    omega

/-- Between 1901 and 2099 every fourth year is a leap year. -/
theorem leap_near (low : 1901 ≤ y) (high : y ≤ 2099) : leap y = decide (y % 4 = 0) := by
  unfold leap
  rw [decide_eq_decide]
  omega

theorem yearStart_near (low : 1901 ≤ y) (high : y ≤ 2100) : yearStart y = 365 * (y - 1970) + ((y - 1) / 4 - 492) := by
  unfold yearStart
  omega

theorem monthDays_bounds (l : Bool) (inside : m < 12) : 28 ≤ monthDays l m ∧ monthDays l m ≤ 31 := by
  cases l <;> interval_cases m <;> decide

/-- From March on a leap year is one day ahead. -/
theorem monthStart_leap (inside : m < 12) : monthStart true m = monthStart false m + if 2 ≤ m then 1 else 0 := by
  revert m
  decide

theorem monthStart_bounds (l : Bool) (inside : m < 12) : 0 ≤ monthStart l m ∧ monthStart l m ≤ 335 := by
  cases l <;> interval_cases m <;> decide

theorem firstOf_bounds (y : Int) (m : Nat) (d : Int) : 1 ≤ firstOf y m d ∧ firstOf y m d ≤ 7 := by
  unfold firstOf
  omega

end Svr4.Library.Calendar
