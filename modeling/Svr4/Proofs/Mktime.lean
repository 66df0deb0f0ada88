import Svr4.Proofs.TimeFields

/-! `mktime` against `localtime`. Months that are a negative multiple of twelve lead it outside of its tables. -/

namespace Svr4.Proofs.Mktime
open Library TimeComm TimeFields

variable {olson : List Char → Int → Zone → Zone} {TZ : Option (List Char)} {z z₀ z' : Zone} {f : tm} {clock x y : Int} {m : Nat}

theorem days_of_year (low : 1 ≤ y) (high : y ≤ 138) (inside : m < 12) :
    ∃ days, at_ (if y.tmod 4 = 0 then __lyday_to_month else __yday_to_month) m = some days ∧
      SEC_PER_YEAR * (y - 70) + SEC_PER_DAY * ((long (y + 3)).tdiv 4 - 1 - LEAP_TO_70) + SEC_PER_DAY * days =
        86400 * (Calendar.yearStart (1900 + y) + Calendar.monthStart (Calendar.leap (1900 + y)) m) := by
  have wide : long (y + 3) = y + 3 := long_eq (by omega) (by omega)
  have quarter : (y + 3).tdiv 4 = (y + 3) / 4 := Int.tdiv_eq_ediv_of_nonneg (by omega)
  have start := Calendar.yearStart_near (y := 1900 + y) (by omega) (by omega)
  have is_leap : Calendar.leap (1900 + y) = decide (y.tmod 4 = 0) := by
    rw [Calendar.leap_near (by omega) (by omega), decide_eq_decide, tmod_zero]
    omega
  have table : at_ (if y.tmod 4 = 0 then __lyday_to_month else __yday_to_month) m = some (Calendar.monthStart (Calendar.leap (1900 + y)) m) := by
    rw [is_leap]
    by_cases fourth : y.tmod 4 = 0
    · simp only [fourth, if_true, decide_true]
      interval_cases m <;> decide
    · simp only [fourth, if_false, decide_false]
      interval_cases m <;> decide
  refine ⟨_, table, ?_⟩
  rw [wide, quarter, start]
  simp only [SEC_PER_YEAR, SEC_PER_DAY, LEAP_TO_70]
  omega

/-- The zone has a fixed offset and perhaps the daylight saving time of the U.S.A., and it stays set. -/
structure Steady (olson : List Char → Int → Zone → Zone) (TZ : Option (List Char)) (z : Zone) : Prop where
  same : ∀ tim own, _ltzset olson TZ { z with own := own } tim = some { z with own := own }
  rule : z.daylight = 0 ∨ z.start_dst = -1 ∧ z.end_dst = -1

def convert (z : Zone) (clock : Int) : Option tm := do
  let tmp ← gmtime (long (clock - z.timezone))
  if z.daylight = 0 then return tmp
  else
    let (daybegin, dayend) ← getusa tmp
    if in_daylight daybegin dayend (second_of_year tmp) then
      let tmp ← gmtime (long (clock - z.altzone))
      return { tmp with tm_isdst := 1 }
    else return tmp

theorem localtime_eq (set : _ltzset olson TZ z₀ clock = some z) (rule : z.daylight = 0 ∨ z.start_dst = -1 ∧ z.end_dst = -1) :
    localtime olson TZ z₀ clock = (convert z clock).map fun f => { z with own := f } := by
  unfold localtime convert
  simp only [set, Option.bind_eq_bind, Option.bind_some]
  cases gmtime (long (clock - z.timezone)) with
  | none => rfl
  | some tmp =>
    simp only [Option.bind_some]
    by_cases fixed : z.daylight = 0
    · simp only [if_pos fixed]
      rfl
    · obtain ⟨start, end_⟩ : z.start_dst = -1 ∧ z.end_dst = -1 := rule.resolve_left fixed
      simp only [if_neg fixed, daylight_days, start, end_, and_self, if_true, ne_eq, not_true, and_false, if_false]
      cases getusa tmp with
      | none => rfl
      | some days =>
        simp only [Option.bind_some]
        split_ifs
        · cases gmtime (long (clock - z.altzone)) <;> rfl
        · rfl

theorem getusa_some (near : 0 ≤ f.tm_year) : ∃ days, getusa f = some days := by
  have row : ∀ rows : List (Int × Int × Int), (∃ r ∈ rows, r.1 ≤ f.tm_year) → ∃ days, getusa_row f.tm_year rows = some days := by
    intro rows
    induction rows with
    | nil => simp
    | cons r rows ih =>
      rintro ⟨r', member, le⟩
      unfold getusa_row
      split_ifs with later
      · rcases List.mem_cons.mp member with rfl | rest
        · omega
        · exact ih ⟨r', rest, le⟩
      · exact ⟨_, rfl⟩
  obtain ⟨days, found⟩ := row __daytab ⟨(0, 119, 303), by decide, near⟩
  exact ⟨_, by simp only [getusa, found]; rfl⟩

theorem convert_shows (z : Zone) (clock : Int) :
    ∃ f, convert z clock = some f ∧ (f.tm_isdst = 0 ∨ f.tm_isdst = 1) ∧
      Shows f (long (clock - if f.tm_isdst > 0 then z.altzone else z.timezone)) := by
  obtain ⟨tmp, found, shows_, standard⟩ := gmtime_shows (long (clock - z.timezone))
  have unchanged : Shows tmp (long (clock - if tmp.tm_isdst > 0 then z.altzone else z.timezone)) := by
    rwa [standard, if_neg (lt_irrefl _)]
  unfold convert
  simp only [found, Option.bind_eq_bind, Option.bind_some]
  by_cases fixed : z.daylight = 0
  · exact ⟨tmp, by rw [if_pos fixed]; rfl, .inl standard, unchanged⟩
  obtain ⟨days, usa⟩ := getusa_some (f := tmp) (by have := (shows_.near (long_bounds _).1 (long_bounds _).2).1; omega)
  simp only [if_neg fixed, usa, Option.bind_some]
  by_cases during : in_daylight days.1 days.2 (second_of_year tmp)
  · obtain ⟨alt, found', shows', -⟩ := gmtime_shows (long (clock - z.altzone))
    refine ⟨{ alt with tm_isdst := 1 }, by simp only [if_pos during, found']; rfl, .inr rfl, ?_⟩
    obtain ⟨yday, sum, hour, min, sec, month, mday, wday⟩ := shows'
    exact ⟨yday, sum, hour, min, sec, month, mday, wday⟩
  · exact ⟨tmp, by rw [if_neg during]; rfl, .inl standard, unchanged⟩

theorem sum_of_fields {b h d : Int} (low : 1 ≤ y) (high : y ≤ 138) (inside : m < 12) :
    ∃ days, at_ (if y.tmod 4 = 0 then __lyday_to_month else __yday_to_month) m = some days ∧
      long (long (long (x + SEC_PER_MIN * b + SEC_PER_HOUR * h + SEC_PER_DAY * d) +
        (SEC_PER_YEAR * (y - 70) + SEC_PER_DAY * ((long (y + 3)).tdiv 4 - 1 - LEAP_TO_70))) + SEC_PER_DAY * days) =
        long (86400 * (Calendar.yearStart (1900 + y) + (Calendar.monthStart (Calendar.leap (1900 + y)) m + d)) + 3600 * h + 60 * b + x) := by
  obtain ⟨days, found, sum⟩ := days_of_year low high inside
  refine ⟨days, found, ?_⟩
  rw [long_add, add_assoc, long_add, ← add_assoc]
  congr 1
  simp only [SEC_PER_MIN, SEC_PER_HOUR] at sum ⊢
  have : SEC_PER_DAY * d = 86400 * d := rfl
  omega

theorem mktime_known (static : Bool) (set : ∀ tim, _ltzset olson TZ z₀ tim = some z) (steady : Steady olson TZ z)
    (isdst : static = true → z.own.tm_isdst = f.tm_isdst) (known : 0 ≤ f.tm_isdst) (carried : carry_months f.tm_year f.tm_mon = (y, (m : Int)))
    (low : 1 ≤ y) (high : y ≤ 138) (inside : m < 12)
    (sum : x = 86400 * (Calendar.yearStart (1900 + y) + (Calendar.monthStart (Calendar.leap (1900 + y)) m + (f.tm_mday - 1))) +
      3600 * f.tm_hour + 60 * f.tm_min + f.tm_sec + if f.tm_isdst > 0 then z.altzone else z.timezone) :
    ∃ f' z', convert z (long x) = some f' ∧ mktime olson TZ z₀ f static = some (if long x < 0 then -1 else long x, f', z') := by
  obtain ⟨days, table, total⟩ := sum_of_fields (x := f.tm_sec) (b := f.tm_min) (h := f.tm_hour) (d := f.tm_mday - 1) low high inside
  obtain ⟨f', shown, -⟩ := convert_shows z (long x)
  have flag : (if static = true then z.own.tm_isdst else f.tm_isdst) = f.tm_isdst := by
    split_ifs with own
    · exact isdst own
    · rfl
  have again : localtime olson TZ z (long x) = some { z with own := f' } := by
    rw [localtime_eq (z := z) (steady.same _ z.own) steady.rule, shown]
    rfl
  refine ⟨f', if static then { z with own := f' } else z, shown, ?_⟩
  unfold mktime
  simp only [carried, table, set, Option.bind_eq_bind, Option.bind_some, flag, total]
  simp only [long_add, ← sum, again, Option.bind_some, if_neg (not_lt.mpr known)]
  cases static <;> rfl

theorem localtime_found (set : ∀ tim, _ltzset olson TZ z₀ tim = some z) (steady : Steady olson TZ z) (clock : Int) :
    ∃ f, convert z clock = some f ∧ localtime olson TZ z₀ clock = some { z with own := f } := by
  obtain ⟨f, shown, -⟩ := convert_shows z clock
  exact ⟨f, shown, by rw [localtime_eq (set clock) steady.rule, shown]; rfl⟩

theorem mktime_localtime (static : Bool) (set : ∀ tim, _ltzset olson TZ z₀ tim = some z) (steady : Steady olson TZ z)
    (low : 0 ≤ clock) (high : clock < 2 ^ 31) :
    ∃ f z', localtime olson TZ z₀ clock = some { z with own := f } ∧ mktime olson TZ { z with own := f } f static = some (clock, f, z') := by
  obtain ⟨f, shown, found⟩ := localtime_found set steady clock
  obtain ⟨f₁, shown₁, isdst, shows_⟩ := convert_shows z clock
  obtain rfl := Option.some.inj (shown₁.symm.trans shown)
  obtain ⟨low', high'⟩ := shows_.near (long_bounds _).1 (long_bounds _).2
  obtain ⟨m, inside, mon, yday⟩ := shows_.month
  have carried : carry_months f₁.tm_year f₁.tm_mon = (f₁.tm_year, (m : Int)) := by
    unfold carry_months
    rw [if_neg (by omega), if_neg (by omega), mon]
  have steady' : Steady olson TZ { z with own := f₁ } := ⟨fun tim own => steady.same tim own, steady.rule⟩
  obtain ⟨f₂, z', shown₂, run⟩ := mktime_known static (z := { z with own := f₁ }) (fun tim => steady.same tim f₁) steady'
    (fun _ => rfl) (show 0 ≤ f₁.tm_isdst by omega) carried low' high' inside rfl
  have back : long (86400 * (Calendar.yearStart (1900 + f₁.tm_year) + (Calendar.monthStart (Calendar.leap (1900 + f₁.tm_year)) m + (f₁.tm_mday - 1))) +
      3600 * f₁.tm_hour + 60 * f₁.tm_min + f₁.tm_sec + if f₁.tm_isdst > 0 then z.altzone else z.timezone) = clock := by
    have total := shows_.sum
    rw [yday] at total
    rw [← total, long_add, sub_add_cancel]
    exact long_eq (by omega) (by omega)
  rw [back] at shown₂ run
  have same : f₂ = f₁ := Option.some.inj (shown₂.symm.trans shown)
  rw [same, if_neg (by omega)] at run
  exact ⟨f₁, z', found, run⟩

def denoted (f : tm) (offset : Int) : Int :=
  let y := 1900 + (f.tm_year + f.tm_mon / 12)
  let m := (f.tm_mon % 12).toNat
  86400 * (Calendar.yearStart y + (Calendar.monthStart (Calendar.leap y) m + (f.tm_mday - 1))) + 3600 * f.tm_hour + 60 * f.tm_min + f.tm_sec + offset

def Carries (tm_mon : Int) : Prop := 0 ≤ tm_mon ∨ tm_mon % 12 ≠ 0 ∧ tm_mon ≠ -2 ^ 31

theorem carry_months_done (low : -2 ^ 31 ≤ f.tm_mon) (high : f.tm_mon < 2 ^ 31) (early : 1 ≤ f.tm_year + f.tm_mon / 12)
    (late : f.tm_year + f.tm_mon / 12 ≤ 138) (carries : Carries f.tm_mon) :
    carry_months f.tm_year f.tm_mon = (f.tm_year + f.tm_mon / 12, (((f.tm_mon % 12).toNat : Nat) : Int)) := by
  unfold carry_months
  unfold Carries at carries
  rw [Int.toNat_of_nonneg (by omega)]
  split_ifs with many negative
  · rw [Int.tdiv_eq_ediv_of_nonneg (by omega), Int.tmod_eq_emod_of_nonneg (by omega), long_eq (by omega) (by omega)]
  · have temp : long (-f.tm_mon) = -f.tm_mon := long_eq (by omega) (by omega)
    simp only [temp]
    rw [Int.tdiv_eq_ediv_of_nonneg (by omega), Int.tmod_eq_emod_of_nonneg (by omega), long_eq (by omega) (by omega)]
    simp only [Prod.mk.injEq]
    omega
  · rw [show f.tm_mon / 12 = 0 by omega, show f.tm_mon % 12 = f.tm_mon by omega, add_zero]

theorem carry_months_outside (low : -2 ^ 31 ≤ f.tm_mon) (carries : ¬Carries f.tm_mon) :
    12 ≤ (carry_months f.tm_year f.tm_mon).2 := by
  unfold Carries at carries
  unfold carry_months
  rw [if_neg (by omega), if_pos (by omega)]
  simp only
  by_cases least : f.tm_mon = -2 ^ 31
  · rw [least]
    decide
  · have temp : long (-f.tm_mon) = -f.tm_mon := long_eq (by omega) (by omega)
    rw [temp, Int.tmod_eq_emod_of_nonneg (by omega)]
    omega

theorem mktime_outside (olson : List Char → Int → Zone → Zone) (TZ : Option (List Char)) (z₀ : Zone) (static : Bool)
    (outside : 12 ≤ (carry_months f.tm_year f.tm_mon).2) : mktime olson TZ z₀ f static = none := by
  have beyond : ∀ table : List Int, table.length = 12 → at_ table (carry_months f.tm_year f.tm_mon).2 = none := by
    intro table twelve
    rw [at_, if_neg (by omega), List.getElem?_eq_none (by omega)]
  unfold mktime
  split
  next year mon carried =>
    rw [carried] at beyond
    have none_ : at_ (if year.tmod 4 = 0 then __lyday_to_month else __yday_to_month) mon = none := by
      split_ifs
      · exact beyond _ rfl
      · exact beyond _ rfl
    simp only [none_]
    rfl

/-- `mktime` undoes `localtime`. With fields in any range it gives the time that they add up to, and the fields that
`localtime` has for it, exactly when the months can be carried and that time is no error. -/
theorem mktime_inverts (set : ∀ tim, _ltzset olson TZ z₀ tim = some z) (steady : Steady olson TZ z) :
    (∀ clock static, 0 ≤ clock → clock < 2 ^ 31 → ∃ z₁ z₂, localtime olson TZ z₀ clock = some z₁ ∧
      mktime olson TZ z₁ z₁.own static = some (clock, z₁.own, z₂)) ∧
    ∀ (f : tm) static, (static = true → z.own = f) → f.tm_isdst = 0 → -2 ^ 31 ≤ f.tm_mon → f.tm_mon < 2 ^ 31 →
      1 ≤ f.tm_year + f.tm_mon / 12 → f.tm_year + f.tm_mon / 12 ≤ 138 →
      -2 ^ 31 ≤ denoted f z.timezone → denoted f z.timezone < 2 ^ 31 →
      ((∃ z₁ z₂, localtime olson TZ z₀ (denoted f z.timezone) = some z₁ ∧
        mktime olson TZ z₀ f static = some (denoted f z.timezone, z₁.own, z₂)) ↔ Carries f.tm_mon ∧ -1 ≤ denoted f z.timezone) := by
  constructor
  · intro clock static low high
    obtain ⟨f, z', found, run⟩ := mktime_localtime static set steady low high
    exact ⟨_, z', found, run⟩
  · intro f static own standard least most early late low high
    by_cases carries : Carries f.tm_mon
    · have carried := carry_months_done least most early late carries
      have offset : (if f.tm_isdst > 0 then z.altzone else z.timezone) = z.timezone := by rw [standard, if_neg (lt_irrefl _)]
      obtain ⟨f', z', shown, run⟩ := mktime_known static (x := denoted f z.timezone) set steady (fun is_own => by rw [own is_own])
        (by omega) carried (by omega) (by omega) (by omega) (by rw [offset]; rfl)
      rw [long_eq low high] at shown run
      have found : localtime olson TZ z₀ (denoted f z.timezone) = some { z with own := f' } := by
        rw [localtime_eq (set _) steady.rule, shown]
        rfl
      constructor
      · rintro ⟨z₁, z₂, found', run'⟩
        refine ⟨carries, ?_⟩
        rw [run, Option.some.injEq, Prod.mk.injEq] at run'
        have := run'.1
        split_ifs at this <;> omega
      · rintro ⟨-, no_error⟩
        refine ⟨_, z', found, ?_⟩
        rw [run]
        congr 2
        split_ifs <;> omega
    · have outside := mktime_outside olson TZ z₀ static (carry_months_outside least carries)
      constructor
      · rintro ⟨z₁, z₂, -, run⟩
        simp [outside] at run
      · exact fun both => absurd both.1 carries

def epoch : tm := ⟨0, 0, 0, 1, 0, 70, 4, 0, 0⟩

def eastern : Zone := ⟨18000, 14400, 1, -1, -1, false, epoch⟩

theorem eastern_set (tim : Int) (own : tm) :
    _ltzset (fun _ _ z => z) (some ['E', 'S', 'T', '5', 'E', 'D', 'T']) { eastern with own := own } tim = some { eastern with own := own } := by
  simp [_ltzset, getzname, gettime, gettime_sign, gettime_hms, getdigit, getdigit_loop, long, eastern, SEC_PER_HOUR]

theorem mktime_inverts_eastern :
    (∃ z₁ z₂, localtime (fun _ _ z => z) (some ['E', 'S', 'T', '5', 'E', 'D', 'T']) eastern 0 = some z₁ ∧
      mktime (fun _ _ z => z) (some ['E', 'S', 'T', '5', 'E', 'D', 'T']) z₁ z₁.own true = some (0, z₁.own, z₂)) ∧
    ∃ z₁ z₂, localtime (fun _ _ z => z) (some ['E', 'S', 'T', '5', 'E', 'D', 'T']) eastern 193550400 = some z₁ ∧
      mktime (fun _ _ z => z) (some ['E', 'S', 'T', '5', 'E', 'D', 'T']) eastern ⟨0, -60, 48, 17,
      -11, 77, 0, 0, 0⟩ false = some (193550400, z₁.own, z₂) := by
  obtain ⟨inverts, normalises⟩ := mktime_inverts (fun tim => eastern_set tim epoch) ⟨eastern_set, .inr ⟨rfl, rfl⟩⟩
  exact ⟨inverts 0 true (by decide) (by decide), (normalises ⟨0, -60, 48, 17, -11, 77, 0, 0, 0⟩ false nofun rfl (by decide) (by decide)
    (by decide) (by decide) (by decide) (by decide)).mpr ⟨.inr ⟨by decide, by decide⟩, by decide⟩⟩

/-- Twelve months before January 1971. -/
theorem mktime_leaves_table :
    denoted ⟨0, 0, 0, 1, -12, 71, 0, 0, 0⟩ 0 = 0 ∧
      mktime (fun _ _ z => z) none ⟨0, 0, 0, -1, -1, false, epoch⟩ ⟨0, 0, 0, 1, -12, 71, 0, 0, 0⟩ false = none := by
  refine ⟨by decide, mktime_outside _ _ _ _ ?_⟩
  simp [carry_months, long]

end Svr4.Proofs.Mktime
