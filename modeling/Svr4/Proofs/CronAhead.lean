import Svr4.Proofs.CronDays

/-! The day on which an event is due next, if it is not the current one. -/

namespace Svr4.Proofs.CronAhead
open Cron CronFields CronDays

variable {count start : Nat} {tm : Tm}

variable {e : Ct} {days month mday len k a : Nat} {day day1 day2 x : Int} {carry1 carry2 : Bool}

/-- The day counts by its day of the month or by its day of the week, only by the other if one
of the lists is a star. -/
def Rule (e : Ct) (mday wday : Int) : Prop :=
  if e.daymon = ['*'] then Listed e.dayweek wday
  else if e.dayweek = ['*'] then Listed e.daymon mday
  else Listed e.daymon mday ∨ Listed e.dayweek wday

def wday (days : Nat) : Int := (EPOCH_WDAY + days) % 7

def OnDay (e : Ct) (days : Nat) : Prop := Listed e.month ((date days).2.1 + 1) ∧ Rule e ((date days).2.2 + 1) (wday days)

/-- The first day after a day on which the event may occur. -/
structure FirstDay (e : Ct) (days days' : Nat) : Prop where
  after : days < days'
  on_day : OnDay e days'
  first : ∀ k, days < k → k < days' → ¬ OnDay e k

/-- After `mday` the list of days, which starts again on the last day of a month, has `x` next,
and the month does not have it. -/
structure Reaches (e : Ct) (month mday : Nat) (x : Int) : Prop where
  beyond : length month < x
  high : x ≤ 31
  listed : Listed e.daymon x
  first : ∀ y, (if mday + 1 < length month then (mday : Int) + 1 < y else 1 ≤ y) → y < x → ¬ Listed e.daymon y

def Left (e : Ct) (days month mday k : Nat) : Prop := 0 < k ∧ mday + k < length month ∧ Rule e (mday + k + 1) (wday (days + k))

/-- The event does not leave the month for the next of the list. -/
def Stays (e : Ct) (days month mday : Nat) : Prop :=
  Listed e.month ((month % 12 : Nat) + 1) ∧ ((∃ k, Left e days month mday k) ∨ ∃ x, Reaches e month mday x)

structure NextMonth (e : Ct) (month count : Nat) : Prop where
  some_ : 1 ≤ count
  few : count ≤ 12
  listed : Listed e.month (((month + count) % 12 : Nat) + 1)
  first : ∀ j, 1 ≤ j → j < count → ¬ Listed e.month (((month + j) % 12 : Nat) + 1)

theorem on_day_iff (is : On days month mday) : OnDay e days ↔ Listed e.month ((month % 12 : Nat) + 1) ∧ Rule e (mday + 1) (wday days) := by
  unfold OnDay
  rw [is.1]

theorem listed_star {s : Str} (star : s = ['*']) (x : Int) : Listed s x := .inl star

theorem rule_iff {mday wday : Int} : Rule e mday wday ↔
    ¬ Weekly e ∧ Listed e.daymon mday ∨ ¬ Monthly e ∧ Listed e.dayweek wday := by
  unfold Rule
  by_cases monthly : e.daymon = ['*']
  · by_cases weekly : e.dayweek = ['*']
    · simp [monthly, weekly, listed_star]
    · simp [monthly, weekly]
  · by_cases weekly : e.dayweek = ['*']
    · simp [monthly, weekly]
    · simp [monthly, weekly]

theorem Reaches.unique {x' : Int} (first : Reaches e month mday x) (second : Reaches e month mday x') : x = x' := by
  have inside := length_bounds month
  rcases lt_trichotomy x x' with before | same | after
  · exact absurd first.listed (second.first x (by have := first.beyond; split <;> omega) before)
  · exact same
  · exact absurd second.listed (first.first x' (by have := second.beyond; split <;> omega) after)

inductive Found (Q : Nat → Prop) (R : Int → Prop) (mday len : Nat) : Int → Bool → Prop where
  | inside {k : Nat} : 0 < k → mday + k < len → Q k → (∀ j, 0 < j → j < k → ¬ Q j) → Found Q R mday len (mday + k + 1) false
  | beyond {x : Int} : len < x → R x → (∀ k, 0 < k → mday + k < len → ¬ Q k) → Found Q R mday len x false
  | none {day : Int} : (∀ k, 0 < k → mday + k < len → ¬ Q k) → (∀ x, ¬ R x) → Found Q R mday len day true

theorem Found.either {Q Q' : Nat → Prop} {R : Int → Prop} (first : Found Q R mday len day1 carry1)
    (second : Found Q' (fun _ => False) mday len day2 carry2) :
    Found (fun k => Q k ∨ Q' k) R mday len
      (if ¬ carry1 ∧ ¬ carry2 then if day1 < day2 then day1 else day2 else if ¬ carry1 then day1 else day2) (carry1 && carry2) := by
  cases first with
  | @inside k some_ within holds least =>
    cases second with
    | @inside j some' within' holds' least' =>
      rw [if_pos (by decide)]
      split
      case isTrue less =>
        exact .inside some_ within (.inl holds) fun i low high => not_or.mpr ⟨least i low high, least' i low (by omega)⟩
      case isFalse more =>
        exact .inside some' within' (.inr holds') fun i low high => not_or.mpr ⟨least i low (by omega), least' i low high⟩
    | beyond _ absurd_ => exact absurd_.elim
    | none empty _ =>
      rw [if_neg (by decide), if_pos (by decide)]
      exact .inside some_ within (.inl holds) fun i low high => not_or.mpr ⟨least i low high, empty i low (by omega)⟩
  | beyond far reaches empty =>
    cases second with
    | @inside j some' within' holds' least' =>
      rw [if_pos (by decide), if_neg (by omega)]
      exact .inside some' within' (.inr holds') fun i low high => not_or.mpr ⟨empty i low (by omega), least' i low high⟩
    | beyond _ absurd_ => exact absurd_.elim
    | none empty' _ =>
      rw [if_neg (by decide), if_pos (by decide)]
      exact .beyond far reaches fun i low high => not_or.mpr ⟨empty i low high, empty' i low high⟩
  | none empty never =>
    cases second with
    | @inside j some' within' holds' least' =>
      rw [if_neg (by decide), if_neg (by decide)]
      exact .inside some' within' (.inr holds') fun i low high => not_or.mpr ⟨empty i low (by omega), least' i low high⟩
    | beyond _ absurd_ => exact absurd_.elim
    | none empty' _ => exact .none (fun i low high => not_or.mpr ⟨empty i low high, empty' i low high⟩) never

theorem Found.congr {Q Q' : Nat → Prop} {R R' : Int → Prop} (same : ∀ k, Q k ↔ Q' k) (same' : ∀ x, R x ↔ R' x)
    (found : Found Q R mday len day carry1) : Found Q' R' mday len day carry1 := by
  obtain rfl : Q = Q' := funext fun k => propext (same k)
  obtain rfl : R = R' := funext fun x => propext (same' x)
  exact found

theorem monthly_done (fields : Fields e) (is : On days month mday) :
    Found (fun k => Listed e.daymon (mday + k + 1)) (Reaches e month mday) mday (length month)
      (next_ge (((mday : Int) + 1 + 1 - 1) % length month + 1) e.daymon)
      (decide (next_ge (((mday : Int) + 1 + 1 - 1) % length month + 1) e.daymon < mday + 1 + 1)) := by
  have inside := is.2
  have bounds := length_bounds month
  generalize current_is : ((mday : Int) + 1 + 1 - 1) % length month + 1 = current
  have start : current = if mday + 1 < length month then (mday : Int) + 2 else 1 := by
    rw [← current_is]
    split
    case isTrue more =>
      rw [Int.emod_eq_of_lt (by omega) (by omega)]
      omega
    case isFalse last =>
      have whole : (mday : Int) + 1 + 1 - 1 = length month := by omega
      rw [whole, Int.emod_self]
      rfl
  have next := next_ge_done current fields.daymon (by decide) (by rw [start]; split <;> omega) (by rw [start]; split <;> omega)
  generalize next_ge current e.daymon = r at next
  obtain ⟨listed, low, high, first⟩ := next
  by_cases carried : r < mday + 1 + 1
  · rw [decide_eq_true carried]
    refine .none (fun k some_ within listed' => ?_) fun x reaches => ?_
    · rcases first with ⟨after, none_⟩ | ⟨_, none_, _⟩
      · rw [start] at after
        split at after <;> omega
      · exact none_ (mday + k + 1) (by rw [start]; split <;> omega) (by omega) listed'
    · obtain ⟨beyond, high', listed', least⟩ := reaches
      rcases first with ⟨after, none_⟩ | ⟨before, none_, _⟩
      · refine least r ?_ (by omega) listed
        rw [start] at after
        split at after <;> split <;> omega
      · exact none_ x (by rw [start]; split <;> omega) high' listed'
  · rw [decide_eq_false carried]
    have after : current ≤ r ∧ ∀ x, current ≤ x → x < r → ¬ Listed e.daymon x := by
      refine first.resolve_right fun ⟨before, _⟩ => ?_
      rw [start] at before
      split at before <;> omega
    obtain ⟨_, least⟩ := after
    rcases le_or_gt r (length month) with within | beyond
    · obtain ⟨k, rfl⟩ : ∃ k : Nat, r = mday + k + 1 := ⟨(r - mday - 1).toNat, by omega⟩
      refine .inside (by omega) (by omega) listed fun j some_ before => least (mday + j + 1) ?_ (by omega)
      rw [start]
      split <;> omega
    · refine .beyond beyond ⟨beyond, high, listed, fun y from_ before => least y ?_ before⟩ fun k some_ within => ?_
      · rw [start]
        split at from_ <;> split <;> omega
      · exact least (mday + k + 1) (by rw [start]; split <;> omega) (by omega)

theorem week_done (current : Int) (fields : Fields e) (low : 0 ≤ current) (high : current ≤ 6) :
    ∃ a : Nat, a ≤ 6 ∧ (if next_ge current e.dayweek < current then 7 - current + next_ge current e.dayweek
        else next_ge current e.dayweek - current) = a ∧
      Listed e.dayweek ((current + a) % 7) ∧ ∀ j < a, ¬ Listed e.dayweek ((current + j) % 7) := by
  obtain ⟨listed, low', high', first⟩ := next_ge_done current fields.dayweek (by decide) low high
  generalize next_ge current e.dayweek = r at *
  rcases first with ⟨after, none_⟩ | ⟨before, none_, none_'⟩
  · obtain ⟨a, is⟩ := Int.eq_ofNat_of_zero_le (Int.sub_nonneg_of_le after)
    obtain rfl : r = current + a := by omega
    refine ⟨a, by omega, by rw [if_neg (by omega), is], ?_, fun j less => ?_⟩
    · rwa [Int.emod_eq_of_lt (by omega) (by omega)]
    · rw [Int.emod_eq_of_lt (by omega) (by omega)]
      exact none_ _ (by omega) (by omega)
  · obtain ⟨a, is⟩ := Int.eq_ofNat_of_zero_le (show 0 ≤ 7 - current + r by omega)
    have around : (current + a) % 7 = r := by omega
    refine ⟨a, by omega, by rw [if_pos before, is], by rwa [around], fun j less => ?_⟩
    rcases le_or_gt (current + j) 6 with same | over_
    · rw [Int.emod_eq_of_lt (by omega) (by omega)]
      exact none_ _ (by omega) same
    · have less' : (current + j) % 7 < r := by omega
      exact none_' _ (by omega) less'

theorem weekly_done (fields : Fields e) (is : On days month mday) :
    ∃ daysahead : Int, (if next_ge ((wday days + 1) % 7) e.dayweek < wday days + 1 then
        7 - (wday days + 1) + next_ge ((wday days + 1) % 7) e.dayweek
      else next_ge ((wday days + 1) % 7) e.dayweek - (wday days + 1)) = daysahead ∧
      Found (fun k => Listed e.dayweek (wday (days + k))) (fun _ => False) mday (length month)
        (((mday : Int) + 1 + 1 + daysahead - 1) % length month + 1)
        (decide (((mday : Int) + 1 + 1 + daysahead - 1) % length month + 1 < mday + 1 + 1)) := by
  have inside := is.2
  have bounds := length_bounds month
  have here : 0 ≤ wday days ∧ wday days ≤ 6 := by
    unfold wday
    omega
  obtain ⟨a, few, ahead, listed, least⟩ := week_done ((wday days + 1) % 7) fields (by omega) (by omega)
  obtain ⟨_, low, high, _⟩ := next_ge_done ((wday days + 1) % 7) fields.dayweek (by decide) (by omega) (by omega)
  have weekday : ∀ j : Nat, ((wday days + 1) % 7 + j) % 7 = wday (days + (j + 1)) := by
    intro j
    unfold wday
    omega
  refine ⟨a, ?_, ?_⟩
  · rw [← ahead]
    split <;> split <;> omega
  rw [weekday] at listed
  have least' : ∀ j, 0 < j → j < a + 1 → ¬ Listed e.dayweek (wday (days + j)) := by
    intro j some_ before
    have none_ := least (j - 1) (by omega)
    rwa [weekday, Nat.sub_add_cancel some_] at none_
  by_cases within : mday + (a + 1) < length month
  · have whole : ((mday : Int) + 1 + 1 + a - 1) % length month + 1 = mday + (a + 1 : Nat) + 1 := by
      rw [Int.emod_eq_of_lt (by omega) (by omega)]
      omega
    rw [whole, decide_eq_false (by omega)]
    exact .inside (by omega) within listed least'
  · have around : ((mday : Int) + 1 + 1 + a - 1) % length month = (mday : Int) + 1 + 1 + a - 1 - length month := by
      rw [← Int.sub_emod_right, Int.emod_eq_of_lt (by omega) (by omega)]
    rw [around, decide_eq_true (by omega)]
    exact .none (fun j some_ before => least' j some_ (by omega)) fun _ => id

theorem next_month_done (fields : Fields e) (month : Nat) {mon : Int}
    (is : next_ge ((((month % 12 : Nat) : Int) + 1) % 12 + 1) e.month - 1 = mon) :
    ∃ count, NextMonth e month count ∧ mon = ((month + count) % 12 : Nat) ∧
      ∀ yr : Int, yr = (month / 12 : Nat) - TM_YEAR_BASE →
        (if mon < ((month % 12 : Nat) : Int) + 1 then yr + 1 else yr) = ((month + count) / 12 : Nat) - TM_YEAR_BASE := by
  obtain ⟨listed, low, high, first⟩ :=
    next_ge_done ((((month % 12 : Nat) : Int) + 1) % 12 + 1) fields.month (by decide) (by omega) (by omega)
  generalize next_ge ((((month % 12 : Nat) : Int) + 1) % 12 + 1) e.month = r at *
  subst is
  rcases first with ⟨after, none_⟩ | ⟨before, none_, none_'⟩
  · obtain ⟨more, is⟩ := Int.eq_ofNat_of_zero_le (Int.sub_nonneg_of_le after)
    have same : r = (((month + (more + 1)) % 12 : Nat) : Int) + 1 := by omega
    refine ⟨more + 1, ⟨by omega, by omega, same ▸ listed, fun j some_ few => ?_⟩, by omega, fun yr year => ?_⟩
    · exact none_ _ (by omega) (by omega)
    · split <;> omega
  · obtain ⟨more, is⟩ := Int.eq_ofNat_of_zero_le (show 0 ≤ 12 - ((((month % 12 : Nat) : Int) + 1) % 12 + 1) + r by omega)
    have same : r = (((month + (more + 1)) % 12 : Nat) : Int) + 1 := by omega
    refine ⟨more + 1, ⟨by omega, by omega, same ▸ listed, fun j some_ few => ?_⟩, by omega, fun yr year => ?_⟩
    · rcases le_or_gt ((((month % 12 : Nat) : Int) + 1) % 12 + 1) ((((month + j) % 12 : Nat) : Int) + 1) with beyond | around
      · exact none_ _ beyond (by omega)
      · exact none_' _ (by omega) (by omega)
    · split <;> omega

inductive Chosen (e : Ct) (days month mday : Nat) : Int → Int → Int → Prop where
  | here {k : Nat} : Listed e.month ((month % 12 : Nat) + 1) → Left e days month mday k → (∀ j < k, ¬ Left e days month mday j) →
      Chosen e days month mday (month % 12 : Nat) (mday + k + 1) ((month / 12 : Nat) - TM_YEAR_BASE)
  | beyond {x : Int} : Listed e.month ((month % 12 : Nat) + 1) → (∀ k, ¬ Left e days month mday k) → Reaches e month mday x →
      Chosen e days month mday (month % 12 : Nat) x ((month / 12 : Nat) - TM_YEAR_BASE)
  | next {count start k : Nat} : ¬ Stays e days month mday → NextMonth e month count → On start (month + count) 0 →
      k < length (month + count) → Rule e (k + 1) (wday (start + k)) → (∀ j < k, ¬ Rule e (j + 1) (wday (start + j))) →
      (count = 12 → k ≤ mday) →
      Chosen e days month mday ((month + count) % 12 : Nat) (k + 1) (((month + count) / 12 : Nat) - TM_YEAR_BASE)
  | lacking {count start : Nat} {x : Int} : ¬ Stays e days month mday → NextMonth e month count → On start (month + count) 0 →
      e.dayweek = ['*'] → length (month + count) < x → x ≤ 31 → (∀ y, 1 ≤ y → y < x → ¬ Listed e.daymon y) →
      (count = 12 → x ≤ mday + 1) →
      Chosen e days month mday ((month + count) % 12 : Nat) x (((month + count) / 12 : Nat) - TM_YEAR_BASE)

theorem Found.chosen (found : Found (fun k => Rule e (mday + k + 1) (wday (days + k))) (Reaches e month mday) mday (length month) day false)
    (listed : Listed e.month ((month % 12 : Nat) + 1)) :
    Chosen e days month mday (month % 12 : Nat) day ((month / 12 : Nat) - TM_YEAR_BASE) := by
  cases found with
  | inside some_ within holds least => exact .here listed ⟨some_, within, holds⟩ fun j before left => least j left.1 before left.2.2
  | beyond far reaches empty => exact .beyond listed (fun k left => empty k left.1 left.2.1 left.2.2) reaches

theorem Found.leaves (found : Found (fun k => Rule e (mday + k + 1) (wday (days + k))) (Reaches e month mday) mday (length month) day true) :
    ¬ Stays e days month mday := by
  cases found with
  | none empty never =>
    rintro ⟨_, ⟨k, some_, within, holds⟩ | ⟨x, reaches⟩⟩
    · exact empty k some_ within holds
    · exact never x reaches

theorem NextMonth.again (next : NextMonth e month count) (year : count = 12) : Listed e.month ((month % 12 : Nat) + 1) := by
  have listed := next.listed
  rw [year, Nat.add_mod_right] at listed
  exact listed

theorem leaves_early (leaves : ¬ Stays e days month mday) (listed : Listed e.month ((month % 12 : Nat) + 1))
    (counts : ¬ Weekly e) (is_listed : Listed e.daymon x) (high : x ≤ 31)
    (first : ∀ y, 1 ≤ y → y < x → ¬ Listed e.daymon y) : x ≤ mday + 1 := by
  by_contra late
  rcases le_or_gt x (length month) with within | beyond
  · obtain ⟨k, rfl⟩ : ∃ k : Nat, x = mday + k + 1 := ⟨(x - mday - 1).toNat, by omega⟩
    exact leaves ⟨listed, .inl ⟨k, by omega, by omega, rule_iff.mpr (.inl ⟨counts, is_listed⟩)⟩⟩
  · refine leaves ⟨listed, .inr ⟨x, beyond, high, is_listed, fun y from_ before => first y ?_ before⟩⟩
    split at from_ <;> omega

theorem leaves_late (leaves : ¬ Stays e days month mday) (listed : Listed e.month ((month % 12 : Nat) + 1))
    (counts : ¬ Monthly e) (is_listed : Listed e.dayweek (wday start)) : 21 ≤ mday := by
  have bounds := length_bounds month
  by_contra early
  obtain ⟨k, some_, few, same⟩ : ∃ k : Nat, 0 < k ∧ k ≤ 7 ∧ wday (days + k) = wday start := by
    refine ⟨((wday start - wday days - 1) % 7 + 1).toNat, by omega, by omega, ?_⟩
    unfold wday
    omega
  exact leaves ⟨listed, .inl ⟨k, some_, by omega, rule_iff.mpr (.inr ⟨counts, same ▸ is_listed⟩)⟩⟩

theorem next_day_done (fields : Fields e) (leaves : ¬ Stays e days month mday)
    (next : NextMonth e month count) (last : On start (month + count) 0) {day1 day2 : Int} (first : next_ge 1 e.daymon = day1)
    (second : (if next_ge (wday start) e.dayweek < wday start then 1 + 7 - wday start + next_ge (wday start) e.dayweek
      else 1 + next_ge (wday start) e.dayweek - wday start) = day2) :
    let day2 := if Monthly e then day1 else day2
    let day1 := if Weekly e then day2 else day1
    Chosen e days month mday ((month + count) % 12 : Nat) (if day1 < day2 then day1 else day2)
      (((month + count) / 12 : Nat) - TM_YEAR_BASE) := by
  have long := length_bounds (month + count)
  have here : 0 ≤ wday start ∧ wday start ≤ 6 := by
    unfold wday
    omega
  obtain ⟨a, few, ahead, listed, least⟩ := week_done (wday start) fields here.1 here.2
  have day2_is : day2 = a + 1 := by
    rw [← second, ← ahead]
    split <;> omega
  have weekday : ∀ j : Nat, (wday start + j) % 7 = wday (start + j) := by
    intro j
    unfold wday
    omega
  rw [weekday] at listed
  obtain ⟨listed1, low, high, first1⟩ := next_ge_done 1 fields.daymon (by decide) (by decide) (by decide)
  rw [first] at listed1 low high first1
  have least1 : ∀ y, 1 ≤ y → y < day1 → ¬ Listed e.daymon y := by
    rcases first1 with ⟨_, none_⟩ | ⟨before, _⟩
    · exact none_
    · omega
  dsimp only
  by_cases weekly : Weekly e
  · have monthly : ¬ Monthly e := fun both => both.1 weekly.1
    rw [if_neg monthly, if_pos weekly, ite_self, day2_is]
    refine .next leaves next last (by omega) (rule_iff.mpr (.inr ⟨monthly, listed⟩)) (fun j before rule => ?_) fun year => ?_
    · rcases rule_iff.mp rule with ⟨not_, _⟩ | ⟨_, listed'⟩
      · exact not_ weekly
      · exact least j before (weekday j ▸ listed')
    · have := leaves_late leaves (next.again year) monthly listed
      omega
  have early : count = 12 → day1 ≤ mday + 1 := fun year => leaves_early leaves (next.again year) weekly listed1 high least1
  rw [if_neg weekly]
  by_cases monthly : Monthly e
  · rw [if_pos monthly, ite_self]
    rcases le_or_gt day1 (length (month + count)) with within | beyond
    · obtain ⟨k, rfl⟩ : ∃ k : Nat, day1 = k + 1 := ⟨(day1 - 1).toNat, by omega⟩
      refine .next leaves next last (by omega) (rule_iff.mpr (.inl ⟨weekly, listed1⟩)) (fun j before rule => ?_) fun year => ?_
      · rcases rule_iff.mp rule with ⟨_, listed'⟩ | ⟨not_, _⟩
        · exact least1 _ (by omega) (by omega) listed'
        · exact not_ monthly
      · have := early year
        omega
    · exact .lacking leaves next last monthly.2 beyond high least1 early
  · rw [if_neg monthly, day2_is]
    split
    case isTrue sooner =>
      obtain ⟨k, rfl⟩ : ∃ k : Nat, day1 = k + 1 := ⟨(day1 - 1).toNat, by omega⟩
      refine .next leaves next last (by omega) (rule_iff.mpr (.inl ⟨weekly, listed1⟩)) (fun j before rule => ?_) fun year => ?_
      · rcases rule_iff.mp rule with ⟨_, listed'⟩ | ⟨_, listed'⟩
        · exact least1 _ (by omega) (by omega) listed'
        · exact least j (by omega) (weekday j ▸ listed')
      · have := early year
        omega
    case isFalse later =>
      refine .next leaves next last (by omega) (rule_iff.mpr (.inr ⟨monthly, listed⟩)) (fun j before rule => ?_) fun year => ?_
      · rcases rule_iff.mp rule with ⟨_, listed'⟩ | ⟨_, listed'⟩
        · exact least1 _ (by omega) (by omega) listed'
        · exact least j before (weekday j ▸ listed')
      · have := early year
        omega

structure Fits (tm : Tm) (days month mday : Nat) : Prop where
  mon : tm.tm_mon = (month % 12 : Nat)
  day : tm.tm_mday = mday + 1
  year : tm.tm_year = (month / 12 : Nat) - TM_YEAR_BASE
  weekday : tm.tm_wday = wday days

theorem month_listed_iff (fields : Fields e) : ((month % 12 : Nat) : Int) = next_ge (((month % 12 : Nat) : Int) + 1) e.month - 1 ↔
    Listed e.month ((month % 12 : Nat) + 1) := by
  obtain ⟨listed, low, high, first⟩ := next_ge_done (((month % 12 : Nat) : Int) + 1) fields.month (by decide) (by omega) (by omega)
  generalize next_ge (((month % 12 : Nat) : Int) + 1) e.month = r at *
  constructor
  · intro same
    obtain rfl : r = ((month % 12 : Nat) : Int) + 1 := by omega
    exact listed
  · intro now
    rcases first with ⟨after, none_⟩ | ⟨_, none_, _⟩
    · by_contra other
      exact none_ _ le_rfl (by omega) now
    · exact absurd now (none_ _ le_rfl (by omega))

theorem reaches_monthly (reaches : Reaches e month mday x) : e.daymon ≠ ['*'] := by
  intro star
  have inside := length_bounds month
  have beyond := reaches.beyond
  by_cases more : mday + 1 < length month
  · exact reaches.first (mday + 2) (by rw [if_pos more]; omega) (by omega) (.inl star)
  · exact reaches.first 1 (by rw [if_neg more]) (by omega) (.inl star)

theorem this_month_done (fields : Fields e) (is : On days month mday) (after : 1902 ≤ month / 12) (before : month / 12 ≤ 2098)
    (fits : Fits tm days month mday) {first second : Int × Bool} (these : this_month e tm = (first, second)) :
    Found (fun k => Rule e (mday + k + 1) (wday (days + k))) (Reaches e month mday) mday (length month)
      (if ¬ first.2 ∧ ¬ second.2 then if first.1 < second.1 then first.1 else second.1 else if ¬ first.2 then first.1 else second.1)
      (first.2 && second.2) := by
  obtain ⟨mon, md, yr, wd⟩ := fits
  have found1 := monthly_done fields is
  obtain ⟨daysahead, ahead_is, found2⟩ := weekly_done fields is
  have long := days_in_mon_eq month (by omega) (by omega)
  unfold this_month at these
  rw [mon, md, yr, wd, long] at these
  dsimp only at these
  rw [ahead_is] at these
  by_cases weekly : Weekly e
  · have monthly : ¬ Monthly e := fun both => both.1 weekly.1
    rw [if_pos weekly, if_neg monthly] at these
    cases these
    refine (found2.either found2).congr (fun k => ?_) fun x => ?_
    · rw [rule_iff, or_self]
      simp [weekly, monthly]
    · exact ⟨False.elim, fun reaches => reaches_monthly reaches weekly.1⟩
  rw [if_neg weekly] at these
  by_cases monthly : Monthly e
  · rw [if_pos monthly] at these
    cases these
    dsimp only
    rw [ite_self, ite_self, ite_self, Bool.and_self]
    refine found1.congr (fun k => ?_) fun x => Iff.rfl
    rw [rule_iff]
    simp [weekly, monthly]
  · rw [if_neg monthly] at these
    cases these
    refine (found1.either found2).congr (fun k => ?_) fun x => Iff.rfl
    rw [rule_iff]
    simp [weekly, monthly]

theorem later_month_done (fields : Fields e) (is : On days month mday) (after : 1902 ≤ month / 12) (before : month / 12 ≤ 2098)
    (fits : Fits tm days month mday) (leaves : ¬ Stays e days month mday) :
    Chosen e days month mday (later_month e tm).1 (later_month e tm).2.1 (later_month e tm).2.2 := by
  obtain ⟨mon, md, yr, wd⟩ := fits
  obtain ⟨count, next, mon_is, yr_is⟩ := next_month_done fields month rfl
  obtain ⟨first, first_on, _⟩ := is.month_end.months (count - 1)
  have ends : month + 1 + (count - 1) = month + count := by have := next.some_; omega
  rw [ends] at first_on
  have btwn := days_btwn_done _ 1 is first_on next.few (fun none_ => by have := next.some_; omega) (fun _ => by omega) after before
  unfold later_month
  rw [mon, md, yr, wd]
  dsimp only
  rw [yr_is _ rfl, mon_is]
  have weekday : (wday days + (days_btwn (month % 12 : Nat) (mday + 1) ((month / 12 : Nat) - TM_YEAR_BASE) ((month + count) % 12 : Nat) 1
      (((month + count) / 12 : Nat) - TM_YEAR_BASE) + 1)) % 7 = wday first := by
    unfold wday
    omega
  rw [weekday]
  exact next_day_done fields leaves next first_on rfl rfl

theorem ahead_done (fields : Fields e) (is : On days month mday) (after : 1902 ≤ month / 12) (before : month / 12 ≤ 2098)
    (fits : Fits tm days month mday) : Chosen e days month mday (ahead e tm).1 (ahead e tm).2.1 (ahead e tm).2.2 := by
  obtain ⟨⟨⟨day1, carry1⟩, day2, carry2⟩, these⟩ : ∃ days, this_month e tm = days := ⟨_, rfl⟩
  have found := this_month_done fields is after before fits these
  have later := later_month_done fields is after before fits
  have listed_iff := @month_listed_iff e month fields
  unfold ahead
  rw [these]
  dsimp only at found ⊢
  rw [fits.mon]
  split
  case isTrue out =>
    refine later fun stays => ?_
    rcases out with ⟨rfl, rfl⟩ | other
    · exact found.leaves stays
    · exact other (listed_iff.mpr stays.1)
  case isFalse in_ =>
    obtain ⟨some_, listed⟩ := not_or.mp in_
    have listed := listed_iff.mp (not_not.mp listed)
    have both : (carry1 && carry2) = false := by
      cases carry1
      · rfl
      · cases carry2
        · rfl
        · exact absurd ⟨rfl, rfl⟩ some_
    rw [both] at found
    rw [fits.year]
    have chosen := found.chosen listed
    split
    case isTrue both_ =>
      rw [if_pos both_] at chosen
      exact chosen
    case isFalse one =>
      rw [if_neg one] at chosen
      split
      case isTrue first =>
        rw [if_pos first] at chosen
        exact chosen
      case isFalse second =>
        rw [if_neg second] at chosen
        exact chosen

/-- With no day left in the month, the list has a day next that the month does not have, and as
many days after its end is not the first on which the event may occur. -/
def Overrun (e : Ct) (days : Nat) : Prop :=
  ∃ month mday x, On days month mday ∧ Listed e.month ((month % 12 : Nat) + 1) ∧ (∀ k, ¬ Left e days month mday k) ∧
    Reaches e month mday x ∧ ¬ FirstDay e days (days + (x - mday - 1).toNat)

/-- Only days of the month count, and the next month of the list has none of them. -/
def Lacking (e : Ct) (days : Nat) : Prop :=
  ∃ month mday count, On days month mday ∧ ¬ Stays e days month mday ∧ e.dayweek = ['*'] ∧ NextMonth e month count ∧
    ∀ x : Int, 1 ≤ x → x ≤ length (month + count) → ¬ Listed e.daymon x

theorem NextMonth.unique {count' : Nat} (first : NextMonth e month count) (second : NextMonth e month count') : count = count' := by
  rcases lt_trichotomy count count' with before | same | after
  · exact absurd first.listed (second.first count first.some_ before)
  · exact same
  · exact absurd second.listed (first.first count' second.some_ after)

theorem Left.first_day (is : On days month mday) (listed : Listed e.month ((month % 12 : Nat) + 1)) (left : Left e days month mday k)
    (least : ∀ j < k, ¬ Left e days month mday j) : FirstDay e days (days + k) := by
  obtain ⟨some_, within, rule⟩ := left
  refine ⟨by omega, (on_day_iff (is.later within)).mpr ⟨listed, rule⟩, fun x after before on_day => ?_⟩
  obtain ⟨j, rfl⟩ := Nat.exists_eq_add_of_lt after
  have inside : mday + (j + 1) < length month := by omega
  exact least (j + 1) (by omega) ⟨Nat.succ_pos j, inside, ((on_day_iff (is.later inside)).mp on_day).2⟩

theorem NextMonth.first_day (is : On days month mday) (leaves : ¬ Stays e days month mday) (next : NextMonth e month count)
    (last : On start (month + count) 0) (inside : k < length (month + count)) (rule : Rule e (k + 1) (wday (start + k)))
    (least : ∀ j < k, ¬ Rule e (j + 1) (wday (start + j))) : FirstDay e days (start + k) := by
  have bounds := length_bounds month
  have some_ := next.some_
  have within := is.2
  have here := last.later (k := k) (by omega)
  rw [Nat.zero_add] at here
  refine ⟨(is.lt_iff here).mpr (by omega), (on_day_iff here).mpr ⟨next.listed, rule⟩, fun x after before on_day => ?_⟩
  obtain ⟨month', mday', on⟩ := on_exists x
  obtain ⟨listed, rule'⟩ := (on_day_iff on).mp on_day
  have low := (is.lt_iff on).mp after
  have high := (on.lt_iff here).mp before
  have inside' := on.2
  have bounds' := length_bounds month'
  rcases lt_trichotomy month' (month + count) with sooner | rfl | later
  · rcases Nat.eq_or_lt_of_le (show month ≤ month' by omega) with rfl | more
    · obtain ⟨j, rfl⟩ := Nat.exists_eq_add_of_lt after
      obtain ⟨_, same⟩ := on.unique (is.later (k := j + 1) (by
        obtain ⟨first, first_on, whole⟩ := is.first
        obtain ⟨first', first_on', whole'⟩ := on.first
        have := first_on.same first_on'
        omega))
      subst same
      exact leaves ⟨listed, .inl ⟨j + 1, Nat.succ_pos j, inside', rule'⟩⟩
    · obtain ⟨j, rfl⟩ := Nat.exists_eq_add_of_lt more
      exact next.first (j + 1) (by omega) (by omega) listed
  · obtain ⟨first, first_on, whole⟩ := on.first
    obtain rfl := first_on.same last
    subst whole
    exact least mday' (by omega) rule'
  · have long := length_bounds (month + count)
    omega

/-- The day that `ahead` leads to is the first on which the event may occur, or one of the two
has happened. -/
theorem chosen_done (is : On days month mday) (after : 1902 ≤ month / 12) (before : month / 12 ≤ 2098) {mon day yr : Int}
    (chosen : Chosen e days month mday mon day yr) :
    ∃ days' : Nat, (days' : Int) = days + 1 + days_btwn (month % 12 : Nat) (mday + 1) ((month / 12 : Nat) - TM_YEAR_BASE) mon day yr ∧
      days < days' ∧ days' ≤ days + 500 ∧ (FirstDay e days days' ↔ ¬ Overrun e days ∧ ¬ Lacking e days) := by
  have within := is.2
  have bounds := length_bounds month
  obtain ⟨first, first_on, whole⟩ := is.first
  cases chosen with
  | @here k listed left least =>
    have btwn := days_btwn_done 0 (mday + k + 1) is first_on (by omega) (fun _ => by have := left.1; omega)
      (fun no => by omega) after before
    rw [Nat.add_zero] at btwn
    refine ⟨days + k, by omega, by have := left.1; omega, by have := left.2.1; omega, fun _ => ⟨?_, ?_⟩, fun _ => left.first_day is listed least⟩
    · rintro ⟨month', mday', x, on, _, none_, _, _⟩
      obtain ⟨rfl, rfl⟩ := is.unique on
      exact none_ k left
    · rintro ⟨month', mday', count, on, leaves, _⟩
      obtain ⟨rfl, rfl⟩ := is.unique on
      exact leaves ⟨listed, .inl ⟨k, left⟩⟩
  | beyond listed none_ reaches =>
    have far := reaches.beyond
    have high := reaches.high
    have btwn := days_btwn_done 0 day is first_on (by omega) (fun _ => by omega) (fun no => by omega) after before
    rw [Nat.add_zero] at btwn
    refine ⟨days + (day - mday - 1).toNat, by omega, by omega, by omega, fun first_day => ⟨?_, ?_⟩, fun ⟨overrun, _⟩ => ?_⟩
    · rintro ⟨month', mday', x, on, _, _, reaches', wrong⟩
      obtain ⟨rfl, rfl⟩ := is.unique on
      obtain rfl := reaches.unique reaches'
      exact wrong first_day
    · rintro ⟨month', mday', count, on, leaves, _⟩
      obtain ⟨rfl, rfl⟩ := is.unique on
      exact leaves ⟨listed, .inr ⟨_, reaches⟩⟩
    · by_contra wrong
      exact overrun ⟨month, mday, day, is, listed, none_, reaches, wrong⟩
  | @next count start k leaves next last inside rule least year =>
    have some_ := next.some_
    have few := next.few
    have long := length_bounds (month + count)
    have btwn := days_btwn_done count (k + 1) is last few (fun no => by omega) (fun yes => by have := year yes; omega) after before
    have up := (is.lt_iff last).mpr (by omega)
    obtain ⟨start', first_on', near⟩ := first_on.months count
    obtain rfl := first_on'.same last
    refine ⟨start' + k, by omega, by omega, by omega, fun _ => ⟨?_, ?_⟩, fun _ => next.first_day is leaves last inside rule least⟩
    · rintro ⟨month', mday', x, on, listed, none_, reaches, _⟩
      obtain ⟨rfl, rfl⟩ := is.unique on
      exact leaves ⟨listed, .inr ⟨_, reaches⟩⟩
    · rintro ⟨month', mday', count', on, _, star, next', missing⟩
      obtain ⟨rfl, rfl⟩ := is.unique on
      obtain rfl := next.unique next'
      have other : e.daymon ≠ ['*'] := fun star' => missing 1 le_rfl (by omega) (.inl star')
      rw [Rule, if_neg other, if_pos star] at rule
      exact missing (k + 1) (by omega) (by omega) rule
  | @lacking count start _ leaves next last star far high least year =>
    have some_ := next.some_
    have few := next.few
    have long := length_bounds (month + count)
    have btwn := days_btwn_done count day is last few (fun no => by omega) year after before
    have up := (is.lt_iff last).mpr (by omega)
    obtain ⟨start', first_on', near⟩ := first_on.months count
    obtain rfl := first_on'.same last
    have is_lacking : Lacking e days := ⟨month, mday, count, is, leaves, star, next, fun x low up => least x low (by omega)⟩
    refine ⟨start' + (day - 1).toNat, by omega, by omega, by omega, fun first_day => ?_, fun ⟨_, not_⟩ => absurd is_lacking not_⟩
    exfalso
    have long' := length_bounds (month + count + 1)
    have there := last.month_end.later (k := (day - 1 - length (month + count)).toNat) (by omega)
    have same : start' + (length (month + count) - 0) + (day - 1 - length (month + count)).toNat = start' + (day - 1).toNat := by omega
    rw [same, Nat.zero_add] at there
    obtain ⟨_, rule⟩ := (on_day_iff there).mp first_day.on_day
    have other : e.daymon ≠ ['*'] := fun star' => least 1 le_rfl (by omega) (.inl star')
    rw [Rule, if_neg other, if_pos star] at rule
    exact least _ (by omega) (by omega) rule

end Svr4.Proofs.CronAhead
