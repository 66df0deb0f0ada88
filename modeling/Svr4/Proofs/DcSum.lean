import Svr4.Library.Positional
import Svr4.Library.Faults
import Svr4.Dc

/-! What the loops of `chsign`, `add` and `mult` leave in a buffer, and when it is in normal form. -/

namespace Svr4.Proofs.DcDigits
open Positional Faults Dc

def IsDigit (d : Int) : Prop := 0 ≤ d ∧ d ≤ 99

structure Positive (ds : List Int) : Prop where
  digits : ∀ d ∈ ds, IsDigit d
  high : ds.getLast? ≠ some 0

structure Complement (ds : List Int) : Prop where
  digits : ∀ d ∈ ds, IsDigit d
  high : ds.getLast? ≠ some 99

def Normal (ds : List Int) : Prop := Positive ds ∨ ∃ body, ds = body ++ [-1] ∧ Complement body

variable {p q r : blk} {ds es xs done rest : List Int} {c d carry : Int} {time : Nat}

theorem IsDigit.fits (digit : IsDigit d) : -128 ≤ d ∧ d ≤ 127 := by
  obtain ⟨low, high⟩ := digit
  omega

theorem char_ok (fits : -128 ≤ c ∧ c ≤ 127) : char c = .ok c := if_pos fits

theorem slookc_at : slookc ⟨done ++ d :: rest, done.length⟩ = d := by simp [slookc, sfeof, byte]

theorem sgetc_at : sgetc ⟨done ++ d :: rest, done.length⟩ = (d, ⟨done ++ d :: rest, done.length + 1⟩) := by simp [sgetc, sfeof, byte]

theorem sfeof_at : sfeof ⟨done ++ d :: rest, done.length⟩ = false := by simp [sfeof]

theorem sfeof_end : sfeof ⟨done, done.length⟩ = true := by simp [sfeof]

theorem salterc_at (fits : -128 ≤ c ∧ c ≤ 127) : salterc ⟨done ++ d :: rest, done.length⟩ c = .ok ⟨done ++ c :: rest, done.length + 1⟩ := by
  simp [salterc, char_ok fits, ok_bind]

theorem salterc_end (fits : -128 ≤ c ∧ c ≤ 127) : salterc ⟨done, done.length⟩ c = .ok ⟨done ++ [c], done.length + 1⟩ := by
  simp [salterc, char_ok fits, ok_bind]

theorem sputc_ok {n : Nat} (fits : -128 ≤ c ∧ c ≤ 127) : sputc ⟨ds, n⟩ c = .ok ⟨ds ++ [c], n⟩ := by
  simp [sputc, char_ok fits, ok_bind]

theorem sbackc_end : sbackc (fsfile ⟨ds ++ [d], time⟩) = (d, ⟨ds ++ [d], ds.length⟩) := by simp [sbackc, fsfile, sfbeg, byte]

theorem sbackc_at : sbackc ⟨ds ++ d :: es, ds.length + 1⟩ = (d, ⟨ds ++ d :: es, ds.length⟩) := by simp [sbackc, sfbeg, byte]

def negate_step (c t : Int) : Int × Int := if 100 + t + c ≥ 100 then (t + c, 0) else (100 + t + c, -1)

def Borrow (c : Int) : Prop := c = 0 ∨ c = -1

theorem negate_keeps (t : Int) : Borrow (negate_step c t).2 := by
  unfold negate_step Borrow
  split_ifs <;> simp

theorem negate_exact (t : Int) : (negate_step c t).1 + 100 * (negate_step c t).2 = c + t := by
  unfold negate_step
  split_ifs <;> ring

theorem negate_digit (borrow : Borrow c) (bounds : -1 ≤ d ∧ d ≤ 99) : IsDigit (negate_step c (-d)).1 := by
  unfold negate_step IsDigit
  rcases borrow with rfl | rfl <;> split_ifs <;> constructor <;> simp only [] <;> omega

def negated (ds : List Int) : List Int × Int := settle negate_step 0 (ds.map (- ·))

theorem chsign_loop_done (done : List Int) (bounds : ∀ d ∈ rest, -1 ≤ d ∧ d ≤ 99) (borrow : Borrow c) (enough : rest.length < time) :
    chsign_loop time ⟨done ++ rest, done.length⟩ (-c) =
      .ok (⟨done ++ (settle negate_step c (rest.map (- ·))).1, (done ++ rest).length⟩, -(settle negate_step c (rest.map (- ·))).2) := by
  induction rest generalizing done c time with
  | nil =>
    obtain ⟨time, rfl⟩ : ∃ t, time = t + 1 := ⟨time - 1, by omega⟩
    simp [chsign_loop, sfeof, settle]
  | cons d rest ih =>
    obtain ⟨time, rfl⟩ : ∃ t, time = t + 1 := ⟨time - 1, by omega⟩
    obtain ⟨low, high⟩ := bounds d (by simp)
    have bounds' : ∀ d ∈ rest, -1 ≤ d ∧ d ≤ 99 := fun d member => bounds d (List.mem_cons_of_mem _ member)
    rw [List.length_cons] at enough
    have fits : -128 ≤ 100 - d - -c ∧ 100 - d - -c ≤ 127 := by rcases borrow with rfl | rfl <;> omega
    have digit : (if 100 - d - -c ≥ 100 then 100 - d - -c - 100 else 100 - d - -c) = (negate_step c (-d)).1 := by
      unfold negate_step
      split_ifs <;> simp only [] <;> omega
    have borrows : (if 100 - d - -c ≥ 100 then (0 : Int) else 1) = -(negate_step c (-d)).2 := by
      unfold negate_step
      split_ifs <;> simp only [] <;> omega
    have small := negate_digit borrow ⟨low, high⟩
    rw [chsign_loop, sfeof_at, if_neg Bool.false_ne_true, slookc_at, char_ok fits, ok_bind, digit, borrows,
      salterc_at ⟨by have := small.1; omega, by have := small.2; omega⟩, ok_bind]
    have shifted : (⟨done ++ (negate_step c (-d)).1 :: rest, done.length + 1⟩ : blk) =
        ⟨(done ++ [(negate_step c (-d)).1]) ++ rest, (done ++ [(negate_step c (-d)).1]).length⟩ := by simp
    rw [shifted, ih (done ++ [(negate_step c (-d)).1]) bounds' (negate_keeps _) (by omega)]
    simp [settle]

def val (ds : List Int) : Int := value 100 ds

theorem val_snoc : val (ds ++ [d]) = val ds + 100 ^ ds.length * d := by
  rw [val, value_append, value_cons, value_nil, mul_zero, add_zero, val]

theorem val_nonneg (digits : ∀ d ∈ ds, IsDigit d) : 0 ≤ val ds := Digits.nonneg digits (by norm_num)

theorem val_below (digits : ∀ d ∈ ds, IsDigit d) : val ds < 100 ^ ds.length :=
  Digits.lt_pow (B := (100 : Int)) digits (by norm_num)

theorem top_places (digits : ∀ d ∈ ds, IsDigit d) :
    100 ^ ds.length * d ≤ val (ds ++ [d]) ∧ val (ds ++ [d]) < 100 ^ ds.length * (d + 1) := by
  rw [val_snoc]
  have below := val_below digits
  have nonneg := val_nonneg digits
  constructor <;> nlinarith

theorem negated_keeps (ds : List Int) : ∀ c, Borrow c → ∀ t ∈ ds.map (- ·), Borrow (negate_step c t).2 :=
  fun _ _ t _ => negate_keeps t

theorem val_negated (ds : List Int) :
    val (negated ds).1 + 100 ^ ds.length * (negated ds).2 = -val ds := by
  have settled := settle_value (B := (100 : Int)) (negated_keeps ds) (fun _ _ t _ => negate_exact t) (.inl rfl)
  have opposite : value (100 : Int) (ds.map (- ·)) = -value 100 ds := by
    have times := value_map_mul (100 : Int) (-1) ds
    simpa using times
  rw [opposite, List.length_map, zero_add] at settled
  exact settled

theorem negated_length (ds : List Int) : (negated ds).1.length = ds.length := by rw [negated, settle_length, List.length_map]

theorem negated_borrow (ds : List Int) : Borrow (negated ds).2 := settle_carry (negated_keeps ds) (.inl rfl)

theorem negated_digits (bounds : ∀ d ∈ ds, -1 ≤ d ∧ d ≤ 99) : ∀ d ∈ (negated ds).1, IsDigit d := by
  refine settle_digits (P := IsDigit) (negated_keeps ds) ?_ (.inl rfl)
  intro c borrow t member
  obtain ⟨d, inside, rfl⟩ := List.mem_map.mp member
  exact negate_digit borrow (bounds d inside)

theorem digit_bounds (digits : ∀ d ∈ ds, IsDigit d) : ∀ d ∈ ds, -1 ≤ d ∧ d ≤ 99 := by
  intro d member
  obtain ⟨low, high⟩ := digits d member
  exact ⟨by omega, high⟩

theorem Normal.bounds (normal : Normal ds) : ∀ d ∈ ds, -1 ≤ d ∧ d ≤ 99 := by
  obtain positive | ⟨body, rfl, complement⟩ := normal
  · exact digit_bounds positive.digits
  · rw [List.forall_mem_append]
    exact ⟨digit_bounds complement.digits, by simp⟩

theorem val_sign_extended : val (ds ++ [99] ++ [-1]) = val (ds ++ [-1]) := by
  rw [val_snoc, val_snoc, val_snoc, List.length_append, List.length_singleton, pow_succ]
  ring

section
variable (digits : ∀ d ∈ ds, IsDigit d)
include digits

theorem Positive.snoc (digit : IsDigit d) (high : d ≠ 0) : Positive (ds ++ [d]) where
  digits := by
    rw [List.forall_mem_append]
    exact ⟨digits, by simpa using digit⟩
  high := by simpa using high

theorem Complement.snoc (digit : IsDigit d) (high : d ≠ 99) : Complement (ds ++ [d]) where
  digits := by
    rw [List.forall_mem_append]
    exact ⟨digits, by simpa using digit⟩
  high := by simpa using high

theorem top : ds = [] ∨ ∃ low d, ds = low ++ [d] ∧ (∀ d ∈ low, IsDigit d) ∧ IsDigit d := by
  obtain rfl | ⟨low, d, rfl⟩ := ds.eq_nil_or_concat'
  · exact .inl rfl
  · rw [List.forall_mem_append] at digits
    exact .inr ⟨low, d, rfl, digits.1, digits.2 d (by simp)⟩

theorem positive_of (weight : 100 ^ (ds.length - 1) ≤ val ds) : Positive ds := by
  obtain rfl | ⟨low, d, rfl, lows, digit⟩ := top digits
  · exact ⟨by simp, by simp⟩
  · apply Positive.snoc lows digit
    rintro rfl
    have below := val_below lows
    rw [val_snoc, mul_zero, add_zero, List.length_append, List.length_singleton, Nat.add_sub_cancel] at weight
    omega

theorem complement_of (weight : ds ≠ [] → val ds < 100 ^ ds.length - 100 ^ (ds.length - 1)) : Complement ds := by
  obtain rfl | ⟨low, d, rfl, lows, digit⟩ := top digits
  · exact ⟨by simp, by simp⟩
  · apply Complement.snoc lows digit
    rintro rfl
    have above := (top_places (d := 99) lows).1
    have weight := weight (by simp)
    rw [List.length_append, List.length_singleton, Nat.add_sub_cancel, pow_succ] at weight
    omega

end

theorem Positive.weight (positive : Positive (ds ++ [d])) : 100 ^ ds.length ≤ val (ds ++ [d]) := by
  have digits := positive.digits
  rw [List.forall_mem_append] at digits
  have high : d ≠ 0 := by simpa using positive.high
  have digit : IsDigit d := digits.2 d (by simp)
  exact Digits.pow_le digits.1 (by norm_num) (by have := digit.1; omega)

theorem Complement.weight (complement : Complement ds) (nonempty : ds ≠ []) : val ds < 100 ^ ds.length - 100 ^ (ds.length - 1) := by
  obtain rfl | ⟨low, d, rfl, lows, digit⟩ := top complement.digits
  · exact absurd rfl nonempty
  · have high : d ≠ 99 := by simpa using complement.high
    have above := (top_places (d := d) lows).2
    have fits : (100 : Int) ^ low.length * (d + 1) ≤ 100 ^ low.length * 99 :=
      mul_le_mul_of_nonneg_left (by have := digit.2; omega) (by positivity)
    rw [List.length_append, List.length_singleton, Nat.add_sub_cancel, pow_succ]
    omega

end Svr4.Proofs.DcDigits

/-! `chsign` leaves the normal form of the opposite number. -/

namespace Svr4.Proofs.DcDigits
open Positional Faults Dc DcDigits

variable {p : blk} {ds body low : List Int} {d : Int} {n : Nat}

theorem truncate_at {es : List Int} : truncate ⟨ds ++ es, ds.length⟩ = ⟨ds, ds.length⟩ := by simp [truncate]

theorem loop_negates (bounds : ∀ d ∈ ds, -1 ≤ d ∧ d ≤ 99) :
    chsign_loop (ds.length + 1) (rewind ⟨ds, n⟩) 0 = .ok (⟨(negated ds).1, ds.length⟩, -(negated ds).2) :=
  chsign_loop_done [] (c := 0) bounds (.inl rfl) (by omega)

theorem chsign_borrowed (bounds : ∀ d ∈ ds, -1 ≤ d ∧ d ≤ 99) (borrowed : (negated ds).2 = -1) (split : (negated ds).1 = low ++ [d]) :
    ∃ rd, chsign ⟨ds, n⟩ = .ok ⟨if d = 99 then low ++ [-1] else low ++ [d] ++ [-1], rd⟩ := by
  have length : ds.length = low.length + 1 := by rw [← negated_length, split, List.length_append, List.length_singleton]
  have signed : sputc ⟨low ++ [d], ds.length⟩ (-1) = .ok ⟨low ++ [d] ++ [-1], ds.length⟩ := sputc_ok (by norm_num)
  have last : sbackc (sbackc (fsfile ⟨low ++ [d] ++ [-1], ds.length⟩)).2 = (d, ⟨low ++ [d] ++ [-1], low.length⟩) := by
    rw [sbackc_end, List.append_assoc, List.length_append, List.length_singleton]
    exact sbackc_at
  simp only [chsign, loop_negates bounds, ok_bind, borrowed, split, ne_eq, neg_neg, one_ne_zero, not_false_eq_true, if_true, signed, last]
  by_cases high : d = 99
  · rw [if_pos high, if_pos high, List.append_assoc, truncate_at, sputc_ok (by norm_num)]
    exact ⟨_, rfl⟩
  · rw [if_neg high, if_neg high]
    exact ⟨_, rfl⟩

theorem chsign_settled (bounds : ∀ d ∈ ds, -1 ≤ d ∧ d ≤ 99) (settled : (negated ds).2 = 0) (split : (negated ds).1 = low ++ [d]) :
    ∃ rd, chsign ⟨ds, n⟩ = .ok ⟨if d = 0 then low else low ++ [d], rd⟩ := by
  simp only [chsign, loop_negates bounds, ok_bind, settled, split, ne_eq, neg_zero, not_true_eq_false, if_false, sbackc_end]
  by_cases zero : d = 0
  · rw [if_pos zero, if_pos zero, truncate_at]
    exact ⟨_, rfl⟩
  · rw [if_neg zero, if_neg zero]
    exact ⟨_, rfl⟩

def Negates (p : blk) : Prop := ∃ r, chsign p = .ok r ∧ Normal r.data ∧ val r.data = -val p.data

theorem negates_positive (positive : Positive ds) : Negates ⟨ds, n⟩ := by
  obtain rfl | ⟨low, d, rfl, _, _⟩ := top positive.digits
  · exact ⟨⟨[], 0⟩, rfl, .inl positive, rfl⟩
  have bounds := digit_bounds positive.digits
  have weight := positive.weight
  have negation := val_negated (low ++ [d])
  have digits := negated_digits bounds
  have length := negated_length (low ++ [d])
  have nonneg := val_nonneg digits
  have power : (0 : Int) < 100 ^ low.length := by positivity
  have borrowed : (negated (low ++ [d])).2 = -1 := by
    obtain settled | borrowed := negated_borrow (low ++ [d])
    · rw [settled, mul_zero, add_zero] at negation
      omega
    · exact borrowed
  rw [borrowed, List.length_append, List.length_singleton] at negation
  obtain empty | ⟨rest, t, split, rests, digit⟩ := top digits
  · rw [empty] at length
    simp at length
  have lengths : rest.length = low.length := by
    rw [split, List.length_append, List.length_append] at length
    simpa using length
  obtain ⟨rd, result⟩ := chsign_borrowed (n := n) bounds borrowed split
  refine ⟨_, result, ?_⟩
  rw [split, ← lengths] at negation
  by_cases high : t = 99
  · -- what is left of the digits are zeros
    subst high
    rw [if_pos rfl]
    have value : val (rest ++ [-1]) = -val (low ++ [d]) := by
      rw [← val_sign_extended, val_snoc, List.length_append, List.length_singleton]
      exact negation
    refine ⟨.inr ⟨rest, rfl, complement_of rests fun nonempty => ?_⟩, value⟩
    have smaller : (100 : Int) ^ (rest.length - 1) < 100 ^ rest.length :=
      pow_lt_pow_right₀ (by norm_num) (Nat.sub_lt (List.length_pos_iff.mpr nonempty) Nat.one_pos)
    rw [val_snoc, lengths] at value
    rw [lengths] at smaller ⊢
    omega
  · rw [if_neg high]
    refine ⟨.inr ⟨rest ++ [t], rfl, Complement.snoc rests digit high⟩, ?_⟩
    rw [val_snoc, List.length_append, List.length_singleton]
    exact negation

theorem negates_negative (complement : Complement body) : Negates ⟨body ++ [-1], n⟩ := by
  have normal : Normal (body ++ [-1]) := .inr ⟨body, rfl, complement⟩
  have negation := val_negated (body ++ [-1])
  have digits := negated_digits normal.bounds
  have length := negated_length (body ++ [-1])
  have below := val_below digits
  have value : -val (body ++ [-1]) = 100 ^ body.length - val body := by
    rw [val_snoc]
    ring
  have positive := val_below complement.digits
  have settled : (negated (body ++ [-1])).2 = 0 := by
    obtain settled | borrowed := negated_borrow (body ++ [-1])
    · exact settled
    · rw [borrowed, ← length] at negation
      omega
  rw [settled, mul_zero, add_zero] at negation
  obtain empty | ⟨rest, t, split, rests, digit⟩ := top digits
  · rw [empty] at length
    simp at length
  have lengths : rest.length = body.length := by
    rw [split, List.length_append, List.length_append] at length
    simpa using length
  obtain ⟨rd, result⟩ := chsign_settled (n := n) normal.bounds settled split
  refine ⟨_, result, ?_⟩
  rw [split] at negation
  by_cases zero : t = 0
  · subst zero
    rw [if_pos rfl]
    rw [val_snoc, mul_zero, add_zero] at negation
    refine ⟨.inl (positive_of rests ?_), negation⟩
    by_cases empty : body = []
    · subst empty
      rw [lengths, negation, value]
      simp [val]
    · have weight := complement.weight empty
      rw [negation, value, lengths]
      omega
  · rw [if_neg zero]
    exact ⟨.inl (Positive.snoc rests digit zero), negation⟩

theorem chsign_negates (normal : Normal p.data) : Negates p := by
  obtain ⟨ds, n⟩ := p
  obtain positive | ⟨body, rfl, complement⟩ := normal
  · exact negates_positive positive
  · exact negates_negative complement

end Svr4.Proofs.DcDigits

/-! `add` returns the exact sum. It is in normal form unless it is minus one: where every digit below
the sign is 99, the loop that drops them leaves one. -/

namespace Svr4.Proofs.DcSum
open Positional Faults Dc DcDigits

variable {p q : blk} {ds es xs ys zs body : List Int} {c d t : Int} {k n size time : Nat}

def column (xs ys : List Int) (i : Nat) : Int := xs.getD i 0 + ys.getD i 0

def add_step (c t : Int) : Int × Int := add_digit (t + c)

def Carry (c : Int) : Prop := -1 ≤ c ∧ c ≤ 1

theorem add_keeps : Carry (add_step c t).2 := by
  unfold add_step add_digit Carry
  split_ifs <;> norm_num

theorem add_exact (t : Int) : (add_step c t).1 + 100 * (add_step c t).2 = c + t := by
  unfold add_step add_digit
  split_ifs <;> simp only [] <;> ring

theorem add_digit_ok (carry : Carry c) (sum : -2 ≤ t ∧ t ≤ 198) : IsDigit (add_step c t).1 := by
  obtain ⟨low, high⟩ := carry
  unfold add_step add_digit IsDigit
  split_ifs <;> constructor <;> simp only [] <;> omega

theorem looked_up (bounds : ∀ d ∈ xs, -1 ≤ d ∧ d ≤ 99) (i : Nat) : -1 ≤ xs.getD i 0 ∧ xs.getD i 0 ≤ 99 := by
  by_cases inside : i < xs.length
  · rw [List.getD_eq_getElem _ _ inside]
    exact bounds _ (List.getElem_mem inside)
  · rw [List.getD_eq_default _ _ (not_lt.mp inside)]
    norm_num

theorem column_bounds (left : ∀ d ∈ xs, -1 ≤ d ∧ d ≤ 99) (right : ∀ d ∈ ys, -1 ≤ d ∧ d ≤ 99) (i : Nat) :
    -2 ≤ column xs ys i ∧ column xs ys i ≤ 198 := by
  have first := looked_up left i
  have second := looked_up right i
  unfold column
  omega

theorem next_at (k : Nat) : next ⟨xs, min k xs.length⟩ = (xs.getD k 0, ⟨xs, min (k + 1) xs.length⟩) := by
  by_cases inside : k < xs.length
  · have here : min k xs.length = k := by omega
    have after : min (k + 1) xs.length = k + 1 := by omega
    simp [next, sgetc, sfeof, byte, here, after, inside.ne]
  · have here : min k xs.length = xs.length := by omega
    have after : min (k + 1) xs.length = xs.length := by omega
    simp [next, sfeof, here, after, List.getElem?_eq_none (not_lt.mp inside)]

theorem add_loop_done (size k : Nat) (zs : List Int) (left : ∀ d ∈ xs, -1 ≤ d ∧ d ≤ 99) (right : ∀ d ∈ ys, -1 ≤ d ∧ d ≤ 99) (carry : Carry c) :
    add_loop size ⟨xs, min k xs.length⟩ ⟨ys, min k ys.length⟩ c ⟨zs, n⟩ =
      .ok (⟨xs, min (k + size) xs.length⟩, ⟨ys, min (k + size) ys.length⟩,
        (settle add_step c ((List.range' k size).map (column xs ys))).2,
        ⟨zs ++ (settle add_step c ((List.range' k size).map (column xs ys))).1, n⟩) := by
  induction size generalizing k c zs with
  | zero => simp [add_loop, settle]
  | succ size ih =>
    have bounds := column_bounds left right k
    have digit := add_digit_ok carry bounds
    have step : add_digit (xs.getD k 0 + ys.getD k 0 + c) = add_step c (column xs ys k) := rfl
    simp only [add_loop, next_at, step]
    rw [sputc_ok ⟨by have := digit.1; omega, by have := digit.2; omega⟩, ok_bind, ih (k + 1) _ add_keeps]
    simp [List.range'_succ, settle, Nat.add_assoc, Nat.add_comm 1 size]

def summed (xs ys : List Int) : List Int × Int :=
  settle add_step 0 ((List.range (max xs.length ys.length)).map (column xs ys))

theorem carry_zero : Carry 0 := by constructor <;> norm_num

theorem column_range (left : ∀ d ∈ xs, -1 ≤ d ∧ d ≤ 99) (right : ∀ d ∈ ys, -1 ≤ d ∧ d ≤ 99) :
    ∀ t ∈ (List.range (max xs.length ys.length)).map (column xs ys), -2 ≤ t ∧ t ≤ 198 := by
  intro t member
  obtain ⟨i, _, rfl⟩ := List.mem_map.mp member
  exact column_bounds left right i

theorem summed_keeps (xs ys : List Int) :
    ∀ c, Carry c → ∀ t ∈ (List.range (max xs.length ys.length)).map (column xs ys), Carry (add_step c t).2 :=
  fun _ _ _ _ => add_keeps

theorem summed_digits (left : ∀ d ∈ xs, -1 ≤ d ∧ d ≤ 99) (right : ∀ d ∈ ys, -1 ≤ d ∧ d ≤ 99) : ∀ d ∈ (summed xs ys).1, IsDigit d :=
  settle_digits (P := IsDigit) (summed_keeps xs ys)
    (fun _ carry t member => add_digit_ok carry (column_range left right t member)) carry_zero

theorem summed_carry : Carry (summed xs ys).2 := settle_carry (summed_keeps xs ys) carry_zero

theorem summed_length : (summed xs ys).1.length = max xs.length ys.length := by
  rw [summed, settle_length, List.length_map, List.length_range]

theorem summed_value (xs ys : List Int) :
    val ((summed xs ys).1 ++ [(summed xs ys).2]) = val xs + val ys := by
  have settled := settle_value (B := (100 : Int)) (summed_keeps xs ys) (fun _ _ t _ => add_exact t) carry_zero
  have columns : value (100 : Int) ((List.range (max xs.length ys.length)).map (column xs ys)) = val xs + val ys := by
    unfold column
    rw [value_map_add, value_looked_up _ (le_max_left _ _), value_looked_up _ (le_max_right _ _), val, val]
  rw [columns, zero_add, List.length_map, List.length_range] at settled
  rw [val_snoc, summed_length]
  exact settled

theorem back_zeros_done (es : List Int) (enough : ds.length ≤ time) :
    ∃ kept zeros : List Int, ds = kept ++ zeros ∧ (∀ d ∈ zeros, d = 0) ∧ kept.getLast? ≠ some 0 ∧
      back_zeros time 0 ⟨ds ++ es, ds.length⟩ = (kept.getLast?.getD 0, ⟨ds ++ es, kept.length - 1⟩) := by
  induction ds using List.reverseRecOn generalizing es time with
  | nil => exact ⟨[], [], rfl, by simp, by simp, by cases time <;> rfl⟩
  | append_singleton ds d ih =>
    rw [List.length_append, List.length_singleton] at enough
    obtain ⟨time, rfl⟩ : ∃ t, time = t + 1 := ⟨time - 1, by omega⟩
    have started : sfbeg ⟨ds ++ [d] ++ es, (ds ++ [d]).length⟩ = false := by simp [sfbeg]
    have last : sbackc ⟨ds ++ [d] ++ es, (ds ++ [d]).length⟩ = (d, ⟨ds ++ d :: es, ds.length⟩) := by
      rw [List.append_assoc, List.length_append, List.length_singleton]
      exact sbackc_at
    by_cases zero : d = 0
    · subst zero
      obtain ⟨kept, zeros, split, zero, high, walked⟩ := ih (0 :: es) (show ds.length ≤ time by omega)
      refine ⟨kept, zeros ++ [0], by rw [split, List.append_assoc], ?_, high, ?_⟩
      · rw [List.forall_mem_append]
        exact ⟨zero, by simp⟩
      · rw [back_zeros, started, last, if_neg Bool.false_ne_true, if_pos rfl, walked, List.append_assoc, List.singleton_append]
    · refine ⟨ds ++ [d], [], by simp, by simp, by simpa using zero, ?_⟩
      rw [back_zeros, started, last, if_neg Bool.false_ne_true, if_neg zero]
      simp

theorem drop_zeros_done (fits : ∀ d ∈ ds, -128 ≤ d ∧ d ≤ 127) :
    ∃ kept zeros : List Int, ds = kept ++ zeros ∧ (∀ d ∈ zeros, d = 0) ∧ kept.getLast? ≠ some 0 ∧
      ∃ rd, drop_zeros (fsfile ⟨ds, n⟩) = .ok ⟨kept, rd⟩ := by
  by_cases empty : ds = []
  · subst empty
    exact ⟨[], [], rfl, by simp, by simp, 0, rfl⟩
  obtain ⟨kept, zeros, split, zero, high, walked⟩ := back_zeros_done [] (le_refl ds.length)
  rw [List.append_nil] at walked
  refine ⟨kept, zeros, split, zero, high, ?_⟩
  have started : sfbeg (fsfile ⟨ds, n⟩) = false := by simpa [sfbeg, fsfile] using empty
  rw [drop_zeros, started, if_neg Bool.false_ne_true]
  simp only [fsfile, walked]
  obtain rfl | ⟨low, d, rfl⟩ := kept.eq_nil_or_concat'
  · exact ⟨0, by simp [truncate, ok_bind]⟩
  · have nonzero : d ≠ 0 := by simpa using high
    have inside : d ∈ ds := by simp [split]
    have again : salterc ⟨low ++ d :: zeros, low.length⟩ d = .ok ⟨low ++ d :: zeros, low.length + 1⟩ := salterc_at (fits d inside)
    have shape : low ++ [d] ++ zeros = low ++ d :: zeros := by simp
    have cut : (low ++ d :: zeros).take (low.length + 1) = low ++ [d] := by simp [List.take_append]
    refine ⟨low.length + 1, ?_⟩
    rw [split, shape]
    simp [nonzero, again, ok_bind, truncate, cut]

theorem back_nines_done (es : List Int) (enough : ds.length < time) :
    ∃ kept nines : List Int, ds = kept ++ nines ∧ (∀ d ∈ nines, d = 99) ∧ kept.getLast? ≠ some 99 ∧
      back_nines time ⟨ds ++ es, ds.length⟩ = .ok ⟨ds ++ es, kept.length - 1⟩ := by
  induction ds using List.reverseRecOn generalizing es time with
  | nil =>
    obtain ⟨time, rfl⟩ : ∃ t, time = t + 1 := ⟨time - 1, by omega⟩
    exact ⟨[], [], rfl, by simp, by simp, rfl⟩
  | append_singleton ds d ih =>
    rw [List.length_append, List.length_singleton] at enough
    obtain ⟨time, rfl⟩ : ∃ t, time = t + 1 := ⟨time - 1, by omega⟩
    have last : sbackc ⟨ds ++ [d] ++ es, (ds ++ [d]).length⟩ = (d, ⟨ds ++ d :: es, ds.length⟩) := by
      rw [List.append_assoc, List.length_append, List.length_singleton]
      exact sbackc_at
    by_cases nine : d = 99
    · subst nine
      obtain ⟨kept, nines, split, nine, high, walked⟩ := ih (99 :: es) (show ds.length < time by omega)
      refine ⟨kept, nines ++ [99], by rw [split, List.append_assoc], ?_, high, ?_⟩
      · rw [List.forall_mem_append]
        exact ⟨nine, by simp⟩
      · rw [back_nines, last, if_pos rfl, walked, List.append_assoc, List.singleton_append]
    · refine ⟨ds ++ [d], [], by simp, by simp, by simpa using nine, ?_⟩
      rw [back_nines, last, if_neg nine]
      simp

theorem drop_nines_positive (high : ds.getLast? ≠ some (-1)) : ∃ rd, drop_nines (fsfile ⟨ds, n⟩) = .ok ⟨ds, rd⟩ := by
  obtain rfl | ⟨low, d, rfl⟩ := ds.eq_nil_or_concat'
  · exact ⟨0, rfl⟩
  · have last : d ≠ -1 := by simpa using high
    have started : sfbeg (fsfile ⟨low ++ [d], n⟩) = false := by simp [sfbeg, fsfile]
    rw [drop_nines, sbackc_end, started]
    exact ⟨low.length, by simp [last]⟩

theorem val_nines (nines : ∀ d ∈ es, d = 99) : val (ds ++ es ++ [-1]) = val (ds ++ [-1]) := by
  have same : es = List.replicate es.length 99 := List.eq_replicate_iff.mpr ⟨rfl, nines⟩
  have highest : value (100 : Int) es = 100 ^ es.length - 1 := by
    rw [same, List.length_replicate]
    exact value_highest (100 : Int) es.length
  rw [val_snoc, val_snoc, val, value_append, highest, List.length_append, pow_add, val]
  ring

theorem not_normal : ¬Normal [99, -1] := by
  rintro (positive | ⟨body, split, complement⟩)
  · have digit := positive.digits (-1) (by simp)
    exact absurd digit.1 (by norm_num)
  · obtain rfl : [99] = body := List.append_inj_left' (show [99] ++ [-1] = body ++ [-1] from split) rfl
    exact complement.high rfl

theorem drop_nines_negative (nonempty : body ≠ []) (digits : ∀ d ∈ body, IsDigit d) :
    ∃ r, drop_nines (fsfile ⟨body ++ [-1], n⟩) = .ok r ∧ val r.data = val (body ++ [-1]) ∧ (Normal r.data ↔ val (body ++ [-1]) ≠ -1) := by
  obtain ⟨kept, nines, split, nine, high, walked⟩ :=
    back_nines_done [-1] (show body.length < (body ++ [-1]).length + 1 by simp)
  have started : sfbeg (fsfile ⟨body ++ [-1], n⟩) = false := by simp [sfbeg, fsfile]
  have value : val (body ++ [-1]) = val (kept ++ [-1]) := by rw [split, val_nines nine]
  rw [drop_nines, sbackc_end, started, if_pos ⟨Bool.false_ne_true, rfl⟩]
  simp only [fsfile] at walked ⊢
  rw [walked, ok_bind, value]
  obtain rfl | ⟨low, d, rfl⟩ := kept.eq_nil_or_concat'
  · -- every digit is 99, and the first one stays
    obtain ⟨first, more, rfl⟩ : ∃ first more, nines = first :: more := List.exists_cons_of_ne_nil (by simpa [split] using nonempty)
    obtain ⟨e, rest, behind⟩ : ∃ e rest, more ++ [-1] = e :: rest := List.exists_cons_of_ne_nil (by simp)
    obtain rfl : first = 99 := nine first (by simp)
    have shape : body ++ [-1] = 99 :: e :: rest := by simp [split, behind]
    refine ⟨⟨[99, -1], 2⟩, ?_, rfl, ?_⟩
    · rw [shape]
      rfl
    · exact iff_of_false not_normal (fun other => other rfl)
  · obtain ⟨e, rest, behind⟩ : ∃ e rest, nines ++ [-1] = e :: rest := List.exists_cons_of_ne_nil (by simp)
    have shape : body ++ [-1] = low ++ d :: e :: rest := by simp [split, ← behind]
    have altered : salterc ⟨low ++ [d] ++ e :: rest, (low ++ [d]).length⟩ (-1) =
        .ok ⟨low ++ [d] ++ -1 :: rest, (low ++ [d]).length + 1⟩ := salterc_at (by norm_num)
    have complement : Complement (low ++ [d]) := ⟨fun t member => digits t (by rw [split]; exact List.mem_append_left _ member), high⟩
    have weight := complement.weight (by simp)
    refine ⟨⟨low ++ [d] ++ [-1], (low ++ [d]).length + 1⟩, ?_, rfl, ?_⟩
    · have cut : (low ++ [d] ++ -1 :: rest).take ((low ++ [d]).length + 1) = low ++ [d] ++ [-1] := by
        rw [List.take_length_add_append]
        rfl
      have shift : (⟨low ++ d :: e :: rest, low.length + 1⟩ : blk) = ⟨low ++ [d] ++ e :: rest, (low ++ [d]).length⟩ := by simp
      have back : (low ++ [d]).length - 1 = low.length := by simp
      rw [shape, back, sgetc_at, shift, altered, ok_bind, truncate, cut]
    · refine iff_of_true (.inr ⟨_, rfl, complement⟩) ?_
      have least : (1 : Int) ≤ 100 ^ ((low ++ [d]).length - 1) := one_le_pow₀ (by norm_num)
      rw [val_snoc]
      omega

def Adds (p q : blk) : Prop := ∃ r, add p q = .ok r ∧ r.1.data = p.data ∧ r.2.1.data = q.data ∧
  Normal r.2.2.data ∧ val r.2.2.data = val p.data + val q.data

theorem not_sign (digits : ∀ d ∈ ds, IsDigit d) : ds.getLast? ≠ some (-1) := by
  intro sign
  exact absurd (digits _ (List.mem_of_getLast? sign)).1 (by norm_num)

theorem val_trimmed (zeros : ∀ d ∈ es, d = 0) : val (ds ++ es) = val ds := by
  have same : es = List.replicate es.length 0 := List.eq_replicate_iff.mpr ⟨rfl, zeros⟩
  rw [same, val, value_append, value_zeros, mul_zero, add_zero, val]

theorem trimmed_positive (digits : ∀ d ∈ ds, IsDigit d) :
    ∃ p r, drop_zeros (fsfile ⟨ds, n⟩) = .ok p ∧ drop_nines (fsfile p) = .ok r ∧ val r.data = val ds ∧ Normal r.data := by
  have fits : ∀ d ∈ ds, -128 ≤ d ∧ d ≤ 127 := fun d member => by
    obtain ⟨low, high⟩ := digits d member
    omega
  obtain ⟨kept, zeros, rfl, zero, high, rd, dropped⟩ := drop_zeros_done (n := n) fits
  rw [List.forall_mem_append] at digits
  obtain ⟨rd', ended⟩ := drop_nines_positive (n := rd) (not_sign digits.1)
  exact ⟨_, _, dropped, ended, (val_trimmed zero).symm, .inl ⟨digits.1, high⟩⟩

theorem trimmed_negative (nonempty : body ≠ []) (digits : ∀ d ∈ body, IsDigit d) :
    ∃ p r, drop_zeros (fsfile ⟨body ++ [-1], n⟩) = .ok p ∧ drop_nines (fsfile p) = .ok r ∧
      val r.data = val (body ++ [-1]) ∧ (Normal r.data ↔ val (body ++ [-1]) ≠ -1) := by
  have fits : ∀ d ∈ body ++ [-1], -128 ≤ d ∧ d ≤ 127 := by
    rw [List.forall_mem_append]
    refine ⟨fun d member => ?_, by simp⟩
    obtain ⟨low, high⟩ := digits d member
    omega
  obtain ⟨kept, zeros, split, zero, high, rd, dropped⟩ := drop_zeros_done (n := n) fits
  obtain rfl | ⟨low, z, rfl⟩ := zeros.eq_nil_or_concat'
  · rw [List.append_nil] at split
    rw [← split] at dropped
    obtain ⟨r, ended, value, normal⟩ := drop_nines_negative (n := rd) nonempty digits
    exact ⟨_, r, dropped, ended, value, normal⟩
  · rw [← List.append_assoc] at split
    have last : -1 = z := by simpa using List.append_inj_right' split rfl
    have nothing := zero z (by simp)
    omega

theorem trimmed (digits : ∀ d ∈ ds, IsDigit d) (carry : Carry c) (signed : c = -1 → ds ≠ []) :
    ∃ s p r, (if c ≠ 0 then sputc ⟨ds, n⟩ c else .ok ⟨ds, n⟩) = .ok s ∧ drop_zeros (fsfile s) = .ok p ∧ drop_nines (fsfile p) = .ok r ∧
      val r.data = val (ds ++ [c]) ∧ (Normal r.data ↔ val (ds ++ [c]) ≠ -1) := by
  have split : c = 0 ∨ c = 1 ∨ c = -1 := by
    obtain ⟨low, high⟩ := carry
    omega
  obtain rfl | rfl | rfl := split
  · obtain ⟨p, r, dropped, ended, value, normal⟩ := trimmed_positive (n := n) digits
    have nonneg := val_nonneg digits
    rw [val_trimmed (show ∀ d ∈ [(0 : Int)], d = 0 by simp)]
    exact ⟨_, p, r, rfl, dropped, ended, value, iff_of_true normal (by omega)⟩
  · have more : ∀ d ∈ ds ++ [1], IsDigit d := by
      rw [List.forall_mem_append]
      exact ⟨digits, by simp [IsDigit]⟩
    obtain ⟨p, r, dropped, ended, value, normal⟩ := trimmed_positive (n := n) more
    have nonneg := val_nonneg more
    exact ⟨_, p, r, sputc_ok (by norm_num), dropped, ended, value, iff_of_true normal (by omega)⟩
  · obtain ⟨p, r, dropped, ended, value, normal⟩ := trimmed_negative (n := n) (signed rfl) digits
    exact ⟨_, p, r, sputc_ok (by norm_num), dropped, ended, value, normal⟩

theorem loop_sums (left : ∀ d ∈ xs, -1 ≤ d ∧ d ≤ 99) (right : ∀ d ∈ ys, -1 ≤ d ∧ d ≤ 99) :
    add_loop (max xs.length ys.length) ⟨xs, 0⟩ ⟨ys, 0⟩ 0 salloc =
      .ok (⟨xs, xs.length⟩, ⟨ys, ys.length⟩, (summed xs ys).2, ⟨(summed xs ys).1, 0⟩) := by
  have looped := add_loop_done (max xs.length ys.length) 0 [] (n := 0) left right carry_zero
  rw [zero_add, Nat.zero_min, Nat.zero_min, ← List.range_eq_range', min_eq_right (le_max_left _ _),
    min_eq_right (le_max_right _ _), List.nil_append] at looped
  exact looped

theorem not_empty (sign : val (ds ++ [-1]) = val xs + val ys) (length : ds.length = max xs.length ys.length) : ds ≠ [] := by
  rintro rfl
  have left : xs = [] := List.eq_nil_of_length_eq_zero (by simp at length; omega)
  have right : ys = [] := List.eq_nil_of_length_eq_zero (by simp at length; omega)
  subst left right
  simp [val] at sign

theorem add_done (left : Normal p.data) (right : Normal q.data) : ∃ r, add p q = .ok r ∧ r.1.data = p.data ∧ r.2.1.data = q.data ∧
    (Normal r.2.2.data ↔ val p.data + val q.data ≠ -1) ∧ val r.2.2.data = val p.data + val q.data := by
  have exact_ := summed_value p.data q.data
  have signed : (summed p.data q.data).2 = -1 → (summed p.data q.data).1 ≠ [] := fun sign =>
    not_empty (sign ▸ exact_) summed_length
  obtain ⟨s, t, r, carried, dropped, ended, value, normal⟩ := trimmed (n := 0) (summed_digits left.bounds right.bounds) summed_carry signed
  rw [exact_] at value normal
  refine ⟨(⟨p.data, p.data.length⟩, ⟨q.data, q.data.length⟩, r), ?_, rfl, rfl, normal, value⟩
  rw [add, rewind, rewind, loop_sums left.bounds right.bounds, ok_bind]
  simp only [carried, ok_bind, dropped, ended]

theorem adds_iff (left : Normal p.data) (right : Normal q.data) : Adds p q ↔ val p.data + val q.data ≠ -1 := by
  obtain ⟨r, added, first, second, normal, value⟩ := add_done left right
  constructor
  · rintro ⟨r', added', _, _, normal', _⟩
    rw [added, Except.ok.injEq] at added'
    exact normal.mp (added' ▸ normal')
  · exact fun other => ⟨r, added, first, second, normal.mpr other, value⟩

end Svr4.Proofs.DcSum
