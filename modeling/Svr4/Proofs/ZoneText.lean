import Svr4.TimeComm
import Svr4.Proofs.TimeFields

/-! A zone with a rule as POSIX writes it, and what `_ltzset` reads of it. -/

namespace Svr4.Proofs.ZoneText
open TimeComm TimeFields

structure Number where
  text : List Char
  digits : ∀ c ∈ text, c.isDigit
  some_ : text ≠ []

structure Name where
  text : List Char
  letters : ∀ c ∈ text, c.isAlpha
  some_ : text ≠ []

def digit (v : Int) (c : Char) : Int := v * 10 + (c.toNat - '0'.toNat : Nat)

def Number.value (x : Number) : Int := x.text.foldl digit 0

inductive Hms
  | h (h : Number)
  | hm (h m : Number)
  | hms (h m s : Number)

namespace Hms

def text : Hms → List Char
  | h a => a.text
  | hm a b => a.text ++ ':' :: b.text
  | hms a b c => a.text ++ ':' :: (b.text ++ ':' :: c.text)

def value : Hms → Int
  | h a => 3600 * a.value
  | hm a b => 3600 * a.value + 60 * b.value
  | hms a b c => 3600 * a.value + 60 * b.value + c.value

def Fits : Hms → Prop
  | h a => a.value ≤ 24
  | hm a b => a.value ≤ 24 ∧ b.value ≤ 59
  | hms a b c => a.value ≤ 24 ∧ b.value ≤ 59 ∧ c.value ≤ 59

end Hms

inductive Sign
  | none | plus | minus

def Sign.text : Sign → List Char
  | none => []
  | plus => ['+']
  | minus => ['-']

structure Offset where
  sign : Sign
  time : Hms

def Offset.text (o : Offset) : List Char := o.sign.text ++ o.time.text

def Offset.value (o : Offset) : Int :=
  match o.sign with
  | .minus => -o.time.value
  | _ => o.time.value

inductive DayText
  | n (jul : Number)
  | J (jul : Number)
  | M (m n d : Number)

namespace DayText

def text : DayText → List Char
  | n a => a.text
  | J a => 'J' :: a.text
  | M a b c => 'M' :: (a.text ++ '.' :: (b.text ++ '.' :: c.text))

def day : DayText → Day
  | n a => .n a.value
  | J a => .J (a.value - 1)
  | M a b c => .M a.value b.value c.value

end DayText

def Valid : Day → Prop
  | .n jul => 0 ≤ jul ∧ jul ≤ 365
  | .J jul => 0 ≤ jul ∧ jul ≤ 364
  | .M m n d => (1 ≤ m ∧ m ≤ 12) ∧ (1 ≤ n ∧ n ≤ 5) ∧ 0 ≤ d ∧ d ≤ 6

/-- A day and a time of it, which is 2 o'clock by default. -/
structure Change where
  day : DayText
  time : Option Hms

def Change.text (c : Change) : List Char := c.day.text ++ c.time.elim [] fun time => '/' :: time.text

def Change.value (c : Change) : Int := c.time.elim 7200 Hms.value

structure Change.Fits (c : Change) : Prop where
  day : Valid c.day.day
  parts : ∀ time ∈ c.time, time.Fits
  time : c.value ≤ 86400

structure Tz where
  std : Name
  offset : Offset
  dst : Name
  ahead : Option Offset
  start : Change
  end_ : Change

namespace Tz

def text (tz : Tz) : List Char :=
  tz.std.text ++ (tz.offset.text ++ (tz.dst.text ++ (tz.ahead.elim [] Offset.text ++ ',' :: (tz.start.text ++ ',' :: tz.end_.text))))

def timezone (tz : Tz) : Int := tz.offset.value

def altzone (tz : Tz) : Int := tz.ahead.elim (tz.timezone - 3600) Offset.value

structure Fits (tz : Tz) : Prop where
  offset : tz.offset.time.Fits
  ahead : ∀ o ∈ tz.ahead, o.time.Fits
  start : tz.start.Fits
  end_ : tz.end_.Fits

end Tz

variable {x : Number} {rest text : List Char} {v : Int} {c : Char} {time : Hms}

theorem letter_high (letter : c.isAlpha) : 65 ≤ c.toNat := by
  simp only [Char.isAlpha, Char.isUpper, Char.isLower, Bool.or_eq_true, Bool.and_eq_true, decide_eq_true_eq] at letter
  rcases letter with upper | lower
  · exact upper.1
  · exact (show 65 ≤ 97 by decide).trans lower.1

theorem digit_low (digit_ : c.isDigit) : c.toNat ≤ 57 := by
  simp only [Char.isDigit, Bool.and_eq_true, decide_eq_true_eq] at digit_
  exact digit_.2

theorem letter_not_digit (letter : c.isAlpha) : c.isDigit = false := by
  by_contra digit_
  have := letter_high letter
  have := digit_low (by simpa using digit_)
  omega

theorem digit_not_letter (digit_ : c.isDigit) : c.isAlpha = false := by
  by_contra letter
  have := letter_high (by simpa using letter)
  have := digit_low digit_
  omega

theorem foldl_digit_le (text : List Char) (start : 0 ≤ v) : v ≤ text.foldl digit v := by
  induction text generalizing v with
  | nil => exact le_rfl
  | cons c text ih =>
    have step : v ≤ digit v c := by
      unfold digit
      omega
    exact step.trans (ih (start.trans step))

theorem Number.nonneg (x : Number) : 0 ≤ x.value := foldl_digit_le _ le_rfl

theorem Number.head (x : Number) : ∃ c text, x.text = c :: text ∧ c.isDigit := by
  obtain ⟨c, text, found⟩ := List.exists_cons_of_ne_nil x.some_
  exact ⟨c, text, found, x.digits c (by simp [found])⟩

theorem getdigit_loop_text (digits : ∀ c ∈ text, c.isDigit) (start : 0 ≤ v) (small : text.foldl digit v < 2 ^ 31)
    (stop : ∀ c ∈ rest.head?, c.isDigit = false) : getdigit_loop (text ++ rest) v = (text.foldl digit v, rest) := by
  induction text generalizing v with
  | nil =>
    cases rest with
    | nil => rfl
    | cons c rest => simp [getdigit_loop, stop c rfl]
  | cons c text ih =>
    have step : 0 ≤ digit v c := by
      unfold digit
      omega
    have le := foldl_digit_le text step
    rw [List.foldl_cons] at small ⊢
    have same : long (v * 10 + (c.toNat - '0'.toNat : Nat)) = digit v c := long_eq (by unfold digit at step; omega) (by unfold digit at le small; omega)
    rw [List.cons_append, getdigit_loop, if_pos (digits c (by simp)), same]
    exact ih (fun c member => digits c (by simp [member])) step small

theorem getdigit_text (x : Number) (rest : List Char) (small : x.value < 2 ^ 31) (stop : ∀ c ∈ rest.head?, c.isDigit = false) :
    getdigit (x.text ++ rest) = some (x.value, rest) := by
  obtain ⟨c, text, found, first⟩ := x.head
  have loop := getdigit_loop_text x.digits le_rfl small stop
  rw [found] at loop ⊢
  rw [List.cons_append] at loop ⊢
  rw [getdigit, if_pos first, loop, ← found]
  rfl

def Ends (rest : List Char) : Prop := ∀ c ∈ rest.head?, c.isDigit = false ∧ c ≠ ':'

theorem Hms.nonneg (time : Hms) : 0 ≤ time.value := by
  cases time with
  | h a =>
    have := a.nonneg
    simp only [Hms.value]
    omega
  | hm a b =>
    have := a.nonneg
    have := b.nonneg
    simp only [Hms.value]
    omega
  | hms a b c =>
    have := a.nonneg
    have := b.nonneg
    have := c.nonneg
    simp only [Hms.value]
    omega

theorem Hms.Fits.le (fits : time.Fits) : time.value ≤ 89999 := by
  cases time <;> simp only [Hms.Fits, Hms.value] at fits ⊢ <;> omega

theorem Hms.head (time : Hms) : ∃ c text, time.text = c :: text ∧ c.isDigit := by
  cases time with
  | h a => exact a.head
  | hm a b =>
    obtain ⟨c, text, found, first⟩ := a.head
    exact ⟨c, _, by rw [Hms.text, found]; rfl, first⟩
  | hms a b d =>
    obtain ⟨c, text, found, first⟩ := a.head
    exact ⟨c, _, by rw [Hms.text, found]; rfl, first⟩

theorem colon_stops (rest : List Char) : ∀ c ∈ (':' :: rest).head?, c.isDigit = false := by
  rintro c ⟨⟩
  rfl

theorem gettime_hms_text (fits : time.Fits) (ends : Ends rest) : gettime_hms (time.text ++ rest) = (time.value, some rest) := by
  have stop : ∀ c ∈ rest.head?, c.isDigit = false := fun c member => (ends c member).1
  cases time with
  | h a =>
    have number := getdigit_text a rest (by simp only [Hms.Fits] at fits; omega) stop
    unfold gettime_hms Hms.text
    simp only [number]
    split
    next none_ => simp at none_
    next d p colon =>
      obtain ⟨rfl, rfl⟩ : a.value = d ∧ rest = ':' :: p := by simpa using colon
      exact absurd rfl (ends ':' rfl).2
    next d p _ found =>
      obtain ⟨rfl, rfl⟩ : a.value = d ∧ rest = p := by simpa using found
      simp only [Hms.value, SEC_PER_HOUR]
      congr 1
      omega
  | hm a b =>
    have number := getdigit_text a (':' :: (b.text ++ rest)) (by simp only [Hms.Fits] at fits; omega) (colon_stops _)
    have number' := getdigit_text b rest (by simp only [Hms.Fits] at fits; omega) stop
    unfold gettime_hms Hms.text
    simp only [List.append_assoc, List.cons_append, number, number']
    split
    next none_ => simp at none_
    next d p colon =>
      obtain ⟨rfl, rfl⟩ : b.value = d ∧ rest = ':' :: p := by simpa using colon
      exact absurd rfl (ends ':' rfl).2
    next d p _ found =>
      obtain ⟨rfl, rfl⟩ : b.value = d ∧ rest = p := by simpa using found
      simp only [Hms.value, SEC_PER_HOUR, SEC_PER_MIN]
      congr 1
      omega
  | hms a b c =>
    have number := getdigit_text a (':' :: (b.text ++ ':' :: (c.text ++ rest))) (by simp only [Hms.Fits] at fits; omega) (colon_stops _)
    have number' := getdigit_text b (':' :: (c.text ++ rest)) (by simp only [Hms.Fits] at fits; omega) (colon_stops _)
    have number'' := getdigit_text c rest (by simp only [Hms.Fits] at fits; omega) stop
    unfold gettime_hms Hms.text
    simp only [List.append_assoc, List.cons_append, number, number', number'', Hms.value, SEC_PER_HOUR, SEC_PER_MIN]
    congr 1
    omega

theorem gettime_text {o : Offset} (rest : List Char) (fits : o.time.Fits) (ends : Ends rest) : gettime (o.text ++ rest) true = (o.value, some rest) := by
  have time := gettime_hms_text fits ends
  obtain ⟨sign, hms⟩ := o
  have low : 0 ≤ hms.value := hms.nonneg
  have high : hms.value ≤ 89999 := fits.le
  obtain ⟨c, text, found, first⟩ := hms.head
  have same : gettime_sign ((Offset.mk sign hms).text ++ rest) true = (match sign with | .minus => true | _ => false, hms.text ++ rest) := by
    cases sign with
    | minus => rfl
    | plus => rfl
    | none =>
      simp only [Offset.text, Sign.text, List.nil_append]
      rw [found, List.cons_append]
      unfold gettime_sign
      split
      next minus =>
        obtain ⟨rfl, -⟩ := List.cons.inj minus
        simp [Char.isDigit] at first
      next plus =>
        obtain ⟨rfl, -⟩ := List.cons.inj plus
        simp [Char.isDigit] at first
      next => rfl
  unfold gettime
  simp only [same, time]
  cases sign <;> simp only [Offset.value] <;> congr 1 <;> apply long_eq <;> simp only [Bool.false_eq_true, if_false, if_true] <;> omega

theorem gettime_plain (fits : time.Fits) (ends : Ends rest) : gettime (time.text ++ rest) false = (time.value, some rest) := by
  have := time.nonneg
  have := fits.le
  unfold gettime
  rw [show gettime_sign (time.text ++ rest) false = (false, time.text ++ rest) from rfl]
  simp only [gettime_hms_text fits ends, Bool.false_eq_true, if_false]
  rw [long_eq (by omega) (by omega)]

theorem change_time_text (change : Change) (rest : List Char) (parts : ∀ time ∈ change.time, time.Fits) (ends : Ends rest)
    (stop : ∀ c ∈ rest.head?, c ≠ '/') :
    change_time 7200 (change.time.elim [] (fun time => '/' :: time.text) ++ rest) = some (change.value, rest) := by
  obtain ⟨day, _ | time⟩ := change
  · simp only [Option.elim, List.nil_append, Change.value]
    unfold change_time
    split
    next => exact absurd rfl (stop '/' rfl)
    next => rfl
  · have time' := gettime_plain (parts time rfl) ends
    simp only [Option.elim, List.cons_append, Change.value, change_time, time']

def Closes (rest : List Char) : Prop := ∀ c ∈ rest.head?, c = ','

theorem Closes.ends (closes : Closes rest) : Ends rest := by
  intro c member
  rw [closes c member]
  decide

theorem Closes.no_time (closes : Closes rest) : ∀ c ∈ rest.head?, c ≠ '/' := by
  intro c member
  rw [closes c member]
  decide

theorem change_stops (change : Change) (closes : Closes rest) :
    ∀ c ∈ (change.time.elim [] (fun time => '/' :: time.text) ++ rest).head?, c.isDigit = false := by
  obtain ⟨day, _ | time⟩ := change
  · intro c member
    exact (closes.ends c member).1
  · rintro c ⟨⟩
    rfl

theorem dot_stops (rest : List Char) : ∀ c ∈ ('.' :: rest).head?, c.isDigit = false := by
  rintro c ⟨⟩
  rfl

theorem posixsubdst_text {change : Change} (rest : List Char) (fits : change.Fits) (closes : Closes rest) :
    posixsubdst (change.text ++ rest) 7200 = some (change.day.day, change.value, rest) := by
  have time := change_time_text change rest fits.parts closes.ends closes.no_time
  have stop := change_stops change closes
  have valid := fits.day
  obtain ⟨day, time_⟩ := change
  simp only [Change.text, List.append_assoc] at time stop ⊢
  cases day with
  | n a =>
    simp only [DayText.day, Valid] at valid
    have number := getdigit_text a _ (by omega) stop
    obtain ⟨c, text, found, first⟩ := a.head
    simp only [DayText.text, DayText.day]
    have plain : ∀ p : List Char, ¬(∃ q, a.text ++ p = 'J' :: q) ∧ ¬∃ q, a.text ++ p = 'M' :: q := by
      intro p
      rw [found, List.cons_append]
      constructor <;> rintro ⟨q, same⟩ <;> obtain ⟨rfl, -⟩ := List.cons.inj same <;> simp [Char.isDigit] at first
    unfold posixsubdst
    split
    next p same => exact absurd ⟨p, same⟩ (plain _).1
    next p same => exact absurd ⟨p, same⟩ (plain _).2
    next =>
      simp only [number, Option.bind_eq_bind, Option.bind_some, time]
      rw [if_neg (by omega)]
      rfl
  | J a =>
    simp only [DayText.day, Valid] at valid
    have number := getdigit_text a _ (by omega) stop
    simp only [DayText.text, DayText.day, List.cons_append, posixsubdst, number, Option.bind_eq_bind, Option.bind_some, time]
    rw [if_neg (by omega)]
    rfl
  | M a b c =>
    simp only [DayText.day, Valid] at valid
    have number := getdigit_text a ('.' :: (b.text ++ '.' :: (c.text ++ (time_.elim [] (fun time => '/' :: time.text) ++ rest))))
      (by omega) (dot_stops _)
    have number' := getdigit_text b ('.' :: (c.text ++ (time_.elim [] (fun time => '/' :: time.text) ++ rest))) (by omega) (dot_stops _)
    have number'' := getdigit_text c _ (by omega) stop
    simp only [DayText.text, DayText.day, List.append_assoc, List.cons_append, posixsubdst, number, number', number'', Option.bind_eq_bind,
      Option.bind_some, time]
    rw [if_neg (by omega), if_neg (by omega), if_neg (by omega)]
    rfl

theorem getzname_text (name : Name) (rest : List Char) (stop : ∀ c ∈ rest.head?, c.isAlpha = false) : getzname (name.text ++ rest) = some rest := by
  obtain ⟨c, text, found⟩ := List.exists_cons_of_ne_nil name.some_
  have skip : (name.text ++ rest).dropWhile Char.isAlpha = rest := by
    rw [List.dropWhile_append_of_pos name.letters]
    cases rest with
    | nil => rfl
    | cons c rest => rw [List.dropWhile_cons, stop c rfl]; rfl
  rw [found] at skip ⊢
  rw [List.cons_append] at skip ⊢
  rw [getzname, if_pos (name.letters c (by simp [found])), skip]

theorem Offset.bounds {o : Offset} (fits : o.time.Fits) : -89999 ≤ o.value ∧ o.value ≤ 89999 := by
  have := o.time.nonneg
  have := fits.le
  obtain ⟨sign, hms⟩ := o
  cases sign <;> simp only [Offset.value] at * <;> omega

theorem Tz.Fits.bounds {tz : Tz} (fits : tz.Fits) :
    (-89999 ≤ tz.timezone ∧ tz.timezone ≤ 89999) ∧ -93599 ≤ tz.altzone ∧ tz.altzone ≤ 89999 := by
  have first : -89999 ≤ tz.timezone ∧ tz.timezone ≤ 89999 := Offset.bounds fits.offset
  refine ⟨first, ?_⟩
  unfold Tz.altzone
  cases found : tz.ahead with
  | none =>
    simp only [Option.elim]
    omega
  | some o =>
    have := Offset.bounds (fits.ahead o found)
    simp only [Option.elim]
    omega

def Tz.zone (tz : Tz) (z : Zone) : Zone :=
  { z with timezone := tz.timezone, altzone := tz.altzone, start_dst := -1, end_dst := -1, daylight := 1 }

theorem Offset.head {o : Offset} : ∃ c text, o.text = c :: text ∧ c.isAlpha = false ∧ c ≠ ';' ∧ c ≠ ',' := by
  obtain ⟨sign, hms⟩ := o
  cases sign with
  | plus => exact ⟨'+', _, rfl, by decide, by decide, by decide⟩
  | minus => exact ⟨'-', _, rfl, by decide, by decide, by decide⟩
  | none =>
    obtain ⟨c, text, found, first⟩ := hms.head
    refine ⟨c, text, found, digit_not_letter first, ?_, ?_⟩
    · rintro rfl
      simp [Char.isDigit] at first
    · rintro rfl
      simp [Char.isDigit] at first

theorem letter_not_colon (letter : c.isAlpha) : c ≠ ':' := by
  rintro rfl
  simp [Char.isAlpha, Char.isUpper, Char.isLower] at letter

theorem ahead_text {tz : Tz} (fits : tz.Fits) (rules : List Char) :
    (∀ c ∈ (tz.ahead.elim [] Offset.text ++ ',' :: rules).head?, c.isAlpha = false) ∧
      (tz.ahead = none ∨ ∃ c text, tz.ahead.elim [] Offset.text ++ ',' :: rules = c :: text ∧ c ≠ ';' ∧ c ≠ ',' ∧
        gettime (c :: text) true = (tz.altzone, some (',' :: rules))) := by
  unfold Tz.altzone
  cases found : tz.ahead with
  | none =>
    refine ⟨?_, .inl rfl⟩
    rintro c ⟨⟩
    rfl
  | some o =>
    obtain ⟨c, text, starts, not_letter, not_semicolon, not_comma⟩ := Offset.head (o := o)
    have time := gettime_text (',' :: rules) (fits.ahead o found) (by rintro c ⟨⟩; decide)
    simp only [Option.elim]
    rw [starts] at time ⊢
    refine ⟨?_, .inr ⟨c, text ++ ',' :: rules, rfl, not_semicolon, not_comma, time⟩⟩
    rintro c' ⟨⟩
    exact not_letter

theorem ltzset_text (olson : List Char → Int → Zone → Zone) {tz : Tz} (fits : tz.Fits) (z : Zone) (tim : Int) :
    _ltzset olson (some tz.text) z tim = posixgetdst (tz.start.text ++ ',' :: tz.end_.text) (tz.zone z) tim := by
  obtain ⟨c, text, found⟩ := List.exists_cons_of_ne_nil tz.std.some_
  have letter : c.isAlpha := tz.std.letters c (by simp [found])
  obtain ⟨o, offset, starts, not_letter, -⟩ := Offset.head (o := tz.offset)
  obtain ⟨d, dst, dst_found⟩ := List.exists_cons_of_ne_nil tz.dst.some_
  have dst_letter : d.isAlpha := tz.dst.letters d (by simp [dst_found])
  obtain ⟨rules, named⟩ : ∃ rules, rules = tz.start.text ++ ',' :: tz.end_.text := ⟨_, rfl⟩
  have bounds := fits.bounds
  have ends : Ends (tz.dst.text ++ (tz.ahead.elim [] Offset.text ++ ',' :: rules)) := by
    rw [dst_found]
    rintro c ⟨⟩
    exact ⟨letter_not_digit dst_letter, letter_not_colon dst_letter⟩
  obtain ⟨stop, behind⟩ := ahead_text fits rules
  have std := getzname_text tz.std (tz.offset.text ++ (tz.dst.text ++ (tz.ahead.elim [] Offset.text ++ ',' :: rules)))
    (by rw [starts]; rintro c ⟨⟩; exact not_letter)
  have first := gettime_text _ fits.offset ends
  have dst' := getzname_text tz.dst _ stop
  have whole : tz.text = c :: (text ++ (tz.offset.text ++ (tz.dst.text ++ (tz.ahead.elim [] Offset.text ++ ',' :: rules)))) := by
    rw [Tz.text, ← named, found]
    rfl
  unfold _ltzset
  split
  next none_ => simp at none_
  next empty => simp [whole] at empty
  next name colon =>
    rw [whole, Option.some.injEq] at colon
    exact absurd (List.cons.inj colon).1 (letter_not_colon letter)
  next name _ _ same =>
    obtain rfl := Option.some.inj same
    rw [Tz.text, ← named]
    simp only [std, first, dst']
    rcases behind with none_ | ⟨c, text, behind, not_semicolon, not_comma, time⟩
    · simp only [none_, Option.elim, List.nil_append]
      have zone : long (tz.offset.value - SEC_PER_HOUR) = tz.altzone := by
        rw [Tz.altzone, none_]
        exact long_eq (by have := bounds.1; unfold Tz.timezone SEC_PER_HOUR at *; omega)
          (by have := bounds.1; unfold Tz.timezone SEC_PER_HOUR at *; omega)
      rw [zone]
      rfl
    · rw [behind]
      split
      next empty => simp at empty
      next semicolon => exact absurd (List.cons.inj semicolon).1 not_semicolon
      next comma => exact absurd (List.cons.inj comma).1 not_comma
      next =>
        simp only [time]
        rfl

end Svr4.Proofs.ZoneText
