import Svr4.Cron

/-! What the lists of a crontab line are, and what `next_ge` finds in them. -/

namespace Svr4.Proofs.CronFields
open Cron

variable {lower upper current : Int} {s line rest : Str} {time : Nat}

/-- The number or the range at the start of a list, and what follows it. -/
def entry (ptr : Str) : (Int × Option Int) × Str :=
  let (n, ptr) := num 0 ptr
  if ptr.headD '\x00' = '-' then ((n, some (num 0 ptr.tail).1), (num 0 ptr.tail).2) else ((n, none), ptr)

def ranges : Nat → Str → List (Int × Option Int)
  | 0, _ => []
  | time + 1, ptr =>
    let (r, ptr) := entry ptr
    r :: if ptr = [] then [] else ranges time ptr.tail

/-- A range whose end is not beyond its start wraps around. -/
def Covers (r : Int × Option Int) (x : Int) : Prop :=
  match r with
  | (n, none) => x = n
  | (n, some n2) => if n < n2 then n ≤ x ∧ x ≤ n2 else n ≤ x ∨ x ≤ n2

def Listed (list : Str) (x : Int) : Prop := list = ['*'] ∨ ∃ r ∈ ranges list.length list, Covers r x

instance (r : Int × Option Int) (x : Int) : Decidable (Covers r x) :=
  match r with
  | (n, none) => inferInstanceAs (Decidable (x = n))
  | (n, some n2) => inferInstanceAs (Decidable (if n < n2 then n ≤ x ∧ x ≤ n2 else n ≤ x ∨ x ≤ n2))

instance (list : Str) (x : Int) : Decidable (Listed list x) :=
  inferInstanceAs (Decidable (list = ['*'] ∨ ∃ r ∈ ranges list.length list, Covers r x))

example : Listed "40,20,50-10".toList 5 ∧ ¬ Listed "40,20,50-10".toList 30 := by decide

def Ends (rest : Str) : Prop := (rest.headD '\x00').isDigit = false

structure Numeral (lower upper : Int) (ds : Str) (n : Int) : Prop where
  some_ : ds ≠ []
  read : ∀ rest, Ends rest → num 0 (ds ++ rest) = (n, rest)
  low : lower ≤ n
  high : n ≤ upper

inductive Item (lower upper : Int) : Str → Int × Option Int → Prop where
  | one {ds : Str} {n : Int} : Numeral lower upper ds n → Item lower upper ds (n, none)
  | range {ds ds2 : Str} {n n2 : Int} : Numeral lower upper ds n → Numeral lower upper ds2 n2 → Item lower upper (ds ++ '-' :: ds2) (n, some n2)

inductive Accepted (lower upper : Int) : Str → List (Int × Option Int) → Prop where
  | last {s : Str} {r : Int × Option Int} : Item lower upper s r → Accepted lower upper s [r]
  | more {s rest : Str} {r : Int × Option Int} {items : List (Int × Option Int)} :
      Item lower upper s r → Accepted lower upper rest items → Accepted lower upper (s ++ ',' :: rest) (r :: items)

theorem num_digits (n : Int) (ptr : Str) : ∃ ds, ptr = ds ++ (num n ptr).2 ∧ Ends (num n ptr).2 ∧
    (∀ rest, Ends rest → num n (ds ++ rest) = ((num n ptr).1, rest)) ∧ ((ptr.headD '\x00').isDigit = true → ds ≠ []) := by
  induction ptr generalizing n with
  | nil =>
    refine ⟨[], rfl, rfl, fun rest ends => ?_, (fun no => by cases no)⟩
    cases rest with
    | nil => rfl
    | cons c rest =>
      have stop : c.isDigit = false := ends
      simp [num, stop]
  | cons c ptr ih =>
    cases digit : c.isDigit with
    | true =>
      obtain ⟨ds, whole, ends, read, _⟩ := ih (long (n * 10 + (c.toNat - '0'.toNat)))
      have step : ∀ tail, num n (c :: tail) = num (long (n * 10 + (c.toNat - '0'.toNat))) tail := by
        intro tail
        rw [num, if_pos digit]
      refine ⟨c :: ds, ?_, ?_, fun rest stop => ?_, fun _ => by simp⟩
      · rw [step, List.cons_append, ← whole]
      · rw [step]
        exact ends
      · rw [List.cons_append, step, step]
        exact read rest stop
    | false =>
      have here : num n (c :: ptr) = (n, c :: ptr) := by simp [num, digit]
      rw [here]
      refine ⟨[], rfl, digit, fun rest ends => ?_, (fun yes => ?_)⟩
      · cases rest with
        | nil => rfl
        | cons c' rest =>
          have stop : c'.isDigit = false := ends
          simp [num, stop]
      · have no : c.isDigit = true := yes
        rw [digit] at no
        cases no

theorem number_done (given : number lower upper line = .ok rest) :
    ∃ ds n, line = ds ++ rest ∧ Numeral lower upper ds n ∧ Ends rest := by
  obtain ⟨ds, whole, ends, read, some_⟩ := num_digits 0 line
  unfold number at given
  split at given
  case isFalse => cases given
  case isTrue digit =>
    dsimp only at given
    split at given
    case isTrue => cases given
    case isFalse inside =>
      cases given
      exact ⟨ds, (num 0 line).1, whole, ⟨some_ digit, read, by omega, by omega⟩, ends⟩

theorem bind_done {α β : Type} {x : Except Complaint α} {f : α → Except Complaint β} {r : β} (given : x >>= f = .ok r) :
    ∃ a, x = .ok a ∧ f a = .ok r := by
  cases x with
  | error => cases given
  | ok a => exact ⟨a, rfl, given⟩

theorem range_done (given : range lower upper line = .ok rest) : ∃ s r, Item lower upper s r ∧ line = s ++ rest := by
  obtain ⟨next, first, second⟩ := bind_done given
  obtain ⟨ds, n, whole, numeral, _⟩ := number_done first
  split at second
  case isTrue dash =>
    obtain ⟨ds2, n2, whole2, numeral2, _⟩ := number_done second
    refine ⟨_, _, .range numeral numeral2, ?_⟩
    cases next with
    | nil => cases dash
    | cons c next =>
      obtain rfl : c = '-' := dash
      rw [whole, List.append_assoc, List.cons_append]
      exact congrArg (ds ++ '-' :: ·) whole2
  case isFalse =>
    cases second
    exact ⟨ds, _, .one numeral, whole⟩

theorem numbers_done (given : numbers lower upper time line = .ok rest) :
    ∃ s items, line = s ++ rest ∧ Accepted lower upper s items := by
  induction time generalizing line with
  | zero => cases given
  | succ time ih =>
    obtain ⟨after, read, given⟩ := bind_done given
    obtain ⟨s, r, item, line_is⟩ := range_done read
    cases after with
    | nil => cases given
    | cons c more =>
      dsimp only at given
      split at given
      case isTrue =>
        cases given
        exact ⟨s, [r], line_is, .last item⟩
      case isFalse =>
        split at given
        case isTrue => cases given
        case isFalse comma =>
          obtain rfl : c = ',' := not_not.mp comma
          obtain ⟨s', items, rest_is, accepted⟩ := ih given
          exact ⟨_, _, by rw [line_is, rest_is, List.append_assoc, List.cons_append], .more item accepted⟩

theorem next_field_done (given : next_field lower upper line = .ok (s, rest)) :
    s = ['*'] ∨ ∃ items, Accepted lower upper s items := by
  unfold next_field at given
  dsimp only at given
  generalize line.dropWhile blank = start at given
  split at given
  case h_1 => cases given
  case h_2 =>
    split at given
    case isTrue =>
      cases given
      exact .inl rfl
    case isFalse => cases given
  case h_3 =>
    obtain ⟨more, read, given⟩ := bind_done given
    cases given
    obtain ⟨s, items, whole, accepted⟩ := numbers_done read
    refine .inr ⟨items, ?_⟩
    have size : start.length - rest.length = s.length := by rw [whole, List.length_append, Nat.add_sub_cancel]
    rw [size, whole, List.take_left]
    exact accepted

theorem Numeral.length_pos {ds : Str} {n : Int} (numeral : Numeral lower upper ds n) : 0 < ds.length :=
  List.length_pos_iff.mpr numeral.some_

theorem Item.read {r : Int × Option Int} (item : Item lower upper s r) (rest : Str) (ends : Ends rest) :
    (num 0 (s ++ rest)).1 = r.1 ∧
      match r.2 with
      | none => (num 0 (s ++ rest)).2 = rest
      | some n2 => ∃ ptr, (num 0 (s ++ rest)).2 = '-' :: ptr ∧ num 0 ptr = (n2, rest) := by
  cases item with
  | one numeral =>
    have read := numeral.read rest ends
    exact ⟨by rw [read], by rw [read]⟩
  | @range ds ds2 n n2 numeral numeral2 =>
    have read := numeral.read ('-' :: (ds2 ++ rest)) rfl
    have whole : (ds ++ '-' :: ds2) ++ rest = ds ++ '-' :: (ds2 ++ rest) := by simp
    rw [whole]
    exact ⟨by rw [read], ds2 ++ rest, by rw [read], numeral2.read rest ends⟩

theorem Item.bounds {r : Int × Option Int} (item : Item lower upper s r) : lower ≤ r.1 ∧ r.1 ≤ upper := by
  cases item with
  | one numeral => exact ⟨numeral.low, numeral.high⟩
  | range numeral _ => exact ⟨numeral.low, numeral.high⟩

theorem Item.length_pos {r : Int × Option Int} (item : Item lower upper s r) : 0 < s.length := by
  cases item with
  | one numeral => exact numeral.length_pos
  | range numeral _ =>
    have := numeral.length_pos
    rw [List.length_append]
    omega

theorem Item.entry_eq {r : Int × Option Int} (item : Item lower upper s r) (rest : Str) (ends : Ends rest)
    (straight : rest.headD '\x00' ≠ '-') : entry (s ++ rest) = (r, rest) := by
  obtain ⟨first, second⟩ := item.read rest ends
  obtain ⟨n, n2⟩ := r
  unfold entry
  dsimp only at first second ⊢
  cases n2 with
  | none => rw [second, if_neg straight, first]
  | some n2 =>
    obtain ⟨ptr, dash, read⟩ := second
    rw [dash, List.headD_cons, if_pos rfl, List.tail_cons, read, first]

theorem Accepted.ranges_eq {items : List (Int × Option Int)} (accepted : Accepted lower upper s items) (enough : s.length ≤ time) :
    ranges time s = items := by
  induction accepted generalizing time with
  | @last s r item =>
    cases time with
    | zero =>
      have := item.length_pos
      omega
    | succ time =>
      have step := item.entry_eq [] rfl (by decide)
      rw [List.append_nil] at step
      rw [ranges, step]
      rfl
  | @more s rest r items item _ ih =>
    cases time with
    | zero =>
      have := item.length_pos
      rw [List.length_append] at enough
      omega
    | succ time =>
      have comma : (',' :: rest).headD '\x00' ≠ '-' := show ',' ≠ '-' by decide
      rw [List.length_append, List.length_cons] at enough
      have := item.length_pos
      rw [ranges, item.entry_eq (',' :: rest) rfl comma]
      dsimp only
      rw [if_neg (List.cons_ne_nil _ _), List.tail_cons, ih (by omega)]

structure Next (P : Int → Prop) (lower upper current r : Int) : Prop where
  found : P r
  low : lower ≤ r
  high : r ≤ upper
  first : (current ≤ r ∧ ∀ x, current ≤ x → x < r → ¬ P x) ∨
    (r < current ∧ (∀ x, current ≤ x → x ≤ upper → ¬ P x) ∧ ∀ x, lower ≤ x → x < r → ¬ P x)

structure Seen (lower upper current min min_gt : Int) (seen : List (Int × Option Int)) : Prop where
  bounds : ∀ r ∈ seen, lower ≤ r.1 ∧ r.1 ≤ upper
  apart : ∀ r ∈ seen, ¬ Covers r current
  least : ∀ r ∈ seen, min ≤ r.1
  least_gt : ∀ r ∈ seen, current < r.1 → min_gt ≤ r.1
  is_min : min = DUMMY ∨ ∃ r ∈ seen, r.1 = min
  is_gt : min_gt = DUMMY ∨ current < min_gt ∧ ∃ r ∈ seen, r.1 = min_gt

theorem Covers.start (r : Int × Option Int) : Covers r r.1 := by
  obtain ⟨n, n2⟩ := r
  cases n2 with
  | none => rfl
  | some n2 =>
    unfold Covers
    dsimp only
    split <;> omega

/-- An item without the current number has nothing up to its start, or all before the
current number from its start on. -/
theorem Covers.side {r : Int × Option Int} (apart : ¬ Covers r current) :
    (current < r.1 ∧ ∀ x, current ≤ x → x < r.1 → ¬ Covers r x) ∨ (r.1 < current ∧ ∀ x, Covers r x → r.1 ≤ x ∧ x < current) := by
  obtain ⟨n, n2⟩ := r
  cases n2 with
  | none =>
    unfold Covers at *
    dsimp only at *
    rcases lt_or_gt_of_ne apart with before | after
    · exact .inl ⟨by omega, fun x _ _ => by omega⟩
    · exact .inr ⟨by omega, fun x _ => by omega⟩
  | some n2 =>
    unfold Covers at *
    dsimp only at *
    split at apart
    case isTrue up =>
      rcases lt_or_ge current n with before | after
      · exact .inl ⟨before, fun x _ _ => by rw [if_pos up]; omega⟩
      · exact .inr ⟨by omega, fun x covers => by rw [if_pos up] at covers; omega⟩
    case isFalse around => exact .inl ⟨by omega, fun x _ _ => by rw [if_neg around]; omega⟩

theorem Seen.fallen {min min_gt : Int} {seen : List (Int × Option Int)} (small : upper < DUMMY) (some_ : seen ≠ [])
    (knows : Seen lower upper current min min_gt seen) :
    Next (fun x => ∃ r ∈ seen, Covers r x) lower upper current (if min_gt ≠ DUMMY then min_gt else min) := by
  split
  case isTrue found =>
    obtain ⟨above, r, member, rfl⟩ := knows.is_gt.resolve_left found
    obtain ⟨low, high⟩ := knows.bounds r member
    refine ⟨⟨r, member, Covers.start r⟩, low, high, .inl ⟨above.le, ?_⟩⟩
    rintro x from_ below ⟨r', member', covers⟩
    rcases Covers.side (knows.apart r' member') with ⟨after, none_⟩ | ⟨_, only⟩
    · have := knows.least_gt r' member' after
      exact none_ x from_ (by omega) covers
    · have := only x covers
      omega
  case isFalse none_ =>
    have none_ : min_gt = DUMMY := not_not.mp none_
    have before : ∀ r ∈ seen, r.1 < current ∧ ∀ x, Covers r x → r.1 ≤ x ∧ x < current := by
      intro r member
      refine (Covers.side (knows.apart r member)).resolve_left fun ⟨after, _⟩ => ?_
      have := knows.least_gt r member after
      have := knows.bounds r member
      omega
    obtain ⟨r, member, rfl⟩ : ∃ r ∈ seen, r.1 = min := by
      refine knows.is_min.resolve_left fun dummy => ?_
      obtain ⟨r, member⟩ := List.exists_mem_of_ne_nil seen some_
      have := knows.least r member
      have := knows.bounds r member
      omega
    obtain ⟨low, high⟩ := knows.bounds r member
    refine ⟨⟨r, member, Covers.start r⟩, low, high, .inr ⟨(before r member).1, ?_, ?_⟩⟩
    · rintro x from_ _ ⟨r', member', covers⟩
      have := (before r' member').2 x covers
      omega
    · rintro x _ below ⟨r', member', covers⟩
      have := (before r' member').2 x covers
      have := knows.least r' member'
      omega

theorem Seen.cons {min min_gt : Int} {seen : List (Int × Option Int)} {r : Int × Option Int} (knows : Seen lower upper current min min_gt seen)
    (bounds : lower ≤ r.1 ∧ r.1 ≤ upper) (apart : ¬ Covers r current) :
    Seen lower upper current (if r.1 < min then r.1 else min) (if r.1 > current ∧ r.1 < min_gt then r.1 else min_gt) (r :: seen) := by
  refine ⟨?_, ?_, ?_, ?_, ?_, ?_⟩
  · exact List.forall_mem_cons.mpr ⟨bounds, knows.bounds⟩
  · exact List.forall_mem_cons.mpr ⟨apart, knows.apart⟩
  · refine List.forall_mem_cons.mpr ⟨by split <;> omega, fun x member => ?_⟩
    have := knows.least x member
    split <;> omega
  · refine List.forall_mem_cons.mpr ⟨fun above => by split <;> omega, fun x member above => ?_⟩
    have := knows.least_gt x member above
    split <;> omega
  · split
    case isTrue => exact .inr ⟨r, by simp, rfl⟩
    case isFalse => exact knows.is_min.imp_right fun ⟨x, member, is⟩ => ⟨x, by simp [member], is⟩
  · split
    case isTrue above => exact .inr ⟨above.1, r, by simp, rfl⟩
    case isFalse => exact knows.is_gt.imp_right fun ⟨above, x, member, is⟩ => ⟨above, x, by simp [member], is⟩

theorem next_in_step {r : Int × Option Int} {min min_gt : Int} (item : Item lower upper s r) (rest : Str) (ends : Ends rest)
    (straight : rest.headD '\x00' ≠ '-') :
    next_in current (time + 1) (s ++ rest) min min_gt = current ∧ Covers r current ∨ ¬ Covers r current ∧
      next_in current (time + 1) (s ++ rest) min min_gt =
        if rest = [] then
          if (if r.1 > current ∧ r.1 < min_gt then r.1 else min_gt) ≠ DUMMY then (if r.1 > current ∧ r.1 < min_gt then r.1 else min_gt)
          else if r.1 < min then r.1 else min
        else next_in current time rest.tail (if r.1 < min then r.1 else min) (if r.1 > current ∧ r.1 < min_gt then r.1 else min_gt) := by
  obtain ⟨first, second⟩ := item.read rest ends
  obtain ⟨n, n2⟩ := r
  rw [next_in]
  dsimp only at first second ⊢
  rw [first]
  by_cases equal : n = current
  · subst equal
    exact .inl ⟨if_pos rfl, Covers.start (n, n2)⟩
  rw [if_neg equal]
  cases n2 with
  | none =>
    dsimp only at second
    rw [second, if_neg straight]
    refine .inr ⟨fun covers => equal (Eq.symm covers), ?_⟩
    cases rest <;> rfl
  | some n2 =>
    obtain ⟨ptr, dash, read⟩ := second
    rw [dash, List.headD_cons, if_pos rfl, List.tail_cons, read]
    unfold Covers
    dsimp only
    by_cases up : n2 > n
    · rw [if_pos up, if_pos up]
      by_cases inside : current > n ∧ current ≤ n2
      · exact .inl ⟨if_pos inside, by omega⟩
      · rw [if_neg inside]
        refine .inr ⟨by omega, ?_⟩
        cases rest <;> rfl
    · rw [if_neg up, if_neg up]
      by_cases above : current > n
      · exact .inl ⟨if_pos above, by omega⟩
      rw [if_neg above]
      by_cases below : current ≤ n2
      · exact .inl ⟨if_pos below, by omega⟩
      rw [if_neg below]
      refine .inr ⟨by omega, ?_⟩
      cases rest <;> rfl

theorem Next.congr {P Q : Int → Prop} {r : Int} (same : ∀ x, P x ↔ Q x) (next : Next P lower upper current r) : Next Q lower upper current r := by
  obtain rfl : P = Q := funext fun x => propext (same x)
  exact next

theorem Next.here {P : Int → Prop} (found : P current) (low : lower ≤ current) (high : current ≤ upper) : Next P lower upper current current :=
  ⟨found, low, high, .inl ⟨le_rfl, fun _ _ _ => by omega⟩⟩

theorem next_in_done {items seen : List (Int × Option Int)} {min min_gt : Int} (accepted : Accepted lower upper s items)
    (enough : s.length ≤ time) (small : upper < DUMMY) (low : lower ≤ current) (high : current ≤ upper)
    (knows : Seen lower upper current min min_gt seen) :
    Next (fun x => ∃ r, (r ∈ items ∨ r ∈ seen) ∧ Covers r x) lower upper current (next_in current time s min min_gt) := by
  induction accepted generalizing time seen min min_gt with
  | @last s r item =>
    cases time with
    | zero =>
      have := item.length_pos
      omega
    | succ time =>
      have step := @next_in_step _ _ current _ time r min min_gt item [] rfl (by decide)
      rw [List.append_nil] at step
      rcases step with ⟨is, covers⟩ | ⟨apart, is⟩
      · rw [is]
        exact Next.here ⟨r, by simp, covers⟩ low high
      · rw [is, if_pos rfl]
        refine ((knows.cons item.bounds apart).fallen small (by simp)).congr fun x => ?_
        simp
  | @more s rest r items item accepted ih =>
    cases time with
    | zero =>
      have := item.length_pos
      rw [List.length_append] at enough
      omega
    | succ time =>
      have comma : (',' :: rest).headD '\x00' ≠ '-' := show ',' ≠ '-' by decide
      rw [List.length_append, List.length_cons] at enough
      have := item.length_pos
      rcases @next_in_step _ _ current _ time r min min_gt item (',' :: rest) rfl comma with ⟨is, covers⟩ | ⟨apart, is⟩
      · rw [is]
        exact Next.here ⟨r, by simp, covers⟩ low high
      · rw [is, if_neg (List.cons_ne_nil _ _), List.tail_cons]
        refine (ih (by omega) (knows.cons item.bounds apart)).congr fun x => ?_
        simp only [List.mem_cons]
        constructor
        · rintro ⟨r', member | rfl | member, covers⟩
          · exact ⟨r', .inl (.inr member), covers⟩
          · exact ⟨r', .inl (.inl rfl), covers⟩
          · exact ⟨r', .inr member, covers⟩
        · rintro ⟨r', (rfl | member) | member, covers⟩
          · exact ⟨r', .inr (.inl rfl), covers⟩
          · exact ⟨r', .inl member, covers⟩
          · exact ⟨r', .inr (.inr member), covers⟩

def Field (lower upper : Int) (s : Str) : Prop := s = ['*'] ∨ ∃ items, Accepted lower upper s items

theorem next_ge_done (current : Int) (field : Field lower upper s) (small : upper < DUMMY) (low : lower ≤ current) (high : current ≤ upper) :
    Next (Listed s) lower upper current (next_ge current s) := by
  unfold next_ge
  split
  case isTrue star => exact Next.here (.inl star) low high
  case isFalse others =>
    obtain ⟨items, accepted⟩ := field.resolve_left others
    have done := @next_in_done lower upper current s s.length items [] DUMMY DUMMY accepted le_rfl small low high
      ⟨by simp, by simp, by simp, by simp, .inl rfl, .inl rfl⟩
    refine done.congr fun x => ?_
    unfold Listed
    rw [accepted.ranges_eq le_rfl]
    simp [others]

structure Fields (e : Ct) : Prop where
  minute : Field 0 59 e.minute
  hour : Field 0 23 e.hour
  daymon : Field 1 31 e.daymon
  month : Field 1 12 e.month
  dayweek : Field 0 6 e.dayweek

theorem fields_done {e : Ct} (given : fields line = .ok e) : Fields e := by
  obtain ⟨⟨minute, line⟩, first, given⟩ := bind_done given
  obtain ⟨⟨hour, line⟩, second, given⟩ := bind_done given
  obtain ⟨⟨daymon, line⟩, third, given⟩ := bind_done given
  obtain ⟨⟨month, line⟩, fourth, given⟩ := bind_done given
  obtain ⟨⟨dayweek, line⟩, fifth, given⟩ := bind_done given
  cases given
  exact ⟨next_field_done first, next_field_done second, next_field_done third, next_field_done fourth, next_field_done fifth⟩

end Svr4.Proofs.CronFields
