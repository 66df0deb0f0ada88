import Svr4.DiffText
import Svr4.Proofs.DiffOutput

/-! The places that `check` writes down are those where the lines start, so that `fetch` copies
the lines of a call of `change`. -/

namespace Svr4.Proofs.DiffPlaces
open Function Splice Diff DiffText DiffStone DiffCheck DiffOutput

variable {l l' : Str} {old new : List Str} {J : Nat → Int} {s : Index} {i n : Nat}

def place (ls : List Str) (t : Nat) : Nat := (ls.take t).flatten.length

theorem place_succ {ls : List Str} {t : Nat} (inside : t < ls.length) : place ls (t + 1) = place ls t + ls[t].length := by
  rw [place, place, List.take_succ_eq_append_getElem inside, List.flatten_append, List.length_append, List.flatten_singleton]

theorem drop_place (ls : List Str) (t : Nat) : ls.flatten.drop (place ls t) = (ls.drop t).flatten := by
  have parts : ls.flatten = (ls.take t).flatten ++ (ls.drop t).flatten := by rw [← List.flatten_append, List.take_append_drop]
  rw [parts]
  exact List.drop_left

theorem skipcount_line (is : IsLine l) (f : Str) : skipcount (l ++ f) = l.length := by
  obtain ⟨body, rfl, whole, clean⟩ := is
  induction body with
  | nil => rfl
  | cons t body ih =>
    obtain ⟨other, whole⟩ := not_or.mp (mt List.mem_cons.mpr whole)
    obtain ⟨real, clean⟩ := not_or.mp (mt List.mem_cons.mpr clean)
    simp only [List.cons_append, skipcount, if_neg (Ne.symm real), if_pos (Ne.symm other), List.length_cons]
    rw [ih whole clean]

theorem count_other {t : UInt8} (is : IsLine (t :: l)) (f : Str) :
    (1 + if t ≠ newline then skipcount (l ++ f) else 0) = (t :: l).length := by
  by_cases ends : t = newline
  · subst ends
    rw [isLine_newline is]
    rfl
  · rw [if_pos ends, skipcount_line (isLine_tail is ends), List.length_cons, Nat.add_comm]

theorem same_count_lines (is : IsLine l) (is' : IsLine l') (f g : Str) : same_count (l ++ f) (l' ++ g) = (l.length, l'.length) := by
  induction l generalizing l' with
  | nil =>
    obtain ⟨body, eq, _⟩ := is
    exact absurd eq (by simp)
  | cons c l ih =>
    cases l' with
    | nil =>
      obtain ⟨body, eq, _⟩ := is'
      exact absurd eq (by simp)
    | cons d l' =>
      rw [List.cons_append, List.cons_append, same_count]
      split
      case isTrue => rw [count_other is, count_other is']
      case isFalse same =>
        obtain rfl := not_not.mp same
        split
        case isTrue ends =>
          subst ends
          rw [isLine_newline is, isLine_newline is']
          rfl
        case isFalse other => rw [ih (isLine_tail is other) (isLine_tail is' other), List.length_cons, List.length_cons]

structure Passing (s : Index) (new : List Str) : Prop where
  j_pos : 1 ≤ s.check.j
  g_eq : s.check.g = (new.drop (s.check.j.toNat - 1)).flatten
  ctnew : s.ctnew = place new (s.check.j.toNat - 1)
  ixnew : ∀ t, t < s.check.j.toNat → s.ixnew t = place new t

theorem Passing.pass (passing : Passing s new) (are : ∀ l ∈ new, IsLine l) (more : s.check.j ≤ new.length) :
    Passing (pass s) new := by
  have j_pos := passing.j_pos
  obtain ⟨k, at_⟩ : ∃ k : Nat, s.check.j = (k : Int) + 1 := ⟨(s.check.j - 1).toNat, by omega⟩
  have here : s.check.j.toNat = k + 1 := by omega
  have next : (s.check.j + 1).toNat = k + 2 := by omega
  have inside : k < new.length := by omega
  have is := are _ (List.getElem_mem inside)
  have line := passing.g_eq
  rw [here, Nat.add_sub_cancel, List.drop_eq_getElem_cons inside, List.flatten_cons] at line
  have count : s.ctnew + skipcount s.check.g = place new (k + 1) := by
    rw [passing.ctnew, line, skipcount_line is, here, Nat.add_sub_cancel, place_succ inside]
  constructor
  case j_pos =>
    change 1 ≤ s.check.j + 1
    omega
  case g_eq =>
    change skipline s.check.g = (new.drop ((s.check.j + 1).toNat - 1)).flatten
    rw [line, skipline_line is, next]
    rfl
  case ctnew =>
    change s.ctnew + skipcount s.check.g = place new ((s.check.j + 1).toNat - 1)
    rw [count, next]
    rfl
  case ixnew =>
    intro t before
    change update s.ixnew s.check.j.toNat (s.ctnew + skipcount s.check.g) t = _
    replace before : t < (s.check.j + 1).toNat := before
    by_cases last : t = k + 1
    · rw [last, here, update_self, count]
    · rw [update_of_ne (by omega)]
      exact passing.ixnew t (by omega)

theorem Passing.passes (passing : Passing s new) (are : ∀ l ∈ new, IsLine l) (n : Nat) (few : s.check.j + n ≤ new.length + 1) :
    Passing (DiffText.pass^[n] s) new ∧ (DiffText.pass^[n] s).check.j = s.check.j + n ∧
      (DiffText.pass^[n] s).check.f = s.check.f ∧ (DiffText.pass^[n] s).check.J = s.check.J ∧
      (DiffText.pass^[n] s).ctold = s.ctold ∧ (DiffText.pass^[n] s).ixold = s.ixold := by
  induction n generalizing s with
  | zero => exact ⟨passing, (add_zero _).symm, rfl, rfl, rfl, rfl⟩
  | succ n ih =>
    have j_eq : (DiffText.pass s).check.j = s.check.j + 1 := rfl
    obtain ⟨done, j_eq', same⟩ := ih (passing.pass are (by omega)) (by omega)
    rw [iterate_succ_apply]
    exact ⟨done, by omega, same⟩

structure Indexing (s : Index) (J : Nat → Int) (old new : List Str) (i : Nat) : Prop where
  checking : Checking s.check J old new i
  passing : Passing s new
  ctold : s.ctold = place old i
  ixold : ∀ t, t ≤ i → s.ixold t = place old t

theorem index_line_done (are : ∀ l ∈ old, IsLine l) (are' : ∀ l ∈ new, IsLine l) (increasing : Increasing J old.length new.length)
    (indexing : Indexing s J old new i) (more : i < old.length) : Indexing (index_line s (i + 1)) J old new (i + 1) := by
  obtain ⟨checking, passing, ctold, ixold⟩ := indexing
  have next := check_line_done are are' increasing checking more
  have line := checking.f_eq
  rw [List.drop_eq_getElem_cons more, List.flatten_cons] at line
  have is := are _ (List.getElem_mem more)
  have old_places : ∀ ix : Nat → Nat, (∀ t, t ≤ i → ix t = place old t) →
      ∀ t, t ≤ i + 1 → update ix (i + 1) (place old (i + 1)) t = place old t := by
    intro ix done t upto
    by_cases last : t = i + 1
    · rw [last, update_self]
    · rw [update_of_ne last]
      exact done t (by omega)
  unfold index_line
  split
  case isTrue none_ =>
    have count : s.ctold + skipcount s.check.f = place old (i + 1) := by
      rw [ctold, line, skipcount_line is, place_succ more]
    refine ⟨next, ⟨next.j_pos, next.g_eq, ?_, ?_⟩, count, ?_⟩
    · rw [check_line, if_pos none_]
      exact passing.ctnew
    · rw [check_line, if_pos none_]
      exact passing.ixnew
    · dsimp only
      rw [count]
      exact old_places _ ixold
  case isFalse some_ =>
    have at_ := checking.ahead (i + 1) (by omega)
    rw [at_] at some_
    have inside := increasing.inside (i + 1) (by omega) more some_
    have reached := checking.unread (i + 1) (by omega) more some_
    have j_pos := checking.j_pos
    obtain ⟨n, skipped⟩ : ∃ n : Nat, (J (i + 1) - s.check.j).toNat = n := ⟨_, rfl⟩
    obtain ⟨k, match_⟩ : ∃ k : Nat, J (i + 1) = (k : Int) + 1 := ⟨(J (i + 1) - 1).toNat, by omega⟩
    have within : k < new.length := by omega
    obtain ⟨passed, j_eq, f_eq, _, ctold_eq, ixold_eq⟩ := passing.passes are' n (by omega)
    have here : (DiffText.pass^[n] s).check.j.toNat = k + 1 := by omega
    have rest := passed.g_eq
    rw [here, Nat.add_sub_cancel, List.drop_eq_getElem_cons within, List.flatten_cons] at rest
    have is' := are' _ (List.getElem_mem within)
    have counts := same_count_lines is is' (old.drop (i + 1)).flatten (new.drop (k + 1)).flatten
    rw [at_, skipped]
    dsimp only
    rw [f_eq, line, rest, counts, ctold_eq, ctold, ← place_succ more, passed.ctnew, here, Nat.add_sub_cancel, ← place_succ within,
      ixold_eq]
    have j_next : (check_line s.check (i + 1)).j.toNat = k + 2 := by
      rw [check_line, at_, if_neg some_, skipped]
      dsimp only
      omega
    refine ⟨next, ⟨next.j_pos, next.g_eq, ?_, ?_⟩, rfl, old_places _ ixold⟩
    · dsimp only
      rw [j_next]
      rfl
    · intro t before
      replace before : t < (check_line s.check (i + 1)).j.toNat := before
      dsimp only
      by_cases last : t = k + 1
      · rw [last, update_self]
      · rw [update_of_ne last]
        exact passed.ixnew t (by omega)

theorem index_done (are : ∀ l ∈ old, IsLine l) (are' : ∀ l ∈ new, IsLine l) (increasing : Increasing J old.length new.length)
    (memory : Memory) :
    (∀ t, t ≤ new.length → (index memory J old.length new.length old.flatten new.flatten).ixnew t = place new t) ∧
    (∀ t, t ≤ old.length → (index memory J old.length new.length old.flatten new.flatten).ixold t = place old t) ∧
    (index memory J old.length new.length old.flatten new.flatten).check.J = check J old.length old.flatten new.flatten := by
  have zero : ∀ (ls : List Str) (t : Nat), t ≤ 0 → update memory.klist 0 0 t = place ls t := by
    intro ls t low
    obtain rfl := Nat.le_zero.mp low
    rw [update_self, place, List.take_zero]
    rfl
  have runs : ∀ i ≤ old.length, Indexing ((List.range' 1 i).foldl index_line
      ⟨⟨J, 1, old.flatten, new.flatten⟩, 0, 0, update memory.klist 0 0, update memory.klist 0 0⟩) J old new i ∧
      ((List.range' 1 i).foldl index_line
        ⟨⟨J, 1, old.flatten, new.flatten⟩, 0, 0, update memory.klist 0 0, update memory.klist 0 0⟩).check =
        (List.range' 1 i).foldl check_line ⟨J, 1, old.flatten, new.flatten⟩ := by
    intro i few
    induction i with
    | zero =>
      refine ⟨⟨?_, ⟨le_rfl, rfl, rfl, fun t before => zero new t (Nat.le_of_lt_succ before)⟩, rfl, zero old⟩, rfl⟩
      refine ⟨rfl, le_rfl, rfl, fun _ _ => rfl, fun t later upto some_ => ?_, fun _ _ => .inr rfl, fun t low upto => by omega⟩
      exact (increasing.inside t (by omega) upto some_).1
    | succ i ih =>
      obtain ⟨indexing, same⟩ := ih (by omega)
      rw [List.range'_concat, List.foldl_append, List.foldl_append, List.foldl_cons, List.foldl_cons, List.foldl_nil, List.foldl_nil,
        Nat.one_mul, Nat.add_comm 1 i]
      refine ⟨index_line_done are are' increasing indexing (by omega), ?_⟩
      rw [← same]
      unfold index_line
      split
      · rfl
      · rfl
  obtain ⟨indexing, same⟩ := runs old.length le_rfl
  unfold index
  dsimp only
  generalize (List.range' 1 old.length).foldl index_line _ = s at indexing same ⊢
  have matches_ : s.check.J = check J old.length old.flatten new.flatten := by rw [same, check]
  obtain ⟨n, rest⟩ : ∃ n : Nat, (new.length + 1 - s.check.j).toNat = n := ⟨_, rfl⟩
  rw [rest]
  rcases Int.lt_or_le (new.length + 1) s.check.j with beyond | within
  · obtain rfl : n = 0 := by omega
    exact ⟨fun t few => indexing.passing.ixnew t (by omega), indexing.ixold, matches_⟩
  · obtain ⟨passed, j_eq, _, J_eq, _, ixold_eq⟩ := indexing.passing.passes are' n (by omega)
    refine ⟨fun t few => passed.ixnew t (by omega), ?_, J_eq.trans matches_⟩
    rw [ixold_eq]
    exact indexing.ixold

theorem fetch_line_line (is : IsLine l) (col : Nat) (f : Str) : fetch_line false col (l ++ f) ++ [newline] = l := by
  obtain ⟨body, rfl, whole, clean⟩ := is
  induction body generalizing col with
  | nil => rfl
  | cons t body ih =>
    obtain ⟨other, whole⟩ := not_or.mp (mt List.mem_cons.mpr whole)
    obtain ⟨real, clean⟩ := not_or.mp (mt List.mem_cons.mpr clean)
    have tab : ¬ (t = 9 ∧ false = true) := fun both => absurd both.2 Bool.false_ne_true
    rw [List.cons_append, List.cons_append, fetch_line, if_neg (Ne.symm real), if_neg (Ne.symm other), if_neg tab, List.cons_append,
      ih _ whole clean]

theorem fetch_lines (are : ∀ l ∈ new, IsLine l) {ix : Nat → Nat} (places : ∀ t, t ≤ new.length → ix t = place new t) {c d : Int}
    (low : 1 ≤ c) (before : c ≤ d + 1) (high : d ≤ new.length) :
    fetch false ix c d new.flatten [] = (segment new c.toNat d.toNat).flatten := by
  obtain ⟨p, p_eq⟩ : ∃ p : Nat, c = (p : Int) + 1 := ⟨(c - 1).toNat, by omega⟩
  obtain ⟨n, n_eq⟩ : ∃ n : Nat, d = (p : Int) + n := ⟨(d - p).toNat, by omega⟩
  have c_nat : c.toNat = p + 1 := by omega
  have d_nat : d.toNat = p + n := by omega
  have count : (d - c + 1).toNat = n := by omega
  have copied : ∀ k ≤ n, (List.range' (p + 1) k).flatMap (fun i => [] ++ fetch_line false 0 (new.flatten.drop (ix (i - 1))) ++ [newline]) =
      ((new.drop p).take k).flatten := by
    intro k few
    induction k with
    | zero => rfl
    | succ k ih =>
      have inside : p + k < new.length := by omega
      have is := are _ (List.getElem_mem inside)
      have line : (new.drop p).take (k + 1) = (new.drop p).take k ++ [new[p + k]] := by
        rw [List.take_succ_eq_append_getElem (by rw [List.length_drop]; omega), List.getElem_drop]
      rw [List.range'_concat, List.flatMap_append, ih (by omega), line, List.flatten_append, List.flatMap_singleton, List.flatten_singleton,
        show p + 1 + 1 * k - 1 = p + k by omega, places _ (by omega), drop_place, List.drop_eq_getElem_cons inside, List.flatten_cons,
        List.nil_append, fetch_line_line is]
  unfold fetch
  rw [Splice.segment, c_nat, d_nat, count, copied n le_rfl, Nat.add_sub_cancel, List.drop_take, Nat.add_sub_cancel_left]
  split
  case isTrue none_ =>
    obtain rfl : n = 0 := by omega
    rfl
  case isFalse => rfl

end Svr4.Proofs.DiffPlaces

/-! The script of diff -e, run by the editor: it makes the second file of the first one exactly
where no line of a single dot has to be added, as the editor takes that one as the end of the text. -/

namespace Svr4.Proofs.DiffScript
open Function Splice Diff DiffText DiffStone DiffCheck DiffLongest DiffOutput DiffPlaces

variable {l : Str} {old new text : List Str} {J : Nat → Int} {i0 q a b n : Nat} {r : Change} {calls : List Change} {buffer : List Str}

def dot : Str := puts ".\n"

/-- The lines of the editor, and the line behind which text is being added. -/
structure Ed where
  buffer : List Str
  adding : Option Nat

/-- The numbers of a command, and the letter with what is behind it. -/
def numbers (l : Str) : Option (Nat × Nat × Str) :=
  let first := Decimal.read 0 l
  if l.head?.any Decimal.numeric then
    if first.2.head? = some 44 then
      if first.2.tail.head?.any Decimal.numeric then some (first.1, Decimal.read 0 first.2.tail) else none
    else some (first.1, first)
  else none

/-- The editor reads a line: a command, where no text is being added. -/
def Ed.line (s : Ed) (l : Str) : Option Ed :=
  match s.adding with
  | some n => if l = dot then some { s with adding := none } else some ⟨s.buffer.take n ++ l :: s.buffer.drop n, some (n + 1)⟩
  | none => do
    let (a, b, rest) ← numbers l
    if a ≤ b ∧ b ≤ s.buffer.length then
      if rest = puts "a\n" then some { s with adding := some b }
      else if a = 0 then none
      else if rest = puts "c\n" then some ⟨s.buffer.take (a - 1) ++ s.buffer.drop b, some (a - 1)⟩
      else if rest = puts "d\n" then some ⟨s.buffer.take (a - 1) ++ s.buffer.drop b, none⟩
      else none
    else none

/-- What the script makes of the lines, where the editor understands it to its end. -/
def ed (script : Str) (buffer : List Str) : Option (List Str) := do
  let s ← (lines script).foldlM Ed.line ⟨buffer, none⟩
  if s.adding = none then some s.buffer else none

def block (new : List Str) (r : Change) : List Str :=
  if (r.a : Int) > r.b ∧ r.c > r.d then []
  else (range r.a r.b (puts ",") ++ letter r ++ [newline]) :: Splice.segment new r.c.toNat r.d.toNat ++ if r.c ≤ r.d then [dot] else []

theorem change_block (are : ∀ l ∈ new, IsLine l) (ixold : Nat → Nat) {ixnew : Nat → Nat} (places : ∀ t, t ≤ new.length → ixnew t = place new t)
    (inside : Inside old new r) (f : Str) :
    change .D_EDIT false ixold ixnew f new.flatten r = some (block new r).flatten := by
  obtain ⟨_, _, _, low, before, high⟩ := inside
  unfold change block
  split
  case isTrue => rfl
  case isFalse =>
    have copied := fetch_lines are places low before high
    simp only [command, Option.bind_eq_bind, Option.bind_some, reduceCtorEq, if_false, copied, true_or, true_and, List.append_nil,
      List.flatten_cons, List.flatten_append, List.cons_append]
    split
    · rw [List.flatten_singleton, dot, List.append_assoc]
    · rw [List.flatten_nil, List.append_assoc]

theorem lines_flatten {ls : List Str} (are : ∀ l ∈ ls, IsLine l) : lines ls.flatten = ls := by
  induction ls with
  | nil => rfl
  | cons l ls ih =>
    obtain ⟨body, rfl, whole, clean⟩ := are l List.mem_cons_self
    have rest := ih (fun l later => are l (List.mem_cons_of_mem _ later))
    clear ih are
    induction body with
    | nil => rw [List.flatten_cons, List.nil_append, List.singleton_append, lines, if_pos rfl, rest]
    | cons t body ih =>
      obtain ⟨other, whole⟩ := not_or.mp (mt List.mem_cons.mpr whole)
      obtain ⟨real, clean⟩ := not_or.mp (mt List.mem_cons.mpr clean)
      rw [List.flatten_cons, List.cons_append, List.cons_append, lines, if_neg (Ne.symm other), ← List.flatten_cons, ih whole clean]
      rfl

theorem digits_clean (n : Nat) : ∀ c ∈ Decimal.digits n, Decimal.numeric c = true := by
  induction n using Nat.strong_induction_on with
  | _ n ih =>
    intro c member
    rw [Decimal.digits] at member
    split at member
    case isTrue small =>
      rw [List.mem_singleton.mp member]
      exact Decimal.digit_numeric small
    case isFalse large =>
      rcases List.mem_append.mp member with front | last
      · exact ih (n / 10) (by omega) c front
      · rw [List.mem_singleton.mp last]
        exact Decimal.digit_numeric (Nat.mod_lt n (by decide))

theorem decimal_nat (n : Nat) : decimal n = Decimal.digits n := by
  rw [decimal, if_neg (by omega), List.nil_append, Int.natAbs_natCast]

theorem range_eq (a b : Nat) (separator : Str) : range a b separator =
    Decimal.digits (min a b) ++ if a < b then separator ++ Decimal.digits b else [] := by
  unfold range
  rcases Nat.lt_or_ge b a with greater | upto
  · rw [if_pos (by omega), if_neg (by omega), if_neg (by omega), decimal_nat, Nat.min_eq_right (by omega)]
  · rw [if_neg (by omega), decimal_nat, Nat.min_eq_left upto]
    by_cases less : a < b
    · rw [if_pos (by omega), if_pos less, decimal_nat]
    · rw [if_neg (by omega), if_neg less]

theorem letter_eq (r : Change) : letter r = [97] ∨ letter r = [99] ∨ letter r = [100] := by
  unfold letter
  split
  · exact .inl rfl
  · split
    · exact .inr (.inr rfl)
    · exact .inr (.inl rfl)

theorem digits_numeric (n : Nat) (rest : Str) : (Decimal.digits n ++ rest).head?.any Decimal.numeric = true := by
  obtain ⟨c, p, eq, digit⟩ := Decimal.digits_head n
  rw [eq, List.cons_append, List.head?_cons, Option.any_some, digit]

theorem numbers_one (n : Nat) {rest : Str} (stop : ∀ c ∈ rest.head?, Decimal.numeric c = false ∧ c ≠ 44) :
    numbers (Decimal.digits n ++ rest) = some (n, n, rest) := by
  have apart : rest.head? ≠ some 44 := fun is => (stop 44 is).2 rfl
  unfold numbers
  rw [if_pos (digits_numeric n rest), Decimal.read_digits fun c is => (stop c is).1]
  exact if_neg apart

theorem numbers_two (n m : Nat) {rest : Str} (stop : ∀ c ∈ rest.head?, Decimal.numeric c = false ∧ c ≠ 44) :
    numbers (Decimal.digits n ++ (puts "," ++ Decimal.digits m ++ rest)) = some (n, m, rest) := by
  have comma : ∀ c ∈ (puts "," ++ Decimal.digits m ++ rest).head?, Decimal.numeric c = false := by
    intro c is
    cases is
    rfl
  have behind : (puts "," ++ Decimal.digits m ++ rest).tail = Decimal.digits m ++ rest := rfl
  unfold numbers
  rw [if_pos (digits_numeric n _), Decimal.read_digits comma]
  dsimp only
  rw [if_pos (show (puts "," ++ Decimal.digits m ++ rest).head? = some 44 from rfl), behind, if_pos (digits_numeric m rest),
    Decimal.read_digits fun c is => (stop c is).1]

theorem numbers_command (r : Change) : numbers (range r.a r.b (puts ",") ++ letter r ++ [newline]) =
    some (min r.a r.b, r.b, letter r ++ [newline]) := by
  have stop : ∀ c ∈ (letter r ++ [newline]).head?, Decimal.numeric c = false ∧ c ≠ 44 := by
    intro c is
    rcases letter_eq r with eq | eq | eq
    all_goals
      rw [eq] at is
      cases is
      decide
  rw [range_eq]
  split
  case isTrue less => rw [List.append_assoc, List.append_assoc, numbers_two _ _ stop]
  case isFalse upto => rw [List.append_nil, List.append_assoc, numbers_one _ stop, Nat.min_eq_right (Nat.le_of_not_lt upto)]

theorem line_command (low : 1 ≤ r.a) :
    Ed.line ⟨buffer, none⟩ (range r.a r.b (puts ",") ++ letter r ++ [newline]) =
      if r.b ≤ buffer.length then
        some (if r.a > r.b then ⟨buffer, some r.b⟩
          else ⟨buffer.take (r.a - 1) ++ buffer.drop r.b, if r.c > r.d then none else some (r.a - 1)⟩)
      else none := by
  simp only [Ed.line, numbers_command, Option.bind_eq_bind, Option.bind_some, Nat.min_le_right, true_and]
  split
  case isFalse => rfl
  case isTrue inside =>
    unfold letter
    split
    case isTrue greater => exact if_pos rfl
    case isFalse upto =>
      have first : min r.a r.b = r.a := Nat.min_eq_left (Nat.le_of_not_lt upto)
      rw [first, if_neg (show r.a ≠ 0 by omega)]
      split
      · rfl
      · rfl

theorem numbers_dot : numbers dot = none := rfl

theorem line_dot (s : Ed) : s.line dot = s.adding.map fun _ => ⟨s.buffer, none⟩ := by
  cases adding : s.adding with
  | none =>
    simp only [Ed.line, adding, numbers_dot]
    rfl
  | some n =>
    simp only [Ed.line, adding]
    exact if_pos trivial

theorem adding_lines {ls : List Str} (plain : dot ∉ ls) (inside : n ≤ buffer.length) :
    ls.foldlM Ed.line ⟨buffer, some n⟩ = some ⟨buffer.take n ++ ls ++ buffer.drop n, some (n + ls.length)⟩ := by
  induction ls generalizing buffer n with
  | nil => rw [List.append_nil, List.take_append_drop]; rfl
  | cons l ls ih =>
    obtain ⟨other, plain⟩ := not_or.mp (mt List.mem_cons.mpr plain)
    have length : (buffer.take n).length = n := List.length_take_of_le inside
    have here : Ed.line ⟨buffer, some n⟩ l = some ⟨buffer.take n ++ l :: buffer.drop n, some (n + 1)⟩ := if_neg (Ne.symm other)
    have front : (buffer.take n ++ l :: buffer.drop n).take (n + 1) = buffer.take n ++ [l] := by
      rw [List.take_append, length, Nat.add_sub_cancel_left, List.take_of_length_le (by omega)]
      rfl
    have back : (buffer.take n ++ l :: buffer.drop n).drop (n + 1) = buffer.drop n := by
      rw [List.drop_append, length, Nat.add_sub_cancel_left, List.drop_of_length_le (by omega)]
      rfl
    rw [List.foldlM_cons, here, Option.bind_eq_bind, Option.bind_some, ih plain (by
      rw [List.length_append, List.length_cons, length]
      omega), front, back, List.length_cons, List.append_assoc, List.append_assoc, List.append_assoc]
    congr 3
    omega

theorem segment_none {c d : Int} (low : 1 ≤ c) (none_ : c > d) : Splice.segment new c.toNat d.toNat = [] := by
  apply List.drop_of_length_le
  rw [List.length_take]
  omega

theorem block_runs (low : 1 ≤ r.a) (before : r.a ≤ r.b + 1) (low' : 1 ≤ r.c) (inside : r.b ≤ buffer.length)
    (plain : dot ∉ Splice.segment new r.c.toNat r.d.toNat) :
    (block new r).foldlM Ed.line ⟨buffer, none⟩ = some ⟨apply new buffer r, none⟩ := by
  unfold block apply splice
  split
  case isTrue nothing =>
    have here : r.a - 1 = r.b := by omega
    rw [segment_none low' nothing.2, here, List.append_nil, List.take_append_drop]
    rfl
  case isFalse some_ =>
    rw [List.cons_append, List.foldlM_cons, line_command low, if_pos inside, Option.bind_eq_bind, Option.bind_some, List.foldlM_append]
    have ends : ∀ (buffer : List Str) (n : Nat), [dot].foldlM Ed.line ⟨buffer, some n⟩ = some ⟨buffer, none⟩ := by
      intro buffer n
      rw [List.foldlM_cons, line_dot]
      rfl
    split
    case isTrue greater =>
      have here : r.a - 1 = r.b := by omega
      rw [adding_lines plain inside, here, if_pos (by omega), Option.bind_eq_bind, Option.bind_some, ends]
    case isFalse upto =>
      split
      case isTrue none_ =>
        rw [segment_none low' none_, if_neg (by omega), List.append_nil]
        rfl
      case isFalse more =>
        have length : (buffer.take (r.a - 1)).length = r.a - 1 := List.length_take_of_le (by omega)
        have front : (buffer.take (r.a - 1) ++ buffer.drop r.b).take (r.a - 1) = buffer.take (r.a - 1) := List.take_left' length
        have back : (buffer.take (r.a - 1) ++ buffer.drop r.b).drop (r.a - 1) = buffer.drop r.b := List.drop_left' length
        rw [adding_lines plain (by rw [List.length_append, length]; omega), front, back, if_pos (by omega), Option.bind_eq_bind,
          Option.bind_some, ends]

theorem line_length {s s' : Ed} (runs : s.line l = some s') :
    s'.buffer.length + (if l = dot then 1 else 0) ≤ s.buffer.length + 1 := by
  unfold Ed.line at runs
  split at runs
  case h_1 n _ =>
    split at runs
    case isTrue is =>
      cases runs
      rw [if_pos is]
    case isFalse other =>
      cases runs
      rw [if_neg other, List.length_append, List.length_cons, List.length_take, List.length_drop]
      omega
  case h_2 =>
    obtain ⟨⟨a, b, rest⟩, is, runs⟩ := Option.bind_eq_some_iff.mp runs
    have other : l ≠ dot := by
      rintro rfl
      rw [numbers_dot] at is
      cases is
    rw [if_neg other]
    dsimp only at runs
    split_ifs at runs
    · cases runs
      exact Nat.le_succ _
    · cases runs
      rw [List.length_append, List.length_take, List.length_drop]
      omega
    · cases runs
      rw [List.length_append, List.length_take, List.length_drop]
      omega

theorem lines_length {s s' : Ed} {ls : List Str} (runs : ls.foldlM Ed.line s = some s') :
    s'.buffer.length + ls.count dot ≤ s.buffer.length + ls.length := by
  induction ls generalizing s with
  | nil =>
    cases runs
    exact le_rfl
  | cons l ls ih =>
    rw [List.foldlM_cons] at runs
    obtain ⟨s1, first, runs⟩ := Option.bind_eq_some_iff.mp runs
    have := ih runs
    have := line_length first
    rw [List.count_cons, List.length_cons]
    simp only [beq_iff_eq]
    omega

theorem block_length (low : 1 ≤ r.a) (low' : 1 ≤ r.c) {s : Ed} (runs : (block new r).foldlM Ed.line ⟨buffer, none⟩ = some s) :
    s.adding = none ∧ s.buffer.length + (r.b + 1 - r.a) + (Splice.segment new r.c.toNat r.d.toNat).count dot ≤
      buffer.length + (Splice.segment new r.c.toNat r.d.toNat).length := by
  unfold block at runs
  split at runs
  case isTrue nothing =>
    cases runs
    rw [segment_none low' nothing.2]
    refine ⟨rfl, ?_⟩
    dsimp only
    rw [List.count_nil, List.length_nil]
    omega
  case isFalse some_ =>
    rw [List.cons_append, List.foldlM_cons, line_command low] at runs
    obtain ⟨s1, first, runs⟩ := Option.bind_eq_some_iff.mp runs
    rw [List.foldlM_append] at runs
    obtain ⟨s2, second, runs⟩ := Option.bind_eq_some_iff.mp runs
    have added := lines_length second
    have removed : s1.buffer.length + (r.b + 1 - r.a) ≤ buffer.length ∧ (r.c > r.d → s1.adding = none) := by
      split_ifs at first with inside greater none_
      · cases first
        dsimp only
        omega
      · cases first
        refine ⟨?_, fun _ => rfl⟩
        rw [List.length_append, List.length_take, List.length_drop]
        omega
      · cases first
        refine ⟨?_, fun none' => absurd none' none_⟩
        rw [List.length_append, List.length_take, List.length_drop]
        omega
    split at runs
    case isTrue more =>
      -- only where text is being added, the editor accepts the dot
      rw [List.foldlM_cons] at runs
      obtain ⟨s3, third, runs⟩ := Option.bind_eq_some_iff.mp runs
      cases runs
      rw [line_dot] at third
      obtain ⟨_, _, rfl⟩ := Option.map_eq_some_iff.mp third
      exact ⟨rfl, by dsimp only; omega⟩
    case isFalse none_ =>
      cases runs
      rw [segment_none low' (by omega)] at second added ⊢
      cases second
      rw [List.count_nil, List.length_nil] at *
      exact ⟨removed.2 (by omega), by omega⟩

theorem apply_length (text : List Str) (inside : Inside old new r) : text.length + (Splice.segment new r.c.toNat r.d.toNat).length ≤
    (apply new text r).length + (r.b + 1 - r.a) ∧ (r.b ≤ text.length → r.a ≤ (apply new text r).length + 1) := by
  obtain ⟨low, before, _⟩ := inside
  rw [apply, splice, List.length_append, List.length_append, List.length_take, List.length_drop]
  omega

def additions (new : List Str) (calls : List Change) : List Str := calls.flatMap fun r => Splice.segment new r.c.toNat r.d.toNat

theorem script_runs (insides : ∀ r ∈ calls, Inside old new r) (ordered : calls.Pairwise fun r r' => Before r' r)
    (fits : ∀ r ∈ calls, r.b ≤ text.length) (plain : dot ∉ additions new calls) :
    (calls.flatMap (block new)).foldlM Ed.line ⟨text, none⟩ = some ⟨calls.foldl (apply new) text, none⟩ := by
  induction calls generalizing text with
  | nil => rfl
  | cons r calls ih =>
    rw [additions, List.flatMap_cons, List.mem_append, not_or] at plain
    obtain ⟨above, ordered⟩ := List.pairwise_cons.mp ordered
    have inside := insides r List.mem_cons_self
    have fit := fits r List.mem_cons_self
    obtain ⟨low, before, _, low', _⟩ := id inside
    rw [List.flatMap_cons, List.foldlM_append, block_runs low before low' fit plain.1, Option.bind_eq_bind, Option.bind_some, List.foldl_cons]
    apply ih (fun r member => insides r (List.mem_cons_of_mem _ member)) ordered _ plain.2
    intro r' member
    have := (above r' member).1
    have := (apply_length text inside).2 fit
    omega

theorem script_short (insides : ∀ r ∈ calls, Inside old new r) {s : Ed} (text : List Str) (n : Nat) (few : buffer.length + n ≤ text.length)
    (runs : (calls.flatMap (block new)).foldlM Ed.line ⟨buffer, none⟩ = some s) :
    s.buffer.length + n + (additions new calls).count dot ≤ (calls.foldl (apply new) text).length := by
  induction calls generalizing buffer text n with
  | nil =>
    cases runs
    exact few
  | cons r calls ih =>
    have inside := insides r List.mem_cons_self
    rw [List.flatMap_cons, List.foldlM_append] at runs
    obtain ⟨⟨buffer', adding⟩, first, runs⟩ := Option.bind_eq_some_iff.mp runs
    obtain ⟨done, length⟩ := block_length inside.1 inside.2.2.2.1 first
    replace done : adding = none := done
    subst done
    have := (apply_length text inside).1
    dsimp only at length
    have rest := ih (fun r member => insides r (List.mem_cons_of_mem _ member)) (apply new text r)
      (n + (Splice.segment new r.c.toNat r.d.toNat).count dot) (by omega) runs
    unfold additions at rest ⊢
    rw [List.flatMap_cons, List.count_append, List.foldl_cons]
    omega

theorem same_down_at (J : Nat → Int) (i0 : Nat) (i : Nat) (after : same_down J i0 < i) (upto : i ≤ i0) :
    J i = J (i0 + 1) - (i0 + 1 - i : Nat) := by
  induction i0 with
  | zero =>
    unfold same_down at after
    omega
  | succ i0 ih =>
    unfold same_down at after
    split at after
    case isTrue more =>
      have next : J (i0 + 1) = J (i0 + 1 + 1) - 1 := more.1
      rcases Nat.lt_or_eq_of_le upto with less | rfl
      · have := ih after (by omega)
        omega
      · omega
    case isFalse => omega

theorem zeros_down_zero (J : Nat → Int) (i1 i : Nat) (after : zeros_down J i1 ≤ i) (before : i < i1) : J i = 0 := by
  induction i1 with
  | zero => omega
  | succ i1 ih =>
    unfold zeros_down at after
    split at after
    case isTrue more =>
      rcases Nat.lt_or_eq_of_le (Nat.le_of_lt_succ before) with less | rfl
      · exact ih after less
      · exact more.2
    case isFalse => omega

theorem descending_covers (fuel : Nat) (behind : Behind J old new i0 q) (last : i0 = 0 → q = 0)
    (runs : descending fuel J i0 = some calls) (j : Nat) (low : 1 ≤ j) :
    (∃ r ∈ calls, r.c ≤ j ∧ (j : Int) ≤ r.d) ↔ j ≤ q ∧ ∀ i, 1 ≤ i → i ≤ i0 → J i ≠ j := by
  induction fuel generalizing J i0 q calls with
  | zero => exact absurd runs nofun
  | succ fuel ih =>
    unfold descending at runs
    split at runs
    case isFalse beyond =>
      cases runs
      obtain rfl : i0 = 0 := by omega
      obtain rfl := last rfl
      constructor
      · rintro ⟨r, member, _⟩
        exact absurd member List.not_mem_nil
      · rintro ⟨few, _⟩
        omega
    case isTrue inside =>
      obtain ⟨q', there, earlier, count, -⟩ := same_down_done behind
      have run := same_down_at J i0
      have here := behind.here
      generalize same_down J i0 = b at *
      obtain ⟨low', upto, some_⟩ := zeros_down_done J (b + 1) (by omega)
      have zeros := zeros_down_zero J (b + 1)
      dsimp only at runs
      generalize zeros_down J (b + 1) = a at *
      obtain ⟨c, at_, below, end_, more_, rest⟩ := there.skip low' upto some_
      obtain ⟨calls', runs', rfl⟩ := Option.map_eq_some_iff.mp runs
      have covers := ih rest (fun is => end_ (by omega)) runs'
      have here' := there.here
      have kept : ∀ (v : Int) (i : Nat), i ≤ a - 1 → update J a v i = J i := fun v i before => update_of_ne (by omega) ..
      simp only [List.mem_cons, exists_eq_or_imp, covers, at_, here']
      have above : ∀ i, b < i → i ≤ i0 → J i = q' + (i - b : Nat) := by
        intro i after upto
        have := run i after upto
        omega
      have first : ∀ i, 1 ≤ i → i ≤ a - 1 → J i ≠ 0 → J i ≤ c := by
        intro i low high nonzero
        have := rest.below i low high
        rw [kept _ i high] at this
        have := this nonzero
        omega
      constructor
      · intro added
        refine ⟨by omega, fun i first_ last_ => ?_⟩
        rcases Nat.lt_or_ge b i with after | before
        · have := above i after last_
          omega
        · rcases Nat.lt_or_ge i a with inside' | zero
          · rcases added with ⟨more, _⟩ | ⟨_, none_⟩
            · have := first i first_ (by omega)
              omega
            · have := none_ i first_ (by omega)
              rwa [kept _ i (by omega)] at this
          · rw [zeros i zero (by omega)]
            omega
      · rintro ⟨few, none_⟩
        rcases Nat.lt_or_ge q' j with matched_ | rest_
        · have at_j := above (b + (j - q')) (by omega) (by omega)
          exact absurd (by omega) (none_ (b + (j - q')) (by omega) (by omega))
        · rcases Nat.lt_or_ge c j with here | later
          · exact .inl (by omega)
          · refine .inr ⟨by omega, fun i first_ last_ => ?_⟩
            rw [kept _ i last_]
            exact none_ i first_ (by omega)

theorem output_covers (matching : Matching J old new) (runs : output .D_EDIT old.length new.length J = some calls) {j : Nat}
    (low : 1 ≤ j) (high : j ≤ new.length) :
    (∃ r ∈ calls, r.c ≤ j ∧ (j : Int) ≤ r.d) ↔ ∀ i, 1 ≤ i → i ≤ old.length → J i ≠ j := by
  unfold output at runs
  simp only [ne_eq, not_true_eq_false, if_false] at runs
  obtain ⟨calls', runs', rfl⟩ := Option.map_eq_some_iff.mp runs
  by_cases none_ : old.length = 0
  · rw [none_] at runs'
    cases runs'
    rw [if_pos none_, List.nil_append]
    constructor
    · intro _ i first last
      omega
    · intro _
      exact ⟨_, List.mem_singleton_self _, show (1 : Int) ≤ j by omega, show (j : Int) ≤ new.length by omega⟩
  · rw [if_neg none_, List.append_nil, descending_covers _ (matching_behind matching) (fun is => absurd is none_) runs' j low]
    have kept : ∀ i, 1 ≤ i → i ≤ old.length → update (update J 0 0) (old.length + 1) ((new.length : Int) + 1) i = J i := by
      intro i first last
      rw [update_of_ne (by omega), update_of_ne (by omega)]
    constructor
    · rintro ⟨_, unmatched⟩ i first last
      exact kept i first last ▸ unmatched i first last
    · intro unmatched
      refine ⟨high, fun i first last => ?_⟩
      rw [kept i first last]
      exact unmatched i first last

theorem mem_segment {c d : Int} (low : 1 ≤ c) (high : d ≤ new.length) :
    l ∈ Splice.segment new c.toNat d.toNat ↔ ∃ j : Nat, c ≤ j ∧ (j : Int) ≤ d ∧ new[j - 1]? = some l := by
  rw [List.mem_iff_getElem?]
  unfold Splice.segment
  constructor
  · rintro ⟨i, is⟩
    rw [List.getElem?_drop] at is
    have few := (List.getElem?_eq_some_iff.mp is).1
    rw [List.length_take] at few
    rw [List.getElem?_take_of_lt (by omega)] at is
    refine ⟨c.toNat + i, by omega, by omega, ?_⟩
    rw [← is]
    congr 1
    omega
  · rintro ⟨j, after, upto, is⟩
    refine ⟨j - c.toNat, ?_⟩
    rw [List.getElem?_drop, List.getElem?_take_of_lt (by omega), ← is]
    congr 1
    omega

/-- Every line of a single dot in the second file has a match. -/
def DotsMatched (J : Nat → Int) (old new : List Str) : Prop :=
  ∀ j : Nat, 1 ≤ j → new[j - 1]? = some dot → ∃ i, 1 ≤ i ∧ i ≤ old.length ∧ J i = j

theorem additions_plain (matching : Matching J old new) (runs : output .D_EDIT old.length new.length J = some calls)
    (insides : ∀ r ∈ calls, Inside old new r) : dot ∉ additions new calls ↔ DotsMatched J old new := by
  unfold additions
  rw [List.mem_flatMap]
  constructor
  · intro plain j low is
    have few := (List.getElem?_eq_some_iff.mp is).1
    by_contra unmatched
    have unmatched : ∀ i, 1 ≤ i → i ≤ old.length → J i ≠ j := fun i first last at_j => unmatched ⟨i, first, last, at_j⟩
    obtain ⟨r, member, after, upto⟩ := (output_covers matching runs low (by omega)).mpr unmatched
    obtain ⟨_, _, _, low', _, high⟩ := insides r member
    exact plain ⟨r, member, (mem_segment low' high).mpr ⟨j, after, upto, is⟩⟩
  · rintro dots ⟨r, member, line⟩
    obtain ⟨_, _, _, low, _, high⟩ := insides r member
    obtain ⟨j, after, upto, is⟩ := (mem_segment low high).mp line
    obtain ⟨i, first, last, at_j⟩ := dots j (by omega) is
    exact (output_covers matching runs (by omega) (by omega)).mp ⟨r, member, after, upto⟩ i first last at_j

theorem block_lines (are : ∀ l ∈ new, IsLine l) (r : Change) : ∀ l ∈ block new r, IsLine l := by
  intro l member
  unfold block at member
  split at member
  case isTrue => exact absurd member List.not_mem_nil
  case isFalse =>
    rcases List.mem_append.mp member with front | stop
    · rcases List.mem_cons.mp front with rfl | line
      · refine ⟨range r.a r.b (puts ",") ++ letter r, rfl, ?_⟩
        have plain : ∀ c ∈ range r.a r.b (puts ",") ++ letter r, c ≠ newline ∧ c ≠ 0 := by
          intro c member
          have digit : ∀ c, Decimal.numeric c = true → c ≠ newline ∧ c ≠ 0 := by
            rintro c is
            constructor
            · rintro rfl
              exact absurd is (by decide)
            · rintro rfl
              exact absurd is (by decide)
          rw [range_eq, List.mem_append, List.mem_append] at member
          rcases member with (first | second) | command_
          · exact digit c (digits_clean _ c first)
          · split at second
            case isTrue =>
              rcases List.mem_append.mp second with comma | number
              · obtain rfl := List.mem_singleton.mp (show c ∈ [44] from comma)
                decide
              · exact digit c (digits_clean _ c number)
            case isFalse => exact absurd second List.not_mem_nil
          · rcases letter_eq r with eq | eq | eq
            all_goals
              rw [eq] at command_
              obtain rfl := List.mem_singleton.mp command_
              decide
        exact ⟨fun member => (plain _ member).1 rfl, fun member => (plain _ member).2 rfl⟩
      · exact are l (List.mem_of_mem_take (List.mem_of_mem_drop line))
    · split at stop
      case isTrue =>
        rw [List.mem_singleton.mp stop]
        exact ⟨[46], rfl, by decide, by decide⟩
      case isFalse => exact absurd stop List.not_mem_nil

theorem mapM_change (change : Change → Option Str) (f : Change → List Str) (each : ∀ r ∈ calls, change r = some (f r).flatten) :
    ∃ texts, calls.mapM change = some texts ∧ texts.flatten = (calls.flatMap f).flatten := by
  induction calls with
  | nil => exact ⟨[], rfl, rfl⟩
  | cons r calls ih =>
    obtain ⟨texts, runs, same⟩ := ih (fun r member => each r (List.mem_cons_of_mem _ member))
    refine ⟨(f r).flatten :: texts, ?_, ?_⟩
    · rw [List.mapM_cons, each r List.mem_cons_self, runs]
      rfl
    · rw [List.flatten_cons, same, List.flatMap_cons, List.flatten_append]

theorem ed_written {f g : Str} (text : Text f) (text' : Text g) (hashed : ∀ l ∈ lines f, (readhash l).1 ≠ 0)
    (hashed' : ∀ l ∈ lines g, (readhash l).1 ≠ 0) (memory : Memory) (file1 file2 : Str) :
    ∃ script J, written memory .D_EDIT false file1 file2 f g = some script ∧ checked memory f g = some J ∧
      Matching J (lines f) (lines g) ∧
      (ed script (lines f) = some (lines g) ↔ f = g ∨ DotsMatched J (lines f) (lines g)) := by
  have are := lines_are text
  have are' := lines_are text'
  obtain ⟨rows, cols, J, runs, increasing, matching⟩ := unravelled_matching text text' hashed hashed' memory
  have left : checked memory f g = some (check J (lines f).length f g) := by
    rw [checked, runs, Option.map_some, rows]
  unfold written
  by_cases same : f = g
  · subst same
    refine ⟨[], _, if_pos rfl, left, rows ▸ matching, ?_⟩
    exact ⟨fun _ => .inl rfl, fun _ => rfl⟩
  obtain ⟨ixnew, -, J_eq⟩ := index_done are are' increasing memory
  obtain ⟨calls, outputs, result, ordered, insides⟩ := output_done matching .D_EDIT
  rw [flatten_lines, flatten_lines] at ixnew J_eq
  rw [rows] at matching outputs
  obtain ⟨texts, writes, flat⟩ := mapM_change (change .D_EDIT false (index memory J (lines f).length (lines g).length f g).ixold
    (index memory J (lines f).length (lines g).length f g).ixnew f g) (block (lines g)) fun r (member : r ∈ calls) => by
      have writes := change_block are' (index memory J (lines f).length (lines g).length f g).ixold ixnew (insides r member) f
      rwa [flatten_lines] at writes
  refine ⟨texts.flatten, _, ?_, left, matching, ?_⟩
  · rw [if_neg same, isbinary_text text, isbinary_text text', runs]
    simp only [Bool.or_self, Bool.false_eq_true, if_false, Option.bind_eq_bind, Option.bind_some, rows, cols, J_eq, outputs, writes]
  rw [or_iff_right same]
  have script_lines : lines texts.flatten = calls.flatMap (block (lines g)) := by
    rw [flat]
    apply lines_flatten
    intro l member
    obtain ⟨r, _, line⟩ := List.mem_flatMap.mp member
    exact block_lines are' r l line
  rw [← additions_plain matching outputs insides]
  unfold ed
  rw [script_lines]
  constructor
  · intro runs
    obtain ⟨s, script, done⟩ := Option.bind_eq_some_iff.mp runs
    split at done
    case isFalse => exact absurd done nofun
    case isTrue =>
      have short := script_short insides (lines f) 0 le_rfl script
      rw [Option.some.inj done, show calls.foldl (apply (lines g)) (lines f) = lines g from result] at short
      exact List.count_eq_zero.mp (by omega)
  · intro plain
    rw [script_runs insides ordered (fun r member => (insides r member).2.2.1) plain, Option.bind_eq_bind, Option.bind_some, if_pos rfl]
    exact congrArg some result

/-- The script makes the second file of the first one if and only if no line of a dot is to be added. -/
theorem script_replays {f g : Str} (text : Text f) (text' : Text g) (hashed : ∀ l ∈ lines f, (readhash l).1 ≠ 0)
    (hashed' : ∀ l ∈ lines g, (readhash l).1 ≠ 0) (memory : Memory) (file1 file2 : Str) :
    ∃ script J, written memory .D_EDIT false file1 file2 f g = some script ∧ checked memory f g = some J ∧
      (ed script (lines f) = some (lines g) ↔ f = g ∨ DotsMatched J (lines f) (lines g)) := by
  obtain ⟨script, J, writes, left, -, replays⟩ := ed_written text text' hashed hashed' memory file1 file2
  exact ⟨script, J, writes, left, replays⟩

/-- A line is changed, and a line of a dot is kept. -/
theorem script_replays_kept : ∃ script J,
    written ⟨fun _ => 7, fun _ => 7, fun _ => ⟨7, 7, 7⟩⟩ .D_EDIT false (puts "f") (puts "g") (puts ".\na\n") (puts ".\nb\n") = some script ∧
    checked ⟨fun _ => 7, fun _ => 7, fun _ => ⟨7, 7, 7⟩⟩ (puts ".\na\n") (puts ".\nb\n") = some J ∧
    (ed script (lines (puts ".\na\n")) = some (lines (puts ".\nb\n")) ↔
      puts ".\na\n" = puts ".\nb\n" ∨ DotsMatched J (lines (puts ".\na\n")) (lines (puts ".\nb\n"))) := by
  apply script_replays
  · exact ⟨fun last is => (Option.some.inj is).symm, by decide⟩
  · exact ⟨fun last is => (Option.some.inj is).symm, by decide⟩
  · decide
  · decide

/-- A line of a dot that is added ends the text, and the editor does not know what comes behind it. -/
theorem dot_added : ∃ script,
    written ⟨fun _ => 7, fun _ => 7, fun _ => ⟨7, 7, 7⟩⟩ .D_EDIT false (puts "f") (puts "g") (puts "a\n") (puts "a\n.\n") =
      some script ∧ ed script (lines (puts "a\n")) ≠ some (lines (puts "a\n.\n")) := by
  have old_lines : lines (puts "a\n") = [[97, 10]] := rfl
  have new_lines : lines (puts "a\n.\n") = [[97, 10], dot] := rfl
  obtain ⟨script, J, writes, -, matching, replays⟩ := ed_written (f := puts "a\n") (g := puts "a\n.\n")
    ⟨fun last is => (Option.some.inj is).symm, by decide⟩ ⟨fun last is => (Option.some.inj is).symm, by decide⟩ (by decide) (by decide)
    ⟨fun _ => 7, fun _ => 7, fun _ => ⟨7, 7, 7⟩⟩ (puts "f") (puts "g")
  refine ⟨script, writes, fun runs => ?_⟩
  rw [old_lines, new_lines] at replays runs matching
  obtain ⟨i, low, high, at_⟩ := (replays.mp runs).resolve_left (by decide) 2 (by decide) rfl
  obtain rfl : i = 1 := Nat.le_antisymm high low
  have same := matching.same 1 le_rfl le_rfl (by rw [at_]; decide)
  rw [at_] at same
  exact absurd same (by decide)

end Svr4.Proofs.DiffScript
