import Svr4.DiffHash
import Svr4.Proofs.DiffCheck

/-! When `prepare` records every line: the hash of a line as one sum over its characters, and the
lines for which it is 0 modulo 2^32. -/

namespace Svr4.Proofs.DiffHashed
open Diff (Str newline HALFMASK)
open DiffHash DiffCheck

def charValue (options : Options) (t : UInt8) : Int :=
  if !options.bflag && !options.wflag && !options.iflag then t.toNat
  else if options.signed then (chrtran options t).toInt8.toInt else (chrtran options t).toNat

def skips (options : Options) (t : UInt8) : Bool := (options.bflag || options.wflag) && (t = tab || t = blank)

/-- The values of the places of a line. With -b alone, blanks before a character take one place. -/
def places (options : Options) (gap : Bool) : Str → List Int
  | [] => []
  | t :: l =>
    if skips options t then places options (!options.wflag) l
    else if t = newline then []
    else (if gap then [0] else []) ++ charValue options t :: places options false l

/-- Each place is moved 7 bits on from the one before, round a halfword. -/
def weight (k : Nat) : Int := 2 ^ (7 * k % 16)

def weighed (k : Nat) (values : List Int) : Int := ∑ i ∈ Finset.range values.length, values.getD i 0 * weight (k + i)

/-- The hash is not a multiple of 2^32, and a last line without its newline has a character that counts. -/
def Hashed (options : Options) (l : Str) : Prop :=
  ¬(2 ^ 32 : Int) ∣ 1 + weighed 0 (places options false l) ∧ (newline ∈ l ∨ places options false l ≠ [])

variable {options : Options} {value : UInt8 → UInt32} {sum shift : UInt32} {total : Int} {k : Nat} {f body : Str}

theorem weighed_nil : weighed k [] = 0 := by simp [weighed]

theorem weighed_cons (v : Int) (values : List Int) : weighed k (v :: values) = v * weight k + weighed (k + 1) values := by
  simp only [weighed, List.length_cons, Finset.sum_range_succ', List.getD_cons_succ, List.getD_cons_zero]
  rw [add_comm, Nat.add_zero]
  congr 1
  refine Finset.sum_congr rfl fun i _ => ?_
  rw [Nat.add_assoc, Nat.add_comm 1 i]

structure Turned (sum shift : UInt32) (total : Int) (k : Nat) : Prop where
  agrees : (sum.toNat : Int) ≡ total [ZMOD 2 ^ 32]
  turned : shift.toNat % 16 = 7 * k % 16
  small : shift.toNat < 23
  start : shift = 0 ↔ k = 0

theorem Turned.first : Turned 1 0 1 0 := ⟨rfl, rfl, by decide, by simp⟩

theorem masked : (shift &&& HALFMASK).toNat = shift.toNat % 16 := by
  rw [UInt32.toNat_and]
  exact Nat.and_two_pow_sub_one_eq_mod shift.toNat 4

theorem seven_more (small : shift.toNat < 23) : (shift + 7).toNat = shift.toNat + 7 := by
  rw [UInt32.toNat_add, show (7 : UInt32).toNat = 7 from rfl]
  omega

theorem Turned.added {x : UInt32} {v : Int} (agrees : (sum.toNat : Int) ≡ total [ZMOD 2 ^ 32])
    (turned : shift.toNat % 16 = 7 * k % 16) (holds : (x.toNat : Int) ≡ v [ZMOD 2 ^ 32]) :
    Turned (sum + x <<< (shift &&& HALFMASK)) ((shift &&& HALFMASK) + 7) (total + v * weight k) (k + 1) := by
  have moved : ((shift &&& HALFMASK) + 7).toNat = shift.toNat % 16 + 7 := by
    rw [seven_more (by rw [masked]; omega), masked]
  refine ⟨?_, by omega, by omega, ?_⟩
  · have shifted : ((x.toNat : Int) * 2 ^ (shift.toNat % 16)) ≡ v * weight k [ZMOD 2 ^ 32] := by
      rw [turned]
      exact holds.mul_right _
    rw [UInt32.toNat_add, UInt32.toNat_shiftLeft, Nat.shiftLeft_eq, @Nat.mod_eq_of_lt _ 32 (by rw [masked]; omega), masked]
    push_cast
    exact (Int.mod_modEq _ _).trans (agrees.add ((Int.mod_modEq _ _).trans shifted))
  · rw [← UInt32.toNat_inj, moved]
    simp

theorem translated_value (t : UInt8) :
    ((translated options t).toNat : Int) ≡ if options.signed then (chrtran options t).toInt8.toInt else (chrtran options t).toNat
      [ZMOD 2 ^ 32] := by
  unfold translated
  generalize chrtran options t = c
  split
  · revert c
    decide +kernel
  · simp

structure Reached (options : Options) (gap : Bool) (body : Str) (total : Int) (k : Nat) (sum shift : UInt32) : Prop where
  agrees : (sum.toNat : Int) ≡ total + weighed k (places options gap body) [ZMOD 2 ^ 32]
  start : shift = 0 ↔ k = 0 ∧ places options gap body = []

theorem Reached.added {t : UInt8} {gap : Bool} (pass : skips options t = false) (inside : t ≠ newline)
    (reached : Reached options false body (total + charValue options t * weight (if gap then k + 1 else k))
      (if gap then k + 2 else k + 1) sum shift) :
    Reached options gap (t :: body) total k sum shift := by
  obtain ⟨agrees, start⟩ := reached
  cases gap with
  | false =>
    have eq : places options false (t :: body) = charValue options t :: places options false body := by
      simp [places, pass, inside]
    refine ⟨?_, by simpa [eq] using start⟩
    rw [eq, weighed_cons, ← add_assoc]
    exact agrees
  | true =>
    have eq : places options true (t :: body) = 0 :: charValue options t :: places options false body := by
      simp [places, pass, inside]
    refine ⟨?_, by simpa [eq] using start⟩
    rw [eq, weighed_cons, weighed_cons, zero_mul, zero_add, ← add_assoc]
    exact agrees

theorem all_body (exact_ : options.bflag = false ∧ options.wflag = false) (holds : ∀ t, ((value t).toNat : Int) ≡ charValue options t [ZMOD 2 ^ 32])
    (line : newline ∉ body) (turned : Turned sum shift total k) :
    ∃ sum' shift', (∀ rest, sums_all value sum shift (body ++ rest) = sums_all value sum' shift' rest) ∧
      Reached options false body total k sum' shift' := by
  induction body generalizing sum shift total k with
  | nil => exact ⟨sum, shift, fun _ => rfl, by simpa [places, weighed_nil] using turned.agrees, by simpa [places] using turned.start⟩
  | cons t body ih =>
    obtain ⟨inside, line⟩ := not_or.mp (mt List.mem_cons.mpr line)
    obtain ⟨sum', shift', eq, reached⟩ := ih line (Turned.added turned.agrees turned.turned (holds t))
    refine ⟨sum', shift', fun rest => ?_, Reached.added (by simp [skips, exact_]) (Ne.symm inside) (by simpa using reached)⟩
    rw [List.cons_append, sums_all, if_neg (Ne.symm inside), eq]

theorem blanks_body (loose : (options.bflag || options.wflag) = true) (line : newline ∉ body)
    (turned : Turned sum shift total k) {space : Nat} :
    ∃ sum' shift' space', (∀ rest, sums_blanks options sum shift space (body ++ rest) = sums_blanks options sum' shift' space' rest) ∧
      Reached options (decide (space ≠ 0) && !options.wflag) body total k sum' shift' := by
  induction body generalizing sum shift total k space with
  | nil => exact ⟨sum, shift, space, fun _ => rfl, by simpa [places, weighed_nil] using turned.agrees, by simpa [places] using turned.start⟩
  | cons t body ih =>
    obtain ⟨inside, line⟩ := not_or.mp (mt List.mem_cons.mpr line)
    have holds : ((translated options t).toNat : Int) ≡ charValue options t [ZMOD 2 ^ 32] := by
      have := @translated_value options t
      have other : (!options.bflag && !options.wflag) = false := by
        rw [← Bool.not_or, loose]
        rfl
      simpa [charValue, other] using this
    by_cases pass : t = tab ∨ t = blank
    · obtain ⟨sum', shift', space', eq, agrees, start⟩ := @ih _ _ _ _ line turned (space + 1)
      have placed : places options (decide (space ≠ 0) && !options.wflag) (t :: body) =
          places options (decide (space + 1 ≠ 0) && !options.wflag) body := by
        simp [places, skips, loose, pass]
      refine ⟨sum', shift', space', fun rest => ?_, placed ▸ agrees, placed ▸ start⟩
      rw [List.cons_append, sums_blanks, if_pos pass, eq]
    · have kept : skips options t = false := by simpa [skips, loose] using pass
      by_cases gap : space ≠ 0 ∧ !options.wflag
      · have gap' : (decide (space ≠ 0) && !options.wflag) = true := by simpa using gap
        have moved : (shift + 7).toNat % 16 = 7 * (k + 1) % 16 := by
          have := turned.turned
          rw [seven_more turned.small]
          omega
        obtain ⟨sum', shift', space', eq, reached⟩ := @ih _ _ _ _ line (Turned.added turned.agrees moved holds) 0
        refine ⟨sum', shift', space', fun rest => ?_, gap' ▸ Reached.added kept (Ne.symm inside) (by simpa using reached)⟩
        rw [List.cons_append, sums_blanks, if_neg pass, if_neg (Ne.symm inside), if_pos gap, eq]
      · have gap' : (decide (space ≠ 0) && !options.wflag) = false := by
          rw [Bool.eq_false_iff]
          simpa using gap
        obtain ⟨sum', shift', space', eq, reached⟩ := @ih _ _ _ _ line (Turned.added turned.agrees turned.turned holds) space
        rw [gap'] at reached
        refine ⟨sum', shift', space', fun rest => ?_, gap' ▸ Reached.added kept (Ne.symm inside) (by simpa using reached)⟩
        rw [List.cons_append, sums_blanks, if_neg pass, if_neg (Ne.symm inside), if_neg gap, eq]

theorem sums_body (options : Options) (line : newline ∉ body) :
    ∃ sum shift, Reached options false body 1 0 sum shift ∧ (∀ f, sums options (body ++ newline :: f) = (sum, f)) ∧
      sums options body = (if shift ≠ 0 then sum else 0, []) := by
  by_cases exact_ : (!options.bflag && !options.wflag) = true
  · have flags : options.bflag = false ∧ options.wflag = false := by simpa using exact_
    obtain ⟨value, holds, runs⟩ : ∃ value : UInt8 → UInt32, (∀ t, ((value t).toNat : Int) ≡ charValue options t [ZMOD 2 ^ 32]) ∧
        ∀ f, sums options f = sums_all value 1 0 f := by
      cases folds : options.iflag with
      | true => exact ⟨translated options, fun t => by simpa [charValue, folds] using translated_value t, fun f => by simp [sums, flags, folds]⟩
      | false => exact ⟨UInt8.toUInt32, fun t => by simp [charValue, flags, folds], fun f => by simp [sums, flags, folds]⟩
    obtain ⟨sum, shift, eq, reached⟩ := all_body flags holds line Turned.first
    refine ⟨sum, shift, reached, fun f => ?_, ?_⟩
    · rw [runs, eq, sums_all, if_pos rfl]
    · have whole := eq []
      rw [List.append_nil] at whole
      rw [runs, whole, sums_all]
  · have loose : (options.bflag || options.wflag) = true := by
      rw [← Bool.not_or, Bool.not_eq_true, Bool.not_eq_false'] at exact_
      exact exact_
    have runs : ∀ f, sums options f = sums_blanks options 1 0 0 f := fun f => by rw [sums, if_neg exact_]
    obtain ⟨sum, shift, space, eq, reached⟩ := @blanks_body options 1 0 1 0 body loose line Turned.first 0
    refine ⟨sum, shift, by simpa using reached, fun f => ?_, ?_⟩
    · rw [runs, eq, sums_blanks, if_neg (by decide), if_pos rfl]
    · have whole := eq []
      rw [List.append_nil] at whole
      rw [runs, whole, sums_blanks]

theorem lines_split (some_ : f ≠ []) :
    (∃ body g, newline ∉ body ∧ f = body ++ newline :: g ∧ lines f = (body ++ [newline]) :: lines g) ∨ newline ∉ f ∧ lines f = [f] := by
  induction f with
  | nil => exact absurd rfl some_
  | cons t f ih =>
    by_cases ends : t = newline
    · exact .inl ⟨[], f, List.not_mem_nil, by rw [ends]; rfl, by rw [lines, if_pos ends, ends]; rfl⟩
    cases f with
    | nil => exact .inr ⟨by simpa using Ne.symm ends, by rw [lines, if_neg ends]; rfl⟩
    | cons u f =>
      rcases ih (by simp) with ⟨body, g, line, eq, rows⟩ | ⟨line, rows⟩
      · exact .inl ⟨t :: body, g, by simp [line, Ne.symm ends], by rw [eq]; rfl, by rw [lines, if_neg ends, rows]; rfl⟩
      · exact .inr ⟨by simpa [Ne.symm ends] using line, by rw [lines, if_neg ends, rows]; rfl⟩

theorem places_newline (line : newline ∉ body) (gap : Bool) : places options gap (body ++ [newline]) = places options gap body := by
  have counts : skips options newline = false := by simp [skips, newline, tab, blank]
  induction body generalizing gap with
  | nil => simp [places, counts]
  | cons t body ih =>
    obtain ⟨_, line⟩ := not_or.mp (mt List.mem_cons.mpr line)
    rw [List.cons_append, places, places, ih line, ih line]

theorem Reached.nonzero (reached : Reached options false body 1 0 sum shift) :
    sum ≠ 0 ↔ ¬(2 ^ 32 : Int) ∣ 1 + weighed 0 (places options false body) := by
  refine not_congr ?_
  rw [← Int.modEq_zero_iff_dvd, ← UInt32.toNat_inj]
  have small := sum.toNat_lt
  constructor
  · intro zero
    have agrees := reached.agrees
    rw [zero] at agrees
    exact agrees.symm
  · intro zero
    have same : sum.toNat ≡ 0 [ZMOD 2 ^ 32] := reached.agrees.trans zero
    have zero' := Int.modEq_zero_iff_dvd.mp same
    rw [show (0 : UInt32).toNat = 0 from rfl]
    omega

theorem value_zero (x : UInt32) : x.toInt32.toInt = 0 ↔ x = 0 := by
  rw [← Int32.toInt_zero, Int32.toInt_inj]
  constructor
  · intro zero
    exact congrArg Int32.toUInt32 zero
  · rintro rfl
    rfl

theorem first_line (options : Options) (some_ : f ≠ []) :
    ∃ l g, lines f = l :: lines g ∧ (readhash options f).2 = g ∧ g.length < f.length ∧
      ((readhash options f).1 ≠ 0 ↔ Hashed options l) := by
  rcases lines_split some_ with ⟨body, g, line, rfl, rows⟩ | ⟨line, rows⟩
  · obtain ⟨sum, shift, reached, runs, _⟩ := sums_body options line
    refine ⟨_, g, rows, by rw [readhash, runs], by simp; omega, ?_⟩
    rw [readhash, runs, Hashed, places_newline line, ne_eq, value_zero, ← ne_eq, reached.nonzero]
    simp
  · obtain ⟨sum, shift, reached, _, runs⟩ := sums_body options line
    refine ⟨_, [], rows, by rw [readhash, runs], List.length_pos_of_ne_nil some_, ?_⟩
    rw [readhash, runs, Hashed, ne_eq, value_zero]
    by_cases begun : shift = 0
    · have none_ := (reached.start.mp begun).2
      simp [begun, none_, line]
    · have placed : places options false f ≠ [] := fun none_ => begun (reached.start.mpr ⟨rfl, none_⟩)
      rw [if_pos begun, ← ne_eq, reached.nonzero]
      simp [placed]

theorem prepare_length (options : Options) (f : Str) :
    (prepare options f).length = (lines f).length ↔ ∀ l ∈ lines f, Hashed options l := by
  induction shorter : f.length using Nat.strong_induction_on generalizing f with
  | _ n ih =>
    unfold prepare
    rcases eq_or_ne f [] with rfl | some_
    · simp [readhash, sums_nil, lines]
    obtain ⟨l, g, rows, rest, less, nonzero⟩ := first_line options some_
    rw [rows, List.forall_mem_cons, ← nonzero, rest]
    by_cases stops : (readhash options f).1 = 0
    · simp [stops]
    · rw [if_neg stops, List.length_cons, List.length_cons, Nat.succ_inj, ih g.length (shorter ▸ less) g rfl]
      simp [stops]

theorem lines_drop (f : Str) (k : Nat) : lines ((lines f).drop k).flatten = (lines f).drop k := by
  induction k generalizing f with
  | zero => rw [List.drop_zero, flatten_lines]
  | succ k ih =>
    rcases eq_or_ne f [] with rfl | some_
    · rfl
    obtain ⟨l, g, rows, _⟩ := first_line ⟨false, false, false, false⟩ some_
    rw [rows, List.drop_succ_cons]
    exact ih g

theorem readhash_row (options : Options) (f : Str) {k : Nat} (inside : k < (lines f).length) :
    (readhash options ((lines f).drop k).flatten).1 ≠ 0 ↔ Hashed options (lines f)[k] := by
  have rows := lines_drop f k
  have head := List.drop_eq_getElem_cons inside
  have some_ : ((lines f).drop k).flatten ≠ [] := by
    intro none_
    rw [none_, head] at rows
    cases rows
  obtain ⟨l, g, split, _, _, nonzero⟩ := first_line options some_
  rw [rows, head] at split
  rw [nonzero, (List.cons.inj split).1]

/-- Every line has a hash that is not 0, and `prepare` records as many lines as there are, if and only if the
sum of each line, with 1, is not a multiple of 2^32, and a last line without a newline has a character that counts. -/
theorem prepare_records (options : Options) (f : Str) :
    (∀ k < (lines f).length, (readhash options ((lines f).drop k).flatten).1 ≠ 0) ∧ (prepare options f).length = (lines f).length ↔
      ∀ l ∈ lines f, Hashed options l := by
  rw [prepare_length]
  refine and_iff_right_of_imp fun hashed k inside => ?_
  exact (readhash_row options f inside).mpr (hashed _ (List.getElem_mem inside))

/-- 521 times 16 characters, whose codes have the sum 65537. -/
def unread : Str := List.replicate (16 * 519) 126 ++ List.replicate 16 71 ++ List.replicate 16 72

theorem weight_period (k : Nat) : weight (k + 16) = weight k := by
  unfold weight
  congr 1
  omega

theorem weighed_period (values : List Int) (k : Nat) : weighed (k + 16) values = weighed k values := by
  unfold weighed
  refine Finset.sum_congr rfl fun i _ => ?_
  rw [show k + 16 + i = k + i + 16 by omega, weight_period]

theorem weighed_sixteen (v : Int) (values : List Int) : weighed 0 (List.replicate 16 v ++ values) = 65535 * v + weighed 0 values := by
  have turned := weighed_period values 0
  simp only [List.replicate, List.cons_append, List.nil_append, weighed_cons, turned]
  simp only [weight]
  norm_num
  ring

theorem weighed_replicate (n : Nat) (v : Int) (values : List Int) :
    weighed 0 (List.replicate (16 * n) v ++ values) = 65535 * v * n + weighed 0 values := by
  induction n with
  | zero => simp
  | succ n ih =>
    rw [show 16 * (n + 1) = 16 + 16 * n by omega, List.replicate_add, List.append_assoc, weighed_sixteen, ih]
    push_cast
    ring

theorem places_plain (line : newline ∉ body) (signed : Bool) :
    places ⟨false, false, false, signed⟩ false body = body.map fun t => (t.toNat : Int) := by
  induction body with
  | nil => rfl
  | cons t body ih =>
    obtain ⟨inside, line⟩ := not_or.mp (mt List.mem_cons.mpr line)
    simp [places, skips, charValue, Ne.symm inside, ih line]

theorem lines_line (line : newline ∉ body) : lines (body ++ [newline]) = [body ++ [newline]] := by
  induction body with
  | nil => rfl
  | cons t body ih =>
    obtain ⟨inside, line⟩ := not_or.mp (mt List.mem_cons.mpr line)
    rw [List.cons_append, lines, if_neg (Ne.symm inside), ih line]
    rfl

theorem mem_unread {t : UInt8} (member : t ∈ unread) : t = 126 ∨ t = 71 ∨ t = 72 := by
  rcases List.mem_append.mp member with member | member
  · rcases List.mem_append.mp member with member | member
    · exact .inl (List.eq_of_mem_replicate member)
    · exact .inr (.inl (List.eq_of_mem_replicate member))
  · exact .inr (.inr (List.eq_of_mem_replicate member))

theorem unread_line : newline ∉ unread := fun member => absurd (mem_unread member) (by decide)

/-- A file of one line, of which nothing is recorded. -/
theorem prepare_unread : 0 ∉ unread ++ [newline] ∧ lines (unread ++ [newline]) = [unread ++ [newline]] ∧
    (readhash ⟨false, false, false, false⟩ (unread ++ [newline])).1 = 0 ∧ prepare ⟨false, false, false, false⟩ (unread ++ [newline]) = [] := by
  obtain ⟨sum, shift, reached, runs, _⟩ := sums_body ⟨false, false, false, false⟩ unread_line
  have placed := places_plain unread_line false
  have whole : 1 + weighed 0 (places ⟨false, false, false, false⟩ false unread) = 2 ^ 32 := by
    rw [placed, unread, List.map_append, List.map_append, List.map_replicate, List.map_replicate, List.map_replicate,
      List.append_assoc, weighed_replicate, weighed_sixteen, ← List.append_nil (List.replicate 16 _), weighed_sixteen, weighed_nil]
    decide
  have zero : sum = 0 := by
    by_contra some_
    exact reached.nonzero.mp some_ (by rw [whole])
  have hash : (readhash ⟨false, false, false, false⟩ (unread ++ [newline])).1 = 0 := by
    rw [readhash, runs, zero]
    rfl
  refine ⟨?_, lines_line unread_line, hash, ?_⟩
  · rw [List.mem_append, not_or]
    exact ⟨fun member => absurd (mem_unread member) (by decide), by decide⟩
  · rw [prepare, if_pos hash]

end Svr4.Proofs.DiffHashed
