import Svr4.Diff

/-! `readhash` of diff.c with the options that change what is hashed, and what `prepare` records with it. -/

namespace Svr4.DiffHash
open Diff

/-- The options, and whether `char` is signed on the machine (limits.h). -/
structure Options where
  bflag : Bool
  wflag : Bool
  iflag : Bool
  signed : Bool

def tab : UInt8 := 9
def blank : UInt8 := 32

def isupper (c : UInt8) : Bool := 65 ≤ c && c ≤ 90
def tolower (c : UInt8) : UInt8 := c + 32

def chrtran (options : Options) (c : UInt8) : UInt8 := if options.iflag && isupper c then tolower c else c

def translated (options : Options) (t : UInt8) : UInt32 :=
  if options.signed then (chrtran options t).toInt8.toInt32.toUInt32 else (chrtran options t).toUInt32

/-- The two loops without -b and -w, which add `value` of a character. -/
def sums_all (value : UInt8 → UInt32) (sum shift : UInt32) : Str → UInt32 × Str
  | [] => (if shift ≠ 0 then sum else 0, [])
  | t :: f =>
    if t = newline then (sum, f)
    else sums_all value (sum + value t <<< (shift &&& HALFMASK)) ((shift &&& HALFMASK) + 7) f

def sums_blanks (options : Options) (sum shift : UInt32) (space : Nat) : Str → UInt32 × Str
  | [] => (if shift ≠ 0 then sum else 0, [])
  | t :: f =>
    if t = tab ∨ t = blank then sums_blanks options sum shift (space + 1) f
    else if t = newline then (sum, f)
    else if space ≠ 0 ∧ !options.wflag then
      sums_blanks options (sum + translated options t <<< ((shift + 7) &&& HALFMASK)) (((shift + 7) &&& HALFMASK) + 7) 0 f
    else
      sums_blanks options (sum + translated options t <<< (shift &&& HALFMASK)) ((shift &&& HALFMASK) + 7) space f

def sums (options : Options) (f : Str) : UInt32 × Str :=
  if !options.bflag && !options.wflag then
    if options.iflag then sums_all (translated options) 1 0 f else sums_all UInt8.toUInt32 1 0 f
  else sums_blanks options 1 0 0 f

def readhash (options : Options) (f : Str) : Int × Str := ((sums options f).1.toInt32.toInt, (sums options f).2)

theorem sums_all_shorter (value : UInt8 → UInt32) (sum shift : UInt32) (f : Str) :
    (sums_all value sum shift f).2.length ≤ f.length - 1 := by
  induction f generalizing sum shift with
  | nil => exact le_rfl
  | cons t f ih =>
    unfold sums_all
    split
    · exact le_rfl
    · exact (ih _ _).trans (by simp)

theorem sums_blanks_shorter (options : Options) (sum shift : UInt32) (space : Nat) (f : Str) :
    (sums_blanks options sum shift space f).2.length ≤ f.length - 1 := by
  induction f generalizing sum shift space with
  | nil => exact le_rfl
  | cons t f ih =>
    have later : f.length - 1 ≤ (t :: f).length - 1 := by simp
    unfold sums_blanks
    split_ifs
    · exact (ih _ _ _).trans later
    · exact le_rfl
    · exact (ih _ _ _).trans later
    · exact (ih _ _ _).trans later

theorem sums_shorter (options : Options) (f : Str) : (sums options f).2.length ≤ f.length - 1 := by
  unfold sums
  split_ifs
  · exact sums_all_shorter _ 1 0 f
  · exact sums_all_shorter _ 1 0 f
  · exact sums_blanks_shorter options 1 0 0 f

theorem sums_nil (options : Options) : sums options [] = (0, []) := by
  unfold sums
  split_ifs <;> rfl

theorem readhash_shorter {options : Options} {f : Str} (some_ : (readhash options f).1 ≠ 0) :
    (readhash options f).2.length < f.length := by
  cases f with
  | nil => exact absurd (by rw [readhash, sums_nil]; rfl) some_
  | cons t f => exact Nat.lt_succ_of_le (sums_shorter options (t :: f))

def prepare (options : Options) (f : Str) : List Int :=
  if (readhash options f).1 = 0 then []
  else (readhash options f).1 :: prepare options (readhash options f).2
termination_by f.length
decreasing_by exact readhash_shorter ‹_›

end Svr4.DiffHash
