import Svr4.Library.Shuffle

/-! The sort of qsort.c: `qst` partitions the records down to parts below the threshold, and `qsort`
finishes with an insertion sort that has the smallest record as its sentinel. -/

namespace Svr4.Qsort
open Function

def THRESH : Nat := 4
def MTHRESH : Nat := 6

abbrev Record (qsz : Nat) := Fin qsz → UInt8

def int (x : Int) : Int := x.bmod (2 ^ 32)

variable {qsz : Nat}

def put (m : Nat → Record qsz) (i : Nat) (t : Fin qsz) (c : UInt8) : Nat → Record qsz := update m i (update (m i) t c)

def swap (m : Nat → Record qsz) (i j : Nat) : Nat → Record qsz :=
  (List.finRange qsz).foldl (fun m t => put (put m i t (m j t)) j t (m i t)) m

/-- The loop of `qsort` over a byte of the records from `min` down to `hi`. -/
def shift (hi min : Nat) (m : Nat → Record qsz) (t : Fin qsz) : Nat → Record qsz :=
  put ((List.range' (hi + 1) (min - hi)).reverse.foldl (fun m i => put m i t (m (i - 1) t)) m) hi t (m min t)

def shifts (m : Nat → Record qsz) (hi min : Nat) : Nat → Record qsz := (List.finRange qsz).reverse.foldl (shift hi min) m

section compare
variable (n : Nat) (qcmp : Record qsz → Record qsz → Int)

/-- The comparison of two records. It is `none` where one of them is not in the array. -/
def compare (m : Nat → Record qsz) (i j : Nat) : Option Int := if i < n ∧ j < n then some (qcmp (m i) (m j)) else none

/-- The place of the median of the first, the last and the middle record. -/
def median (m : Nat → Record qsz) (base max i : Nat) : Option Nat := do
  let tmp := max - 1
  let first ← compare n qcmp m base i
  let j := if first > 0 then base else i
  let second ← compare n qcmp m j tmp
  if second > 0 then
    let j := if j = base then i else base
    let third ← compare n qcmp m j tmp
    some (if third < 0 then tmp else j)
  else some j

def up (m : Nat → Record qsz) (mid i : Nat) : Option Nat :=
  if i < mid then (compare n qcmp m i mid).bind fun order => if order ≤ 0 then up m mid (i + 1) else some i else some i
termination_by mid - i

def down (m : Nat → Record qsz) (mid j : Nat) : Option Nat :=
  if j > mid then (compare n qcmp m mid j).bind fun order => if order ≤ 0 then down m mid (j - 1) else some j else some j
termination_by j

/-- The partitioning and swapping of `qst`, that takes a `fuel` of turns: the records, and `mid`. -/
def partition : Nat → (Nat → Record qsz) → Nat → Nat → Nat → Option ((Nat → Record qsz) × Nat)
  | 0, _, _, _, _ => none
  | fuel + 1, m, i, j, mid => do
    let i ← up n qcmp m mid i
    let j ← down n qcmp m mid j
    if j > mid then
      if i = mid then partition fuel (swap m i j) (i + 1) j j
      else partition fuel (swap m i j) (i + 1) (j - 1) mid
    else if i = mid then some (m, mid)
    else partition fuel (swap m i mid) i (j - 1) i

/-- `qst`, with the number of bytes in `lo` and with a `fuel` of turns and calls. -/
def qst (thresh mthresh : Int) : Nat → (Nat → Record qsz) → Nat → Nat → Int → Option (Nat → Record qsz)
  | 0, _, _, _, _ => none
  | fuel + 1, m, base, max, lo => do
    let mid := base + (lo / qsz / 2).toNat
    let m ← (if lo ≥ mthresh then (median n qcmp m base max mid).map fun j => if j ≠ mid then swap m mid j else m else some m)
    let (m, mid) ← partition n qcmp (max - base) m base (max - 1) mid
    let i := mid + 1
    let j := mid
    let lo : Int := (j - base) * qsz
    let hi : Int := (max - i) * qsz
    if lo ≤ hi then
      let m ← (if lo ≥ thresh then qst thresh mthresh fuel m base j lo else some m)
      if hi ≥ thresh then qst thresh mthresh fuel m i max hi else some m
    else
      let m ← (if hi ≥ thresh then qst thresh mthresh fuel m i max hi else some m)
      if lo ≥ thresh then qst thresh mthresh fuel m base j lo else some m

/-- `for (j = lo = base; (lo += qsz) < hi; ) if (qcmp(j, lo) > 0) j = lo` -/
def smallest (m : Nat → Record qsz) (hi j lo : Nat) : Option Nat :=
  if lo + 1 < hi then
    (compare n qcmp m j (lo + 1)).bind fun order => if order > 0 then smallest m hi (lo + 1) (lo + 1) else smallest m hi j (lo + 1)
  else some j
termination_by hi - lo

/-- `while (qcmp(hi -= qsz, min) > 0)`. It is `none` before the first record. -/
def scan (m : Nat → Record qsz) (min : Nat) : Nat → Option Nat
  | 0 => none
  | hi + 1 => (compare n qcmp m hi min).bind fun order => if order > 0 then scan m min hi else some hi

def insert (m : Nat → Record qsz) (min : Nat) : Option (Nat → Record qsz) :=
  (scan n qcmp m min min).map fun hi => if hi + 1 ≠ min then shifts m (hi + 1) min else m

/-- The records from the base of the array on, with places counted in records. As many calls and turns as there are
records are enough. -/
def qsort (m : Nat → Record qsz) : Option (Nat → Record qsz) :=
  if n ≤ 1 then some m
  else do
    let thresh := int (qsz * THRESH)
    let mthresh := int (qsz * MTHRESH)
    let m ← (if n ≥ THRESH then qst n qcmp thresh mthresh n m 0 n (n * qsz) else some m)
    let hi := if n ≥ THRESH then (thresh / qsz).toNat else n
    let j ← smallest n qcmp m hi 0 0
    let m := if j ≠ 0 then swap m 0 j else m
    (List.range' 1 (n - 1)).foldlM (insert n qcmp) m

end compare

end Svr4.Qsort
