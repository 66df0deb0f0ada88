import Mathlib

/-! Numbers of dc (cmd/dc): digits to the base 100, the lowest first, in buffers with a place to
read and write at. A negative number has the digit -1 at its end. -/

namespace Svr4.Dc

/-- A value that does not fit in a `char`, a loop that does not end in its time, or a machine division by zero. -/
inductive Fault
  | char
  | time
  | division
  deriving DecidableEq

/-- The bytes from `beg` to `wt`, and how far `rd` is from `beg`. -/
structure blk where
  data : List Int
  rd : Nat
  deriving DecidableEq

def EOF : Int := -1

def rewind (p : blk) : blk := { p with rd := 0 }
def fsfile (p : blk) : blk := { p with rd := p.data.length }
def truncate (p : blk) : blk := { p with data := p.data.take p.rd }
def sfeof (p : blk) : Bool := p.rd = p.data.length
def sfbeg (p : blk) : Bool := p.rd = 0

/-- A byte of the buffer; those behind `wt` are zero where they are looked at. -/
def byte (p : blk) (i : Nat) : Int := p.data.getD i 0

def slookc (p : blk) : Int := if sfeof p then EOF else byte p p.rd
def sgetc (p : blk) : Int × blk := if sfeof p then (EOF, p) else (byte p p.rd, { p with rd := p.rd + 1 })
def sbackc (p : blk) : Int × blk := if sfbeg p then (EOF, p) else (byte p (p.rd - 1), { p with rd := p.rd - 1 })

def char (c : Int) : Except Fault Int := if -128 ≤ c ∧ c ≤ 127 then .ok c else .error .char

def sputc (p : blk) (c : Int) : Except Fault blk := do
  let c ← char c
  .ok { p with data := p.data ++ [c] }

def salterc (p : blk) (c : Int) : Except Fault blk := do
  let c ← char c
  .ok ⟨if p.rd < p.data.length then p.data.set p.rd c else p.data ++ List.replicate (p.rd - p.data.length) 0 ++ [c], p.rd + 1⟩

def salloc : blk := ⟨[], 0⟩
def copy (p : blk) : blk := rewind p

def chsign_loop : Nat → blk → Int → Except Fault (blk × Int)
  | 0, _, _ => .error .time
  | time + 1, p, carry =>
    if sfeof p then .ok (p, carry)
    else do
      let ct ← char (100 - slookc p - carry)
      let p ← salterc p (if ct ≥ 100 then ct - 100 else ct)
      chsign_loop time p (if ct ≥ 100 then 0 else 1)

def chsign (p : blk) : Except Fault blk := do
  let negated ← chsign_loop (p.data.length + 1) (rewind p) 0
  if negated.2 ≠ 0 then
    let p ← sputc negated.1 (-1)
    let back := sbackc (sbackc (fsfile p)).2
    if back.1 = 99 then sputc (truncate back.2) (-1) else .ok back.2
  else
    let back := sbackc (fsfile negated.1)
    .ok (if back.1 = 0 then truncate back.2 else back.2)

def next (p : blk) : Int × blk := if sfeof p then (0, p) else sgetc p

def add_digit (n : Int) : Int × Int := if n ≥ 100 then (n - 100, 1) else if n < 0 then (n + 100, -1) else (n, 0)

def add_loop : Nat → blk → blk → Int → blk → Except Fault (blk × blk × Int × blk)
  | 0, a1, a2, carry, p => .ok (a1, a2, carry, p)
  | size + 1, a1, a2, carry, p => do
    let n := add_digit ((next a1).1 + (next a2).1 + carry)
    let p ← sputc p n.1
    add_loop size (next a1).2 (next a2).2 n.2 p

/-- `while(sfbeg(p) == 0 && (c = sbackc(p)) == 0);`, at most `rd` times. -/
def back_zeros : Nat → Int → blk → Int × blk
  | 0, c, p => (c, p)
  | time + 1, c, p =>
    if sfbeg p then (c, p)
    else if (sbackc p).1 = 0 then back_zeros time 0 (sbackc p).2 else sbackc p

def back_nines : Nat → blk → Except Fault blk
  | 0, _ => .error .time
  | time + 1, p => if (sbackc p).1 = 99 then back_nines time (sbackc p).2 else .ok (sbackc p).2

def drop_zeros (p : blk) : Except Fault blk :=
  if sfbeg p then .ok p
  else do
    let found := back_zeros p.rd 0 p
    let p ← (if found.1 ≠ 0 then salterc found.2 found.1 else .ok found.2)
    .ok (truncate p)

def drop_nines (p : blk) : Except Fault blk :=
  if ¬sfbeg p ∧ (sbackc p).1 = -1 then do
    let p ← back_nines (p.data.length + 1) (sbackc p).2
    let p ← salterc (sgetc p).2 (-1)
    .ok (truncate p)
  else .ok (if sfbeg p then p else (sbackc p).2)

def add (a1 a2 : blk) : Except Fault (blk × blk × blk) := do
  let summed ← add_loop (max a1.data.length a2.data.length) (rewind a1) (rewind a2) 0 salloc
  let p ← (if summed.2.2.1 ≠ 0 then sputc summed.2.2.2 summed.2.2.1 else .ok summed.2.2.2)
  let p ← drop_zeros (fsfile p)
  let p ← drop_nines (fsfile p)
  .ok (summed.1, summed.2.1, p)

/-- Whether the number is negative, with the reading place behind the test. -/
def negative (p : blk) : Bool × blk :=
  let p := fsfile p
  if sfbeg p then (false, p) else ((sbackc p).1 < 0, (sbackc p).2)

def mult_digits : Nat → Int → blk → blk → Int → Except Fault (blk × blk × Int)
  | 0, _, _, _, _ => .error .time
  | time + 1, cq, mp, mr, carry =>
    if sfeof mp then .ok (mp, mr, carry)
    else do
      let mt := (sgetc mp).1 * cq + carry + (if sfeof mr then 0 else slookc mr)
      let mr ← salterc mr (mt.tmod 100)
      mult_digits time cq (sgetc mp).2 mr (mt.tdiv 100)

def mult_loop : Nat → Nat → blk → blk → blk → Except Fault (blk × blk × blk)
  | 0, _, _, _, _ => .error .time
  | time + 1, offset, mp, mq, mr =>
    if sfeof mq then .ok (mp, mq, mr)
    else do
      let row ← mult_digits (mp.data.length + 1) (sgetc mq).1 (rewind mp) { mr with rd := offset } 0
      let mr ← (if row.2.2 ≠ 0 then salterc row.2.1 ((if sfeof row.2.1 then 0 else slookc row.2.1) + row.2.2) else .ok row.2.1)
      mult_loop time (offset + 1) row.1 (sgetc mq).2 mr

def mult (p q : blk) : Except Fault (blk × blk × blk) := do
  let np := negative p
  let mp ← (if np.1 then chsign (copy np.2) else .ok np.2)
  let nq := negative q
  let mq ← (if nq.1 then chsign (copy nq.2) else .ok nq.2)
  let product ← mult_loop (mq.data.length + 1) 0 mp (rewind mq) salloc
  let mr ← (if np.1 ≠ nq.1 then chsign product.2.2 else .ok product.2.2)
  .ok (if np.1 then np.2 else product.1, if nq.1 then nq.2 else product.2.1, mr)

end Svr4.Dc
