import Svr4.Library.Chain
import Svr4.Library.Shuffle

/-! Character lists (io/clist.c): the routines for a character, for a block and for a buffer
of characters, on lists that share the free blocks. -/

namespace Svr4.Clist
open Function Shuffle

def CLSIZE : Nat := 64

/-- The fields of the blocks, of the lists, and the head of the free list. -/
structure State where
  c_next : Nat → Option Nat
  c_first : Nat → Nat
  c_last : Nat → Nat
  c_data : Nat → Nat → UInt8
  c_cc : Nat → Int
  c_cf : Nat → Option Nat
  c_cl : Nat → Option Nat
  cfreelist : Option Nat

def bcopy (l : List UInt8) (m : Nat → UInt8) (a : Nat) : Nat → UInt8 := fun k =>
  if a ≤ k then (l[k - a]?).getD (m k) else m k

def putcf (s : State) (bp : Nat) : State := { s with c_next := update s.c_next bp s.cfreelist, cfreelist := some bp }

def unlink (s : State) (p bp : Nat) : State :=
  { s with
    c_cf := update s.c_cf p (s.c_next bp)
    c_cl := if s.c_next bp = none then update s.c_cl p none else s.c_cl }

/-- Minus one is none, and so is a null pointer that is followed. -/
def getc (s : State) (p : Nat) : Option (Option UInt8 × State) :=
  if s.c_cc p > 0 then
    (s.c_cf p).map fun bp =>
      let c := s.c_data bp (s.c_first bp)
      let s := { s with c_cc := update s.c_cc p (s.c_cc p - 1), c_first := update s.c_first bp (s.c_first bp + 1) }
      (some c, if s.c_first bp = s.c_last bp then putcf (unlink s p bp) bp else s)
  else some (none, s)

def append (s : State) (p bp : Nat) : State :=
  let s := { s with c_next := update s.c_next bp none }
  match s.c_cl p with
  | none => { s with c_cf := update s.c_cf p (some bp), c_cl := update s.c_cl p (some bp) }
  | some obp => { s with c_next := update s.c_next obp (some bp), c_cl := update s.c_cl p (some bp) }

def newblk (s : State) (p : Nat) : Option (Nat × State) :=
  s.cfreelist.map fun bp =>
    (bp, append { s with cfreelist := s.c_next bp, c_first := update s.c_first bp 0, c_last := update s.c_last bp 0 } p bp)

/-- The block that takes the next character; none is a lack of free blocks. -/
def tail (s : State) (p : Nat) : Option (Nat × State) :=
  match s.c_cl p with
  | none => newblk s p
  | some bp => if s.c_last bp = CLSIZE then newblk s p else some (bp, s)

def store (s : State) (bp : Nat) (l : List UInt8) : State :=
  { s with c_data := update s.c_data bp (bcopy l (s.c_data bp) (s.c_last bp)), c_last := update s.c_last bp (s.c_last bp + l.length) }

def count (s : State) (p : Nat) (n : Int) : State := { s with c_cc := update s.c_cc p (s.c_cc p + n) }

def putc (s : State) (c : UInt8) (p : Nat) : Bool × State :=
  match tail s p with
  | none => (false, s)
  | some (bp, s) => (true, count (store s bp [c]) p 1)

def getcf (s : State) : Option Nat × State :=
  match s.cfreelist with
  | none => (none, s)
  | some bp =>
    (some bp, { s with
      cfreelist := s.c_next bp
      c_next := update s.c_next bp none
      c_first := update s.c_first bp 0
      c_last := update s.c_last bp CLSIZE })

def getcb (s : State) (p : Nat) : Option Nat × State :=
  match s.c_cf p with
  | none => (none, s)
  | some bp => (some bp, unlink (count s p (-((s.c_last bp : Int) - s.c_first bp))) p bp)

def putcb (s : State) (bp p : Nat) : State := count (append s p bp) p ((s.c_last bp : Int) - s.c_first bp)

/-- The characters that are copied; a loop that has not ended in time is none. -/
def getcbp_loop : Nat → State → Nat → Nat → Option (List UInt8 × State)
  | 0, _, _, _ => none
  | time + 1, s, p, n =>
    if n = 0 then some ([], s)
    else
      match s.c_cf p with
      | none => some ([], s)
      | some bp =>
        if n ≥ s.c_last bp - s.c_first bp then
          (getcbp_loop time (putcf (unlink s p bp) bp) p (n - (s.c_last bp - s.c_first bp))).map fun r =>
            (slice (s.c_data bp) (s.c_first bp) (s.c_last bp) ++ r.1, r.2)
        else some (slice (s.c_data bp) (s.c_first bp) (s.c_first bp + n), { s with c_first := update s.c_first bp (s.c_first bp + n) })

def getcbp (time : Nat) (s : State) (p n : Nat) : Option (List UInt8 × State) :=
  (getcbp_loop time s p n).map fun r => (r.1, count r.2 p (-(r.1.length : Int)))

def putcbp_loop : Nat → State → Nat → List UInt8 → Option (Nat × State)
  | 0, _, _, _ => none
  | time + 1, s, p, cp =>
    if cp = [] then some (0, s)
    else
      match tail s p with
      | none => some (0, s)
      | some (bp, s) =>
        if cp.length ≥ CLSIZE - s.c_last bp then
          (putcbp_loop time (store s bp (cp.take (CLSIZE - s.c_last bp))) p (cp.drop (CLSIZE - s.c_last bp))).map fun r =>
            (CLSIZE - s.c_last bp + r.1, r.2)
        else some (cp.length, store s bp cp)

def putcbp (time : Nat) (s : State) (p : Nat) (cp : List UInt8) : Option (Nat × State) :=
  (putcbp_loop time s p cp).map fun r => (r.1, count r.2 p r.1)

def fill (s : State) (bp first last : Nat) (data : Nat → UInt8) : State :=
  { s with c_first := update s.c_first bp first, c_last := update s.c_last bp last, c_data := update s.c_data bp data }

end Svr4.Clist
