import Mathlib

/-! The code for hash differences of spell (cmd/spell/huff.c). The width for the expected difference is
computed in floating point; what follows from it is here. -/

namespace Svr4.Huff

def BYTE : Nat := 8
def sizeof_long : Nat := 4

def QW : Nat := 1

def q : Int := 2 ^ QW

def L : Nat := BYTE * sizeof_long - 1

def long (x : Int) : Int := x.bmod (2 ^ (BYTE * sizeof_long))

structure huffcode where
  n : Int
  w : Nat
  c : Int
  cq : Int
  cs : Int
  qcs : Int
  v0 : Int
  deriving DecidableEq

def digit_gone (y : Int) : Int := y * q % 2 ^ L

def decode_loop (h : huffcode) (y : Int) (l : Nat) (v : Int) : Nat × Option Int :=
  if y ≥ h.qcs then
    if l + QW > L then (0, none) else decode_loop h (digit_gone y) (l + QW) (long (v + h.n))
  else (l, some (long (v + y / 2 ^ (L - h.w))))
termination_by L - l
decreasing_by simp only [QW] at *; omega

/-- The length of the code and the message, which is not stored when the code is out of range. -/
def decode (h : huffcode) (y : Int) : Nat × Option Int :=
  if y < h.cs then (h.w - QW, some (y / 2 ^ (L + QW - h.w))) else decode_loop h y h.w h.v0

def encode_loop (h : huffcode) (k y : Int) (l : Nat) : Nat × Option Int :=
  if k ≥ h.n then
    if l + QW > L then (0, none) else encode_loop h (long (k - h.n)) (long (y * q)) (l + QW)
  else (l, some (long (long (long ((y - 1) * 2 ^ h.w) + h.cq) + k)))
termination_by L - l
decreasing_by simp only [QW] at *; omega

/-- The length of the code and the code, which is not stored when it is too long. -/
def encode (h : huffcode) (k : Int) : Nat × Option Int :=
  if k < h.c then (h.w - QW, some k) else encode_loop h (long (k - h.c)) 1 h.w

def huff_width (d : Int) : Nat → Nat → Int → Option (Nat × Int)
  | 0, _, _ => none
  | time + 1, w, j => if j < d then huff_width d time (w + QW) (long (j * q)) else some (w, j)

/-- The parameters for `d` messages to a decade. A width that has not been found after all digits of a long is
never found. -/
def huff (d : Int) : Option huffcode := do
  let n := long (d * (q - 1))
  let (w, j) ← huff_width d (BYTE * sizeof_long + 1) QW 1
  let c := long (j - d)
  let cq := long (c * q)
  let cs := long (cq * 2 ^ (L - w))
  let qcs := long (long (long ((q - 1) * 2 ^ w) + cq) * 2 ^ (L - QW - w))
  return ⟨n, w, c, cq, cs, qcs, long (c - cq)⟩

end Svr4.Huff
