import Mathlib

/-! Hash tables with open addressing (lib/libc/port/gen/hsearch.c): `hcreate` and `hsearch`. -/

namespace Svr4.Hsearch
open Function

/-- A key is a string, of which the bytes are given without the NUL at its end. -/
structure Entry where
  key : List UInt8
  data : Nat
  deriving DecidableEq

inductive Action where
  | FIND
  | ENTER
  deriving DecidableEq

structure Table where
  length : Nat
  m : Nat
  count : Nat
  table : Nat → Option Entry

def grow (unsize length m : Nat) : Nat × Nat :=
  if unsize = 0 then (length, m) else grow (unsize >>> 1) (length <<< 1 % 2 ^ 32) (m + 1)
  termination_by unsize
  decreasing_by simp only [Nat.shiftRight_eq_div_pow]; omega

/-- `calloc`, which looks for an overflow; `memory` tells whether there is room otherwise. -/
def calloc (memory : Bool) (num size : Nat) : Bool := num * size % 2 ^ 32 / num = size ∧ memory

def sizeofTABELEM : Nat := 8

def hcreate (memory : Bool) (size : Int) (t : Table) : Table × Bool :=
  if size ≤ 0 then (t, false)
  else
    let (length, m) := grow size.toNat 1 0
    if calloc memory length sizeofTABELEM then ({ t with length := length, m := m, table := fun _ => none }, true)
    else ({ t with length := length, m := m }, false)

def charValue (c : UInt8) : Nat := if c.toNat < 128 then c.toNat else 2 ^ 32 - 256 + c.toNat

def crunch (key : List UInt8) : Nat := (key.foldl (fun sum c => (sum + charValue c) % 2 ^ 32) 0 + key.length) % 2 ^ 32

def FACTOR : Nat := 0o35761254233

def SHIFT (m : Nat) : Nat := 8 * 4 - m

def hashm (m : Nat) (key : List UInt8) : Nat := (crunch key * FACTOR % 2 ^ 32) >>> SHIFT m

def hash2m (m : Nat) (key : List UInt8) : Nat := ((crunch key * FACTOR % 2 ^ 32) <<< m % 2 ^ 32) >>> SHIFT m ||| 1

/-- The slot with the key, or the empty one where it would be, from the slot `i` on. `none` when the time is over. -/
def probe (t : Table) (key : List UInt8) (c : Nat) : Nat → Nat → Option Nat
  | 0, _ => none
  | time + 1, i =>
    match t.table i with
    | none => some i
    | some entry => if entry.key = key then some i else probe t key c time ((i + c) % 2 ^ 32 % t.length)

def hsearch (item : Entry) (action : Action) (time : Nat) (t : Table) : Option (Table × Option Nat) :=
  match probe t item.key (hash2m t.m item.key) time (hashm t.m item.key) with
  | none => none
  | some i =>
    if t.table i ≠ none then some (t, some i)
    else if action = .FIND then some (t, none)
    else if t.count = t.length - 1 then some (t, none)
    else some ({ t with count := t.count + 1, table := update t.table i (some item) }, some i)

end Svr4.Hsearch
