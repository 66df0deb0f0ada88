import Mathlib

/-! Shell patterns (lib/libgen/gmatch.c) in the C locale, where a character is one byte. -/

namespace Svr4.Gmatch

def asterisk : UInt8 := 42
def question : UInt8 := 63
def opening : UInt8 := 91
def closing : UInt8 := 93
def backslash : UInt8 := 92
def hyphen : UInt8 := 45
def exclamation : UInt8 := 33

/-- Why nothing more is computed: a read outside of the memory of a string, `return 0`, or the time is over. -/
inductive Stop where
  | fault
  | mismatch
  | late
  deriving DecidableEq

/-- A pointer into a string is the memory from there on, the terminator included. -/
def deref : List UInt8 → Except Stop UInt8
  | [] => .error .fault
  | c :: _ => .ok c

def popwchar : List UInt8 → Except Stop (UInt8 × List UInt8)
  | [] => .error .fault
  | c :: p => if c = 0 then .error .mismatch else .ok (c, p)

/-- The character after a quote, and otherwise the one that is there. -/
def unquote (c : UInt8) (p : List UInt8) : Except Stop (UInt8 × List UInt8) :=
  if c = backslash then popwchar p else .ok (c, p)

def isRange (c lc : UInt8) (p : List UInt8) : Except Stop Bool :=
  if c = hyphen ∧ lc ≠ 0 then (deref p).map (· ≠ closing) else .ok false

/-- The new `ok` after a comparison with a character or a range. -/
def tally (notflag hit : Bool) (ok : Nat) : Except Stop Nat :=
  if notflag then
    if hit then .error .mismatch else .ok (ok + 1)
  else .ok (if hit then ok + 1 else ok)

def rangeEnd (scc : UInt8) (notflag : Bool) (lc : UInt8) (ok : Nat) (p : List UInt8) : Except Stop (UInt8 × List UInt8 × Nat) := do
  let (c, p) ← popwchar p
  let (c, p) ← unquote c p
  let ok ← tally notflag (lc ≤ scc ∧ scc ≤ c) ok
  return (c, p, ok)

def rangeOrChar (scc : UInt8) (notflag : Bool) (lc : UInt8) (ok : Nat) (c : UInt8) (p : List UInt8) :
    Except Stop (UInt8 × List UInt8 × Nat) := do
  if ← isRange c lc p then rangeEnd scc notflag lc ok p
  else
    let (c, p) ← unquote c p
    return (c, p, ok)

/-- The loop over what is in brackets, with the new `ok` and what follows the bracket. -/
def bracket (scc : UInt8) (notflag : Bool) : Nat → UInt8 → Nat → UInt8 → List UInt8 → Except Stop (Nat × List UInt8)
  | 0, _, _, _, _ => .error .late
  | time + 1, lc, ok, c, p => do
    let (lc, p, ok) ← rangeOrChar scc notflag lc ok c p
    let ok ← tally notflag (scc = lc) ok
    let (c, p) ← popwchar p
    if c = closing then return (ok, p) else bracket scc notflag time lc ok c p

def anySuffix (matching : List UInt8 → Except Stop Bool) : List UInt8 → Except Stop Bool
  | [] => .error .fault
  | c :: s => do
    if c = 0 then return false
    if ← matching (c :: s) then return true
    anySuffix matching s

def answer : Except Stop Bool → Except Stop Bool
  | .error .mismatch => .ok false
  | r => r

def negation (p : List UInt8) : Except Stop (Bool × List UInt8) :=
  (deref p).map fun c => if c = exclamation then (true, p.tail) else (false, p)

def inBracket (time : Nat) (scc : UInt8) (p : List UInt8) : Except Stop (Nat × List UInt8) := do
  let (notflag, p) ← negation p
  let (c, p) ← popwchar p
  bracket scc notflag time 0 0 c p

def gmatch : Nat → List UInt8 → List UInt8 → Except Stop Bool
  | 0, _, _ => .error .late
  | time + 1, olds, pattern => answer do
    let scc ← deref olds
    let s := olds.tail
    let c ← deref pattern
    let p := pattern.tail
    if c = 0 then return scc = 0
    else if c = opening then
      if scc = 0 then return false
      else
        let (ok, p) ← inBracket time scc p
        if ok = 0 then return false else gmatch time s p
    else if c = question then
      if scc = 0 then return false else gmatch time s p
    else if c = asterisk then
      let p := p.dropWhile (· = asterisk)
      let next ← deref p
      if next = 0 then return true else anySuffix (fun s => gmatch time s p) olds
    else
      let (c, p) ← unquote c p
      if c ≠ scc then return false
      else if scc = 0 then return false
      else gmatch time s p

example : gmatch 9 "main.c".toUTF8.data.toList [] = .error .fault := by decide
example : gmatch 9 ("b]".toUTF8.data.toList ++ [0]) ("[!]a-\\-]\\]".toUTF8.data.toList ++ [0]) = .ok true := by decide

end Svr4.Gmatch
