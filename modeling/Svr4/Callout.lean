import Mathlib

/-! The callout table (os/clock.c): `timeout`, `untimeout` and `timein` keep the
pending calls in a heap ordered by the absolute time of each call. -/

namespace Svr4.Callout
open Function

def int32 (n : Int) : Int := Int.bmod n (2 ^ 32)

/-- `struct callo`. Functions and their arguments are only stored and passed on. -/
structure Callo where
  cTime : Int
  cId : Int
  cArg : Nat
  cFunc : Nat
  deriving DecidableEq, Repr

/-- The table and the counters around it. `calllimit` is the index of the last
entry, -1 when there is none. -/
structure Callouts where
  callout : Nat → Callo
  calllimit : Int
  timeid : Int
  lbolt : Int
  vCall : Nat

def initial (vCall : Nat) (lbolt : Int) : Callouts := ⟨fun _ => ⟨0, 0, 0, 0⟩, -1, 0, lbolt, vCall⟩

/-- `while (j-- > 0)`: inside the loop `j` is one below the hole, so that `j >> 1`
is the parent of the hole and `callout[++j]` the hole itself. -/
def heapUp (callout : Nat → Callo) (t : Int) (j : Nat) : (Nat → Callo) × Nat :=
  if j > 0 then
    let k := (j - 1) >>> 1
    if (callout k).cTime > t then heapUp (update callout j (callout k)) t k
    else (callout, 1 + (j - 1))
  else (callout, j)
termination_by j
decreasing_by
  simp only [Nat.shiftRight_succ, Nat.shiftRight_zero]
  omega

/-- The child to exchange: the right one when there is one and it is due first. -/
def child (callout : Nat → Callo) (calllimit : Int) (left : Nat) : Nat :=
  if left < calllimit ∧ (callout (left + 1)).cTime < (callout left).cTime then left + 1 else left

theorem le_child (callout : Nat → Callo) (calllimit : Int) (left : Nat) : left ≤ child callout calllimit left := by
  unfold child
  split <;> omega

def heapDown (callout : Nat → Callo) (calllimit : Int) (t : Int) (j : Nat) : (Nat → Callo) × Nat :=
  let left := 1 + (j <<< 1)
  if calllimit < left then (callout, j)
  else
    let k := child callout calllimit left
    if t ≤ (callout k).cTime then (callout, j)
    else heapDown (update callout j (callout k)) calllimit t k
termination_by (calllimit + 1 - j).toNat
decreasing_by
  have := le_child callout calllimit left
  simp only [left, Nat.shiftLeft_succ, Nat.shiftLeft_zero] at *
  omega

def timeout (s : Callouts) (fun_ arg : Nat) (tim : Int) : Option (Int × Callouts) :=
  let t := int32 (s.lbolt + tim)
  let j := s.calllimit + 1
  if j = s.vCall then none
  else
    let (callout, at_) := heapUp s.callout t j.toNat
    let id := int32 (s.timeid + 1)
    some (id, { s with callout := update callout at_ ⟨t, id, arg, fun_⟩, calllimit := j, timeid := id })

/-- The linear search: the first index up to `calllimit` with the given id. -/
def search (s : Callouts) (id : Int) : Option Nat :=
  (List.range (s.calllimit + 1).toNat).find? (fun f => (s.callout f).cId = id)

/-- The last entry takes the place of the one at `f`, and the heap is restored
from there. The limit is lowered first, so the last entry lies beyond it. -/
def remove (s : Callouts) (f : Nat) : Callouts :=
  let pend := s.calllimit.toNat
  let calllimit := s.calllimit - 1
  if (f : Int) = s.calllimit then { s with calllimit }
  else if calllimit ≥ 0 then
    let t := (s.callout pend).cTime
    let parent := (f - 1) >>> 1
    let (callout, j) :=
      if f > 0 ∧ (s.callout parent).cTime > t then heapUp s.callout t f
      else heapDown s.callout calllimit t f
    { s with callout := update callout j (callout pend), calllimit }
  else { s with calllimit }

def untimeout (s : Callouts) (id : Int) : Int × Callouts :=
  match search s id with
  | some f => (f, remove s f)
  | none => (-1, s)

/-- One turn of the loop of `timein` up to the call: the entry that is called,
and the table its function finds. -/
def timeinTurn (s : Callouts) : Option (Callo × Callouts) :=
  if (s.callout 0).cTime ≤ s.lbolt ∧ s.calllimit ≥ 0 then
    let svcall := s.callout 0
    let plast := s.calllimit.toNat
    let calllimit := s.calllimit - 1
    if calllimit ≥ 0 then
      let (callout, j) := heapDown s.callout calllimit (s.callout plast).cTime 0
      some (svcall, { s with callout := update callout j (callout plast), calllimit })
    else some (svcall, { s with calllimit })
  else none

end Svr4.Callout
