import Mathlib

/-! `change` and `dump_context_vec` of diff.c with the format -c: changes are gathered in a vector, and
written as one hunk when the next one is too far away. -/

namespace Svr4.DiffContext
open Function

def MAX_CONTEXT : Int := 128

/-- The lines `a` to `b` of the old file become `c` to `d` of the new one. -/
structure context_vec where
  a : Int
  b : Int
  c : Int
  d : Int
  deriving DecidableEq

/-- A sum that does not fit in an `int`, or a store outside of the vector. -/
inductive Fault
  | overflow
  | wild
  deriving DecidableEq

inductive Mark
  | same
  | changed
  | deleted
  | added
  deriving DecidableEq

/-- What is written: the lines with the names of the files, those with the ranges of a hunk, and lines of
the old or the new file after a mark. -/
inductive Event
  | names
  | old (lowa upb : Int)
  | new (lowc upd : Int)
  | fetchOld (a b : Int) (s : Mark)
  | fetchNew (a b : Int) (s : Mark)
  deriving DecidableEq

structure State where
  anychange : Bool
  vec : Nat → context_vec
  /-- `context_vec_ptr`, from the start of the vector on -/
  ptr : Int
  out : List Event

def int (x : Int) : Except Fault Int := if -2 ^ 31 ≤ x ∧ x < 2 ^ 31 then .ok x else .error .overflow

/-- The loop for the old file; behind a record, `lowa` is its `b + 1`. -/
def old_lines (upb : Int) : Int → List context_vec → List Event
  | lowa, [] => [.fetchOld lowa upb .same]
  | lowa, r :: rs =>
    (if r.a ≤ r.b then
      [.fetchOld lowa (r.a - 1) .same, .fetchOld r.a r.b (if r.c ≤ r.d then .changed else .deleted)]
    else [.fetchOld lowa r.b .same]) ++ old_lines upb (r.b + 1) rs

def new_lines (upd : Int) : Int → List context_vec → List Event
  | lowc, [] => [.fetchNew lowc upd .same]
  | lowc, r :: rs =>
    (if r.a ≤ r.b ∧ ¬r.c ≤ r.d then [.fetchNew lowc r.d .same]
    else [.fetchNew lowc (r.c - 1) .same, .fetchNew r.c r.d (if r.a ≤ r.b then .changed else .added)]) ++ new_lines upd (r.d + 1) rs

def hunk (lowa upb lowc upd : Int) (records : List context_vec) : List Event :=
  .old lowa upb :: (if records.any (fun r => r.a ≤ r.b) then old_lines upb lowa records else []) ++
    .new lowc upd :: (if records.any (fun r => r.c ≤ r.d) then new_lines upd lowc records else [])

def dump_context_vec (context len0 len1 : Int) (s : State) : Except Fault State :=
  if s.ptr < 0 then .ok s
  else do
    let first := s.vec 0
    let last := s.vec s.ptr.toNat
    let lowa ← int (first.a - context)
    let upb ← int (last.b + context)
    let lowc ← int (first.c - context)
    let upd ← int (last.d + context)
    .ok { s with
      ptr := -1
      out := s.out ++ hunk (max 1 lowa) (min len0 upb) (max 1 lowc) (min len1 upd) ((List.range (s.ptr.toNat + 1)).map s.vec) }

def cut (context : Int) (s : State) (r : context_vec) : Except Fault Bool :=
  if MAX_CONTEXT ≤ s.ptr then .ok true
  else if s.ptr < 0 then .ok false
  else do
    let twice ← int (2 * context)
    let p := s.vec s.ptr.toNat
    let b ← int (p.b + twice)
    if r.a > b then do
      let d ← int (p.d + twice)
      .ok (decide (r.c > d))
    else .ok false

def change (context len0 len1 : Int) (s : State) (r : context_vec) : Except Fault State :=
  if r.a > r.b ∧ r.c > r.d then .ok s
  else do
    let s := if s.anychange then s else { s with anychange := true, ptr := -1, out := s.out ++ [.names] }
    let full ← cut context s r
    let s ← (if full then dump_context_vec context len0 len1 s else .ok s)
    if s.ptr + 1 < MAX_CONTEXT then .ok { s with ptr := s.ptr + 1, vec := update s.vec (s.ptr + 1).toNat r }
    else .error .wild

def output (context len0 len1 : Int) (memory : Nat → context_vec) (calls : List context_vec) : Except Fault State := do
  let s ← calls.foldlM (change context len0 len1) ⟨false, memory, -1, []⟩
  if s.anychange then dump_context_vec context len0 len1 s else .ok s

end Svr4.DiffContext
