import Mathlib

/-! Topological sort (cmd/sgs/tsort/common/tsort.c). -/

namespace Svr4.Tsort
open Function

abbrev Str := List UInt8

inductive Live where
  | dead
  | live
  | visited
  deriving DecidableEq

/-- The nodes by their place in the list, whose empty element at the end comes after those that have a name. -/
structure State where
  name : List Str
  inedges : Nat → List Nat
  live : Nat → Live

def firstnode : State := ⟨[], fun _ => [], fun _ => .dead⟩

def index (item : Str) (s : State) : State × Nat :=
  let i := s.name.length
  if s.name.contains item then (s, s.name.idxOf item)
  else
    ({ name := s.name ++ [item], inedges := update s.inedges (i + 1) [], live := update (update s.live i .live) (i + 1) .dead }, i)

def present (s : State) (i j : Nat) : Bool := i ∈ s.inedges j

def anypred (s : State) (i : Nat) : Bool := (s.inedges i).any fun j => s.live j = .live

def addPair (precedes follows : Str) (s : State) : State :=
  let (s, i) := index precedes s
  let (s, j) := index follows s
  if i = j ∨ present s i j then s else { s with inedges := update s.inedges j (i :: s.inedges j) }

inductive Failure where
  | oddData
  | programError
  | late
  deriving DecidableEq

def pieces (word : Str) : List Str := (List.range ((word.length + 98) / 99)).map fun k => (word.drop (99 * k)).take 99

def scan (words : List Str) : List Str := words.flatMap pieces

def readPairs : List Str → State → Except Failure State
  | [], s => .ok s
  | [_], _ => .error .oddData
  | precedes :: follows :: rest, s => readPairs rest (addPair precedes follows s)

/-- A sweep over these nodes: whether one is live, and where it breaks off. -/
def sweep (s : State) : List Nat → Bool → Bool × Option Nat
  | [], x => (x, none)
  | i :: rest, x =>
    if s.live i = .live then
      if anypred s i then sweep s rest true else (true, some i)
    else sweep s rest x

def markPreds (mark : State → Nat → Except Failure (State × Option Nat)) : List Nat → State → Except Failure (State × Option Nat)
  | [], s => .ok (s, none)
  | pred :: rest, s => do
    let (s, j) ← mark s pred
    if j ≠ none then return (s, j) else markPreds mark rest s

def mark : Nat → State → Nat → Except Failure (State × Option Nat)
  | 0, _, _ => .error .late
  | time + 1, s, i =>
    if s.live i = .dead then .ok (s, none)
    else if s.live i = .visited then .ok (s, some i)
    else markPreds (mark time) (s.inedges i) { s with live := update s.live i .visited }

def findloop (time : Nat) (s : State) : Except Failure (State × Nat) := do
  let i := ((List.range s.name.length).find? fun i => s.live i = .live).getD s.name.length
  match ← mark time s i with
  | (_, none) => throw .programError
  | (s, some i) => return ({ s with live := fun j => if j < s.name.length ∧ s.live j = .visited then .live else s.live j }, i)

/-- An item of the output, or the report of a cycle with the node that `findloop` found. -/
inductive Event where
  | item (name : Str)
  | cycle (name : Str)
  deriving DecidableEq

def nameOf (s : State) (i : Nat) : Str := s.name.getD i []

def kill (i : Nat) (s : State) : State := { s with live := update s.live i .dead }

def printing : Nat → State → Except Failure (List Event)
  | 0, _ => .error .late
  | time + 1, s =>
    match sweep s (List.range s.name.length) false with
    | (false, _) => .ok []
    | (true, some i) => (printing time (kill i s)).map (.item (nameOf s i) :: ·)
    | (true, none) => do
      let (s, i) ← findloop time s
      let rest ← printing time (kill i s)
      return .cycle (nameOf s i) :: .item (nameOf s i) :: rest

def tsort (time : Nat) (words : List Str) : Except Failure (List Event) := do
  let s ← readPairs (scan words) firstnode
  printing time s

example : tsort 9 [[1], [2], [2], [1], [3], [1], [4], [4]] =
    .ok [.item [3], .item [4], .cycle [1], .item [1], .item [2]] := by decide

end Svr4.Tsort
