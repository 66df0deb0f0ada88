import Mathlib

/-! Resource maps (os/malloc.c): first-fit allocation from a table of free
extents that a slot of size 0 ends. Every loop moves a pointer `bp` up the table;
here it is a recursion on the slots from `bp` on, and `none` says that the loop
went past the table. -/

namespace Svr4.Rmap

def ulong (n : Nat) : Nat := n % 2 ^ 32

structure MapSlot where
  mSize : Nat
  mAddr : Nat
  deriving DecidableEq, Repr

/-- Slot 0 of a map holds `mapsize` and `mapwant`; `slots` are those from
`mapstart` to the end of the table. -/
structure Map where
  mapsize : Nat
  mapwant : Nat
  slots : List MapSlot
  deriving DecidableEq, Repr

def mapinit (count : Nat) : Map := ⟨count - 2, 0, List.replicate (count - 1) ⟨0, 0⟩⟩

/-- The shift after an exact fit in the slot at `bp`. Size and address move down
together, and the loop ends with the slot that received a size of 0. -/
def shiftDown : List MapSlot → Option (List MapSlot)
  | _ :: next :: rest =>
    if next.mSize = 0 then some (next :: next :: rest)
    else (shiftDown (next :: rest)).map (next :: ·)
  | _ => none

inductive Fit where
  | absent
  | taken (address : Nat) (deleted : Bool) (slots : List MapSlot)
  deriving DecidableEq, Repr

def Fit.behind (slot : MapSlot) : Fit → Fit
  | .absent => .absent
  | .taken address deleted slots => .taken address deleted (slot :: slots)

def firstFit (size : Nat) : List MapSlot → Option Fit
  | [] => none
  | bp :: rest =>
    if bp.mSize = 0 then some .absent
    else if size ≤ bp.mSize then
      let bp' : MapSlot := ⟨bp.mSize - size, ulong (bp.mAddr + size)⟩
      if bp'.mSize = 0 then (shiftDown (bp' :: rest)).map (.taken bp.mAddr true)
      else some (.taken bp.mAddr false (bp' :: rest))
    else (firstFit size rest).map (Fit.behind bp)

def rmalloc (mp : Map) (size : Nat) : Option (Nat × Map) :=
  if size = 0 then some (0, mp)
  else do
    match ← firstFit size mp.slots with
    | .absent => some (0, mp)
    | .taken address deleted slots =>
      some (address, { mp with slots, mapsize := if deleted then ulong (mp.mapsize + 1) else mp.mapsize })

/-- `for (; bp->m_addr<=a && bp->m_size!=0; bp++);` gives the slots below `bp`
and those from `bp` on. -/
def seek (a : Nat) : List MapSlot → Option (List MapSlot × List MapSlot)
  | [] => none
  | bp :: rest =>
    if bp.mAddr ≤ a ∧ bp.mSize ≠ 0 then (seek a rest).map (fun (below, from_) => (bp :: below, from_))
    else some ([], bp :: rest)

/-- The copy loop after a merge on both sides: the slot at `bp` is overwritten
by its successor until a size of 0 has been copied. -/
def compress : List MapSlot → Option (List MapSlot)
  | [] => none
  | bp :: rest =>
    if bp.mSize = 0 then some (bp :: rest)
    else match rest with
      | [] => none
      | next :: _ => (compress rest).map (next :: ·)

/-- The insertion loop: the carried extent is exchanged with the slot at `bp`
until the slot taken out has size 0. -/
def shiftUp (size a : Nat) : List MapSlot → Option (List MapSlot)
  | [] => none
  | bp :: rest =>
    if bp.mSize = 0 then some (⟨size, a⟩ :: rest)
    else (shiftUp bp.mSize bp.mAddr rest).map (⟨size, a⟩ :: ·)

def leftNeighbour (a : Nat) (below : List MapSlot) : Option (List MapSlot × MapSlot) :=
  match below.getLast? with
  | some prev => if ulong (prev.mAddr + prev.mSize) = a then some (below.dropLast, prev) else none
  | none => none

/-- The sleepers on `mapwant` are woken on every path but the overflow. -/
def wakeup (mp : Map) : Map := { mp with mapwant := 0 }

def rmfree (mp : Map) (size a : Nat) : Option Map :=
  if size = 0 then some mp
  else do
    let (below, from_) ← seek a mp.slots
    let bp ← from_.head?
    match leftNeighbour a below with
    | some (lower, prev) =>
      let grown : MapSlot := ⟨ulong (prev.mSize + size), prev.mAddr⟩
      if bp.mAddr ≠ 0 ∧ ulong (a + size) = bp.mAddr then
        let rest ← compress from_
        some (wakeup { mp with
          slots := lower ++ ⟨ulong (grown.mSize + bp.mSize), grown.mAddr⟩ :: rest
          mapsize := ulong (mp.mapsize + 1) })
      else some (wakeup { mp with slots := lower ++ grown :: from_ })
    | none =>
      if ulong (a + size) = bp.mAddr ∧ bp.mSize ≠ 0 then
        let merged : MapSlot := ⟨ulong (bp.mSize + size), ulong (bp.mAddr + 2 ^ 32 - size)⟩
        some (wakeup { mp with slots := below ++ merged :: from_.tail })
      else if mp.mapsize = 0 then some mp
      else
        let rest ← shiftUp size a from_
        some (wakeup { mp with slots := below ++ rest, mapsize := mp.mapsize - 1 })

end Svr4.Rmap
