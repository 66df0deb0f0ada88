import Svr4.Library.Chain

/-! The list of waiting bufcalls (io/stream.c, os/strsubr.c): events wait until
`queuerun` finds memory enough for them. -/

namespace Svr4.Bufcall
open Function Chain

def SECACHE : Nat := 10

def setrun : Nat := 0

/-- The event cells by address, the list of waiting events, and the lists that cells
come from. The emergency cells are the first. `cells` lists all that there are. -/
structure State where
  seNext : Nat → Option Nat
  seFunc : Nat → Nat
  seArg : Nat → Nat
  seSize : Nat → Int
  bcHead : Option Nat
  bcTail : Option Nat
  strbcwait : Bool
  strbcflag : Bool
  sefreelist : List Nat
  secachep : List Nat
  cells : List Nat

def strinit (seNext : Nat → Option Nat) (seFunc seArg : Nat → Nat) (seSize : Nat → Int) : State :=
  ⟨seNext, seFunc, seArg, seSize, none, none, false, false, [], (List.range SECACHE).reverse, List.range SECACHE⟩

/-- `kmem` is the cell that `kmem_zalloc` returns, if it is asked. -/
def sealloc (kmem : Option Nat) (noslp : Bool) (s : State) : Option (Nat × State) :=
  match s.sefreelist with
  | sep :: rest => some (sep, { s with sefreelist := rest, seNext := update s.seNext sep none })
  | [] =>
    match kmem with
    | some sep => some (sep, { s with cells := sep :: s.cells, seNext := update s.seNext sep none })
    | none =>
      match noslp, s.secachep with
      | true, sep :: rest => some (sep, { s with secachep := rest, seNext := update s.seNext sep none })
      | _, _ => none

/-- The test takes the address after the last emergency cell for one of them. -/
def sefree (sep : Nat) (s : State) : State :=
  if sep ≤ SECACHE then { s with secachep := sep :: s.secachep } else { s with sefreelist := sep :: s.sefreelist }

/-- Adds an event to the list. `none` is a store through a null pointer. -/
def appendEvent (sep : Nat) (s : State) : Option State :=
  match s.bcHead with
  | none => some { s with bcHead := some sep, bcTail := some sep }
  | some _ => do
    let tail ← s.bcTail
    return { s with seNext := update s.seNext tail (some sep), bcTail := some sep }

def fillEvent (size : Int) (func arg sep : Nat) (s : State) : State :=
  { s with
    seNext := update s.seNext sep none
    seFunc := update s.seFunc sep func
    seArg := update s.seArg sep arg
    seSize := update s.seSize sep size }

/-- What `bufcall` and `esbbcall` share. They return the event, or `none` when there is no
cell for it. -/
def addEvent (kmem : Option Nat) (size : Int) (func arg : Nat) (s : State) : Option (Option Nat × State) :=
  match sealloc kmem true s with
  | none => some (none, s)
  | some (sep, s) => do
    let s ← appendEvent sep (fillEvent size func arg sep s)
    return (some sep, { s with strbcwait := true })

def bufcall (kmem : Option Nat) (size : BitVec 32) (func arg : Nat) (s : State) : Option (Option Nat × State) :=
  addEvent kmem size.toInt func arg s

def esbbcall (kmem : Option Nat) (func arg : Nat) (s : State) : Option (Option Nat × State) :=
  addEvent kmem (-1) func arg s

def dropEvent (psep : Option Nat) (sep : Nat) (s : State) : State :=
  let bcTail := if s.bcTail = some sep then psep else s.bcTail
  match psep with
  | some psep => sefree sep { s with seNext := update s.seNext psep (s.seNext sep), bcTail }
  | none => sefree sep { s with bcHead := s.seNext sep, bcTail }

/-- Cancels the first event that the test accepts, if there is one, and says which. `none` is
a search that has not ended in time. -/
def cancelEvent (time : Nat) (test : Nat → Bool) (s : State) : Option (Option Nat × State) := do
  match ← walk test s.seNext time none s.bcHead with
  | (_, none) => return (none, s)
  | (psep, some sep) => return (some sep, dropEvent psep sep s)

def unbufcall (time : Nat) (id : Option Nat) (s : State) : Option (Option Nat × State) :=
  cancelEvent time (fun sep => id = some sep) s

def strunbcall (time : Nat) (size : Int) (p : Nat) (s : State) : Option (Option Nat × State) :=
  cancelEvent time (fun sep => s.seArg sep = p ∧ s.seFunc sep = setrun ∧ s.seSize sep = size) s

def kmemFree (s : State) : State := if s.strbcwait && !s.strbcflag then { s with strbcflag := true } else s

/-- The variables of `queuerun` in a pass over the bufcalls, and the event whose function
is running. -/
structure Queuerun where
  nevent : Nat
  count : Int
  sep : Option Nat
  deriving DecidableEq

/-- Counts the events and takes the estimate `kmem_avail` of memory. -/
def queuerunEnter (time : Nat) (kmemAvail : Int) (s : State) : Option (Queuerun × State) := do
  let nevent ← count s.seNext time s.bcHead
  return (⟨nevent, kmemAvail, none⟩, { s with strbcwait := false, strbcflag := false })

/-- Puts the first event back as the last: too big, try again later. -/
def againEvent (sep : Nat) (s : State) : Option State := do
  let tail ← s.bcTail
  return { s with bcHead := s.seNext sep, seNext := update (update s.seNext sep none) tail (some sep), bcTail := some sep }

/-- One turn of the loop over the events, up to the call of a function; or what
follows the loop, when it has ended. `none` is a store through a null pointer. -/
def queuerunTurn (r : Queuerun) (s : State) : Option (Option Queuerun × State) :=
  match s.bcHead, r.nevent with
  | some sep, nevent + 1 =>
    if s.seSize sep ≤ r.count then some (some ⟨nevent, r.count, some sep⟩, { s with bcHead := s.seNext sep })
    else (againEvent sep s).map (some ⟨nevent, r.count, none⟩, ·)
  | some _, 0 => some (none, { s with strbcwait := true })
  | none, _ => some (none, { s with bcTail := none })

end Svr4.Bufcall
