import Svr4.Library.Chain

/-! Record locks (os/flock.c): the list of locks of each file, the list of requests that
wait, and `reclock` up to the points where it sleeps. -/

namespace Svr4.Flock
open Function Chain

inductive LType
  | F_RDLCK | F_WRLCK | F_UNLCK | invalid
  deriving DecidableEq

inductive Errno
  | EINTR | EAGAIN | EINVAL | EDEADLK | ENOLCK
  deriving DecidableEq

structure Owner where
  lSysid : Int
  lPid : Int
  deriving DecidableEq

/-- `struct flock` with the end of the range in the place of its length. -/
structure FlockT where
  lType : LType
  lWhence : Int
  lStart : Int
  lEnd : Int
  owner : Owner
  deriving DecidableEq

/-- All records by address, with those that are allocated. `stat` is a union: `wakeflg` lies over
`blk.sysid`. `woken` collects the records that `wakeprocs` was called for. -/
structure Heap where
  set : Nat → FlockT
  blk : Nat → Owner
  prev : Nat → Option Nat
  next : Nat → Option Nat
  used : List Nat
  woken : List Nat

structure Filocks extends Heap where
  head : Option Nat

def int (x : Int) : Int := x.bmod (2 ^ 32)

def Filocks.wakeflg (s : Filocks) (fl : Nat) : Int := (s.blk fl).lSysid

def Filocks.setWakeflg (s : Filocks) (fl : Nat) (wakeflg : Int) : Filocks :=
  { s with blk := update s.blk fl { s.blk fl with lSysid := wakeflg } }

def WAKEUP (fl : Nat) (s : Filocks) : Filocks :=
  if s.wakeflg fl ≠ 0 then { s.setWakeflg fl 0 with woken := fl :: s.woken } else s

/-- `kmem` is the record that `insflck` gets, if it gets one: none when there are too many
or no memory. The record is zero. -/
def insflck (kmem : Filocks → Option Nat) (lckdat : FlockT) (fl : Option Nat) (s : Filocks) : Option (Nat × Filocks) := do
  let new ← kmem s
  let s := { s with set := update s.set new lckdat, blk := update s.blk new ⟨0, 0⟩, used := new :: s.used }
  match fl with
  | none =>
    let prev :=
      match s.head with
      | none => s.prev
      | some first => update s.prev first (some new)
    return (new, { s with next := update s.next new s.head, prev := update prev new none, head := some new })
  | some fl =>
    let prev :=
      match s.next fl with
      | none => s.prev
      | some after => update s.prev after (some new)
    return (new,
      { s with next := update (update s.next new (s.next fl)) fl (some new), prev := update prev new (some fl) })

def delflck (fl : Nat) (s : Filocks) : Filocks :=
  let s :=
    match s.prev fl with
    | some before => { s with next := update s.next before (s.next fl) }
    | none => { s with head := s.next fl }
  let s :=
    match s.next fl with
    | some after => { s with prev := update s.prev after (s.prev fl) }
    | none => s
  let s := WAKEUP fl s
  { s with used := s.used.erase fl }

inductive Region
  | BEFORE | START | MIDDLE | END | AFTER
  deriving DecidableEq

def regflck (ld set : FlockT) : Region × Region :=
  if ld.lStart > set.lStart ∧ ld.lStart - 1 = set.lEnd then (.END, .AFTER)
  else if ld.lStart > set.lStart ∧ ld.lStart > set.lEnd then (.AFTER, .AFTER)
  else
    let start : Region :=
      if ld.lStart > set.lStart then .MIDDLE else if ld.lStart = set.lStart then .START else .BEFORE
    if ld.lEnd < set.lEnd then
      if ld.lEnd = set.lStart - 1 then (start, .START)
      else if ld.lEnd < set.lStart then (start, .BEFORE)
      else (start, .MIDDLE)
    else if ld.lEnd = set.lEnd then (start, .END)
    else (start, .AFTER)

/-- The lock from `fl` on behind which one with this start goes: the last that starts
before it, and `fl` itself when that does not. -/
def insertPlace (time : Nat) (lStart : Int) (fl : Nat) (s : Filocks) : Option Nat := do
  let (last, _) ← walk (fun p => ¬ (s.set p).lStart < lStart) s.next time none (some fl)
  return last.getD fl

structure Adjust where
  s : Filocks
  insrtp : Option Nat
  ld : FlockT

inductive Turn
  | ret (retval : Option Errno) (a : Adjust)
  | next (nflp : Option Nat) (a : Adjust)

/-- Sets up the piece of `flp` after the end of the request, when there is a record for it. -/
def splitAfter (kmem : Filocks → Option Nat) (time flp : Nat) (a : Adjust) : Option (Option Filocks) := do
  let td := { a.s.set flp with lStart := a.ld.lEnd + 1 }
  let tdi ← insertPlace time td.lStart flp a.s
  return (insflck kmem td (some tdi) a.s).map (·.2)

def cutBefore (flp : Nat) (ld : FlockT) (s : Filocks) : Filocks :=
  WAKEUP flp { s with set := update s.set flp { s.set flp with lEnd := ld.lStart - 1 } }

def flckadjTurn (kmem : Filocks → Option Nat) (time flp : Nat) (a : Adjust) : Option Turn :=
  let set := a.s.set flp
  let same := a.ld.lType = set.lType
  let nflp := a.s.next flp
  let before := a.s.prev flp
  match regflck a.ld set with
  | (.BEFORE, .BEFORE) => some (.next none a)
  | (.BEFORE, .START) =>
    if same then some (.next none { a with ld := { a.ld with lEnd := set.lEnd }, s := delflck flp a.s })
    else some (.next none a)
  | (.START, .END) =>
    -- don't bother if this is in the middle of an already similarly set section
    if same then some (.ret none a) else some (.next nflp { a with insrtp := before, s := delflck flp a.s })
  | (.START, .AFTER) => some (.next nflp { a with insrtp := before, s := delflck flp a.s })
  | (.BEFORE, .END) => some (.next (if same then none else nflp) { a with s := delflck flp a.s })
  | (.BEFORE, .AFTER) => some (.next nflp { a with s := delflck flp a.s })
  | (.START, .MIDDLE) =>
    if same then some (.ret none { a with insrtp := before })
    else do
      match ← splitAfter kmem time flp a with
      | none => some (.ret (some .ENOLCK) { a with insrtp := before })
      | some s => some (.next none { a with insrtp := before, s := delflck flp s })
  | (.MIDDLE, .MIDDLE) =>
    if same then some (.ret none a)
    else do
      match ← splitAfter kmem time flp a with
      | none => some (.ret (some .ENOLCK) a)
      | some s => some (.next none { a with insrtp := some flp, s := cutBefore flp a.ld s })
  | (.BEFORE, .MIDDLE) =>
    if same then some (.next none { a with ld := { a.ld with lEnd := set.lEnd }, s := delflck flp a.s })
    else do
      match ← splitAfter kmem time flp a with
      | none => some (.ret (some .ENOLCK) a)
      | some s => some (.next none { a with s := delflck flp s })
  | (.MIDDLE, .END) =>
    if same then some (.ret none a) else some (.next nflp { a with insrtp := some flp, s := cutBefore flp a.ld a.s })
  | (.MIDDLE, .AFTER) =>
    if same then
      some (.next nflp { insrtp := before, ld := { a.ld with lStart := set.lStart }, s := delflck flp a.s })
    else some (.next nflp { a with insrtp := some flp, s := cutBefore flp a.ld a.s })
  | (.END, .AFTER) =>
    if same then
      some (.next nflp { insrtp := before, ld := { a.ld with lStart := set.lStart }, s := delflck flp a.s })
    else some (.next nflp a)
  | (.AFTER, .AFTER) => some (.next nflp { a with insrtp := some flp })
  | _ => some (.next nflp a)

def flckadjScan (kmem : Filocks → Option Nat) : Nat → Option Nat → Adjust → Option Turn
  | _, none, a => some (.next none a)
  | 0, some _, _ => none
  | time + 1, some flp, a =>
    if (a.s.set flp).owner = a.ld.owner then do
      match ← flckadjTurn kmem time flp a with
      | .ret retval a => some (.ret retval a)
      | .next nflp a => flckadjScan kmem time nflp a
    else flckadjScan kmem time (a.s.next flp) a

def flckadj (kmem : Filocks → Option Nat) (time : Nat) (insrtp : Option Nat) (ld : FlockT) (s : Filocks) :
    Option (Option Errno × Adjust) := do
  match ← flckadjScan kmem time (insrtp.or s.head) ⟨s, insrtp, ld⟩ with
  | .ret retval a => return (retval, a)
  | .next _ a =>
    if a.ld.lType ≠ .F_UNLCK then
      let insrtp ← a.insrtp.elim (some none) (fun flp => (insertPlace time a.ld.lStart flp a.s).map some)
      match insflck kmem a.ld insrtp a.s with
      | none => return (some .ENOLCK, a)
      | some (_, s) => return (none, { a with s })
    else return (none, a)

def conflicts (set lckdat : FlockT) : Bool :=
  lckdat.lStart ≤ set.lEnd ∧ set.owner ≠ lckdat.owner ∧
    (set.lType = .F_WRLCK ∨ (set.lType = .F_RDLCK ∧ lckdat.lType = .F_WRLCK))

/-- The lock that blocks the request, if one does, and the lock where updates start. The
first loop ends at the first lock that does not start before the request, at one of its
owner that reaches it, and at one that blocks it. -/
def blocked (time : Nat) (lckdat : FlockT) (s : Filocks) : Option (Option Nat × Option Nat) := do
  let ends (p : Nat) : Bool :=
    let set := s.set p
    ¬ set.lStart < lckdat.lStart ∨ (set.owner = lckdat.owner ∧ lckdat.lStart - 1 ≤ set.lEnd) ∨ conflicts set lckdat
  match ← walk ends s.next time none s.head with
  | (last, none) => return (none, last)
  | (last, some f) =>
    let before := (s.set f).lStart < lckdat.lStart
    let insrt := if before then some f else last
    if before ∧ conflicts (s.set f) lckdat then return (some f, insrt)
    else
      let (_, found) ← walk (fun p => lckdat.lEnd < (s.set p).lStart ∨ conflicts (s.set p) lckdat) s.next time none (some f)
      return (found.filter (fun p => ¬ lckdat.lEnd < (s.set p).lStart), insrt)

/-- Whether the owner is kept waiting, through others, by the owner of the request. -/
def deadflck (s : Filocks) (lckdat : FlockT) : Nat → Owner → Option Bool
  | 0, _ => none
  | time + 1, blck =>
    if blck = lckdat.owner then some true
    else do
      match ← walk (fun sf => (s.set sf).owner = blck) s.next time none s.head with
      | (_, none) => some false
      | (_, some sf) => deadflck s lckdat time (s.blk sf)

/-- An entry of the same owner inside the range of the request. -/
def cleans (set lckdat : FlockT) : Bool :=
  set.lWhence = lckdat.lWhence ∧ set.lStart ≥ lckdat.lStart ∧ set.lEnd ≤ lckdat.lEnd ∧ set.owner = lckdat.owner

def cleanslp (lckdat : FlockT) : Nat → Filocks → Option Filocks
  | 0, _ => none
  | time + 1, s => do
    match ← walk (fun sf => cleans (s.set sf) lckdat) s.next time none s.head with
    | (_, none) => some s
    | (_, some sf) => cleanslp lckdat time (delflck sf s)

def IGN_PID : Int := -1

def cleanlocksLoop (pid sysid : Int) : Nat → Option Nat → Filocks → Option Filocks
  | _, none, s => some s
  | 0, some _, _ => none
  | time + 1, some flp, s =>
    let nflp := s.next flp
    let owner := (s.set flp).owner
    if (owner.lPid = pid ∨ pid = IGN_PID) ∧ owner.lSysid = sysid then cleanlocksLoop pid sysid time nflp (delflck flp s)
    else cleanlocksLoop pid sysid time nflp s

def cleanlocks (time : Nat) (pid sysid : Int) (s : Filocks) : Option Filocks := cleanlocksLoop pid sysid time s.head s

structure Cmd where
  setflck : Bool
  slpflck : Bool
  rcmdlck : Bool
  deriving DecidableEq

/-- A process asleep in `reclock` on the lock `found`, with its entry `sf`. -/
structure Sleeper where
  vp : Nat
  lckdat : FlockT
  cmd : Cmd
  found : Nat
  sf : Nat
  awake : Bool

/-- The first lock of each file and the first entry of `sleeplcks`, in one memory, and the
sleeping processes. -/
structure System where
  heap : Heap
  vFilocks : Nat → Option Nat
  sleephead : Option Nat
  sleepers : Nat → Option Sleeper

def System.files (k : System) (vp : Nat) : Filocks := ⟨k.heap, k.vFilocks vp⟩

def System.sleeplcks (k : System) : Filocks := ⟨k.heap, k.sleephead⟩

def System.setFile (k : System) (vp : Nat) (s : Filocks) : System :=
  { k with heap := s.toHeap, vFilocks := update k.vFilocks vp s.head }

def System.setSleeplcks (k : System) (s : Filocks) : System := { k with heap := s.toHeap, sleephead := s.head }

/-- A return says whether `cleanslp` has run for the request as it is then. -/
inductive Outcome
  | ret (retval : Option Errno) (lckdat : FlockT) (cleaned : Bool)
  | sleep (found sf : Nat)

/-- Puts a request on `sleeplcks` that waits for the owner of `found`. -/
def insertSleep (kmem : Filocks → Option Nat) (lckdat found : FlockT) (s : Filocks) : Option (Nat × Filocks) := do
  let (sf, s) ← insflck kmem lckdat none s
  return (sf, { s with blk := update s.blk sf found.owner })

def reclockBlocked (kmem : Filocks → Option Nat) (time vp : Nat) (lckdat : FlockT) (cmd : Cmd) (found : Nat) (k : System) :
    Option (Outcome × System) :=
  let set := (k.files vp).set found
  if cmd.slpflck then do
    if ← deadflck k.sleeplcks lckdat time set.owner then return (.ret (some .EDEADLK) lckdat false, k)
    else if cmd.rcmdlck then
      -- if the request is not already on sleeplcks, put it there
      match ← walk (fun sf => k.sleeplcks.set sf = lckdat ∧ k.sleeplcks.blk sf = set.owner) k.sleeplcks.next time none
          k.sleeplcks.head with
      | (_, some _) => return (.ret (some .EINTR) lckdat false, k)
      | (_, none) =>
        match insertSleep kmem lckdat set k.sleeplcks with
        | none => return (.ret (some .ENOLCK) lckdat false, k)
        | some (_, sleeplcks) => return (.ret (some .EINTR) lckdat false, k.setSleeplcks sleeplcks)
    else
      match insertSleep kmem lckdat set k.sleeplcks with
      | none => return (.ret (some .ENOLCK) lckdat false, k)
      | some (sf, sleeplcks) =>
        let k := k.setSleeplcks sleeplcks
        let file := k.files vp
        return (.sleep found sf, k.setFile vp (file.setWakeflg found (int (file.wakeflg found + 1))))
  else if cmd.setflck then some (.ret (some .EAGAIN) lckdat false, k)
  else some (.ret none set false, k)

def reclockSet (kmem : Filocks → Option Nat) (time vp : Nat) (lckdat : FlockT) (cmd : Cmd) (k : System) :
    Option (Outcome × System) := do
  match ← blocked time lckdat (k.files vp) with
  | (some found, _) => reclockBlocked kmem time vp lckdat cmd found k
  | (none, insrt) =>
    let (retval, a) ←
      (if cmd.setflck then flckadj kmem time insrt lckdat (k.files vp)
      else some (none, ⟨k.files vp, insrt, { lckdat with lType := .F_UNLCK }⟩))
    let cleaned := cmd.rcmdlck && cmd.slpflck
    let k := k.setFile vp a.s
    let sleeplcks ← (if cleaned then cleanslp a.ld time k.sleeplcks else some k.sleeplcks)
    return (.ret retval a.ld cleaned, k.setSleeplcks sleeplcks)

def reclockUnset (kmem : Filocks → Option Nat) (time vp : Nat) (lckdat : FlockT) (cmd : Cmd) (k : System) :
    Option (Outcome × System) := do
  let (retval, a) ←
    (if cmd.setflck then flckadj kmem time (k.files vp).head lckdat (k.files vp)
    else some (none, ⟨k.files vp, none, lckdat⟩))
  let k := k.setFile vp a.s
  let sleeplcks ← (if cmd.rcmdlck then cleanslp a.ld time k.sleeplcks else some k.sleeplcks)
  return (.ret retval a.ld cmd.rcmdlck, k.setSleeplcks sleeplcks)

def reclockTurn (kmem : Filocks → Option Nat) (time vp : Nat) (lckdat : FlockT) (cmd : Cmd) (k : System) :
    Option (Outcome × System) :=
  match lckdat.lType with
  | .F_RDLCK => reclockSet kmem time vp lckdat cmd k
  | .F_WRLCK => reclockSet kmem time vp lckdat cmd k
  | .F_UNLCK => reclockUnset kmem time vp lckdat cmd k
  | .invalid => some (.ret (some .EINVAL) lckdat false, k)

/-- The processes asleep on the records that were woken are awake. -/
def wakeprocs (k : System) : System :=
  { k with
    heap := { k.heap with woken := [] }
    sleepers := fun p => (k.sleepers p).map (fun z => { z with awake := z.awake || z.found ∈ k.heap.woken }) }

def reclockStep (kmem : Filocks → Option Nat) (time p vp : Nat) (lckdat : FlockT) (cmd : Cmd) (k : System) :
    Option (Outcome × System) := do
  match ← reclockTurn kmem time vp lckdat cmd k with
  | (.sleep found sf, k) =>
    return (.sleep found sf, wakeprocs { k with sleepers := update k.sleepers p (some ⟨vp, lckdat, cmd, found, sf, false⟩) })
  | (.ret retval lckdat cleaned, k) => return (.ret retval lckdat cleaned, wakeprocs k)

/-- The process `p` goes on after its sleep: its entry goes, or what is in its place by then. -/
def reclockWake (p : Nat) (z : Sleeper) (k : System) : System :=
  let sleeplcks := { k.sleeplcks with blk := update k.sleeplcks.blk z.sf ⟨0, 0⟩ }
  { k.setSleeplcks (delflck z.sf sleeplcks) with sleepers := update k.sleepers p none }

end Svr4.Flock
