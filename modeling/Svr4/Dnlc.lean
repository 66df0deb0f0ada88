import Svr4.Library.Ring

/-! The directory name lookup cache (fs/dnlc.c): entries on hash chains and on a list
from the least recently used. -/

namespace Svr4.Dnlc
open Function Rings

def NC_NAMLEN : Nat := 15
def NC_HASH_SIZE : Nat := 8

/-- The characters of a string up to its NUL, of which there are some. -/
structure Name where
  chars : List UInt8
  someChar : chars ≠ []

/-- What the links lead to: entries of `ncache`, and the overlaid `nc_hash` and `nc_lru`. -/
inductive Link
  | ncache (i : Nat)
  | nc_hash (h : Nat)
  | nc_lru
  deriving DecidableEq

structure Links where
  next : Link → Link
  prev : Link → Link

/-- Vnodes and credentials are addresses, `none` is NULL and NOCRED. `name` has room for
NC_NAMLEN characters. -/
structure Ncache where
  vp : Option Nat
  dp : Option Nat
  namlen : Nat
  name : List UInt8
  cred : Option Nat

/-- The entries are those below `ncsize`. `vHeld` and `crHeld` are what the cache has
added to the reference counts of vnodes and credentials. -/
structure State where
  doingcache : Bool
  ncsize : Nat
  ncache : Nat → Ncache
  hash : Links
  lru : Links
  vHeld : Nat → Int
  crHeld : Nat → Int

inductive Fault
  | CE_PANIC
  | nullVnode
  | endless
  deriving DecidableEq

abbrev Outcome := Except Fault

/-- The sum is taken modulo 8, so it is the same whether `char` has a sign or not. -/
def NC_HASH (namep : List UInt8) (namelen vp : Nat) : Nat :=
  ((namep.getD 0 0).toNat + (namep.getD (namelen - 1) 0).toNat + namelen + vp) % NC_HASH_SIZE

def nc_inshash (ncp hp : Link) (links : Links) : Links :=
  let links := { next := update links.next ncp (links.next hp), prev := update links.prev ncp hp : Links }
  let links := { links with prev := update links.prev (links.next hp) ncp }
  { links with next := update links.next hp ncp }

def nc_rmhash (ncp : Link) (links : Links) : Links :=
  let links := { links with next := update links.next (links.prev ncp) (links.next ncp) }
  { links with prev := update links.prev (links.next ncp) (links.prev ncp) }

def NULL_HASH (ncp : Link) (links : Links) : Links := ⟨update links.next ncp ncp, update links.prev ncp ncp⟩

def nc_inslru (ncp2 ncp1 : Link) (links : Links) : Links :=
  let ncp3 := links.next ncp1
  let links := { links with next := update links.next ncp1 ncp2 }
  let links := { links with next := update links.next ncp2 ncp3 }
  let links := { links with prev := update links.prev ncp3 ncp2 }
  { links with prev := update links.prev ncp2 ncp1 }

def nc_rmlru (ncp : Link) (links : Links) : Links :=
  let links := { links with next := update links.next (links.prev ncp) (links.next ncp) }
  { links with prev := update links.prev (links.next ncp) (links.prev ncp) }

def addTo (held : Nat → Int) (p : Option Nat) (n : Int) : Nat → Int := fun v => held v + if p = some v then n else 0

def VN_HOLD (vp : Option Nat) (s : State) : State := { s with vHeld := addTo s.vHeld vp 1 }
def VN_RELE (vp : Option Nat) (s : State) : State := { s with vHeld := addTo s.vHeld vp (-1) }
def crhold (cred : Option Nat) (s : State) : State := { s with crHeld := addTo s.crHeld cred 1 }
def crfree (cred : Option Nat) (s : State) : State := { s with crHeld := addTo s.crHeld cred (-1) }

/-- Before `dnlc_init` nothing is linked, and a link is modelled as leading back. -/
def bss : State :=
  ⟨true, 0, fun _ => ⟨none, none, 0, List.replicate NC_NAMLEN 0, none⟩, ⟨id, id⟩, ⟨id, id⟩, fun _ => 0, fun _ => 0⟩

def initEntry (s : State) (i : Nat) : State :=
  { s with
    lru := nc_inslru (.ncache i) .nc_lru s.lru
    hash := NULL_HASH (.ncache i) s.hash
    ncache := update s.ncache i { s.ncache i with dp := none, vp := none } }

def dnlc_init (ncsize : Int) (memory : Bool) : State :=
  if ncsize ≤ 0 ∨ memory = false then { bss with doingcache := false }
  else
    let s := { bss with ncsize := ncsize.toNat, lru := ⟨update bss.lru.next .nc_lru .nc_lru, update bss.lru.prev .nc_lru .nc_lru⟩ }
    let s := (List.range s.ncsize).foldl initEntry s
    { s with hash := (List.range NC_HASH_SIZE).foldl (fun links h => NULL_HASH (.nc_hash h) links) s.hash }

/-- The entry at which a search around one of the lists has stopped. -/
def entryAt : Option (Option Link) → Outcome (Option Nat)
  | some (some (.ncache i)) => .ok (some i)
  | some _ => .ok none
  | none => .error .endless

def stopAt (stop : Nat → Bool) : Link → Bool
  | .ncache i => stop i
  | _ => false

def listSearch (stop : Ncache → Bool) (links : Links) (head : Link) (s : State) : Outcome (Option Nat) :=
  entryAt (seek (stopAt fun i => stop (s.ncache i)) links.next head (s.ncsize + 1) (links.next head))

def lruSearch (stop : Ncache → Bool) (s : State) : Outcome (Option Nat) := listSearch stop s.lru .nc_lru s

def matches_ (dp : Nat) (name : List UInt8) (namlen : Nat) (cred : Option (Option Nat)) (ncp : Ncache) : Bool :=
  decide (ncp.dp = some dp) && decide (ncp.namlen = namlen) && (decide (cred = none) || decide (cred = some ncp.cred)) &&
    decide (ncp.name.head? = name.head?) && decide (ncp.name.take namlen = name.take namlen)

def dnlc_search (dp : Nat) (name : List UInt8) (namlen hash : Nat) (cred : Option (Option Nat)) (s : State) :
    Outcome (Option Nat) :=
  listSearch (matches_ dp name namlen cred) s.hash (.nc_hash hash) s

/-- Obliterates an entry: it goes to the head of the list and on a chain of its own. -/
def dnlc_rm (i : Nat) (s : State) : Outcome State :=
  match (s.ncache i).dp, (s.ncache i).vp with
  | some dp, some vp =>
    let s := { s with lru := nc_rmlru (.ncache i) s.lru, hash := nc_rmhash (.ncache i) s.hash }
    let s := crfree (s.ncache i).cred (VN_RELE (some vp) (VN_RELE (some dp) s))
    .ok { s with
      ncache := update s.ncache i { s.ncache i with dp := none, vp := none, cred := none }
      lru := nc_inslru (.ncache i) .nc_lru s.lru
      hash := NULL_HASH (.ncache i) s.hash }
  | _, _ => .error .nullVnode

def recycle (i dp : Nat) (name : List UInt8) (namlen hash vp : Nat) (cred : Option Nat) (s : State) : State :=
  let ncp := s.ncache i
  let s := { s with lru := nc_rmlru (.ncache i) s.lru, hash := nc_rmhash (.ncache i) s.hash }
  let s := crfree ncp.cred (VN_RELE ncp.vp (VN_RELE ncp.dp s))
  let s := crhold cred (VN_HOLD (some vp) (VN_HOLD (some dp) s))
  { s with
    ncache := update s.ncache i ⟨some vp, some dp, namlen, name.take namlen ++ ncp.name.drop namlen, cred⟩
    lru := nc_inslru (.ncache i) (s.lru.prev .nc_lru) s.lru
    hash := nc_inshash (.ncache i) (.nc_hash hash) s.hash }

def dnlc_enter (dp : Nat) (name : Name) (vp : Nat) (cred : Option Nat) (s : State) : Outcome State :=
  let namlen := name.chars.length
  if s.doingcache = false then .ok s
  else if NC_NAMLEN < namlen then .ok s
  else
    let hash := NC_HASH name.chars namlen dp
    match dnlc_search dp name.chars namlen hash (some cred) s with
    | .error e => .error e
    | .ok (some _) => .ok s
    | .ok none =>
      match s.lru.next .nc_lru with
      | .ncache i => .ok (recycle i dp name.chars namlen hash vp cred s)
      | _ => .ok s

/-- The entry goes to the end of the list, and one place forward on its chain. -/
def moveForward (i hash : Nat) (s : State) : State :=
  let lru := nc_rmlru (.ncache i) s.lru
  let s := { s with lru := nc_inslru (.ncache i) (lru.prev .nc_lru) lru }
  if s.hash.prev (.ncache i) ≠ .nc_hash hash then
    let links := nc_rmhash (.ncache i) s.hash
    { s with hash := nc_inshash (.ncache i) (links.prev (links.prev (.ncache i))) links }
  else s

def dnlc_lookup (dp : Nat) (name : Name) (cred : Option Nat) (s : State) : Outcome (Option Nat × State) :=
  let namlen := name.chars.length
  if s.doingcache = false then .ok (none, s)
  else if NC_NAMLEN < namlen then .ok (none, s)
  else
    let hash := NC_HASH name.chars namlen dp
    match dnlc_search dp name.chars namlen hash (some cred) s with
    | .error e => .error e
    | .ok none => .ok (none, s)
    | .ok (some i) => .ok ((s.ncache i).vp, moveForward i hash s)

def rmWhile (find : State → Outcome (Option Nat)) : Nat → State → Outcome State
  | 0, _ => .error .endless
  | time + 1, s => do
    match ← find s with
    | none => return s
    | some i => rmWhile find time (← dnlc_rm i s)

def dnlc_remove (dp : Nat) (name : Name) (s : State) : Outcome State :=
  let namlen := name.chars.length
  if s.doingcache = false then .ok s
  else if NC_NAMLEN < namlen then .ok s
  else rmWhile (dnlc_search dp name.chars namlen (NC_HASH name.chars namlen dp) none) (s.ncsize + 1) s

def firstChained (s : State) : Outcome (Option Nat) :=
  match (List.range NC_HASH_SIZE).find? (fun h => decide (s.hash.next (.nc_hash h) ≠ .nc_hash h)) with
  | none => .ok none
  | some h =>
    match s.hash.next (.nc_hash h) with
    | .ncache i => if (s.ncache i).dp = none ∨ (s.ncache i).vp = none then .error .CE_PANIC else .ok (some i)
    | _ => .ok none

def dnlc_purge (s : State) : Outcome State :=
  if s.doingcache = false then .ok s else rmWhile firstChained (s.ncsize + 1) s

def dnlc_purge_vp (vp : Nat) (s : State) : Outcome State :=
  if s.doingcache = false then .ok s
  else rmWhile (lruSearch fun ncp => decide (ncp.dp = some vp) || decide (ncp.vp = some vp)) (s.ncsize + 1) s

def onVfs (vVfsp : Nat → Nat) (vfsp : Nat) (vp : Option Nat) : Bool := vp.any fun vp => decide (vVfsp vp = vfsp)

def purgeCounted (find : State → Outcome (Option Nat)) (count : Int) : Nat → Int → State → Outcome (Int × State)
  | 0, _, _ => .error .endless
  | time + 1, n, s => do
    match ← find s with
    | none => return (n, s)
    | some i =>
      let s ← dnlc_rm i s
      if count = 0 ∨ n + 1 < count then purgeCounted find count time (n + 1) s else return (n + 1, s)

def dnlc_purge_vfsp (vVfsp : Nat → Nat) (vfsp : Nat) (count : Int) (s : State) : Outcome (Int × State) :=
  if s.doingcache = false then .ok (0, s)
  else
    purgeCounted (lruSearch fun ncp => onVfs vVfsp vfsp ncp.dp || onVfs vVfsp vfsp ncp.vp) count (s.ncsize + 1) 0 s

def dnlc_purge1 (s : State) : Outcome (Int × State) :=
  if s.doingcache = false then .ok (0, s)
  else do
    match ← lruSearch (fun ncp => ncp.dp.isSome) s with
    | some i => return (1, ← dnlc_rm i s)
    | none => return (0, s)

end Svr4.Dnlc
