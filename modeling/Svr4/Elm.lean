import Svr4.Library.Doubly

/-! The event list of cron (cmd/cron/elm.c). -/

namespace Svr4.Elm
open Function Chain

/-- What stops a call: a null link that is followed, an index time beyond `INFINITY`, or a
loop that has not ended in the time given. -/
inductive Fault where
  | null
  | overflow
  | time
  deriving DecidableEq

def INFINITY : Int := 2147483647

/-- The fields of notices, keys and index elements by address; `notices` and `keys` list
those that `xmalloc` has given and that are not freed. -/
structure State (Event : Type) where
  DU : Int
  LB : Int
  DT : Int
  NLIM : Int
  time : Nat → Int
  id : Nat → Int
  event : Nat → Option Event
  isdummy : Nat → Bool
  key : Nat → Option Nat
  left : Nat → Option Nat
  right : Nat → Option Nat
  ktime : Nat → Int
  numnote : Nat → Int
  notice : Nat → Nat
  kleft : Nat → Option Nat
  kright : Nat → Option Nat
  ikey : Nat → Nat
  iright : Nat → Option Nat
  current : Option Nat
  index : Option Nat
  notices : List Nat
  keys : List Nat

variable {Event : Type}

def deref : Option Nat → Except Fault Nat
  | none => .error .null
  | some a => .ok a

/-- `while (p->link satisfies the condition) p = p->next`: the condition reads through the pointer. -/
def seek (condition : Nat → Bool) (next : Nat → Option Nat) (fuel : Nat) (p : Option Nat) : Except Fault Nat :=
  match walk (fun a => !condition a) next fuel none p with
  | none => .error .time
  | some (_, none) => .error .null
  | some (_, some a) => .ok a

/-- `while ((p != NULL) && p satisfies the condition) p = p->next` -/
def skip (condition : Nat → Bool) (next : Nat → Option Nat) (fuel : Nat) (p : Option Nat) : Except Fault (Option Nat) :=
  match walk (fun a => !condition a) next fuel none p with
  | none => .error .time
  | some (_, q) => .ok q

def back (left : Nat → Option Nat) : Nat → Nat → Except Fault Nat
  | 0, n => .ok n
  | count + 1, n => do
    let n ← deref (left n)
    back left count n

def unlinkNotice (n : Nat) (s : State Event) : Except Fault (State Event) := do
  let l ← deref (s.left n)
  let s := { s with right := update s.right l (s.right n) }
  let r ← deref (s.right n)
  .ok { s with left := update s.left r (s.left n) }

def unlinkKey (k : Nat) (s : State Event) : Except Fault (State Event) := do
  let l ← deref (s.kleft k)
  let s := { s with kright := update s.kright l (s.kright k) }
  let r ← deref (s.kright k)
  .ok { s with kleft := update s.kleft r (s.kleft k) }

def linkKey (k2 k : Nat) (s : State Event) : Except Fault (State Event) := do
  let l ← deref (s.kleft k)
  .ok { s with kright := update (update s.kright k2 (some k)) l (some k2),
               kleft := update (update s.kleft k2 (s.kleft k)) k (some k2) }

def freeNotice (n : Nat) (s : State Event) : State Event := { s with notices := s.notices.erase n }
def freeKey (k : Nat) (s : State Event) : State Event := { s with keys := s.keys.erase k }

/-- A dummy notice and its key, which lie behind `nprev` and `kprev`. -/
def dummy (n k : Nat) (t : Int) (nprev kprev : Option Nat) (s : State Event) : State Event :=
  { s with
    notices := n :: s.notices
    keys := k :: s.keys
    time := update s.time n t
    isdummy := update s.isdummy n true
    left := update s.left n nprev
    key := update s.key n (some k)
    ktime := update s.ktime k t
    numnote := update s.numnote k 1
    notice := update s.notice k n
    kleft := update s.kleft k kprev }

def chain (nprev kprev n k : Nat) (s : State Event) : State Event :=
  { s with right := update s.right nprev (some n), kright := update s.kright kprev (some k) }

def chainIndex (indprev : Option Nat) (ind k : Nat) (s : State Event) : State Event :=
  let s := { s with ikey := update s.ikey ind k }
  match indprev with
  | none => { s with index := some ind }
  | some indprev => { s with iright := update s.iright indprev (some ind) }

/-- The `i`-th turns of the loop of `el_init`, as many as `count`, and the part behind it. -/
def intervals (note key ind : Nat → Nat) : Nat → Nat → Int → Nat → Nat → Option Nat → State Event → Except Fault (State Event)
  | 0, i, _, nprev, kprev, indprev, s =>
    let s := dummy (note i) (key i) INFINITY (some nprev) (some kprev) s
    let s := chain nprev kprev (note i) (key i) s
    let s := { s with right := update s.right (note i) none, kright := update s.kright (key i) none }
    match indprev with
    | none => .error .null
    | some indprev =>
      let s := chainIndex (some indprev) (ind i) (key i) s
      .ok { s with iright := update s.iright (ind i) none, current := none }
  | count + 1, i, t, nprev, kprev, indprev, s =>
    let t := t + s.DT
    if INFINITY < t then .error .overflow
    else
      let s := dummy (note i) (key i) t (some nprev) (some kprev) s
      let s := chain nprev kprev (note i) (key i) s
      intervals note key ind count (i + 1) t (note i) (key i) (some (ind i)) (chainIndex indprev (ind i) (key i) s)

/-- The addresses that `xmalloc` gives are arguments, by the turn of the loop. -/
def elInit (du lb dt nlim : Int) (note key ind : Nat → Nat) (s : State Event) : Except Fault (State Event) :=
  if du < 1 ∨ dt < 1 ∨ nlim < 1 then .ok s
  else
    let s := { s with DU := du + 1, LB := lb, DT := dt, NLIM := nlim }
    intervals note key ind du.toNat 1 lb (note 0) (key 0) none (dummy (note 0) (key 0) lb none none s)

def newNotice (n : Nat) (event : Event) (time id : Int) (s : State Event) : State Event :=
  { s with
    notices := n :: s.notices
    time := update s.time n time
    id := update s.id n id
    event := update s.event n (some event)
    isdummy := update s.isdummy n false
    key := update s.key n none }

/-- A full sublist in two halves, and the key of the half that holds the new notice. -/
def splitKey (k k2 : Nat) (time : Int) (s : State Event) : Except Fault (State Event × Nat) := do
  let s := { s with numnote := update s.numnote k (s.NLIM / 2) }
  let n2 ← back s.left (s.NLIM / 2).toNat (s.notice k)
  let s := { s with
    keys := k2 :: s.keys
    ktime := update s.ktime k2 (s.time n2)
    numnote := update s.numnote k2 (s.NLIM - s.NLIM / 2)
    notice := update s.notice k2 n2 }
  let s ← linkKey k2 k s
  let s := { s with key := update s.key n2 (some k2) }
  .ok (s, if time < s.ktime k2 then k2 else k)

def makeRoom (k k2 : Nat) (time : Int) (s : State Event) : Except Fault (State Event × Nat) :=
  if s.numnote k = s.NLIM then splitKey k k2 time s else .ok (s, k)

def linkNotice (n n2 : Nat) (s : State Event) : Except Fault (State Event) := do
  let r ← deref (s.right n2)
  .ok { s with right := update (update s.right n (s.right n2)) n2 (some n),
               left := update (update s.left n (some n2)) r (some n) }

/-- `n` and `k2` are what `xmalloc` gives for a notice and for a key. -/
def elAdd (n k2 : Nat) (event : Event) (time id : Int) (fuel : Nat) (s : State Event) : Except Fault (State Event) :=
  if s.index = none ∨ time < s.LB then .ok s
  else do
    let s := newNotice n event time id s
    let ind ← seek (fun ind => s.ktime (s.ikey ind) ≤ time) s.iright fuel s.index
    let k ← seek (fun k => s.ktime k > time) s.kleft fuel (s.kleft (s.ikey ind))
    let k ← deref (s.kright k)
    let (s, k) ← makeRoom k k2 time s
    let s := { s with numnote := update s.numnote k (s.numnote k + 1) }
    let n2 ← seek (fun n2 => s.time n2 > time) s.left fuel (some (s.notice k))
    let s ← linkNotice n n2 s
    .ok (if s.current.all (fun c => time < s.time c) then { s with current := some n } else s)

/-- The key of the notice, if it has one, goes to the notice on the left of it. -/
def passKey (n : Nat) (s : State Event) : Except Fault (State Event) :=
  match s.key n with
  | none => .ok s
  | some k => do
    let l ← deref (s.left n)
    .ok { s with key := update s.key l (some k), ktime := update s.ktime k (s.time l), notice := update s.notice k l }

def leaveSublist (n fuel : Nat) (s : State Event) : Except Fault (State Event × Nat) := do
  let s ← passKey n s
  let n2 ← seek (fun n2 => (s.key n2).isNone) s.right fuel (some n)
  let k ← deref (s.key n2)
  .ok ({ s with numnote := update s.numnote k (s.numnote k - 1) }, k)

/-- The sublist of `kl` becomes part of that of `k`, its right neighbour. -/
def absorb (kl k : Nat) (s : State Event) : Except Fault (State Event) := do
  let s := { s with
    key := update s.key (s.notice kl) none
    numnote := update s.numnote k (s.numnote k + s.numnote kl) }
  let l ← deref (s.kleft kl)
  let s := { s with kright := update s.kright l (some k) }
  let s := { s with kleft := update s.kleft k (s.kleft kl) }
  .ok (freeKey kl s)

/-- Two adjacent sublists become one if they are small enough. -/
def mergeSublists (k : Nat) (s : State Event) : Except Fault (State Event) := do
  let kl ← deref (s.kleft k)
  if !s.isdummy (s.notice kl) && decide (s.numnote kl + s.numnote k ≤ s.NLIM) then absorb kl k s
  else if !s.isdummy (s.notice k) then do
    let kr ← deref (s.kright k)
    if s.numnote kr + s.numnote k ≤ s.NLIM then absorb k kr s else .ok s
  else .ok s

/-- What `el_remove` does with the sublist of a notice before it deletes the notice. -/
def regroup (n fuel : Nat) (s : State Event) : Except Fault (State Event) :=
  match s.key n with
  | some k =>
    if s.numnote k = 1 then do
      let s ← unlinkKey k s
      .ok (freeKey k s)
    else do
      let (s, k) ← leaveSublist n fuel s
      mergeSublists k s
  | none => do
    let (s, k) ← leaveSublist n fuel s
    mergeSublists k s

/-- Deletes the notice and returns the one to the right of it. -/
def removeNotice (n fuel : Nat) (s : State Event) : Except Fault (State Event × Option Nat) := do
  let s ← regroup n fuel s
  let s ← unlinkNotice n s
  .ok (freeNotice n s, s.right n)

def scan (id : Int) (flag : Bool) (fuel : Nat) : Nat → Option Nat → State Event → Except Fault (State Event)
  | _, none, s => .ok s
  | 0, some _, _ => .error .time
  | turns + 1, some n, s => do
    let found ← skip (fun n => s.isdummy n || s.id n != id) s.right fuel (some n)
    match found with
    | none => .ok s
    | some n => do
      let (s, n) ← removeNotice n fuel s
      if flag then .ok s else scan id flag fuel turns n s

def elRemove (id : Int) (flag : Bool) (fuel : Nat) (s : State Event) : Except Fault (State Event) :=
  match s.index, s.current with
  | none, _ => .ok s
  | _, none => .ok s
  | some _, some current => do
    let s ← scan id flag fuel fuel (some current) s
    let ind ← deref s.index
    let k ← seek (fun k => (s.kleft k).isSome) s.kleft fuel (s.kleft (s.ikey ind))
    -- the test for the end comes after the notice has been read
    let n ← seek s.isdummy s.right fuel (s.right (s.notice k))
    .ok { s with current := some n }

def elEmpty (s : State Event) : Bool := s.current.isNone

def countBack (s : State Event) (nextInt : Int) : Nat → Int → Option Nat → Except Fault (Int × Nat)
  | _, _, none => .error .null
  | 0, _, some _ => .error .time
  | fuel + 1, ctr, some n => if s.time n ≥ nextInt then countBack s nextInt fuel (ctr + 1) (s.left n) else .ok (ctr, n)

def linkBefore (fn n : Nat) (s : State Event) : Except Fault (State Event) := do
  let l ← deref (s.left n)
  .ok { s with right := update (update s.right fn (some n)) l (some fn),
               left := update (update s.left fn (s.left n)) n (some fn) }

/-- The first interval goes out, and the overflow interval is split. -/
def shift (fi fuel : Nat) (s : State Event) : Except Fault (State Event) := do
  let fk := s.ikey fi
  let fn := s.notice fk
  let s ← unlinkNotice fn s
  let s ← unlinkKey fk s
  let s := { s with index := s.iright fi }
  let ind ← seek (fun ind => (s.iright ind).all (fun r => (s.iright r).isSome)) s.iright fuel s.index
  let nextInt := s.ktime (s.ikey ind) + s.DT
  if INFINITY < nextInt then .error .overflow
  else do
    let k ← seek (fun k => s.ktime k < nextInt) s.kright fuel (some (s.ikey ind))
    let (ctr, n) ← countBack s nextInt fuel 1 (s.left (s.notice k))
    let n ← deref (s.right n)
    let s := { s with iright := update (update s.iright fi (s.iright ind)) ind (some fi) }
    let s := { s with
      ktime := update s.ktime fk nextInt
      numnote := update (update s.numnote fk (s.numnote k - ctr + 1)) k ctr
      time := update s.time fn nextInt }
    let s ← linkKey fk k s
    linkBefore fn n s

def shifts (current fuel : Nat) : Nat → State Event → Except Fault (State Event)
  | turns, s => do
    let fi ← deref s.index
    if s.ktime (s.ikey fi) < s.time current then
      match turns with
      | 0 => .error .time
      | turns + 1 =>
        if s.DU = 2 then
          let k := s.ikey fi
          if INFINITY < s.ktime k + s.DT then .error .overflow
          else shifts current fuel turns { s with
            ktime := update s.ktime k (s.ktime k + s.DT)
            time := update s.time (s.notice k) (s.time (s.notice k) + s.DT) }
        else do
          let s ← shift fi fuel s
          shifts current fuel turns s
    else .ok s

/-- The key has one notice less, and goes out with the last one. -/
def takeFromKey (k : Nat) (s : State Event) : Except Fault (State Event) :=
  let s := { s with numnote := update s.numnote k (s.numnote k - 1) }
  if s.numnote k = 0 then do
    let s ← unlinkKey k s
    .ok (freeKey k s)
  else .ok s

def elFirst (fuel : Nat) (s : State Event) : Except Fault (State Event × Option Event) :=
  match s.index, s.current with
  | none, _ => .ok (s, none)
  | _, none => .ok (s, none)
  | some _, some current => do
    let s ← shifts current fuel fuel s
    let s ← unlinkNotice current s
    let n ← seek (fun n => (s.key n).isNone) s.right fuel (some current)
    let k ← deref (s.key n)
    let s ← takeFromKey k s
    let fn ← skip s.isdummy s.right fuel (s.right current)
    .ok ({ freeNotice current s with current := fn }, s.event current)

end Svr4.Elm
