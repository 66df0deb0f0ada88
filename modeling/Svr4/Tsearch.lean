import Mathlib

/-! Binary search trees (lib/libc/port/gen/tsearch.c): `tsearch`, `tdelete` and `twalk`. -/

namespace Svr4.Tsearch
open Function

variable {α : Type}

structure Node (α : Type) where
  key : α
  llink : Option Nat
  rlink : Option Nat

/-- A pointer to a link: to the caller's root, or into a node. -/
inductive Place where
  | root
  | llink (n : Nat)
  | rlink (n : Nat)
  deriving DecidableEq

/-- The nodes by address; `used` lists those that `malloc` has given and that are not freed. -/
structure State (α : Type) where
  root : Option Nat
  node : Nat → Node α
  used : List Nat

def State.get (s : State α) : Place → Option Nat
  | .root => s.root
  | .llink n => (s.node n).llink
  | .rlink n => (s.node n).rlink

def State.set (s : State α) (p : Place) (q : Option Nat) : State α :=
  match p with
  | .root => { s with root := q }
  | .llink n => { s with node := update s.node n { s.node n with llink := q } }
  | .rlink n => { s with node := update s.node n { s.node n with rlink := q } }

variable (compar : α → α → Int)

/-- The link to the node with the key, or the null link where it would be. `none` when the time is over. -/
def locate (key : α) (s : State α) : Nat → Place → Option Place
  | time, rootp =>
    match s.get rootp with
    | none => some rootp
    | some n =>
      let r := compar key (s.node n).key
      if r = 0 then some rootp
      else
        match time with
        | 0 => none
        | time + 1 => locate key s time (if r < 0 then .llink n else .rlink n)

def tsearch (q : Option Nat) (key : α) (time : Nat) (s : State α) : Option (State α × Option Nat) :=
  match locate compar key s time .root with
  | none => none
  | some rootp =>
    match s.get rootp, q with
    | some n, _ => some (s, some n)
    | none, none => some (s, none)
    | none, some n => some ({ s.set rootp (some n) with node := update (s.set rootp (some n)).node n ⟨key, none, none⟩, used := n :: s.used }, some n)

/-- The link to the node with the key and the node before it, or nothing when the key is not found. -/
def locateParent (key : α) (s : State α) : Nat → Nat → Place → Nat → Option (Option (Place × Nat))
  | 0, _, _, _ => none
  | time + 1, p, rootp, n =>
    let ans := compar key (s.node n).key
    if ans = 0 then some (some (rootp, p))
    else
      let next := if ans < 0 then Place.llink n else Place.rlink n
      match s.get next with
      | none => some none
      | some m => locateParent key s time n next m

/-- `for (q = r->llink; q->llink != NULL; q = r->llink) r = q;` -/
def successor (s : State α) : Nat → Nat → Nat → Option (Nat × Nat)
  | 0, _, _ => none
  | time + 1, r, q =>
    match (s.node q).llink with
    | none => some (r, q)
    | some next => successor s time q next

def setLlink (n : Nat) (q : Option Nat) (s : State α) : State α := s.set (.llink n) q
def setRlink (n : Nat) (q : Option Nat) (s : State α) : State α := s.set (.rlink n) q
def free (n : Nat) (s : State α) : State α := { s with used := s.used.erase n }

/-- The node that takes the place of `n`, with the links changed for it. -/
def replacement (s : State α) (time n : Nat) : Option (State α × Option Nat) :=
  match (s.node n).llink, (s.node n).rlink with
  | none, r => some (s, r)
  | some q, none => some (s, some q)
  | some q, some r =>
    match (s.node r).llink with
    | none => some (setLlink r (some q) s, some r)
    | some first =>
      match successor s time r first with
      | none => none
      | some (r, q) =>
        let s := setLlink r (s.node q).rlink s
        let s := setLlink q (s.node n).llink s
        some (setRlink q (s.node n).rlink s, some q)

def tdelete (key : α) (time : Nat) (s : State α) : Option (State α × Option Nat) :=
  match s.root with
  | none => some (s, none)
  | some top =>
    match locateParent compar key s time top .root top with
    | none => none
    | some none => some (s, none)
    | some (some (rootp, p)) =>
      match s.get rootp with
      | none => none
      | some n =>
        match replacement s time n with
        | none => none
        | some (s, q) => some ((free n s).set rootp q, some p)

inductive Visit where
  | preorder
  | postorder
  | endorder
  | leaf
  deriving DecidableEq

def walk (s : State α) : Nat → Nat → Nat → Option (List (Nat × Visit × Nat))
  | 0, _, _ => none
  | time + 1, root, level =>
    match (s.node root).llink, (s.node root).rlink with
    | none, none => some [(root, .leaf, level)]
    | l, r => do
      let first ← match l with
        | none => some []
        | some l => walk s time l (level + 1)
      let last ← match r with
        | none => some []
        | some r => walk s time r (level + 1)
      some ((root, .preorder, level) :: first ++ (root, .postorder, level) :: last ++ [(root, .endorder, level)])

def twalk (s : State α) (time : Nat) : Option (List (Nat × Visit × Nat)) :=
  match s.root with
  | none => some []
  | some root => walk s time root 0

end Svr4.Tsearch
