import Svr4.Library.Shuffle

/-! The sorting of sort.c: `qksort` sorts blocks of records in memory, `msort` writes the
records of the blocks, and `merge` those of files. -/

namespace Svr4.Sorting
open Function Shuffle

def MTHRESH : Nat := 8
def TREEZ : Nat := 32
def newline : UInt8 := 10

abbrev Record := List UInt8

/-- `compare`: it is negative where the first record comes after the second. -/
abbrev Compare := Record → Record → Int

def wline (os : List UInt8) (s : Record) : List UInt8 := os ++ s.takeWhile (· ≠ 0)

def mark (s : Record) : Record := s.set 0 0

def marked (s : Record) : Bool := s.headD 0 = 0

/-- What `qksort` has between its comparisons: the part from `lp` to `hp` is the pivots, and
nothing is known from `i` up to `lp`, nor down from `j` to `hp`. -/
structure Part (a l : Nat) where
  mem : Nat → Record
  i : Nat
  j : Nat
  lp : Nat
  hp : Nat
  low : a ≤ i
  left : i ≤ lp
  pivots : lp ≤ hp
  right : hp ≤ j
  high : j < l

def qstexc (m : Nat → Record) (p q r : Nat) : Nat → Record :=
  let t := m p
  let m := update m p (m r)
  let m := update m r (m q)
  update m q t

variable {a l : Nat}

/-- The loops of `qksort`, from the top or from the label `loop`. -/
def part (compare : Compare) (loop : Bool) (s : Part a l) : Part a l :=
  if top : loop = false ∧ s.i < s.lp then
    let c := compare (s.mem s.i) (s.mem s.lp)
    if c = 0 then
      part compare false { s with
        mem := exchange s.mem s.i (s.lp - 1), lp := s.lp - 1, left := by omega, pivots := by have := s.pivots; omega }
    else if c < 0 then part compare false { s with i := s.i + 1, low := by have := s.low; omega, left := by omega }
    else part compare true s
  else if more : s.hp < s.j then
    let c := compare (s.mem s.hp) (s.mem s.j)
    if c = 0 then
      part compare true { s with
        mem := exchange s.mem (s.hp + 1) s.j, hp := s.hp + 1, pivots := by have := s.pivots; omega, right := by omega }
    else if c > 0 then
      if met : s.i = s.lp then
        part compare true { s with
          mem := qstexc s.mem s.i (s.hp + 1) s.j, hp := s.hp + 1, lp := s.lp + 1, i := s.lp + 1
          low := by have := s.low; have := s.left; omega
          left := by omega
          pivots := by have := s.pivots; omega
          right := by omega }
      else
        part compare false { s with
          mem := exchange s.mem s.i s.j, j := s.j - 1, i := s.i + 1
          low := by have := s.low; omega
          left := by have := s.left; omega
          right := by omega
          high := by have := s.high; omega }
    else part compare true { s with j := s.j - 1, right := by omega, high := by have := s.high; omega }
  else if met : s.i = s.lp then s
  else
    part compare false { s with
      mem := qstexc s.mem s.j (s.lp - 1) s.i, lp := s.lp - 1, hp := s.hp - 1, j := s.hp - 1
      left := by have := s.left; omega
      pivots := by have := s.pivots; omega
      right := by omega
      high := by have := s.right; have := s.high; omega }
termination_by 2 * ((s.lp - s.i) + (s.j - s.hp)) + (if loop then 0 else 1)
decreasing_by
  all_goals obtain ⟨mem, i, j, lp, hp, low, left, pivots, right, high⟩ := s
  all_goals simp_all
  all_goals omega

def marks (m : Nat → Record) (lp hp : Nat) (k : Nat) : Record := if lp ≤ k ∧ k < hp then mark (m k) else m k

/-- How far the pivot is from the middle, by the three records there. -/
def shift (compare : Compare) (m : Nat → Record) (lp : Nat) : Int :=
  let i := lp - 1
  let j := lp + 1
  let c := compare (m lp) (m i)
  let delta : Int := if c < 0 then -1 else if c > 0 then 1 else 0
  let c := compare (m lp) (m j)
  let delta := if c < 0 then delta - 1 else if c > 0 then delta + 1 else delta
  let delta := delta.tdiv 2
  let c := compare (m i) (m j)
  if delta ≠ 0 ∧ c ≠ 0 then if c > 0 then -delta else delta else 0

def pivot (compare : Compare) (m : Nat → Record) (a l : Nat) : Nat :=
  let n := (l - a) / 2
  if n ≥ MTHRESH then (n + shift compare m (a + n)).toNat else n

theorem shift_small (compare : Compare) (m : Nat → Record) (lp : Nat) :
    -1 ≤ shift compare m lp ∧ shift compare m lp ≤ 1 := by
  unfold shift
  dsimp only
  split_ifs <;> decide

theorem pivot_inside (compare : Compare) (m : Nat → Record) (some_ : ¬ l - a ≤ 1) : a + pivot compare m a l < l := by
  unfold pivot
  dsimp only
  split
  case isTrue big =>
    have small := shift_small compare m (a + (l - a) / 2)
    have wide : 8 ≤ (l - a) / 2 := big
    omega
  case isFalse => omega

def begin_ (compare : Compare) (m : Nat → Record) (a l : Nat) (some_ : ¬ l - a ≤ 1) : Part a l where
  mem := m
  i := a
  j := l - 1
  lp := a + pivot compare m a l
  hp := a + pivot compare m a l
  low := le_rfl
  left := Nat.le_add_right _ _
  pivots := le_rfl
  right := Nat.le_sub_one_of_lt (pivot_inside compare m some_)
  high := by omega

theorem Part.shorter (s : Part a l) : s.lp - a < l - a ∧ l - (s.hp + 1) < l - a := by
  obtain ⟨_, i, j, lp, hp, low, left, pivots, right, high⟩ := s
  dsimp only
  omega

/-- `uflg` is whether of equal records only one counts, and the others are marked. -/
def qksort (compare : Compare) (uflg : Bool) (m : Nat → Record) (a l : Nat) : Nat → Record :=
  if some_ : l - a ≤ 1 then m
  else
    let s := part compare false (begin_ compare m a l some_)
    let m := if uflg then marks s.mem s.lp s.hp else s.mem
    if s.lp - a ≥ l - s.hp then qksort compare uflg (qksort compare uflg m (s.hp + 1) l) a s.lp
    else qksort compare uflg (qksort compare uflg m a s.lp) (s.hp + 1) l
termination_by l - a
decreasing_by
  all_goals first | exact (Part.shorter _).1 | exact (Part.shorter _).2

structure Btree where
  rp : Record
  rn : Nat

/-- `treep` from `tp` on, which `n` entries are in use of, and the counters of `insert`. -/
structure Heads where
  tree : List Btree
  wasfirst : Int
  notfirst : Int
  bonus : Int

def cmpsave (n : Nat) : Int := if n < 2 then 0 else Nat.log2 (n + 1)

/-- The loop of `insert`. `hip` is one past the last entry that is searched. -/
def search (compare : Compare) (rp : Nat → Record) (x : Record) (midp lop hip : Nat) : Nat :=
  if lop < hip then
    let midp := lop + (hip - 1 - lop) / 2
    let c := compare x (rp midp)
    if c = 0 then midp
    else if c < 0 then search compare rp x (midp + 1) (midp + 1) hip
    else search compare rp x midp lop midp
  else midp
termination_by hip - lop

/-- The first entry goes to its place among the others, which are in order. -/
def insert (compare : Compare) (h : Heads) : Heads :=
  match h.tree with
  | [] => h
  | tp :: rest =>
    if h.wasfirst > h.notfirst ∧ rest.length + 1 > 2 ∧ compare tp.rp (rest.headD tp).rp ≥ 0 then
      { h with wasfirst := h.wasfirst + h.bonus }
    else
      let midp := search compare (fun k => (h.tree.getD k tp).rp) tp.rp 0 1 h.tree.length
      if midp - 1 > 0 then
        { h with tree := rest.take (midp - 1) ++ tp :: rest.drop (midp - 1), notfirst := h.notfirst + 1 }
      else { h with wasfirst := h.wasfirst + h.bonus }

variable {σ : Type}

/-- The inner loop of `msort` and of `merge`: the first entry gets the next record of its
block or file, or leaves, until the first is not one that was written. `read` is none when
it ends the program. -/
def refill (compare : Compare) (read : σ → Option (Option (Record × σ))) (uflg : Bool) (save : Record) :
    Nat → Heads → (Nat → σ) → Option (Heads × (Nat → σ))
  | 0, _, _ => none
  | time + 1, h, blk =>
    match h.tree with
    | [] => none
    | tp :: rest => do
      match ← read (blk tp.rn) with
      | some (r, more) =>
        let h := insert compare { h with tree := { tp with rp := r } :: rest }
        let blk := update blk tp.rn more
        if uflg ∧ compare (h.tree.headD tp).rp save = 0 then refill compare read uflg save time h blk else return (h, blk)
      | none =>
        match rest with
        | [] => return ({ h with tree := [] }, blk)
        | next :: _ =>
          let h := { h with tree := rest, bonus := cmpsave rest.length }
          if uflg ∧ compare next.rp save = 0 then refill compare read uflg save time h blk else return (h, blk)

def emit (compare : Compare) (read : σ → Option (Option (Record × σ))) (uflg : Bool) :
    Nat → Heads → (Nat → σ) → List UInt8 → Option (List UInt8)
  | 0, _, _, _ => none
  | time + 1, h, blk, os =>
    match h.tree with
    | [] => some os
    | tp :: _ => do
      let os := wline os tp.rp
      let (h, blk) ← refill compare read uflg tp.rp time h blk
      emit compare read uflg time h blk os

/-- The blocks from number `j` on, each sorted, and listed from its far end. -/
def blocks (compare : Compare) (uflg : Bool) :
    Nat → Nat → Nat → Nat → (Nat → Record) → (Nat → List Record) → Nat → List Record
  | 0, _, _, _, _, blk => blk
  | n + 1, j, a, i, m, blk =>
    let cnt := i / (n + 1)
    let m := qksort compare uflg m a (a + cnt)
    blocks compare uflg n (j + 1) (a + cnt) (i - cnt) m (update blk j (slice m a (a + cnt)).reverse)

/-- The first record of each of `j` blocks, from the last block. -/
def firsts (compare : Compare) : Nat → Heads → (Nat → List Record) → Option (Heads × (Nat → List Record))
  | 0, h, blk => some (h, blk)
  | j + 1, h, blk =>
    match blk j with
    | [] => none
    | r :: more => firsts compare j (insert compare { h with tree := ⟨r, j⟩ :: h.tree }) (update blk j more)

/-- The next record of a block. With `uflg` those marked are passed over. -/
def fetch (uflg : Bool) (blk : List Record) : Option (Option (Record × List Record)) :=
  match if uflg then blk.dropWhile marked else blk with
  | [] => some none
  | r :: more => some (some (r, more))

/-- What is written for the records from `a` up to `b`. The counters are as an earlier call
left them. -/
def msort (time : Nat) (compare : Compare) (uflg : Bool) (wasfirst notfirst bonus : Int) (m : Nat → Record) (a b : Nat) :
    Option (List UInt8) :=
  if b - a < 1 then some []
  else if b - a = 1 then some (wline [] (m a))
  else do
    let n := if b - a ≥ TREEZ then TREEZ else b - a
    let blk := blocks compare uflg n 0 a (b - a) m fun _ => []
    let (h, blk) ← firsts compare n ⟨[], wasfirst, notfirst, bonus⟩ blk
    emit compare (fetch uflg) uflg time { h with wasfirst := 0, notfirst := 0, bonus := cmpsave n } blk []

/-- At most `n` bytes, the last of which may be a newline, and what follows. -/
def fgets : Nat → List UInt8 → Record × List UInt8
  | 0, file => ([], file)
  | _ + 1, [] => ([], [])
  | n + 1, c :: file =>
    if c = newline then ([c], file)
    else ((c :: (fgets n file).1), (fgets n file).2)

/-- The next line of a file, none at its end. A line that is too long ends the program. -/
def rline (maxrec : Nat) (file : List UInt8) : Option (Option (Record × List UInt8)) :=
  let (s, file) := fgets (maxrec - 1) file
  let s := s.takeWhile (· ≠ 0)
  if s.length = 0 then some none
  else if s.getLastD 0 = newline then some (some (s, file))
  else if s.length < maxrec - 1 then some (some (s ++ [newline], file))
  else none

/-- The files that are not empty, with their first records. `nf` are before them. -/
def opens (maxrec : Nat) : List (List UInt8) → Nat → (Nat → List UInt8) → Option (List Btree × (Nat → List UInt8))
  | [], _, tfile => some ([], tfile)
  | file :: files, nf, tfile => do
    match ← rline maxrec file with
    | none => opens maxrec files nf tfile
    | some (s, more) =>
      let (tree, tfile) ← opens maxrec files (nf + 1) (update tfile nf more)
      return (⟨s, nf⟩ :: tree, tfile)

def settle (compare : Compare) : List Btree → Heads → Heads
  | [], h => h
  | tp :: rest, h =>
    let h := settle compare rest h
    if h.tree = [] then { h with tree := [tp] } else insert compare { h with tree := tp :: h.tree }

def merge (time maxrec : Nat) (compare : Compare) (uflg : Bool) (wasfirst notfirst bonus : Int) (files : List (List UInt8)) :
    Option (List UInt8) := do
  let (tree, tfile) ← opens maxrec files 0 fun _ => []
  let h := settle compare tree ⟨[], wasfirst, notfirst, bonus⟩
  emit compare (rline maxrec) uflg time { h with bonus := cmpsave tree.length } tfile []

end Svr4.Sorting
