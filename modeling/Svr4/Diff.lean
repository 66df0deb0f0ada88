import Svr4.Library.Shuffle
import Svr4.Library.Splice

/-! The comparison of diff.c: the lines of two files are hashed and sorted into classes, `stone`
finds a longest common subsequence of the hashes, `check` breaks the matches that only the
hashes make, and `output` calls `change` for what is between the matches. -/

namespace Svr4.Diff
open Function Shuffle

abbrev Str := List UInt8

def newline : UInt8 := 10
def HALFMASK : UInt32 := 0xf
def BUFSIZ : Nat := 1024

inductive Opt
  | D_NORMAL
  | D_EDIT
  | D_REVERSE
  | D_CONTEXT
  | D_IFDEF
  | D_NREVERSE
  deriving DecidableEq

structure Line where
  serial : Nat
  value : Int

structure Cand where
  x : Nat
  y : Int
  pred : Nat

structure Memory where
  ints : Nat → Int
  klist : Nat → Nat
  clist : Nat → Cand

/-- The loop of `readhash` without -b, -w and -i: the sum, and what is left of the file. -/
def sums (sum shift : UInt32) : Str → UInt32 × Str
  | [] => (if shift ≠ 0 then sum else 0, [])
  | t :: f =>
    if t = newline then (sum, f)
    else sums (sum + t.toUInt32 <<< (shift &&& HALFMASK)) ((shift &&& HALFMASK) + 7) f

def readhash (f : Str) : Int × Str := ((sums 1 0 f).1.toInt32.toInt, (sums 1 0 f).2)

theorem sums_shorter (sum shift : UInt32) (f : Str) : (sums sum shift f).2.length ≤ f.length - 1 := by
  induction f generalizing sum shift with
  | nil => exact le_rfl
  | cons t f ih =>
    unfold sums
    split
    · exact le_rfl
    · exact (ih _ _).trans (by simp)

theorem readhash_shorter (f : Str) (some_ : (readhash f).1 ≠ 0) : (readhash f).2.length < f.length := by
  cases f with
  | nil => exact absurd rfl some_
  | cons t f => exact Nat.lt_succ_of_le (sums_shorter 1 0 (t :: f))

def prepare (f : Str) : List Int :=
  if (readhash f).1 = 0 then [] else (readhash f).1 :: prepare (readhash f).2
termination_by f.length
decreasing_by exact readhash_shorter f ‹_›

def file (values : List Int) (i : Nat) : Line := ⟨0, values.getD (i - 1) 0⟩

def prune_pref (file0 file1 : Nat → Line) (len0 len1 pref : Nat) : Nat :=
  if pref < len0 ∧ pref < len1 ∧ (file0 (pref + 1)).value = (file1 (pref + 1)).value then
    prune_pref file0 file1 len0 len1 (pref + 1)
  else pref
termination_by len0 - pref

def prune_suff (file0 file1 : Nat → Line) (len0 len1 pref suff : Nat) : Nat :=
  if suff < len0 - pref ∧ suff < len1 - pref ∧ (file0 (len0 - suff)).value = (file1 (len1 - suff)).value then
    prune_suff file0 file1 len0 len1 pref (suff + 1)
  else suff
termination_by len0 - suff

/-- `sfile`, with the serials that the last loop of `prune` gives. -/
def sfile (file : Nat → Line) (pref slen : Nat) (i : Nat) : Line :=
  if i ≤ slen then { file (pref + i) with serial := i } else file (pref + i)

def after (aim ai : Line) : Prop := aim.value > ai.value ∨ aim.value = ai.value ∧ aim.serial > ai.serial

instance (aim ai : Line) : Decidable (after aim ai) := inferInstanceAs (Decidable (_ ∨ _))

/-- The innermost loop of `sort`; below the start of the array, `ai -= m` counts as the start. -/
def sift {m : Nat} (gap : m ≠ 0) (a : Nat → Line) (ai : Nat) : Nat → Line :=
  if 0 < ai then if after (a (ai + m)) (a ai) then a else sift gap (exchange a ai (ai + m)) (ai - m) else a
termination_by ai

def passes (a : Nat → Line) (n m : Nat) : Nat → Line :=
  if gap : m ≠ 0 then passes ((List.range' 1 (n - m)).foldl (sift gap) a) n (m / 2) else a
termination_by m

def distance (n j m : Nat) : Nat := if 0 < j ∧ j ≤ n then distance n (2 * j) (2 * j - 1) else m
termination_by n + 1 - j

def sort (a : Nat → Line) (n : Nat) : Nat → Line := passes a n (distance n 1 0 / 2)

def equiv_values (a : Nat → Line) (n : Nat) (b : Nat → Line) (m i j : Nat) : Nat → Line :=
  if i ≤ n then
    if j ≤ m then
      if (a i).value < (b j).value then equiv_values (update a i { a i with value := 0 }) n b m (i + 1) j
      else if (a i).value = (b j).value then equiv_values (update a i { a i with value := j }) n b m (i + 1) j
      else equiv_values a n b m i (j + 1)
    else equiv_values (update a i { a i with value := 0 }) n b m (i + 1) j
  else a
termination_by (n + 1 - i) + (m + 1 - j)

/-- The last two loops of `equiv`, at the head of the outer or of the inner one. It is `none` for an
access outside of the array. -/
def equiv_member (b : Nat → Line) (m : Nat) (c : Nat → Int) (j : Nat) (outer : Bool) : Option (Nat → Int) :=
  if outer then
    if j ≤ m then equiv_member b m (update c j (-(b j).serial)) j false else some (update c j (-1))
  else if m < j then none
  else if (b (j + 1)).value = (b j).value then
    equiv_member b m (update c (j + 1) (b (j + 1)).serial) (j + 1) false
  else equiv_member b m c (j + 1) true
termination_by (m + 2 - j, if outer then 1 else 0)

def unsort (f : Nat → Line) (l : Nat) (a : Nat → Int) : Nat → Int :=
  (List.range' 1 l).foldl (fun a i => update a (f i).serial (f i).value) a

structure Stone where
  clist : Nat → Cand
  clen : Nat
  c : Nat → Nat
  k : Nat

def newcand (s : Stone) (x : Nat) (y : Int) (pred : Nat) : Stone × Nat :=
  ({ s with clist := update s.clist s.clen ⟨x, y, pred⟩, clen := s.clen + 1 }, s.clen)

def narrow (clist : Nat → Cand) (c : Nat → Nat) (y : Int) (i j : Nat) : Nat :=
  if (i + j) / 2 > i then
    if (clist (c ((i + j) / 2))).y > y then narrow clist c y i ((i + j) / 2)
    else if (clist (c ((i + j) / 2))).y < y then narrow clist c y ((i + j) / 2) j
    else (i + j) / 2
  else (i + j) / 2 + 1
termination_by j - i

def search (clist : Nat → Cand) (c : Nat → Nat) (k : Nat) (y : Int) : Nat :=
  if (clist (c k)).y < y then k + 1 else narrow clist c y 0 (k + 1)

/-- The body of the inner loop of `stone`: the new `oldl` and `oldc`, and whether there was a `break`. -/
def turn (s : Stone) (i : Nat) (y : Int) (oldl oldc : Nat) : Stone × Nat × Nat × Bool :=
  if y ≤ (s.clist oldc).y then (s, oldl, oldc, false)
  else
    let l := search s.clist s.c s.k y
    let oldc := if l ≠ oldl + 1 then s.c (l - 1) else oldc
    if l ≤ s.k then
      if (s.clist (s.c l)).y ≤ y then (s, oldl, oldc, false)
      else
        let tc := s.c l
        let new := newcand s i y oldc
        ({ new.1 with c := update s.c l new.2 }, l, tc, false)
    else
      let new := newcand s i y oldc
      ({ new.1 with c := update s.c l new.2, k := s.k + 1 }, oldl, oldc, true)

/-- The inner loop of `stone`. It is `none` for an access outside of the array. -/
def turns (b : Nat → Int) (m i : Nat) (s : Stone) (j : Nat) (y : Int) (oldl oldc : Nat) : Option Stone :=
  let next := turn s i y oldl oldc
  if next.2.2.2 then some next.1
  else if m < j then none
  else if b (j + 1) > 0 then turns b m i next.1 (j + 1) (b (j + 1)) next.2.1 next.2.2.1
  else some next.1
termination_by m + 1 - j

def stone_start (memory : Memory) : Stone :=
  let new := newcand ⟨memory.clist, 0, memory.klist, 0⟩ 0 0 0
  { new.1 with c := update memory.klist 0 new.2 }

def stone (a : Nat → Int) (n : Nat) (b : Nat → Int) (m : Nat) (memory : Memory) : Option Stone :=
  (List.range' 1 n).foldlM
    (fun s i => if a i = 0 then some s else turns b m i s (a i).toNat (-b (a i).toNat) 0 (s.c 0)) (stone_start memory)

/-- The second loop of `unravel`, that takes a `fuel` of turns. -/
def chain (clist : Nat → Cand) (pref : Nat) : Nat → Nat → (Nat → Int) → Option (Nat → Int)
  | 0, _, _ => none
  | fuel + 1, q, J =>
    if (clist q).y = 0 then some J
    else chain clist pref fuel (clist q).pred (update J ((clist q).x + pref) ((clist q).y + pref))

def pruned (pref suff len0 len1 : Nat) (i : Nat) : Int :=
  if i ≤ pref then i else if i > len0 - suff then i + len1 - len0 else 0

def unravel (s : Stone) (pref suff len0 len1 : Nat) : Option (Nat → Int) :=
  chain s.clist pref s.clen (s.c s.k) (pruned pref suff len0 len1)

def skipline : Str → Str
  | [] => []
  | c :: f => if c = 0 then f else if c ≠ newline then skipline f else f

/-- The inner loop of `check`: whether the two lines are the same, and what is left of the files. -/
def same_line : Str → Str → Bool × Str × Str
  | c :: f, d :: g =>
    if c ≠ d then (false, if c ≠ newline then skipline f else f, if d ≠ newline then skipline g else g)
    else if c = newline then (true, f, g)
    else same_line f g
  | c :: f, [] => (false, if c ≠ newline then skipline f else f, [])
  | [], d :: g => (false, [], if d ≠ newline then skipline g else g)
  | [], [] => (true, [], [])

structure Check where
  J : Nat → Int
  j : Int
  f : Str
  g : Str

def check_line (s : Check) (i : Nat) : Check :=
  if s.J i = 0 then { s with f := skipline s.f }
  else
    let skipped := (s.J i - s.j).toNat
    let next := same_line s.f (skipline^[skipped] s.g)
    { J := if next.1 then s.J else update s.J i 0, j := s.j + skipped + 1, f := next.2.1, g := next.2.2 }

def check (J : Nat → Int) (len0 : Nat) (f g : Str) : Nat → Int :=
  ((List.range' 1 len0).foldl check_line ⟨J, 1, f, g⟩).J

structure Change where
  a : Nat
  b : Nat
  c : Int
  d : Int

def same_up (J : Nat → Int) (m i0 : Nat) : Nat := if i0 ≤ m ∧ J i0 = J (i0 - 1) + 1 then same_up J m (i0 + 1) else i0
termination_by m + 1 - i0

def zeros_up (J : Nat → Int) (m i1 : Nat) : Nat := if i1 < m ∧ J (i1 + 1) = 0 then zeros_up J m (i1 + 1) else i1
termination_by m - i1

def ascending (m : Nat) : Nat → (Nat → Int) → Nat → Option (List Change)
  | 0, _, _ => none
  | fuel + 1, J, i0 =>
    if i0 ≤ m then
      let i0 := same_up J m i0
      let j0 := J (i0 - 1) + 1
      let i1 := zeros_up J m (i0 - 1)
      let j1 := J (i1 + 1) - 1
      (⟨i0, i1, j0, j1⟩ :: ·) <$> ascending m fuel (update J i1 j1) (i1 + 1)
    else some []

def same_down (J : Nat → Int) : Nat → Nat
  | 0 => 0
  | i0 + 1 => if J (i0 + 1) = J (i0 + 2) - 1 ∧ J (i0 + 1) ≠ 0 then same_down J i0 else i0 + 1

def zeros_down (J : Nat → Int) : Nat → Nat
  | 0 => 0
  | i1 + 1 => if i1 + 1 > 1 ∧ J i1 = 0 then zeros_down J i1 else i1 + 1

def descending : Nat → (Nat → Int) → Nat → Option (List Change)
  | 0, _, _ => none
  | fuel + 1, J, i0 =>
    if i0 ≥ 1 then
      let i0 := same_down J i0
      let j0 := J (i0 + 1) - 1
      let i1 := zeros_down J (i0 + 1)
      let j1 := J (i1 - 1) + 1
      (⟨i1, i0, j1, j0⟩ :: ·) <$> descending fuel (update J i1 j1) (i1 - 1)
    else some []

def output (opt : Opt) (m len1 : Nat) (J : Nat → Int) : Option (List Change) :=
  let J := update (update J 0 0) (m + 1) (len1 + 1)
  let calls := if opt ≠ .D_EDIT then ascending m (m + 2) J 1 else descending (m + 2) J m
  (· ++ if m = 0 then [⟨1, 0, 1, len1⟩] else []) <$> calls

def Change.Effective (r : Change) : Prop := ¬ (r.a > r.b ∧ r.c > r.d)

def isbinary (buf : Str) : Bool := buf.contains 0

def unravelled (memory : Memory) (values0 values1 : List Int) : Option (Nat → Int) := do
  let len0 := values0.length
  let len1 := values1.length
  let pref := prune_pref (file values0) (file values1) len0 len1 0
  let suff := prune_suff (file values0) (file values1) len0 len1 pref 0
  let slen0 := len0 - pref - suff
  let slen1 := len1 - pref - suff
  let a := sort (sfile (file values0) pref slen0) slen0
  let b := sort (sfile (file values1) pref slen1) slen1
  let class_ := unsort (equiv_values a slen0 b slen1 1 1) slen0 memory.ints
  let member ← equiv_member (update b (slen1 + 1) { b (slen1 + 1) with value := 0 }) slen1 memory.ints 1 true
  let s ← stone class_ slen0 member slen1 memory
  unravel s pref suff len0 len1

/-- `main` from the label `notsame` on, for files that are not binary. -/
def notsame (memory : Memory) (opt : Opt) (f g : Str) : Option (List Change) := do
  let values0 := prepare f
  let values1 := prepare g
  let len0 := values0.length
  let len1 := values1.length
  let pref := prune_pref (file values0) (file values1) len0 len1 0
  let suff := prune_suff (file values0) (file values1) len0 len1 pref 0
  let slen0 := len0 - pref - suff
  let slen1 := len1 - pref - suff
  let a := sort (sfile (file values0) pref slen0) slen0
  let b := sort (sfile (file values1) pref slen1) slen1
  let class_ := unsort (equiv_values a slen0 b slen1 1 1) slen0 memory.ints
  let member ← equiv_member (update b (slen1 + 1) { b (slen1 + 1) with value := 0 }) slen1 memory.ints 1 true
  let s ← stone class_ slen0 member slen1 memory
  let J ← unravel s pref suff len0 len1
  output opt len0 len1 (check J len0 f g)

theorem notsame_eq (memory : Memory) (opt : Opt) (f g : Str) : notsame memory opt f g =
    (unravelled memory (prepare f) (prepare g)).bind
      fun J => output opt (prepare f).length (prepare g).length (check J (prepare f).length f g) := by
  simp only [notsame, unravelled, Option.bind_eq_bind, Option.bind_assoc]

def diff (memory : Memory) (opt : Opt) (f g : Str) : Option (List Change) :=
  if f = g then some []
  else if isbinary (f.take BUFSIZ) || isbinary (g.take BUFSIZ) then some []
  else notsame memory opt f g

end Svr4.Diff
