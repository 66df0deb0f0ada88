import Svr4.Library.Decimal
import Svr4.Diff

/-! The text that diff.c writes: `check` collects the places of the lines, from which `fetch` copies
what a call of `change` shows of them. The formats -c and -D, which other functions put together,
are not among these. -/

namespace Svr4.DiffText
open Function Diff

def puts (s : String) : Str := s.toList.map fun c => UInt8.ofNat c.toNat

def skipcount : Str → Nat
  | [] => 1
  | c :: f => if c = 0 then 1 else if c ≠ newline then skipcount f + 1 else 1

/-- What the inner loop of `check` adds to `ctold` and `ctnew`. -/
def same_count : Str → Str → Nat × Nat
  | c :: f, d :: g =>
    if c ≠ d then (1 + if c ≠ newline then skipcount f else 0, 1 + if d ≠ newline then skipcount g else 0)
    else if c = newline then (1, 1)
    else ((same_count f g).1 + 1, (same_count f g).2 + 1)
  | c :: f, [] => (1 + if c ≠ newline then skipcount f else 0, 1)
  | [], d :: g => (1, 1 + if d ≠ newline then skipcount g else 0)
  | [], [] => (1, 1)

structure Index where
  check : Check
  ctold : Nat
  ctnew : Nat
  ixold : Nat → Nat
  ixnew : Nat → Nat

def pass (s : Index) : Index :=
  let ctnew := s.ctnew + skipcount s.check.g
  { s with
    check := { s.check with j := s.check.j + 1, g := skipline s.check.g }
    ctnew := ctnew
    ixnew := update s.ixnew s.check.j.toNat ctnew }

def index_line (s : Index) (i : Nat) : Index :=
  if s.check.J i = 0 then
    let ctold := s.ctold + skipcount s.check.f
    { s with check := check_line s.check i, ctold := ctold, ixold := update s.ixold i ctold }
  else
    let passed := pass^[(s.check.J i - s.check.j).toNat] s
    let count := same_count passed.check.f passed.check.g
    let ctold := passed.ctold + count.1
    let ctnew := passed.ctnew + count.2
    { check := check_line s.check i
      ctold := ctold
      ctnew := ctnew
      ixold := update passed.ixold i ctold
      ixnew := update passed.ixnew passed.check.j.toNat ctnew }

/-- The arrays `ixold` and `ixnew` start as what `talloc` returns. -/
def index (memory : Memory) (J : Nat → Int) (len0 len1 : Nat) (f g : Str) : Index :=
  let start : Index := ⟨⟨J, 1, f, g⟩, 0, 0, update memory.klist 0 0, update memory.klist 0 0⟩
  let s := (List.range' 1 len0).foldl index_line start
  pass^[(len1 + 1 - s.check.j).toNat] s

def decimal (n : Int) : Str := (if n < 0 then puts "-" else []) ++ Decimal.digits n.natAbs

def range (a b : Int) (separator : Str) : Str := decimal (if a > b then b else a) ++ if a < b then separator ++ decimal b else []

def fetch_line (tflag : Bool) (col : Nat) : Str → Str
  | [] => []
  | c :: lb =>
    if c = 0 then []
    else if c = newline then []
    else if c = 9 ∧ tflag then List.replicate (8 - col % 8) 32 ++ fetch_line tflag (col - col % 8 + 8) lb
    else c :: fetch_line tflag (col + 1) lb

def fetch (tflag : Bool) (f : Nat → Nat) (a b : Int) (lb s : Str) : Str :=
  if a > b then []
  else (List.range' a.toNat (b - a + 1).toNat).flatMap fun i => s ++ fetch_line tflag 0 (lb.drop (f (i - 1))) ++ [newline]

def letter (r : Change) : Str := if r.a > r.b then puts "a" else if r.c > r.d then puts "d" else puts "c"

def command (opt : Opt) (r : Change) : Option Str :=
  match opt with
  | .D_NORMAL => some (range r.a r.b (puts ",") ++ letter r ++ range r.c r.d (puts ",") ++ [newline])
  | .D_EDIT => some (range r.a r.b (puts ",") ++ letter r ++ [newline])
  | .D_REVERSE => some (letter r ++ range r.a r.b (puts " ") ++ [newline])
  | .D_NREVERSE =>
    let added := puts "a" ++ decimal r.b ++ puts " " ++ decimal (r.d - r.c + 1) ++ [newline]
    if r.a > r.b then some added
    else some (puts "d" ++ decimal r.a ++ puts " " ++ decimal ((r.b : Int) - r.a + 1) ++ [newline] ++ if r.c > r.d then [] else added)
  | .D_CONTEXT => none
  | .D_IFDEF => none

def change (opt : Opt) (tflag : Bool) (ixold ixnew : Nat → Nat) (f g : Str) (r : Change) : Option Str :=
  if (r.a : Int) > r.b ∧ r.c > r.d then some []
  else do
    let text ← command opt r
    let old := if opt = .D_NORMAL then
        fetch tflag ixold r.a r.b f (puts "< ") ++ if (r.a : Int) ≤ r.b ∧ r.c ≤ r.d then puts "---\n" else []
      else []
    let new := fetch tflag ixnew r.c r.d g (if opt = .D_NORMAL then puts "> " else [])
    let stop := if (opt = .D_EDIT ∨ opt = .D_REVERSE) ∧ r.c ≤ r.d then puts ".\n" else []
    some (text ++ old ++ new ++ stop)

/-- `J` as `check` leaves it for `output`, where the files differ. -/
def checked (memory : Memory) (f g : Str) : Option (Nat → Int) :=
  (unravelled memory (prepare f) (prepare g)).map fun J => check J (prepare f).length f g

/-- What `main` writes when it compares the two files with these names. -/
def written (memory : Memory) (opt : Opt) (tflag : Bool) (file1 file2 f g : Str) : Option Str :=
  if f = g then some []
  else if isbinary (f.take BUFSIZ) || isbinary (g.take BUFSIZ) then
    some (puts "Binary files " ++ file1 ++ puts " and " ++ file2 ++ puts " differ\n")
  else do
    let J ← unravelled memory (prepare f) (prepare g)
    let places := index memory J (prepare f).length (prepare g).length f g
    let calls ← output opt (prepare f).length (prepare g).length places.check.J
    let texts ← calls.mapM (change opt tflag places.ixold places.ixnew f g)
    some texts.flatten

end Svr4.DiffText
