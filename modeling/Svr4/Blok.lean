import Svr4.Library.Bytes

/-! The storage of the shell (sh/blok.c, sh/stak.c, sh/stak.h): a heap of blocks linked in
a circle, and above it the string stack, which the heap covers when it grows. -/

namespace Svr4.Blok
open Bytes

def BYTESPERWORD : Nat := 4
def BUSY : Nat := 1
def BRKINCR : Nat := 512
def BRKMAX : Nat := 2048

def andNot (a b : Nat) : Nat := a - (a &&& b)

def round (a : Nat) : Nat := andNot (a + BYTESPERWORD - 1) (BYTESPERWORD - 1)

/-- The memory and the pointers into it. `brk` is the break when the shell starts. -/
structure Shell where
  mem : Memory
  brk : Nat
  brkincr : Nat
  brkbegin : Nat
  bloktop : Nat
  blokp : Nat
  stakbas : Nat
  stakbot : Nat
  staktop : Nat
  stakbsy : Nat

def busy (m : Memory) (x : Nat) : Bool := m.word x &&& BUSY ≠ 0

def following (m : Memory) (p : Nat) : Nat := andNot (m.word p) BUSY

/-- `while (!busy(q = p->word)) p->word = q->word`, and the last `q`. -/
def coalesce : Nat → Memory → Nat → Option (Memory × Nat)
  | 0, _, _ => none
  | time + 1, m, p =>
    let q := m.word p
    if busy m q then some (m, q) else coalesce time (m.put p (m.word q)) p

def take (s : Shell) (p q rbytes : Nat) : Shell :=
  let blokp := p + rbytes
  let mem := if q > blokp then s.mem.put blokp (s.mem.word p) else s.mem
  { s with blokp := blokp, mem := mem.put p (blokp ||| BUSY) }

/-- What the search does at one block: the address returned if the block will do. -/
def inspect (time : Nat) (s : Shell) (p rbytes : Nat) : Option (Shell × Option Nat) :=
  if busy s.mem p then some (s, none)
  else
    (coalesce time s.mem p).bind fun merged =>
      let s := { s with mem := merged.1 }
      if merged.2 - p ≥ rbytes then some (take s p merged.2 rbytes, some (p + BYTESPERWORD)) else some (s, none)

/-- The rest of a turn at the block `q`: `p > q || (c++) == 0` for the block `p` after it. -/
def proceed (rest : Shell → Nat → Nat → Option (Shell × Option Nat)) (q c : Nat) (result : Shell × Option Nat) :
    Option (Shell × Option Nat) :=
  match result.2 with
  | some _ => some result
  | none =>
    let p := following result.1.mem q
    if p > q then rest result.1 p c else if c = 0 then rest result.1 p (c + 1) else some result

/-- The search of `alloc`, up to the top and once from the bottom. -/
def search : Nat → Shell → Nat → Nat → Nat → Option (Shell × Option Nat)
  | 0, _, _, _, _ => none
  | time + 1, s, p, c, rbytes => (inspect time s p rbytes).bind (proceed (fun s p c => search time s p c rbytes) p c)

/-- The stack in use becomes a busy block, and is put on the chain of such blocks. Its size
is rounded up by a byte at least, so that `staktop` doesn't get clobbered. -/
def cover (s : Shell) : Shell :=
  let rndstak := round (s.staktop + 1)
  let blokstak := s.stakbas - BYTESPERWORD
  { s with
    mem := (s.mem.put blokstak s.stakbsy).put s.bloktop (rndstak ||| BUSY)
    stakbsy := blokstak, bloktop := rndstak }

/-- A free block at the top of the arena, and the unfinished string moves above it. -/
def grow (s : Shell) (reqd : Nat) : Shell :=
  let reqd := andNot (reqd + s.brkincr) (s.brkincr - 1)
  let top := s.bloktop + reqd
  let mem := (s.mem.put s.bloktop top).put top (s.brkbegin + 1)
  let stakadr := top + 2 * BYTESPERWORD
  let length := s.staktop - s.stakbot
  { s with
    blokp := s.bloktop, bloktop := top
    mem := if length ≠ 0 then mem.copy stakadr s.stakbot length else mem
    stakbas := stakadr, stakbot := stakadr, staktop := stakadr + length }

def addblok (s : Shell) (reqd : Nat) : Shell :=
  let s := if s.stakbot = 0 then { s with brkbegin := s.brk, bloktop := s.brk } else s
  let s := if s.stakbas ≠ s.staktop then cover s else s
  grow s reqd

def rbytes (nbytes : Nat) : Nat := round (nbytes + BYTESPERWORD)

/-- What becomes of a search: the address it has found, or another one in a larger arena. -/
def answer (again : Shell → Option (Shell × Nat)) (result : Shell × Option Nat) : Option (Shell × Nat) :=
  match result.2 with
  | some ap => some (result.1, ap)
  | none => again result.1

/-- Storage allocator (circular first fit strategy): the address of the new block. -/
def alloc : Nat → Shell → Nat → Option (Shell × Nat)
  | 0, _, _ => none
  | time + 1, s, nbytes =>
    (search time s s.blokp 0 (rbytes nbytes)).bind (answer fun s => alloc time (addblok s (rbytes nbytes)) nbytes)

def free (s : Shell) (ap : Nat) : Shell :=
  if ap ≠ 0 ∧ ap < s.bloktop ∧ ap > s.brkbegin then
    let p := ap - BYTESPERWORD
    { s with mem := s.mem.put p (andNot (s.mem.word p) BUSY) }
  else s

def getstak (s : Shell) (asize : Nat) : Shell × Nat :=
  let size := round asize
  ({ s with staktop := s.stakbot + size, stakbot := s.stakbot + size }, s.stakbot)

def endstak (s : Shell) (argp : Nat) : Shell × Nat :=
  let top := round (argp + 1)
  ({ s with mem := s.mem.set argp 0, stakbot := top, staktop := top }, s.stakbot)

/-- `while (stakbsy > x)`: give the covered stack blocks back to the heap. -/
def uncover : Nat → Shell → Nat → Option Shell
  | 0, _, _ => none
  | time + 1, s, x =>
    if s.stakbsy > x then
      let freed := free s s.stakbsy
      uncover time { freed with stakbsy := freed.mem.word freed.stakbsy } x
    else some s

def tdystak (time : Nat) (s : Shell) (x : Nat) : Option Shell :=
  (uncover time s x).map fun s => { s with stakbot := max x s.stakbas, staktop := max x s.stakbas }

/-- Set up stack for local use. `short` tells that little is left below the break. -/
def locstak (s : Shell) (short : Bool) : Shell :=
  if short then { s with brkincr := if s.brkincr < BRKMAX then s.brkincr + 256 else s.brkincr } else s

def pushstak (s : Shell) (c : UInt8) : Shell := { s with mem := s.mem.set s.staktop c, staktop := s.staktop + 1 }

def setstak (s : Shell) (x : Nat) : Shell := { s with staktop := s.stakbot + x }

/-- What `main` does first, with the globals as the loader leaves them. -/
def main_start (mem : Memory) (brk : Nat) : Shell :=
  addblok ⟨mem, brk, BRKINCR, 0, 0, 0, 0, 0, 0, 0⟩ 0

end Svr4.Blok
