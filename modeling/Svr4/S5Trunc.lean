import Mathlib

/-! Truncation of an s5 file (fs/s5/s5alloc.c): `s5freesp` to a smaller size, and `s5indirtrunc`. -/

namespace Svr4.S5Trunc
open Function

def NADDR : Nat := 13
def NIADDR : Nat := 3
def NDADDR : Nat := NADDR - NIADDR
def IB (i : Nat) : Nat := NDADDR + i
def SINGLE : Nat := 0
def DOUBLE : Nat := 1
def TRIPLE : Nat := 2

/-- The block size is `2 ^ vfsBshift`; an indirect block has `vfsNindir` pointers. -/
structure S5vfs where
  vfsBshift : Nat
  vfsNindir : Nat
  some : 0 < vfsNindir

/-- The pointers in the indirect blocks and in the inode. Pointer 0 is a hole. -/
structure Disk where
  block : Nat → Nat → Nat
  dinode : Nat → Nat

/-- The disk, and the blocks that have been freed, each with the disk as it was then. -/
structure State where
  disk : Disk
  freed : List (Nat × Disk)

def blkfree (bn : Nat) (s : State) : State := { s with freed := s.freed ++ [(bn, s.disk)] }

def bwrite (bn : Nat) (data : Nat → Nat) (s : State) : State := { s with disk := { s.disk with block := update s.disk.block bn data } }

def iupdat (addr : Nat → Nat) (s : State) : State := { s with disk := { s.disk with dinode := addr } }

/-- `for (i = nindir-1; i > last; i--)`, and the index behind it. -/
def discard (below : Nat → Int → State → State) (bap : Nat → Nat) (last : Int) : Nat → State → State × Int
  | 0, s => (s, -1)
  | i + 1, s =>
    if (i : Int) > last then discard below bap last i (if bap i ≠ 0 then blkfree (bap i) (below (bap i) (-1) s) else s) else (s, i)

/-- An indirect block, `below` is the call for the blocks that it points to. It reads the
block first, which may fail. Where the index `last` is behind the block, nothing is cleared. -/
def indirect (v : S5vfs) (error : Nat → Bool) (factor : Nat) (below : Nat → Int → State → State) (bn : Nat) (lastbn : Int) (s : State) : State :=
  if error bn then s
  else
    let last := if lastbn > 0 then lastbn / factor else lastbn
    let bap := s.disk.block bn
    let s := if last < 0 then s else bwrite bn (fun i => if (i : Int) > last ∧ i < v.vfsNindir then 0 else bap i) s
    let (s, i) := discard below bap last v.vfsNindir s
    if lastbn ≥ 0 ∧ bap i.toNat ≠ 0 then below (bap i.toNat) (lastbn % factor) s else s

def s5indirtrunc (v : S5vfs) (error : Nat → Bool) : Nat → Nat → Int → State → State
  | 0 => indirect v error 1 fun _ _ s => s
  | level + 1 => indirect v error (v.vfsNindir ^ (level + 1)) (s5indirtrunc v error level)

/-- The index of the last block to keep; -1 when there is none. -/
def lastblock (v : S5vfs) (lStart : Nat) : Int := ((lStart + 2 ^ v.vfsBshift - 1) >>> v.vfsBshift : Nat) - 1

def lastiblock (v : S5vfs) (last : Int) : Nat → Int
  | 0 => last - NDADDR
  | 1 => lastiblock v last 0 - v.vfsNindir
  | 2 => lastiblock v last 1 - v.vfsNindir * v.vfsNindir
  | _ => -1

/-- The inode without the pointers to the lists that go, and to the direct blocks that do. -/
def shrink (v : S5vfs) (last : Int) (save : Nat → Nat) (i : Nat) : Nat :=
  if i < NDADDR then (if (i : Int) > last then 0 else save i) else if lastiblock v last (i - NDADDR) < 0 then 0 else save i

def freeList (v : S5vfs) (error : Nat → Bool) (last : Int) (save : Nat → Nat) (i : Nat) (s : State) : State :=
  let lastbn := if lastiblock v last i < 0 then -1 else lastiblock v last i
  if save (IB i) ≠ 0 then
    let s := s5indirtrunc v error i (save (IB i)) lastbn s
    if lastbn < 0 then blkfree (save (IB i)) s else s
  else s

/-- The indirect lists from the given ones on, and whether it returns in the middle. -/
def freeLists (v : S5vfs) (error : Nat → Bool) (last : Int) (save : Nat → Nat) : List Nat → State → State × Bool
  | [], s => (s, false)
  | i :: rest, s =>
    let s := freeList v error last save i s
    if lastiblock v last i ≥ 0 then (s, true) else freeLists v error last save rest s

def freeDirect (last : Int) (save : Nat → Nat) : Nat → State → State
  | 0, s => s
  | i + 1, s => if (i : Int) > last then freeDirect last save i (if save i ≠ 0 then blkfree (save i) s else s) else s

def s5freesp (v : S5vfs) (error : Nat → Bool) (lStart : Nat) (s : State) : State :=
  let last := lastblock v lStart
  let save := s.disk.dinode
  let s := iupdat (shrink v last save) s
  let (s, done) := freeLists v error last save [TRIPLE, DOUBLE, SINGLE] s
  if done then s else freeDirect last save NDADDR s

/-- Through the indirect blocks to the block with the index `bn` in a list; 0 for a hole. -/
def fetch (n : Nat) (block : Nat → Nat → Nat) : Nat → Nat → Nat → Nat
  | 0, inb, _ => inb
  | level + 1, inb, bn => if inb = 0 then 0 else fetch n block level (block inb (bn / n ^ level)) (bn % n ^ level)

/-- `bmap` (fs/s5/s5bmap.c) for a block that is read; 0 for a hole, and for a block that no list has room for. -/
def bmap (n : Nat) (d : Disk) (lbn : Nat) : Nat :=
  if lbn < NDADDR then d.dinode lbn
  else
    let bn := lbn - NDADDR
    if bn < n then fetch n d.block 1 (d.dinode (IB SINGLE)) bn
    else
      let bn := bn - n
      if bn < n ^ 2 then fetch n d.block 2 (d.dinode (IB DOUBLE)) bn
      else
        let bn := bn - n ^ 2
        if bn < n ^ 3 then fetch n d.block 3 (d.dinode (IB TRIPLE)) bn else 0

end Svr4.S5Trunc
