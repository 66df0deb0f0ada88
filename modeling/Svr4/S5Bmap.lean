import Svr4.S5Alloc

/-! `bmap` of the s5 file system (fs/s5/s5bmap.c): the block for an index of a file. Where it is to be written,
the blocks that are missing on the way to it are allocated. -/

namespace Svr4.S5Bmap
open Function S5Alloc

def NADDR : Nat := 13
def S5_HOLE : Int := -1
def PAGESHIFT : Nat := 12
def PAGESIZE : Nat := 2 ^ PAGESHIFT
def PAGEOFFSET : Nat := PAGESIZE - 1

inductive Vtype
  | VREG
  | VDIR
  | VLNK
  deriving DecidableEq

inductive SegRw
  | S_READ
  | S_WRITE
  | S_OTHER
  deriving DecidableEq

/-- What `bmap` returns as its error, of the reads the one that fails. -/
inductive Errno
  | EFBIG
  | ENOSPC
  | bread
  | fbread
  deriving DecidableEq

/-- The block size is `2 ^ vfsBshift`, and an indirect block has `2 ^ vfsNshift` pointers. -/
structure S5vfs where
  vfsBshift : Nat
  vfsNshift : Nat

def S5vfs.vfsNindir (v : S5vfs) : Nat := 2 ^ v.vfsNshift
def S5vfs.vfsNmask (v : S5vfs) : Nat := v.vfsNindir - 1

structure Inode where
  vType : Vtype
  iSync : Bool
  iChanged : Bool
  iSize : Nat
  iAddr : Nat → Int
  iMap : Option (Nat → Int)

/-- The words of an indirect block are those that a block of the free list has. -/
structure State where
  fs : S5Alloc.State
  ip : Inode

def word (b : Fblk) : Nat → Int
  | 0 => b.dfNfree
  | i + 1 => b.dfFree i

def setWord (b : Fblk) : Nat → Int → Fblk
  | 0, x => { b with dfNfree := x }
  | i + 1, x => { b with dfFree := update b.dfFree i x }

def clrbuf : Fblk := ⟨0, fun _ => 0⟩

def bwrite (s : State) (bn : Int) (data : Fblk) : State := { s with fs := { s.fs with fblk := update s.fs.fblk bn data } }

/-- The reads of a call that fail. Those of an indirect block are named by the number of levels
below its pointers: `bread` for the first read, `again` for the one after an allocation. `list` is for
the list in a free block, when a block of that level is allocated. -/
structure Failures where
  bread : Nat → Bool
  again : Nat → Bool
  list : Nat → Bool
  fbread : Bool

/-- The block and the one to read ahead, and the state that is left. -/
abbrev Outcome := Except Errno (Int × Int) × State

def hole (s : State) : Outcome := (.ok (S5_HOLE, S5_HOLE), s)

def ahead (bn : Int) : Int := if bn = 0 then S5_HOLE else bn

def setAddr (s : State) (i : Nat) (nb : Int) : State :=
  { s with ip := { s.ip with iAddr := update s.ip.iAddr i nb, iChanged := true } }

def directFound (i : Nat) (nb : Int) (s : State) : Outcome :=
  (.ok (nb, if i < NADDR - 4 then ahead (s.ip.iAddr (i + 1)) else S5_HOLE), s)

def direct (f : Failures) (rw : SegRw) (allocOnly : Bool) (i : Nat) (s : State) : Outcome :=
  if s.ip.iAddr i ≠ 0 then directFound i (s.ip.iAddr i) s
  else if rw ≠ .S_WRITE then hole s
  else match blkalloc s.fs (f.list 0) with
    | (none, fs) => (.error .ENOSPC, { s with fs })
    | (some nb, fs) =>
      if allocOnly = false ∧ f.fbread = true then (.error .fbread, { s with fs := blkfree fs nb })
      else directFound i nb (setAddr { s with fs } i nb)

/-- A pointer that is missing in the indirect block `inb`, with `k` levels below it. -/
def link (f : Failures) (allocOnly : Bool) (k : Nat) (inb : Int) (i : Nat) (s : State) : Except Errno Int × State :=
  match blkalloc s.fs (f.list k) with
  | (none, fs) => (.error .ENOSPC, { s with fs })
  | (some nb, fs) =>
    if k = 0 ∧ allocOnly = false ∧ f.fbread = true then (.error .fbread, { s with fs := blkfree fs nb })
    else
      let s := if k = 0 then { s with fs } else bwrite { s with fs } nb clrbuf
      if f.again k = true then (.error .bread, s) else (.ok nb, bwrite s inb (setWord (s.fs.fblk inb) i nb))

/-- The loop through the indirect blocks, with this many to go. -/
def fetch (v : S5vfs) (f : Failures) (rw : SegRw) (allocOnly : Bool) (bn : Nat) : Nat → Int → State → Outcome
  | 0, inb, s => (.ok (inb, S5_HOLE), s)
  | k + 1, inb, s =>
    if f.bread k = true then (.error .bread, s)
    else
      let i := (bn >>> (v.vfsNshift * k)) &&& v.vfsNmask
      let nb := word (s.fs.fblk inb) i
      if nb = 0 ∧ rw ≠ .S_WRITE then hole s
      else match if nb = 0 then link f allocOnly k inb i s else (.ok nb, s) with
        | (.error e, s) => (.error e, s)
        | (.ok nb, s) =>
          if k = 0 then (.ok (nb, if i < v.vfsNindir - 1 then ahead (word (s.fs.fblk inb) (i + 1)) else S5_HOLE), s)
          else fetch v f rw allocOnly bn k nb s

/-- The loop that finds the number `j` of the pointer from the end of the inode, with `nb` for the list before. -/
def level (v : S5vfs) : Nat → Nat → Nat → Option (Nat × Nat)
  | 0, _, _ => none
  | j + 1, nb, bn =>
    let nb := nb <<< v.vfsNshift
    if bn < nb then some (j + 1, bn) else level v j nb (bn - nb)

def indirect (v : S5vfs) (f : Failures) (rw : SegRw) (allocOnly : Bool) (j bn : Nat) (s : State) : Outcome :=
  if s.ip.iAddr (NADDR - j) ≠ 0 then fetch v f rw allocOnly bn (4 - j) (s.ip.iAddr (NADDR - j)) s
  else if rw ≠ .S_WRITE then hole s
  else match blkalloc s.fs (f.list (4 - j)) with
    | (none, fs) => (.error .ENOSPC, { s with fs })
    | (some inb, fs) => fetch v f rw allocOnly bn (4 - j) inb (setAddr (bwrite { s with fs } inb clrbuf) (NADDR - j) inb)

def lbmap (v : S5vfs) (f : Failures) (lbn : Nat) (rw : SegRw) (allocOnly : Bool) (s : State) : Outcome :=
  let allocOnly := if s.ip.vType = .VDIR ∨ s.ip.iSync = true then false else allocOnly
  if lbn < NADDR - 3 then direct f rw allocOnly lbn s
  else match level v 3 1 (lbn - (NADDR - 3)) with
    | none => (.error .EFBIG, s)
    | some (j, bn) => indirect v f rw allocOnly j bn s

def nblks (v : S5vfs) (iSize : Nat) : Nat :=
  if 2 ^ v.vfsBshift < PAGESIZE then ((iSize + PAGEOFFSET) >>> PAGESHIFT) * (PAGESIZE / 2 ^ v.vfsBshift)
  else (iSize + 2 ^ v.vfsBshift - 1) / 2 ^ v.vfsBshift

def s5freemap (s : State) : State := if s.ip.vType ≠ .VREG then s else { s with ip := { s.ip with iMap := none } }

def bmap (v : S5vfs) (f : Failures) (s : State) (lbn : Nat) (rw : SegRw) (allocOnly : Bool) : Outcome :=
  match s.ip.iMap with
  | none => lbmap v f lbn rw allocOnly s
  | some map =>
    let bn := if lbn < nblks v s.ip.iSize then map lbn else 0
    if bn = 0 then
      if rw = .S_WRITE then lbmap v f lbn rw allocOnly (s5freemap s) else hole s
    else (.ok (bn, if lbn + 1 < nblks v s.ip.iSize then ahead (map (lbn + 1)) else S5_HOLE), s)

end Svr4.S5Bmap
