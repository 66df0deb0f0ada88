import Mathlib

/-! The free-inode cache of an s5 file system (fs/s5/s5alloc.c): `ialloc` and `ifree`. -/

namespace Svr4.S5Ialloc
open Function

def NICINOD : Nat := 100

/-- The layout of the i-list: `2 ^ vfsInoshift` inodes in each block, from block two to `sIsize`. -/
structure S5vfs where
  vfsInoshift : Nat
  sIsize : Nat

def S5vfs.vfsInopb (v : S5vfs) : Nat := 2 ^ v.vfsInoshift

def FsITOD (v : S5vfs) (x : Nat) : Nat := (x + (2 * v.vfsInopb - 1)) >>> v.vfsInoshift

def FsINOS (v : S5vfs) (x : Nat) : Nat := ((x >>> v.vfsInoshift) <<< v.vfsInoshift) + 1

/-- The part of the superblock that the cache needs, and the modes of the inodes on the disk. -/
structure Filsys where
  sNinode : Nat
  sInode : Nat → Nat
  sTinode : Nat
  diMode : Nat → Nat

/-- What becomes of one round of `ialloc`; an inode that was already allocated makes it start again. -/
inductive Outcome
  | found (ino : Nat)
  | failed
  | again
  | enospc
  deriving DecidableEq

/-- `fp->s_ninode > 0 && (ino = fp->s_inode[--fp->s_ninode])`. -/
def pop (s : Filsys) : Option Nat × Filsys :=
  if s.sNinode > 0 then
    (if s.sInode (s.sNinode - 1) = 0 then none else some (s.sInode (s.sNinode - 1)), { s with sNinode := s.sNinode - 1 })
  else (none, s)

def take (failed : Bool) (mode : Nat) (s : Filsys) (ino : Nat) : Outcome × Filsys :=
  if failed then (.failed, s)
  else if s.diMode ino = 0 then (.found ino, { s with diMode := update s.diMode ino mode, sTinode := s.sTinode - 1 })
  else (.again, s)

/-- The inodes of a block, as long as there is room in the cache. -/
def scanBlock : Nat → Filsys → Nat → Filsys × Nat
  | 0, s, ino => (s, ino)
  | n + 1, s, ino =>
    if s.sNinode = 0 then (s, ino)
    else if s.diMode ino = 0 then
      scanBlock n { s with sNinode := s.sNinode - 1, sInode := update s.sInode (s.sNinode - 1) ino } ((ino + 1) % 65536)
    else scanBlock n s ((ino + 1) % 65536)

def scan (v : S5vfs) : Nat → Filsys → Nat → Filsys
  | 0, s, _ => s
  | n + 1, s, ino =>
    let r := scanBlock v.vfsInopb s ino
    if r.1.sNinode = 0 then r.1 else scan v n r.1 r.2

/-- The cache is filled from its end; zeros stand where inodes have not been found. -/
def rebuild (v : S5vfs) (s : Filsys) : Filsys :=
  let ino := FsINOS v (s.sInode 0) % 65536
  let s := scan v (v.sIsize - FsITOD v ino) { s with sNinode := NICINOD } ino
  if s.sNinode > 0 then { s with sInode := update (update s.sInode (s.sNinode - 1) 0) 0 0 } else s

/-- One round of `ialloc`, up to the label `loop`; none is a round that has not ended in time. -/
def ialloc (v : S5vfs) (failed : Bool) (mode : Nat) : Nat → Filsys → Option (Outcome × Filsys)
  | 0, _ => none
  | time + 1, s =>
    match pop s with
    | (some ino, s) => some (take failed mode s ino)
    | (none, s) =>
      if s.sTinode > 0 then
        let s := rebuild v s
        if s.sNinode ≠ NICINOD then ialloc v failed mode time { s with sNinode := NICINOD }
        else some (.enospc, { s with sNinode := 0, sTinode := 0 })
      else some (.enospc, { s with sNinode := 0, sTinode := 0 })

def ifree (s : Filsys) (ino : Nat) : Filsys :=
  if s.diMode ino = 0 then s
  else
    let s := { s with diMode := update s.diMode ino 0, sTinode := s.sTinode + 1 }
    if s.sNinode ≥ NICINOD ∨ s.sNinode = 0 then
      if ino < s.sInode 0 then { s with sInode := update s.sInode 0 ino } else s
    else { s with sInode := update s.sInode s.sNinode ino, sNinode := s.sNinode + 1 }

end Svr4.S5Ialloc
