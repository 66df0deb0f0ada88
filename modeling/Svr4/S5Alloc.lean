import Mathlib

/-! The free-block list of an s5 file system (fs/s5/s5alloc.c): up to NICFREE block numbers
in the superblock, the rest in lists that free blocks themselves hold. -/

namespace Svr4.S5Alloc
open Function

def NICFREE : Nat := 50

structure Filsys where
  sIsize : Nat
  sFsize : Int
  sNfree : Int
  sFree : Nat → Int
  sTfree : Int
  sFmod : Bool

structure Fblk where
  dfNfree : Int
  dfFree : Nat → Int

structure State where
  fp : Filsys
  fblk : Int → Fblk

def badblock (fp : Filsys) (bn : Int) : Bool := bn < fp.sIsize ∨ bn ≥ fp.sFsize

/-- The loop of `blkalloc` from an `s_nfree` on: the block it ends with, or no space. -/
def nextBlock (fp : Filsys) : Nat → Option (Int × Nat)
  | 0 => none
  | n + 1 =>
    if fp.sFree n = 0 then none
    else if badblock fp (fp.sFree n) then nextBlock fp n
    else some (fp.sFree n, n)

def nospace (s : State) : State := { s with fp := { s.fp with sNfree := 0, sTfree := 0 } }

/-- The block, or `none` for ENOSPC. The read of a list may fail. -/
def blkalloc (s : State) (ioError : Bool) : Option Int × State :=
  match nextBlock s.fp s.fp.sNfree.toNat with
  | none => (none, nospace s)
  | some (bno, n) =>
    let fp := { s.fp with sNfree := n }
    let fp := if n = 0 ∧ ioError = false then { fp with sNfree := (s.fblk bno).dfNfree, sFree := (s.fblk bno).dfFree } else fp
    if fp.sNfree ≤ 0 ∨ (NICFREE : Int) < fp.sNfree then (none, nospace { s with fp })
    else (some bno, { s with fp := { fp with sTfree := if fp.sTfree ≠ 0 then fp.sTfree - 1 else fp.sTfree, sFmod := true } })

def blkfree (s : State) (bno : Int) : State :=
  let s := { s with fp := { s.fp with sFmod := true } }
  if badblock s.fp bno then s
  else
    let s := if s.fp.sNfree ≤ 0 then { s with fp := { s.fp with sNfree := 1, sFree := update s.fp.sFree 0 0 } } else s
    let s :=
      if (NICFREE : Int) ≤ s.fp.sNfree then
        { s with fblk := update s.fblk bno ⟨s.fp.sNfree, s.fp.sFree⟩, fp := { s.fp with sNfree := 0 } }
      else s
    { s with fp := { s.fp with
      sFree := update s.fp.sFree s.fp.sNfree.toNat bno, sNfree := s.fp.sNfree + 1, sTfree := s.fp.sTfree + 1 } }

end Svr4.S5Alloc
