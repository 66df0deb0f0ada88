import Mathlib

/-! The file descriptors of a process (os/fio.c): `ufalloc`. -/

namespace Svr4.Fio
open Function

def NFPCHUNK : Nat := 24

/-- A part of the table: the file that each slot points to, and the flags of the slot. -/
structure Ufchunk where
  ofile : Nat → Option Nat
  pofile : Nat → Nat

structure User where
  flist : List Ufchunk
  nofiles : Nat
  rval1 : Nat

inductive Errno where
  | EBADF
  | EMFILE
  | ENOMEM
  deriving DecidableEq

def zeroed : Ufchunk := ⟨fun _ => none, fun _ => 0⟩

/-- The search for an empty slot, over the slots from `i` on that are left; a chunk is its
place in the chain. `none` stands for a step along a null link. -/
def search (rlim : Nat) (u : User) : Nat → Nat → Nat → Nat → Option (User × Option (Except Errno Nat))
  | 0, _, _, _ => some (u, none)
  | left + 1, i, count, ufp =>
    if i ≥ rlim then some (u, some (.error .EMFILE))
    else
      let (count, ufp) := if i / NFPCHUNK > count then (i / NFPCHUNK, ufp + 1) else (count, ufp)
      let j := i % NFPCHUNK
      match u.flist[ufp]? with
      | none => none
      | some chunk =>
        if chunk.ofile j = none then
          some ({ u with rval1 := i, flist := u.flist.set ufp { chunk with pofile := update chunk.pofile j 0 } }, some (.ok i))
        else search rlim u left (i + 1) count ufp

/-- The loop that allocates chunks, which it does once before it looks at `more`. `kmem` tells
which of the allocations succeed. -/
def addChunks (kmem : Nat → Bool) : Nat → Nat → User → User × Bool
  | 0, k, u => if kmem k then ({ u with flist := u.flist ++ [zeroed], nofiles := u.nofiles + NFPCHUNK }, true) else (u, false)
  | more + 1, k, u =>
    if kmem k then addChunks kmem more (k + 1) { u with flist := u.flist ++ [zeroed], nofiles := u.nofiles + NFPCHUNK } else (u, false)

def lengthen (kmem : Nat → Bool) (rlim start : Nat) (u : User) : User × Except Errno Nat :=
  if u.nofiles ≥ rlim then (u, .error .EMFILE)
  else if start = 0 then
    if kmem 0 then
      ({ flist := u.flist ++ [zeroed], rval1 := u.nofiles, nofiles := u.nofiles + NFPCHUNK }, .ok u.nofiles)
    else (u, .error .ENOMEM)
  else
    let j : Int := ((start / NFPCHUNK + 1 : Nat) : Int) - (u.nofiles / NFPCHUNK : Nat)
    let count := u.nofiles
    match addChunks kmem (j - 1).toNat 0 u with
    | (u, false) => (u, .error .ENOMEM)
    | (u, true) => if start < count then ({ u with rval1 := count }, .ok count) else ({ u with rval1 := start }, .ok start)

def ufalloc (kmem : Nat → Bool) (rlim start : Nat) (u : User) : Option (User × Except Errno Nat) :=
  if start < u.nofiles then
    match search rlim u (u.nofiles - start) start (start / NFPCHUNK) (start / NFPCHUNK) with
    | none => none
    | some (u, some r) => some (u, r)
    | some (u, none) => some (lengthen kmem rlim start u)
  else if start ≥ rlim then some (u, .error .EMFILE)
  else some (lengthen kmem rlim start u)

end Svr4.Fio
