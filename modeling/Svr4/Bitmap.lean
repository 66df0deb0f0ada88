import Mathlib

/-! Bitmaps of unsigned longs (sys/bitmap.h, os/bitmap.c). -/

namespace Svr4.Bitmap
open Function

def BT_ULSHIFT : Nat := 5
def BT_ULMASK : Nat := 0x1f

def btBiw (bitindex : Nat) : BitVec 32 := 1#32 <<< (bitindex &&& BT_ULMASK)

def btTest (bitmap : Nat → BitVec 32) (bitindex : Nat) : Bool :=
  (bitmap (bitindex >>> BT_ULSHIFT)).getLsbD (bitindex &&& BT_ULMASK)

def btSet (bitmap : Nat → BitVec 32) (bitindex : Nat) : Nat → BitVec 32 :=
  update bitmap (bitindex >>> BT_ULSHIFT) (bitmap (bitindex >>> BT_ULSHIFT) ||| btBiw bitindex)

def btClear (bitmap : Nat → BitVec 32) (bitindex : Nat) : Nat → BitVec 32 :=
  update bitmap (bitindex >>> BT_ULSHIFT) (bitmap (bitindex >>> BT_ULSHIFT) &&& ~~~btBiw bitindex)

def highInWord (word : BitVec 32) (wx : Nat) : Nat :=
    if word &&& 0xffff0000 ≠ 0 then
      if word &&& 0xff000000 ≠ 0 then
        if word &&& 0xf0000000 ≠ 0 then
          if word &&& 0xc0000000 ≠ 0 then
            if word &&& 0x80000000 ≠ 0 then wx <<< BT_ULSHIFT ||| 31 else wx <<< BT_ULSHIFT ||| 30
          else if word &&& 0x20000000 ≠ 0 then wx <<< BT_ULSHIFT ||| 29 else wx <<< BT_ULSHIFT ||| 28
        else if word &&& 0x0c000000 ≠ 0 then
          if word &&& 0x08000000 ≠ 0 then wx <<< BT_ULSHIFT ||| 27 else wx <<< BT_ULSHIFT ||| 26
        else if word &&& 0x02000000 ≠ 0 then wx <<< BT_ULSHIFT ||| 25 else wx <<< BT_ULSHIFT ||| 24
      else if word &&& 0x00f00000 ≠ 0 then
        if word &&& 0x00c00000 ≠ 0 then
          if word &&& 0x00800000 ≠ 0 then wx <<< BT_ULSHIFT ||| 23 else wx <<< BT_ULSHIFT ||| 22
        else if word &&& 0x00200000 ≠ 0 then wx <<< BT_ULSHIFT ||| 21 else wx <<< BT_ULSHIFT ||| 20
      else if word &&& 0x000c0000 ≠ 0 then
        if word &&& 0x00080000 ≠ 0 then wx <<< BT_ULSHIFT ||| 19 else wx <<< BT_ULSHIFT ||| 18
      else if word &&& 0x00020000 ≠ 0 then wx <<< BT_ULSHIFT ||| 17 else wx <<< BT_ULSHIFT ||| 16
    else if word &&& 0x0000ff00 ≠ 0 then
      if word &&& 0x0000f000 ≠ 0 then
        if word &&& 0x0000c000 ≠ 0 then
          if word &&& 0x00008000 ≠ 0 then wx <<< BT_ULSHIFT ||| 15 else wx <<< BT_ULSHIFT ||| 14
        else if word &&& 0x00002000 ≠ 0 then wx <<< BT_ULSHIFT ||| 13 else wx <<< BT_ULSHIFT ||| 12
      else if word &&& 0x00000c00 ≠ 0 then
        if word &&& 0x00000800 ≠ 0 then wx <<< BT_ULSHIFT ||| 11 else wx <<< BT_ULSHIFT ||| 10
      else if word &&& 0x00000200 ≠ 0 then wx <<< BT_ULSHIFT ||| 9 else wx <<< BT_ULSHIFT ||| 8
    else if word &&& 0x000000f0 ≠ 0 then
      if word &&& 0x000000c0 ≠ 0 then
        if word &&& 0x00000080 ≠ 0 then wx <<< BT_ULSHIFT ||| 7 else wx <<< BT_ULSHIFT ||| 6
      else if word &&& 0x00000020 ≠ 0 then wx <<< BT_ULSHIFT ||| 5 else wx <<< BT_ULSHIFT ||| 4
    else if word &&& 0x0000000c ≠ 0 then
      if word &&& 0x00000008 ≠ 0 then wx <<< BT_ULSHIFT ||| 3 else wx <<< BT_ULSHIFT ||| 2
    else if word &&& 0x00000002 ≠ 0 then wx <<< BT_ULSHIFT ||| 1 else wx <<< BT_ULSHIFT ||| 0

def btGethighbit (mapp : Nat → BitVec 32) (wx : Nat) : Int :=
  if mapp wx = 0 then
    match wx with
    | 0 => -1
    | wx + 1 => btGethighbit mapp wx
  else highInWord (mapp wx) wx

end Svr4.Bitmap
