import Mathlib

/-! A memory of bytes that holds words of four bytes, the lowest byte first. -/

namespace Bytes

/-- A byte for every address. -/
def Memory := Nat → UInt8

namespace Memory

variable {m m' : Memory} {a b w src dst length : Nat}

/-- The word at an address. -/
def word (m : Memory) (a : Nat) : Nat :=
  (m a).toNat + 256 * (m (a + 1)).toNat + 65536 * (m (a + 2)).toNat + 16777216 * (m (a + 3)).toNat

/-- Store a byte. -/
def set (m : Memory) (a : Nat) (c : UInt8) : Memory := fun b => if b = a then c else m b

/-- Store a word. -/
def put (m : Memory) (a w : Nat) : Memory := fun b =>
  if b = a then UInt8.ofNat w
  else if b = a + 1 then UInt8.ofNat (w / 256)
  else if b = a + 2 then UInt8.ofNat (w / 65536)
  else if b = a + 3 then UInt8.ofNat (w / 16777216)
  else m b

/-- `memcpy` between places that do not overlap. -/
def copy (m : Memory) (dst src length : Nat) : Memory := fun b =>
  if dst ≤ b ∧ b < dst + length then m (src + (b - dst)) else m b

theorem word_congr (same : ∀ b, a ≤ b → b < a + 4 → m' b = m b) : m'.word a = m.word a := by
  rw [word, word, same a (by omega) (by omega), same (a + 1) (by omega) (by omega), same (a + 2) (by omega) (by omega),
    same (a + 3) (by omega) (by omega)]

theorem word_put (small : w < 2 ^ 32) : (m.put a w).word a = w := by
  have second : (m.put a w) (a + 1) = UInt8.ofNat (w / 256) := by simp [put]
  have third : (m.put a w) (a + 2) = UInt8.ofNat (w / 65536) := by simp [put]
  have fourth : (m.put a w) (a + 3) = UInt8.ofNat (w / 16777216) := by simp [put]
  have first : (m.put a w) a = UInt8.ofNat w := by simp [put]
  rw [word, first, second, third, fourth]
  simp only [UInt8.toNat_ofNat']
  omega

theorem put_apart (apart : b < a ∨ a + 4 ≤ b) : m.put a w b = m b := by
  rw [put, if_neg (by omega), if_neg (by omega), if_neg (by omega), if_neg (by omega)]

theorem word_put_apart (apart : b + 4 ≤ a ∨ a + 4 ≤ b) : (m.put a w).word b = m.word b := by
  apply word_congr
  intro c _ _
  apply put_apart
  omega

theorem set_apart {c : UInt8} (apart : b ≠ a) : m.set a c b = m b := if_neg apart

theorem copy_inside (inside : b < length) : m.copy dst src length (dst + b) = m (src + b) := by
  rw [copy, if_pos (by omega), Nat.add_sub_cancel_left]

theorem copy_apart (apart : b < dst ∨ dst + length ≤ b) : m.copy dst src length b = m b := by
  rw [copy, if_neg (by omega)]

end Memory
end Bytes
