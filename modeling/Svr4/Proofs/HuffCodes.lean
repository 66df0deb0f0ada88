import Svr4.Huff
import Svr4.Library.Bits

/-! Every message has a code of its own, and `encode` and `decode` agree on those that fit into a word. -/

namespace Svr4.Proofs.HuffCodes
open Huff Bits

def code (h : huffcode) (k : Int) : List Bool :=
  if k < h.c then bits (h.w - 1) k
  else List.replicate ((k - h.c) / h.n).toNat true ++ bits h.w (h.cq + (k - h.c) % h.n)

/-- What `huff` computes, without the limits of a long: `2 * p * m` words of which `m` begin with each code of
the first group. -/
structure Derived (h : huffcode) (p m : Int) : Prop where
  width : 1 ≤ h.w
  fits : h.w < L
  half : p = 2 ^ (h.w - 1)
  rest : m = 2 ^ (L - h.w)
  positive : 1 ≤ h.n
  enough : h.n ≤ p
  least : p < 2 * h.n
  c : h.c = p - h.n
  cq : h.cq = 2 * h.c
  cs : h.cs = h.cq * m
  qcs : 2 * h.qcs = (2 * p + h.cq) * m
  v0 : h.v0 = -h.c

variable {d k k' y v p m : Int} {h : huffcode} {g i l time : Nat}

theorem long_eq {x : Int} (low : -2 ^ 31 ≤ x) (high : x < 2 ^ 31) : long x = x := by
  have small : (2 : Int) ^ (BYTE * sizeof_long) = 4294967296 := by norm_num [BYTE, sizeof_long]
  unfold long Int.bmod
  push_cast
  simp only [small]
  omega

theorem power_le {a b : Nat} (le : a ≤ b) : (2 : Int) ^ a ≤ 2 ^ b := pow_le_pow_right₀ (by norm_num) le

theorem huff_width_least (time : Nat) (more : 2 ^ i < 2 * d) (fits : d ≤ 2 ^ 29) (room : 29 ≤ i + time) :
    ∃ j, huff_width d (time + 1) (i + 1) (2 ^ i) = some (j + 1, 2 ^ j) ∧ d ≤ 2 ^ j ∧ (2 : Int) ^ j < 2 * d := by
  induction time generalizing i with
  | zero =>
    have wide : (2 : Int) ^ 29 ≤ 2 ^ i := power_le (by omega)
    refine ⟨i, ?_, by omega, more⟩
    rw [huff_width, if_neg (by omega)]
  | succ time ih =>
    by_cases less : 2 ^ i < d
    · have double : (2 : Int) ^ (i + 1) = 2 ^ i * 2 := pow_succ 2 i
      have small : long (2 ^ i * q) = 2 ^ (i + 1) := by
        have positive : (0 : Int) < 2 ^ i := by positivity
        rw [double]
        exact long_eq (by simp only [q, QW]; omega) (by simp only [q, QW]; omega)
      rw [huff_width, if_pos less, small]
      exact ih (by omega) (by omega)
    · exact ⟨i, by rw [huff_width, if_neg less], by omega, more⟩

theorem power_unique {a b : Nat} (enough : d ≤ 2 ^ a) (least : (2 : Int) ^ a < 2 * d) (enough' : d ≤ 2 ^ b) (least' : (2 : Int) ^ b < 2 * d) :
    a = b := by
  have double : ∀ i : Nat, (2 : Int) ^ (i + 1) = 2 ^ i * 2 := fun i => pow_succ 2 i
  have := double a
  have := double b
  obtain below | same | above := lt_trichotomy a b
  · have := power_le (show a + 1 ≤ b from below)
    omega
  · exact same
  · have := power_le (show b + 1 ≤ a from above)
    omega

theorem huff_derived (positive : 1 ≤ d) (narrowest : IsLeast {w | 1 ≤ w ∧ d ≤ 2 ^ (w - 1)} l) (fits : l < L) :
    ∃ h, huff d = some h ∧ h.n = d ∧ h.w = l ∧ ∃ p m, Derived h p m := by
  obtain ⟨⟨one, enough⟩, minimal⟩ := narrowest
  obtain ⟨i, rfl⟩ := Nat.exists_eq_add_of_le' one
  rw [Nat.add_sub_cancel] at enough
  have short : i ≤ 29 := by
    simp only [L, BYTE, sizeof_long] at fits
    omega
  have small := power_le short
  have least : (2 : Int) ^ i < 2 * d := by
    cases i with
    | zero =>
      rw [pow_zero]
      omega
    | succ i =>
      by_contra more
      have lower := pow_succ (2 : Int) i
      have : i + 1 + 1 ≤ i + 1 := minimal ⟨by omega, by rw [Nat.add_sub_cancel]; omega⟩
      omega
  obtain ⟨j, found, enough', least'⟩ := huff_width_least (i := 0) (d := d) 32 (by rw [pow_zero]; omega) (by omega) (by omega)
  obtain rfl := power_unique enough least enough' least'
  have found : huff_width d (BYTE * sizeof_long + 1) QW 1 = some (i + 1, 2 ^ i) := found
  have half : (2 : Int) ^ (i + 1) = 2 ^ i * 2 := pow_succ 2 i
  have rest : (2 : Int) ^ (L - (i + 1)) = 2 ^ (L - QW - (i + 1)) * 2 := by
    have : L - (i + 1) = L - QW - (i + 1) + 1 := by
      simp only [L, BYTE, sizeof_long, QW]
      omega
    rw [this, pow_succ]
  have whole : (2 : Int) ^ i * 2 ^ (L - (i + 1)) = 2 ^ 30 := by
    have : i + (L - (i + 1)) = 30 := by
      simp only [L, BYTE, sizeof_long]
      omega
    rw [← pow_add, this]
  obtain ⟨p, power⟩ : ∃ p, p = (2 : Int) ^ i := ⟨_, rfl⟩
  rw [← power] at enough small least found half whole
  obtain ⟨e, below⟩ : ∃ e, (2 : Int) ^ (L - QW - (i + 1)) = e := ⟨_, rfl⟩
  rw [below] at rest
  have e0 : 0 < e := by
    by_contra none_
    nlinarith
  have n : long (d * (q - 1)) = d := by
    simp only [q, QW]
    rw [long_eq] <;> omega
  have c : long (p - d) = p - d := long_eq (by omega) (by omega)
  have cq : long ((p - d) * q) = 2 * (p - d) := by
    simp only [q, QW]
    rw [long_eq] <;> omega
  have cs : long (2 * (p - d) * (e * 2)) = 2 * (p - d) * (e * 2) := by
    apply long_eq <;> nlinarith
  have group : long ((q - 1) * (p * 2)) = 2 * p := by
    simp only [q, QW]
    rw [long_eq] <;> omega
  have top : long (2 * p + 2 * (p - d)) = 2 * p + 2 * (p - d) := long_eq (by omega) (by omega)
  have qcs : long ((2 * p + 2 * (p - d)) * e) = (2 * p + 2 * (p - d)) * e := by
    apply long_eq <;> nlinarith
  have v0 : long (p - d - 2 * (p - d)) = -(p - d) := by
    rw [long_eq] <;> omega
  refine ⟨⟨d, i + 1, p - d, 2 * (p - d), 2 * (p - d) * (e * 2), (2 * p + 2 * (p - d)) * e, -(p - d)⟩, ?_, rfl, rfl, p, e * 2, ?_⟩
  · simp only [huff, found, Option.bind_eq_bind, Option.bind_some, n, c, cq, rest, cs, half, group, top, below, qcs, v0, Option.pure_def]
  · exact ⟨one, fits, power, rest.symm, positive, enough, least, rfl, rfl, rfl, by ring, rfl⟩

namespace Derived

section
variable (derived : Derived h p m)
include derived

theorem whole : 2 * p * m = 2 ^ L := by
  have := derived.width
  have := derived.fits
  have places : 1 + (h.w - 1) + (L - h.w) = L := by omega
  calc 2 * p * m = 2 ^ (1 + (h.w - 1) + (L - h.w)) := by rw [pow_add, pow_add, pow_one, derived.half, derived.rest]
    _ = 2 ^ L := by rw [places]

theorem size : (2 : Int) ^ h.w = 2 * p := by
  have places : h.w = h.w - 1 + 1 := (Nat.sub_add_cancel derived.width).symm
  rw [places, pow_succ, ← derived.half, mul_comm]

theorem m_positive : 0 < m := by
  rw [derived.rest]
  positivity

theorem groups_fit (inside : h.w + g ≤ L) : h.n * g + p ≤ 2 ^ 30 := by
  have few : (g : Int) + 1 ≤ m := by
    have power : g < 2 ^ g := Nat.lt_two_pow_self
    have more := power_le (show g ≤ L - h.w by omega)
    rw [← derived.rest] at more
    have : ((g + 1 : Nat) : Int) ≤ 2 ^ g := by exact_mod_cast power
    push_cast at this
    omega
  have whole : p * m = 2 ^ 30 := by
    have := derived.whole
    norm_num [L, BYTE, sizeof_long, mul_assoc] at this
    linarith
  have positive := derived.positive
  have enough := derived.enough
  calc h.n * g + p ≤ p * g + p := by nlinarith
    _ = p * (g + 1) := by ring
    _ ≤ p * m := by nlinarith
    _ = 2 ^ 30 := whole

theorem code_below {r : Int} (place : r < h.n) : h.cq + r < 2 ^ h.w := by
  have := derived.size
  have := derived.c
  have := derived.cq
  have := derived.positive
  omega

theorem short_wide (short : 0 ≤ k ∧ k < h.c) : 1 < h.w := by
  have := derived.width
  have := derived.c
  have := derived.positive
  have half := derived.half
  by_contra one
  have single : h.w - 1 = 0 := by omega
  rw [single, pow_zero] at half
  omega

theorem c_nonneg : 0 ≤ h.c := by
  have := derived.c
  have := derived.enough
  omega

end

theorem code_short (short : k < h.c) : code h k = bits (h.w - 1) k := if_pos short

section
variable (derived : Derived h p m)
include derived

theorem code_group {r : Int} (low : 0 ≤ r) (high : r < h.n) :
    code h (h.c + h.n * g + r) = bits (g + h.w) ((2 ^ g - 1) * 2 ^ h.w + (h.cq + r)) := by
  have positive := derived.positive
  have c0 := derived.c_nonneg
  have cq := derived.cq
  have quotient : (h.c + h.n * g + r - h.c) / h.n = g := by
    rw [show h.c + h.n * g + r - h.c = r + h.n * g by ring, Int.add_mul_ediv_left _ _ (by omega), Int.ediv_eq_zero_of_lt low high, zero_add]
  have remainder : (h.c + h.n * g + r - h.c) % h.n = r := by
    rw [show h.c + h.n * g + r - h.c = r + h.n * g by ring, Int.add_mul_emod_self_left, Int.emod_eq_of_lt low high]
  have later : ¬h.c + h.n * g + r < h.c := by nlinarith
  rw [code, if_neg later, quotient, remainder, Int.toNat_natCast, bits_ones (by omega) (derived.code_below high)]

theorem message_cases (k : Int) :
    k < h.c ∨ ∃ (g : Nat) (r : Int), 0 ≤ r ∧ r < h.n ∧ k = h.c + h.n * g + r := by
  have positive := derived.positive
  obtain short | long_ := lt_or_ge k h.c
  · exact Or.inl short
  · refine Or.inr ⟨((k - h.c) / h.n).toNat, (k - h.c) % h.n, Int.emod_nonneg _ (by omega), Int.emod_lt_of_pos _ (by omega), ?_⟩
    rw [Int.toNat_of_nonneg (Int.ediv_nonneg (by omega) (by omega))]
    have := Int.mul_ediv_add_emod (k - h.c) h.n
    omega

theorem ahead {r r' : Int} {e : Nat} (place : r < h.n) (low : 0 ≤ r') :
    h.cq + r < ((2 ^ (e + 1) - 1) * 2 ^ h.w + (h.cq + r')) / 2 ^ (e + 1) := by
  have power : (1 : Int) ≤ 2 ^ e := one_le_pow₀ (by norm_num)
  have enough := derived.enough
  have c := derived.c
  have cq := derived.cq
  rw [derived.size, pow_succ]
  apply Int.lt_of_add_one_le
  rw [Int.le_ediv_iff_mul_le (by positivity)]
  have positive := derived.positive
  calc (h.cq + r + 1) * (2 ^ e * 2) ≤ (2 * p - h.n) * (2 ^ e * 2) := mul_le_mul_of_nonneg_right (by omega) (by positivity)
    _ ≤ (2 ^ e * 2 - 1) * (2 * p) + (2 * (p - h.n)) := by nlinarith
    _ ≤ (2 ^ e * 2 - 1) * (2 * p) + (h.cq + r') := by omega

theorem short_ahead {r : Int} (low : 0 ≤ r) :
    h.c ≤ ((2 ^ g - 1) * 2 ^ h.w + (h.cq + r)) / 2 ^ (g + 1) := by
  have power : (1 : Int) ≤ 2 ^ g := one_le_pow₀ (by norm_num)
  have positive := derived.positive
  have enough := derived.enough
  have c := derived.c
  have cq := derived.cq
  rw [derived.size, pow_succ, Int.le_ediv_iff_mul_le (by positivity)]
  nlinarith

theorem prefix_free (nonneg : 0 ≤ k) (nonneg' : 0 ≤ k') (begins : code h k <+: code h k') : k = k' := by
  have size := derived.size
  have c0 := derived.c_nonneg
  have cq := derived.cq
  have c := derived.c
  have positive := derived.positive
  have value : ∀ (g : Nat) (r : Int), 0 ≤ r → r < h.n →
      0 ≤ (2 ^ g - 1) * 2 ^ h.w + (h.cq + r) ∧ (2 ^ g - 1) * 2 ^ h.w + (h.cq + r) < 2 ^ (g + h.w) := by
    intro g r low high
    have power : (1 : Int) ≤ 2 ^ g := one_le_pow₀ (by norm_num)
    have below := derived.code_below high
    rw [pow_add]
    constructor <;> nlinarith
  have short : ∀ k, 0 ≤ k → k < h.c → k < 2 ^ (h.w - 1) := by
    intro k _ less
    rw [← derived.half]
    omega
  have shorter := begins.length_le
  obtain less | ⟨g, r, low, high, rfl⟩ := derived.message_cases k <;>
    obtain less' | ⟨g', r', low', high', rfl⟩ := derived.message_cases k'
  · rw [code_short less, code_short less'] at begins
    have same := begins.eq_of_length (by simp)
    exact bits_inj nonneg (short k nonneg less) nonneg' (short k' nonneg' less') same
  · rw [code_short less, derived.code_group low' high'] at begins
    have width : g' + h.w = h.w - 1 + (g' + 1) := by
      have := derived.width
      omega
    have bounds := value g' r' low' high'
    rw [bits_leading width nonneg (short k nonneg less) bounds.1 bounds.2] at begins
    have := derived.short_ahead (g := g') low'
    omega
  · rw [derived.code_group low high, code_short less'] at shorter
    simp only [length_bits] at shorter
    have := derived.width
    omega
  · rw [derived.code_group low high, derived.code_group low' high'] at begins shorter
    simp only [length_bits] at shorter
    obtain ⟨e, rfl⟩ := Nat.exists_eq_add_of_le (show g ≤ g' by omega)
    have bounds := value g r low high
    have bounds' := value (g + e) r' low' high'
    have width : g + e + h.w = g + h.w + e := by omega
    rw [bits_leading width bounds.1 bounds.2 bounds'.1 bounds'.2] at begins
    have split_ : ((2 : Int) ^ (g + e) - 1) * 2 ^ h.w + (h.cq + r') =
        (2 ^ e - 1) * 2 ^ h.w + (h.cq + r') + (2 ^ g - 1) * 2 ^ h.w * 2 ^ e := by
      rw [pow_add]
      ring
    rw [split_, Int.add_mul_ediv_right _ _ (by positivity)] at begins
    cases e with
    | zero =>
      simp only [pow_zero, sub_self, zero_mul, zero_add, Int.ediv_one] at begins
      have : r = r' := by omega
      rw [this, Nat.add_zero]
    | succ e =>
      have := derived.ahead (e := e) high low'
      omega

end

theorem length_short (short : k < h.c) : (code h k).length = h.w - 1 := by
  rw [code_short short, length_bits]

section
variable (derived : Derived h p m)
include derived

theorem length_group {r : Int} (low : 0 ≤ r) (high : r < h.n) :
    (code h (h.c + h.n * g + r)).length = g + h.w := by
  rw [derived.code_group low high, length_bits]

theorem encode_loop_code {r : Int} (low : 0 ≤ r) (high : r < h.n) (groups : Nat)
    (inside : h.w + g ≤ L) (fits : h.n * groups + r < 2 ^ 31) :
    encode_loop h (h.n * groups + r) (2 ^ g) (h.w + g) =
      if h.w + g + groups ≤ L then (h.w + g + groups, some ((2 ^ (g + groups) - 1) * 2 ^ h.w + (h.cq + r))) else (0, none) := by
  have positive := derived.positive
  have c0 := derived.c_nonneg
  have cq := derived.cq
  induction groups generalizing g with
  | zero =>
    have below := derived.code_below high
    have whole : (2 : Int) ^ g * 2 ^ h.w ≤ 2 ^ 31 := by
      rw [← pow_add]
      exact power_le (by simp only [L, BYTE, sizeof_long] at inside; omega)
    have power : (1 : Int) ≤ 2 ^ g := one_le_pow₀ (by norm_num)
    have power' : (1 : Int) ≤ 2 ^ h.w := one_le_pow₀ (by norm_num)
    have start : 0 ≤ ((2 : Int) ^ g - 1) * 2 ^ h.w := by nlinarith
    have room : ((2 : Int) ^ g - 1) * 2 ^ h.w + 2 ^ h.w ≤ 2 ^ 31 := by linarith
    rw [encode_loop, if_neg (by simpa using high), if_pos (by simpa using inside)]
    simp only [Nat.cast_zero, mul_zero, zero_add, Nat.add_zero]
    rw [long_eq (x := (2 ^ g - 1) * 2 ^ h.w) (by omega) (by omega), long_eq (x := _ + h.cq) (by omega) (by omega),
      long_eq (by omega) (by omega), add_assoc]
  | succ groups ih =>
    have more : h.n * ((groups + 1 : Nat) : Int) + r ≥ h.n := by
      push_cast
      nlinarith
    rw [encode_loop, if_pos more]
    by_cases full : h.w + g + QW > L
    · rw [if_pos full, if_neg (by simp only [QW] at full; omega)]
    · have less : long (h.n * ((groups + 1 : Nat) : Int) + r - h.n) = h.n * groups + r := by
        have : h.n * ((groups + 1 : Nat) : Int) + r - h.n = h.n * groups + r := by
          push_cast
          ring
        rw [this]
        have : 0 ≤ h.n * (groups : Int) := by positivity
        apply long_eq <;> omega
      have double : long (2 ^ g * q) = 2 ^ (g + 1) := by
        have wide : (2 : Int) ^ (g + 1) ≤ 2 ^ 30 := by
          apply power_le
          have := derived.width
          simp only [QW, L, BYTE, sizeof_long] at full
          omega
        have power : (0 : Int) < 2 ^ (g + 1) := by positivity
        have same : (2 : Int) ^ g * q = 2 ^ (g + 1) := (pow_succ 2 g).symm
        rw [same]
        apply long_eq <;> omega
      have shifted : g + (groups + 1) = g + 1 + groups := by omega
      simp only [QW] at full
      rw [if_neg (by simpa only [QW] using full), less, double, QW, add_assoc h.w g 1,
        ih (by omega) (by push_cast at fits; nlinarith), add_assoc h.w g, shifted, add_assoc h.w]

theorem encode_code (nonneg : 0 ≤ k) (fits : k < 2 ^ 31) :
    if (code h k).length ≤ L then
      ∃ y, encode h k = ((code h k).length, some y) ∧ 0 ≤ y ∧ y < 2 ^ (code h k).length ∧ bits (code h k).length y = code h k
    else encode h k = (0, none) := by
  have c0 := derived.c_nonneg
  have positive := derived.positive
  have cq := derived.cq
  have c := derived.c
  obtain less | ⟨g, r, low, high, rfl⟩ := derived.message_cases k
  · have inside : h.w - 1 ≤ L := by
      have := derived.fits
      omega
    rw [length_short less, if_pos inside]
    refine ⟨k, by rw [encode, if_pos less, QW], nonneg, ?_, (code_short less).symm⟩
    rw [← derived.half]
    omega
  · have more : 0 ≤ h.n * (g : Int) := by positivity
    have later : ¬h.c + h.n * g + r < h.c := by omega
    have rest : long (h.c + h.n * g + r - h.c) = h.n * g + r := by
      rw [long_eq] <;> omega
    have loop := derived.encode_loop_code (g := 0) low high g derived.fits.le (by omega)
    rw [pow_zero, Nat.add_zero, Nat.zero_add, add_comm h.w g] at loop
    rw [derived.length_group low high, encode, if_neg later, rest, loop]
    by_cases inside : g + h.w ≤ L
    · have below := derived.code_below high
      have power : (1 : Int) ≤ 2 ^ g := one_le_pow₀ (by norm_num)
      rw [if_pos inside, if_pos inside]
      refine ⟨_, rfl, by nlinarith, ?_, (derived.code_group low high).symm⟩
      rw [pow_add]
      nlinarith
    · rw [if_neg inside, if_neg inside]

theorem below_qcs : y < h.qcs ↔ y / m < h.cq + h.n := by
  have m0 := derived.m_positive
  have top : h.qcs = (h.cq + h.n) * m := by
    have qcs := derived.qcs
    have cq := derived.cq
    have c := derived.c
    have : 2 * p + h.cq = 2 * (h.cq + h.n) := by omega
    rw [this] at qcs
    linarith
  rw [top, Int.ediv_lt_iff_lt_mul m0]

theorem digit_gone_eq (more : h.qcs ≤ y) (high : y < 2 ^ L) :
    digit_gone y = 2 * y - 2 ^ L ∧ h.cs ≤ digit_gone y ∧ digit_gone y < 2 ^ L := by
  have whole := derived.whole
  have m0 := derived.m_positive
  have c0 := derived.c_nonneg
  have qcs := derived.qcs
  have cq := derived.cq
  have nonneg : 0 ≤ h.cq * m := by
    rw [cq]
    positivity
  have double : y * q = 2 * y := mul_comm y 2
  have same : digit_gone y = 2 * y - 2 ^ L := by
    rw [digit_gone, double, ← Int.sub_emod_right]
    apply Int.emod_eq_of_lt <;> linarith
  have cs := derived.cs
  exact ⟨same, by linarith, by linarith⟩

theorem digit_gone_code (more : h.qcs ≤ y) (high : y < 2 ^ L) (inside : h.w + (g + 1) ≤ L) (r : Int) :
    y / 2 ^ (L - h.w - (g + 1)) = (2 ^ (g + 1) - 1) * 2 ^ h.w + (h.cq + r) ↔
      digit_gone y / 2 ^ (L - h.w - g) = (2 ^ g - 1) * 2 ^ h.w + (h.cq + r) := by
  obtain ⟨e, count⟩ := Nat.exists_eq_add_of_le' inside
  have width : L - h.w - (g + 1) = e := by omega
  have width' : L - h.w - g = e + 1 := by omega
  have scaled : (2 : Int) ^ L = 2 * (2 ^ g * 2 ^ h.w * 2 ^ e) := by
    rw [count, show e + (h.w + (g + 1)) = 1 + (g + h.w + e) by omega, pow_add, pow_add, pow_add, pow_one]
  have shifted : digit_gone y = (y + -(2 ^ g * 2 ^ h.w) * 2 ^ e) * 2 := by
    rw [(derived.digit_gone_eq more high).1, scaled]
    ring
  rw [width, width', shifted, pow_succ (2 : Int) e, Int.mul_ediv_mul_of_pos_left _ _ (by norm_num),
    Int.add_mul_ediv_right _ _ (by positivity), pow_succ (2 : Int) g]
  constructor <;>
  · intro same
    linarith

theorem decode_loop_stops (inside : h.w + i ≤ L) (low : h.cs ≤ y) (stops : y < h.qcs) :
    ∃ r, 0 ≤ r ∧ r < h.n ∧ y / m = h.cq + r ∧ decode_loop h y (h.w + i) (h.n * i - h.c) = (h.w + i, some (h.c + h.n * i + r)) := by
  have c0 := derived.c_nonneg
  have c := derived.c
  have cq := derived.cq
  have positive := derived.positive
  have fits := derived.groups_fit inside
  have counted : 0 ≤ h.n * (i : Int) := by positivity
  have below := derived.below_qcs.mp stops
  have above : h.cq ≤ y / m := by
    rw [Int.le_ediv_iff_mul_le derived.m_positive, ← derived.cs]
    exact low
  have value : long (h.n * i - h.c + y / m) = h.c + h.n * i + (y / m - h.cq) := by
    rw [long_eq] <;> omega
  refine ⟨y / m - h.cq, by omega, by omega, by omega, ?_⟩
  rw [decode_loop, if_neg (by omega), ← derived.rest, value]

theorem decode_loop_code (room : Nat) (count : h.w + i + room = L) (low : h.cs ≤ y) (high : y < 2 ^ L) :
    (decode_loop h y (h.w + i) (h.n * i - h.c) = (0, none) ∧
      ∀ (g : Nat) (r : Int), h.w + i + g ≤ L → r < h.n → y / 2 ^ (L - h.w - g) ≠ (2 ^ g - 1) * 2 ^ h.w + (h.cq + r)) ∨
    ∃ (g : Nat) (r : Int), h.w + i + g ≤ L ∧ 0 ≤ r ∧ r < h.n ∧ y / 2 ^ (L - h.w - g) = (2 ^ g - 1) * 2 ^ h.w + (h.cq + r) ∧
      decode_loop h y (h.w + i) (h.n * i - h.c) = (h.w + i + g, some (h.c + h.n * (i + g : Nat) + r)) := by
  induction room generalizing i y with
  | zero =>
    obtain stops | more := lt_or_ge y h.qcs
    · obtain ⟨r, low', high', place, found⟩ := derived.decode_loop_stops (i := i) (by omega) low stops
      refine Or.inr ⟨0, r, by omega, low', high', ?_, found⟩
      rw [Nat.sub_zero, ← derived.rest, place, pow_zero, sub_self, zero_mul, zero_add]
    · refine Or.inl ⟨by rw [decode_loop, if_pos more, if_pos (by simp only [QW]; omega)], ?_⟩
      intro g r inside place same
      obtain rfl : g = 0 := by omega
      rw [Nat.sub_zero, ← derived.rest, pow_zero, sub_self, zero_mul, zero_add] at same
      have := derived.below_qcs.mpr (show y / m < h.cq + h.n by omega)
      omega
  | succ room ih =>
    obtain stops | more := lt_or_ge y h.qcs
    · obtain ⟨r, low', high', place, found⟩ := derived.decode_loop_stops (i := i) (by omega) low stops
      refine Or.inr ⟨0, r, by omega, low', high', ?_, found⟩
      rw [Nat.sub_zero, ← derived.rest, place, pow_zero, sub_self, zero_mul, zero_add]
    · obtain ⟨_, low', high'⟩ := derived.digit_gone_eq more high
      have next_ : long (h.n * i - h.c + h.n) = h.n * (i + 1 : Nat) - h.c := by
        have positive := derived.positive
        have c0 := derived.c_nonneg
        have c := derived.c
        have fits := derived.groups_fit (g := i + 1) (by omega)
        have counted : 0 ≤ h.n * (i : Int) := by positivity
        push_cast at fits ⊢
        rw [mul_add, mul_one] at fits ⊢
        rw [long_eq] <;> omega
      have turn : decode_loop h y (h.w + i) (h.n * i - h.c) = decode_loop h (digit_gone y) (h.w + (i + 1)) (h.n * (i + 1 : Nat) - h.c) := by
        rw [decode_loop, if_pos more, if_neg (by simp only [QW]; omega), next_]
        rfl
      obtain ⟨refused, none_⟩ | ⟨g, r, inside, low'', high'', place, found⟩ := ih (i := i + 1) (by omega) low' high'
      · refine Or.inl ⟨by rw [turn, refused], ?_⟩
        intro g r inside place same
        cases g with
        | zero =>
          rw [Nat.sub_zero, ← derived.rest, pow_zero, sub_self, zero_mul, zero_add] at same
          have := derived.below_qcs.mpr (show y / m < h.cq + h.n by omega)
          omega
        | succ g =>
          rw [derived.digit_gone_code more high (by omega)] at same
          exact none_ g r (by omega) place same
      · refine Or.inr ⟨g + 1, r, by omega, low'', high'', (derived.digit_gone_code more high (by omega) r).mpr place, ?_⟩
        rw [turn, found, Nat.add_right_comm i 1 g]
        congr 1
        omega

theorem group_prefix {r : Int} (low : 0 ≤ y) (high : y < 2 ^ L) (low' : 0 ≤ r) (high' : r < h.n) (inside : h.w + g ≤ L) :
    code h (h.c + h.n * g + r) <+: bits L y ↔ y / 2 ^ (L - h.w - g) = (2 ^ g - 1) * 2 ^ h.w + (h.cq + r) := by
  have below := derived.code_below high'
  have c0 := derived.c_nonneg
  have cq := derived.cq
  have power : (1 : Int) ≤ 2 ^ g := one_le_pow₀ (by norm_num)
  have count : L = g + h.w + (L - h.w - g) := by omega
  have least : 0 ≤ ((2 : Int) ^ g - 1) * 2 ^ h.w + (h.cq + r) := by nlinarith
  have most : ((2 : Int) ^ g - 1) * 2 ^ h.w + (h.cq + r) < 2 ^ (g + h.w) := by
    rw [pow_add]
    nlinarith
  rw [derived.code_group low' high']
  rw [bits_leading count least most low high]
  exact eq_comm

theorem short_prefix (low : 0 ≤ y) (high : y < 2 ^ L) (nonneg : 0 ≤ k) (short : k < h.c) :
    code h k <+: bits L y ↔ y / (m * 2) = k := by
  have wide := derived.short_wide ⟨nonneg, short⟩
  have fits := derived.fits
  have count : L = h.w - 1 + (L - h.w + 1) := by omega
  rw [code_short short]
  rw [bits_leading count nonneg ?_ low high, pow_succ, ← derived.rest]
  · exact eq_comm
  · have c := derived.c
    have positive := derived.positive
    rw [← derived.half]
    omega

theorem decode_code (low : 0 ≤ y) (high : y < 2 ^ L) :
    (decode h y = (0, none) ∧ ∀ k, 0 ≤ k → (code h k).length ≤ L → ¬code h k <+: bits L y) ∨
    ∃ k, 0 ≤ k ∧ (code h k).length ≤ L ∧ code h k <+: bits L y ∧ decode h y = ((code h k).length, some k) := by
  have m0 := derived.m_positive
  have c0 := derived.c_nonneg
  have positive := derived.positive
  have cs : y < h.cs ↔ y / (m * 2) < h.c := by
    rw [Int.ediv_lt_iff_lt_mul (by positivity), derived.cs, derived.cq, mul_comm m 2, ← mul_assoc, mul_comm h.c 2]
  obtain short | long_ := lt_or_ge y h.cs
  · have less := cs.mp short
    have nonneg : 0 ≤ y / (m * 2) := Int.ediv_nonneg low (by positivity)
    have fits := derived.fits
    have places : L + QW - h.w = L - h.w + 1 := by
      simp only [QW]
      omega
    refine Or.inr ⟨y / (m * 2), nonneg, ?_, (derived.short_prefix low high nonneg less).mpr rfl, ?_⟩
    · rw [length_short less]
      omega
    · rw [decode, if_pos short, length_short less, places, pow_succ, ← derived.rest, QW]
  · have start : decode h y = decode_loop h y (h.w + 0) (h.n * (0 : Nat) - h.c) := by
      rw [decode, if_neg (by omega), derived.v0, Nat.add_zero, Nat.cast_zero, mul_zero, zero_sub]
    have fits := derived.fits
    obtain ⟨refused, none_⟩ | ⟨g, r, inside, low', high', place, found⟩ := derived.decode_loop_code (i := 0) (L - h.w) (by omega) long_ high
    · refine Or.inl ⟨start.trans refused, ?_⟩
      intro k nonneg small begins
      obtain less | ⟨g, r, low', high', rfl⟩ := derived.message_cases k
      · rw [derived.short_prefix low high nonneg less] at begins
        have := cs.mpr (show y / (m * 2) < h.c by omega)
        omega
      · rw [derived.length_group low' high'] at small
        rw [derived.group_prefix low high low' high' (by omega)] at begins
        exact none_ g r (by omega) high' begins
    · have more : 0 ≤ h.n * (g : Int) := by positivity
      refine Or.inr ⟨h.c + h.n * g + r, by omega, ?_, (derived.group_prefix low high low' high' (by omega)).mpr place, ?_⟩
      · rw [derived.length_group low' high']
        omega
      · rw [start, found, derived.length_group low' high', Nat.add_zero, Nat.zero_add, Nat.add_comm]

end

end Derived

/-- The code of every message `k`, the calls that write and read it, and what they return for what has no code
in a word. -/
structure Agree (h : huffcode) : Prop where
  encoded : ∀ k, 0 ≤ k → k < 2 ^ 31 → (code h k).length ≤ L →
    ∃ y, encode h k = ((code h k).length, some y) ∧ 0 ≤ y ∧ y < 2 ^ (code h k).length ∧ bits (code h k).length y = code h k
  tooLong : ∀ k, 0 ≤ k → k < 2 ^ 31 → ((encode h k).1 = 0 ↔ L < (code h k).length)
  roundTrip : ∀ k l y rest, 0 ≤ k → k < 2 ^ 31 → 0 < l → encode h k = (l, some y) → 0 ≤ rest → rest < 2 ^ (L - l) →
    decode h (y * 2 ^ (L - l) + rest) = (l, some k)
  prefixFree : ∀ k k', 0 ≤ k → 0 ≤ k' → code h k <+: code h k' → k = k'
  refused : ∀ y, 0 ≤ y → y < 2 ^ L → ((decode h y).1 = 0 ↔ ∀ k, 0 ≤ k → (code h k).length ≤ L → ¬code h k <+: bits L y)

namespace Derived

theorem code_nonempty (derived : Derived h p m) (nonneg : 0 ≤ k) : (code h k).length ≠ 0 := by
  obtain less | ⟨g, r, low, high, rfl⟩ := derived.message_cases k
  · have := derived.short_wide ⟨nonneg, less⟩
    rw [length_short less]
    omega
  · have := derived.width
    rw [derived.length_group low high]
    omega

theorem agree (derived : Derived h p m) : Agree h where
  encoded := by
    intro k nonneg fits small
    simpa only [if_pos small] using derived.encode_code nonneg fits
  tooLong := by
    intro k nonneg fits
    have encoded := derived.encode_code nonneg fits
    have some_ := derived.code_nonempty nonneg
    split_ifs at encoded with small
    · obtain ⟨y, encoded, -⟩ := encoded
      rw [encoded]
      omega
    · rw [encoded]
      omega
  roundTrip := by
    intro k l y rest nonneg fits some_ given low high
    have encoded := derived.encode_code nonneg fits
    split_ifs at encoded with small
    · obtain ⟨y', encoded, least, most, word⟩ := encoded
      rw [encoded] at given
      obtain ⟨rfl, rfl⟩ : (code h k).length = l ∧ y' = y := by simpa using given
      have count : L = (code h k).length + (L - (code h k).length) := by omega
      have begins := bits_followed (x := y') count low high
      rw [word] at begins
      have nonneg_ : 0 ≤ y' * 2 ^ (L - (code h k).length) + rest := by positivity
      obtain ⟨-, none_⟩ | ⟨k', nonneg', small', begins', found⟩ := derived.decode_code nonneg_ (followed_fits count most high)
      · exact absurd begins (none_ k nonneg small)
      · obtain shorter | shorter := List.prefix_or_prefix_of_prefix begins begins'
        · rw [found, derived.prefix_free nonneg nonneg' shorter]
        · rw [found, derived.prefix_free nonneg' nonneg shorter]
    · rw [encoded] at given
      simp at given
  prefixFree k k' nonneg nonneg' := derived.prefix_free nonneg nonneg'
  refused := by
    intro y low high
    obtain ⟨refused, none_⟩ | ⟨k, nonneg, small, begins, found⟩ := derived.decode_code low high
    · simp only [refused, true_iff]
      exact none_
    · rw [found]
      refine ⟨fun empty => absurd empty (derived.code_nonempty nonneg), fun none_ => absurd begins (none_ k nonneg small)⟩

end Derived

theorem huff_agrees (d : Int) (w : Nat) (positive : 1 ≤ d) (narrowest : IsLeast {w | 1 ≤ w ∧ d ≤ 2 ^ (w - 1)} w) (fits : w < L) :
    ∃ h, huff d = some h ∧ h.n = d ∧ h.w = w ∧ Agree h := by
  obtain ⟨h, found, n, width, p, m, derived⟩ := huff_derived positive narrowest fits
  exact ⟨h, found, n, width, derived.agree⟩

theorem huff_agrees_five : ∃ h, huff 5 = some h ∧ h.n = 5 ∧ h.w = 4 ∧ Agree h := by
  refine huff_agrees 5 4 (by norm_num) ⟨⟨by norm_num, by norm_num⟩, ?_⟩ (by decide)
  intro w ⟨one, enough⟩
  by_contra less
  have := power_le (show w - 1 ≤ 2 by omega)
  omega

end Svr4.Proofs.HuffCodes
