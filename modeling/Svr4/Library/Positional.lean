import Mathlib

/-! Numbers in a positional notation, the lowest digit first, and sums of digits that are settled
into digits by a carry. -/

namespace Positional

section Values

variable {R : Type*} [CommRing R] (B : R) {xs ys : List R}

/-- The value of the digits `xs` in base `B`. The digits may be any numbers. -/
def value : List R → R
  | [] => 0
  | x :: xs => x + B * value xs

@[simp] theorem value_nil : value B [] = 0 := rfl

@[simp] theorem value_cons (x : R) (xs : List R) : value B (x :: xs) = x + B * value B xs := rfl

theorem value_append (xs ys : List R) : value B (xs ++ ys) = value B xs + B ^ xs.length * value B ys := by
  induction xs with
  | nil => simp
  | cons x xs ih =>
    rw [List.cons_append, value_cons, ih, value_cons, List.length_cons, pow_succ]
    ring

theorem value_map_mul (m : R) (xs : List R) : value B (xs.map (· * m)) = value B xs * m := by
  induction xs with
  | nil => simp
  | cons x xs ih =>
    rw [List.map_cons, value_cons, ih, value_cons]
    ring

theorem value_add (same : xs.length = ys.length) : value B (xs.zipWith (· + ·) ys) = value B xs + value B ys := by
  induction xs generalizing ys with
  | nil => cases ys <;> simp_all
  | cons x xs ih =>
    cases ys with
    | nil => simp at same
    | cons y ys =>
      rw [List.zipWith_cons_cons, value_cons, ih (by simpa using same), value_cons, value_cons]
      ring

theorem value_sub (same : xs.length = ys.length) : value B (xs.zipWith (· - ·) ys) = value B xs - value B ys := by
  induction xs generalizing ys with
  | nil => cases ys <;> simp_all
  | cons x xs ih =>
    cases ys with
    | nil => simp at same
    | cons y ys =>
      rw [List.zipWith_cons_cons, value_cons, ih (by simpa using same), value_cons, value_cons]
      ring

theorem value_map_add {α : Type*} (f g : α → R) (as : List α) :
    value B (as.map fun a => f a + g a) = value B (as.map f) + value B (as.map g) := by
  induction as with
  | nil => simp
  | cons a as ih =>
    rw [List.map_cons, value_cons, ih, List.map_cons, value_cons, List.map_cons, value_cons]
    ring

theorem value_zeros (n : Nat) : value B (List.replicate n 0) = 0 := by
  induction n with
  | zero => rfl
  | succ n ih => rw [List.replicate_succ, value_cons, ih, mul_zero, add_zero]

theorem value_highest (n : Nat) : value B (List.replicate n (B - 1)) = B ^ n - 1 := by
  induction n with
  | zero => simp
  | succ n ih =>
    rw [List.replicate_succ, value_cons, ih, pow_succ]
    ring

/-- Digits looked up in order, zero behind the last one. -/
theorem value_looked_up {n : Nat} (enough : xs.length ≤ n) : value B ((List.range n).map (xs.getD · 0)) = value B xs := by
  have padded : (List.range n).map (xs.getD · 0) = xs ++ List.replicate (n - xs.length) 0 := by
    apply List.ext_getElem (by simp; omega)
    intro i _ _
    by_cases inside : i < xs.length
    · simp [List.getElem_append_left inside, List.getElem?_eq_getElem inside]
    · simp [List.getElem_append_right (not_lt.mp inside), List.getElem?_eq_none (not_lt.mp inside)]
  rw [padded, value_append, value_zeros, mul_zero, add_zero]

/-- What the digits lack to the highest ones. -/
theorem value_complement (xs : List R) : value B (xs.map (B - 1 - ·)) + value B xs + 1 = B ^ xs.length := by
  induction xs with
  | nil => simp
  | cons x xs ih =>
    rw [List.map_cons, value_cons, value_cons, List.length_cons, pow_succ, ← ih]
    ring

end Values

section Settling

variable {R : Type*}

/-- The digits of the sums `ts`, from the carry `c` on; `step` splits a carry with a sum. -/
def settle (step : R → R → R × R) : R → List R → List R × R
  | c, [] => ([], c)
  | c, t :: ts => ((step c t).1 :: (settle step (step c t).2 ts).1, (settle step (step c t).2 ts).2)

variable {step : R → R → R × R} {c : R} {ts : List R} {Good : R → Prop}

@[simp] theorem settle_length : (settle step c ts).1.length = ts.length := by
  induction ts generalizing c with
  | nil => rfl
  | cons t ts ih => rw [settle, List.length_cons, ih, List.length_cons]

theorem settle_carry (keeps : ∀ c, Good c → ∀ t ∈ ts, Good (step c t).2) (good : Good c) : Good (settle step c ts).2 := by
  induction ts generalizing c with
  | nil => exact good
  | cons t ts ih =>
    exact ih (fun c good t later => keeps c good t (List.mem_cons_of_mem _ later)) (keeps c good t List.mem_cons_self)

theorem settle_digits {P : R → Prop} (keeps : ∀ c, Good c → ∀ t ∈ ts, Good (step c t).2)
    (digit : ∀ c, Good c → ∀ t ∈ ts, P (step c t).1) (good : Good c) : ∀ d ∈ (settle step c ts).1, P d := by
  induction ts generalizing c with
  | nil => nofun
  | cons t ts ih =>
    rw [settle, List.forall_mem_cons]
    exact ⟨digit c good t List.mem_cons_self,
      ih (fun c good t later => keeps c good t (List.mem_cons_of_mem _ later))
        (fun c good t later => digit c good t (List.mem_cons_of_mem _ later)) (keeps c good t List.mem_cons_self)⟩

/-- Nothing is lost where each step loses nothing. -/
theorem settle_value [CommRing R] {B : R} (keeps : ∀ c, Good c → ∀ t ∈ ts, Good (step c t).2)
    (exact_ : ∀ c, Good c → ∀ t ∈ ts, (step c t).1 + B * (step c t).2 = c + t) (good : Good c) :
    value B (settle step c ts).1 + B ^ ts.length * (settle step c ts).2 = c + value B ts := by
  induction ts generalizing c with
  | nil => simp [settle]
  | cons t ts ih =>
    have later := ih (fun c good t later => keeps c good t (List.mem_cons_of_mem _ later))
      (fun c good t later => exact_ c good t (List.mem_cons_of_mem _ later)) (keeps c good t List.mem_cons_self)
    have here := exact_ c good t List.mem_cons_self
    rw [settle, value_cons, List.length_cons, pow_succ, value_cons]
    linear_combination B * later + here

end Settling

section Bounds

variable {R : Type*} [CommRing R] [LinearOrder R] [IsStrictOrderedRing R] {B : R} {xs : List R}

/-- They are digits in base `B`. -/
def Digits (B : R) (xs : List R) : Prop := ∀ x ∈ xs, 0 ≤ x ∧ x ≤ B - 1

theorem Digits.nonneg (digits : Digits B xs) (base : 0 ≤ B) : 0 ≤ value B xs := by
  induction xs with
  | nil => exact le_rfl
  | cons x xs ih =>
    obtain ⟨first, rest⟩ := List.forall_mem_cons.mp digits
    exact add_nonneg first.1 (mul_nonneg base (ih rest))

theorem Digits.lt_pow (digits : Digits B xs) (base : 0 ≤ B) : value B xs + 1 ≤ B ^ xs.length := by
  induction xs with
  | nil => simp
  | cons x xs ih =>
    obtain ⟨first, rest⟩ := List.forall_mem_cons.mp digits
    calc value B (x :: xs) + 1 = x + 1 + B * value B xs := by
          rw [value_cons]
          ring
      _ ≤ B + B * value B xs := by
          gcongr
          exact le_sub_iff_add_le.mp first.2
      _ = B * (value B xs + 1) := by ring
      _ ≤ B * B ^ xs.length := mul_le_mul_of_nonneg_left (ih rest) base
      _ = B ^ (x :: xs).length := by rw [List.length_cons, pow_succ']

/-- The highest digit alone. -/
theorem Digits.pow_le {x : R} (digits : Digits B xs) (base : 0 ≤ B) (high : 1 ≤ x) : B ^ xs.length ≤ value B (xs ++ [x]) := by
  rw [value_append]
  have below := digits.nonneg base
  have top : B ^ xs.length * 1 ≤ B ^ xs.length * x := mul_le_mul_of_nonneg_left high (pow_nonneg base _)
  simpa using add_le_add below top

end Bounds

end Positional
