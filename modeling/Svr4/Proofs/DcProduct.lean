import Svr4.Proofs.DcSum

/-! `mult` returns the exact product. -/

namespace Svr4.Proofs.DcProduct
open Positional Faults Dc DcDigits DcSum

variable {p q : blk} {ds ms qs low high done rest : List Int} {c cq d t : Int} {i j k n size time : Nat}

def mult_step (c t : Int) : Int × Int := ((t + c).tmod 100, (t + c).tdiv 100)

theorem mult_step_of (nonneg : 0 ≤ t + c) : mult_step c t = ((t + c) % 100, (t + c) / 100) := by
  rw [mult_step, Int.tmod_eq_emod_of_nonneg nonneg, Int.tdiv_eq_ediv_of_nonneg nonneg]

theorem mult_keeps (carry : IsDigit c) (sum : 0 ≤ t ∧ t ≤ 9900) : IsDigit (mult_step c t).2 := by
  obtain ⟨low, high⟩ := carry
  rw [mult_step_of (by omega), IsDigit]
  omega

theorem mult_digit (carry : IsDigit c) (sum : 0 ≤ t ∧ t ≤ 9900) : IsDigit (mult_step c t).1 := by
  obtain ⟨low, high⟩ := carry
  rw [mult_step_of (by omega), IsDigit]
  omega

theorem mult_exact (t : Int) : (mult_step c t).1 + 100 * (mult_step c t).2 = c + t := by
  unfold mult_step
  rw [Int.tmod_add_mul_tdiv]
  ring

def row (cq : Int) : List Int → List Int → List Int
  | [], _ => []
  | m :: ms, high => (m * cq + high.headD 0) :: row cq ms high.tail

theorem row_length : (row cq ms high).length = ms.length := by
  induction ms generalizing high with
  | nil => rfl
  | cons m ms ih => rw [row, List.length_cons, ih, List.length_cons]

theorem row_value (fits : high.length ≤ ms.length) : value (100 : Int) (row cq ms high) = val ms * cq + val high := by
  induction ms generalizing high with
  | nil =>
    obtain rfl := List.eq_nil_of_length_eq_zero (Nat.le_zero.mp fits)
    simp [row, val]
  | cons m ms ih =>
    cases high with
    | nil =>
      rw [row, value_cons, List.tail_nil, ih (Nat.zero_le _)]
      simp only [val, value_cons, value_nil, List.headD_nil]
      ring
    | cons h high =>
      rw [row, value_cons, List.tail_cons, ih (Nat.le_of_succ_le_succ fits)]
      simp only [val, value_cons, List.headD_cons]
      ring

theorem product_bounds (first : IsDigit d) (second : IsDigit cq) (old : IsDigit t) : 0 ≤ d * cq + t ∧ d * cq + t ≤ 9900 := by
  obtain ⟨d0, d99⟩ := first
  obtain ⟨q0, q99⟩ := second
  obtain ⟨t0, t99⟩ := old
  have nonneg : 0 ≤ d * cq := mul_nonneg d0 q0
  have most : d * cq ≤ 99 * 99 := mul_le_mul d99 q99 q0 (by norm_num)
  omega

theorem headD_digit (digits : ∀ d ∈ high, IsDigit d) : IsDigit (high.headD 0) := by
  cases high with
  | nil => simp [IsDigit]
  | cons h high => exact digits h List.mem_cons_self

theorem row_bounds (digit : IsDigit cq) (left : ∀ d ∈ ms, IsDigit d) (old : ∀ d ∈ high, IsDigit d) :
    ∀ t ∈ row cq ms high, 0 ≤ t ∧ t ≤ 9900 := by
  induction ms generalizing high with
  | nil => simp [row]
  | cons m ms ih =>
    rw [List.forall_mem_cons] at left
    rw [row, List.forall_mem_cons]
    exact ⟨product_bounds left.1 digit (headD_digit old), ih left.2 fun d member => old d (List.mem_of_mem_tail member)⟩

theorem old_digit : (if sfeof ⟨low ++ high, low.length⟩ then 0 else slookc ⟨low ++ high, low.length⟩) = high.headD 0 := by
  cases high with
  | nil => simp [sfeof]
  | cons h high => rw [sfeof_at, slookc_at, if_neg Bool.false_ne_true, List.headD_cons]

theorem stored (fits : -128 ≤ d ∧ d ≤ 127) : salterc ⟨low ++ high, low.length⟩ d = .ok ⟨low ++ [d] ++ high.tail, (low ++ [d]).length⟩ := by
  cases high with
  | nil =>
    rw [List.append_nil, salterc_end fits]
    simp
  | cons h high =>
    rw [salterc_at fits]
    simp

theorem mult_digits_done (digit : IsDigit cq) (left : ∀ d ∈ rest, IsDigit d) (old : ∀ d ∈ high, IsDigit d) (carry : IsDigit c)
    (fits : high.length ≤ rest.length) (enough : rest.length < time) :
    mult_digits time cq ⟨done ++ rest, done.length⟩ ⟨low ++ high, low.length⟩ c =
      .ok (⟨done ++ rest, (done ++ rest).length⟩,
        ⟨low ++ (settle mult_step c (row cq rest high)).1, (low ++ (settle mult_step c (row cq rest high)).1).length⟩,
        (settle mult_step c (row cq rest high)).2) := by
  induction rest generalizing done low high c time with
  | nil =>
    obtain ⟨time, rfl⟩ : ∃ t, time = t + 1 := ⟨time - 1, by omega⟩
    obtain rfl := List.eq_nil_of_length_eq_zero (Nat.le_zero.mp fits)
    simp [mult_digits, sfeof, row, settle]
  | cons m rest ih =>
    obtain ⟨time, rfl⟩ : ∃ t, time = t + 1 := ⟨time - 1, by omega⟩
    rw [List.forall_mem_cons] at left
    have bounds := product_bounds left.1 digit (headD_digit old)
    have term : m * cq + c + high.headD 0 = m * cq + high.headD 0 + c := by ring
    have shape : done ++ m :: rest = done ++ [m] ++ rest := by simp
    have behind : done.length + 1 = (done ++ [m]).length := by simp
    have tails : high.tail.length ≤ rest.length := by
      rw [List.length_tail]
      rw [List.length_cons] at fits
      omega
    rw [mult_digits, sfeof_at, if_neg Bool.false_ne_true, old_digit, sgetc_at]
    simp only [term]
    have digit' : IsDigit ((m * cq + high.headD 0 + c).tmod 100) := mult_digit carry bounds
    rw [stored digit'.fits, ok_bind, shape, behind]
    rw [List.length_cons] at enough
    refine (ih left.2 (fun d member => old d (List.mem_of_mem_tail member)) (mult_keeps carry bounds) tails (by omega)).trans ?_
    rw [row, settle]
    simp [mult_step]

/-- Where the product stands after the passes for `j` digits: it has a place for each digit of the
other number, and perhaps one more that is not zero. -/
structure Multiplied (ms done ds : List Int) : Prop where
  begun : done ≠ []
  digits : ∀ d ∈ ds, IsDigit d
  places : ds.length + 1 = done.length + ms.length ∨ (ds.length = done.length + ms.length ∧ ds.getLast? ≠ some 0)
  value : val ds = val ms * val done

theorem pass_done (digit : IsDigit cq) (left : ∀ d ∈ ms, IsDigit d) (lows : ∀ d ∈ low, IsDigit d)
    (old : ∀ d ∈ high, IsDigit d) (same : low.length = done.length) (fits : high.length ≤ ms.length)
    (value : val (low ++ high) = val ms * val done) :
    ∃ row mr, mult_digits (ms.length + 1) cq ⟨ms, 0⟩ ⟨low ++ high, done.length⟩ 0 = .ok row ∧ row.1 = ⟨ms, ms.length⟩ ∧
      (if row.2.2 ≠ 0 then salterc row.2.1 ((if sfeof row.2.1 then 0 else slookc row.2.1) + row.2.2) else .ok row.2.1) = .ok mr ∧
      Multiplied ms (done ++ [cq]) mr.data := by
  have bounds := row_bounds digit left old
  have zero : IsDigit 0 := by simp [IsDigit]
  have keeps : ∀ c, IsDigit c → ∀ t ∈ row cq ms high, IsDigit (mult_step c t).2 := fun _ carry t member => mult_keeps carry (bounds t member)
  have digits := settle_digits (P := IsDigit) keeps (fun _ carry t member => mult_digit carry (bounds t member)) zero
  have carry := settle_carry keeps zero
  have settled := settle_value (B := (100 : Int)) keeps (fun _ _ t _ => mult_exact t) zero
  have length : (settle mult_step 0 (row cq ms high)).1.length = ms.length := by rw [settle_length, row_length]
  have passed : mult_digits (ms.length + 1) cq ⟨[] ++ ms, 0⟩ ⟨low ++ high, low.length⟩ 0 = _ :=
    mult_digits_done digit left old zero fits (Nat.lt_succ_self _)
  rw [row_value fits, row_length, zero_add] at settled
  rw [same] at passed
  generalize (settle mult_step 0 (row cq ms high)).1 = new at *
  generalize (settle mult_step 0 (row cq ms high)).2 = last at *
  have together : val (low ++ new ++ [last]) = val ms * val (done ++ [cq]) := by
    rw [val_snoc, val_snoc, List.length_append, length, same, pow_add]
    rw [val, value_append, same] at value ⊢
    simp only [val] at value settled ⊢
    linear_combination value + 100 ^ done.length * settled
  have news : ∀ d ∈ low ++ new, IsDigit d := List.forall_mem_append.mpr ⟨lows, digits⟩
  refine ⟨_, if last ≠ 0 then ⟨low ++ new ++ [last], (low ++ new).length + 1⟩ else ⟨low ++ new, (low ++ new).length⟩, passed, rfl, ?_, ?_⟩
  · by_cases nothing : last = 0
    · simp [nothing]
    · simp only [ne_eq, nothing, not_false_eq_true, if_true, sfeof_end, zero_add]
      exact salterc_end ⟨by have := carry.1; omega, by have := carry.2; omega⟩
  · by_cases nothing : last = 0
    · rw [if_neg (not_not.mpr nothing)]
      rw [nothing, val_snoc, mul_zero, add_zero] at together
      refine ⟨by simp, news, .inl ?_, together⟩
      simp only [List.length_append, List.length_singleton]
      omega
    · rw [if_pos nothing]
      refine ⟨by simp, List.forall_mem_append.mpr ⟨news, by simpa using carry⟩, .inr ⟨?_, by simpa using nothing⟩, together⟩
      simp only [List.length_append, List.length_singleton]
      omega

theorem mult_loop_done (done : List Int) (left : ∀ d ∈ ms, IsDigit d) (nonempty : ms ≠ []) (right : ∀ d ∈ rest, IsDigit d)
    (multiplied : Multiplied ms done ds ∨ done = [] ∧ ds = []) (enough : rest.length < time) :
    ∃ i mr, mult_loop time done.length ⟨ms, j⟩ ⟨done ++ rest, done.length⟩ ⟨ds, n⟩ =
        .ok (⟨ms, i⟩, ⟨done ++ rest, (done ++ rest).length⟩, mr) ∧
      (Multiplied ms (done ++ rest) mr.data ∨ done ++ rest = [] ∧ mr.data = []) := by
  induction rest generalizing done ds j n time with
  | nil =>
    obtain ⟨time, rfl⟩ : ∃ t, time = t + 1 := ⟨time - 1, by omega⟩
    rw [List.append_nil]
    exact ⟨j, ⟨ds, n⟩, by rw [mult_loop, sfeof_end, if_pos rfl], multiplied⟩
  | cons cq rest ih =>
    obtain ⟨time, rfl⟩ : ∃ t, time = t + 1 := ⟨time - 1, by omega⟩
    rw [List.forall_mem_cons] at right
    have room : done.length ≤ ds.length ∧ ds.length ≤ done.length + ms.length ∧ val ds = val ms * val done ∧ ∀ d ∈ ds, IsDigit d := by
      have some_ : 0 < ms.length := List.length_pos_iff.mpr nonempty
      obtain ⟨_, digits, places, value⟩ | ⟨rfl, rfl⟩ := multiplied
      · exact ⟨by omega, by omega, value, digits⟩
      · simp [val]
    obtain ⟨long, short, value, digits⟩ := room
    have split : ds = ds.take done.length ++ ds.drop done.length := (List.take_append_drop _ _).symm
    obtain ⟨row, mr, passed, whole, carried, multiplied'⟩ := pass_done right.1 left
      (fun d member => digits d (List.mem_of_mem_take member))
      (show ∀ d ∈ ds.drop done.length, IsDigit d from fun d member => digits d (List.mem_of_mem_drop member))
      (List.length_take_of_le long) (by rw [List.length_drop]; omega) (by rwa [← split])
    have shape : done ++ cq :: rest = done ++ [cq] ++ rest := by simp
    have behind : done.length + 1 = (done ++ [cq]).length := by simp
    obtain ⟨i, mr', looped, result⟩ := ih (done ++ [cq]) (j := ms.length) (n := mr.rd) right.2 (.inl multiplied')
      (show rest.length < time by rw [List.length_cons] at enough; omega)
    refine ⟨i, mr', ?_, by rwa [shape]⟩
    rw [← split] at passed
    rw [mult_loop, sfeof_at, if_neg Bool.false_ne_true, sgetc_at]
    simp only [rewind, passed, ok_bind, carried, whole]
    rw [shape, behind]
    exact looped

theorem mult_loop_empty (done rest : List Int) (enough : rest.length < time) :
    ∃ i mr, mult_loop time done.length ⟨[], j⟩ ⟨done ++ rest, done.length⟩ ⟨[], n⟩ = .ok (⟨[], i⟩, ⟨done ++ rest, (done ++ rest).length⟩, mr) ∧
      mr.data = [] := by
  induction rest generalizing done j n time with
  | nil =>
    obtain ⟨time, rfl⟩ : ∃ t, time = t + 1 := ⟨time - 1, by omega⟩
    rw [List.append_nil]
    exact ⟨j, ⟨[], n⟩, by rw [mult_loop, sfeof_end, if_pos rfl], rfl⟩
  | cons cq rest ih =>
    obtain ⟨time, rfl⟩ : ∃ t, time = t + 1 := ⟨time - 1, by omega⟩
    have shape : done ++ cq :: rest = done ++ [cq] ++ rest := by simp
    have behind : done.length + 1 = (done ++ [cq]).length := by simp
    obtain ⟨i, mr, looped, empty⟩ := ih (done ++ [cq]) (j := 0) (n := done.length)
      (show rest.length < time by rw [List.length_cons] at enough; omega)
    refine ⟨i, mr, ?_, empty⟩
    rw [mult_loop, sfeof_at, if_neg Bool.false_ne_true, sgetc_at]
    have nothing : mult_digits (0 + 1) cq ⟨[], 0⟩ ⟨[], done.length⟩ 0 = .ok (⟨[], 0⟩, ⟨[], done.length⟩, 0) := rfl
    simp only [rewind, List.length_nil, nothing, ok_bind]
    rw [shape, behind]
    exact looped

theorem heavy (positive : Positive ds) (nonempty : ds ≠ []) : 100 ^ (ds.length - 1) ≤ val ds := by
  obtain rfl | ⟨low, d, rfl⟩ := ds.eq_nil_or_concat'
  · exact absurd rfl nonempty
  · rw [List.length_append, List.length_singleton, Nat.add_sub_cancel]
    exact positive.weight

theorem Multiplied.positive (multiplied : Multiplied ms qs ds) (left : Positive ms) (right : Positive qs) (some_ : ms ≠ []) :
    Positive ds := by
  obtain ⟨begun, digits, places, value⟩ := multiplied
  obtain places | ⟨_, high⟩ := places
  · apply positive_of digits
    have first := List.length_pos_iff.mpr some_
    have second := List.length_pos_iff.mpr begun
    have length : ds.length - 1 = (ms.length - 1) + (qs.length - 1) := by omega
    rw [value, length, pow_add]
    exact mul_le_mul (heavy left some_) (heavy right begun) (by positivity) (val_nonneg left.digits)
  · exact ⟨digits, high⟩

theorem mult_positive (left : Positive p.data) (right : Positive q.data) :
    ∃ i j mr, mult_loop (q.data.length + 1) 0 p (rewind q) salloc = .ok (⟨p.data, i⟩, ⟨q.data, j⟩, mr) ∧
      Positive mr.data ∧ val mr.data = val p.data * val q.data := by
  obtain ⟨ms, j⟩ := p
  obtain ⟨qs, k⟩ := q
  have nothing : Positive [] := ⟨by simp, by simp⟩
  by_cases empty : ms = []
  · subst empty
    obtain ⟨i, mr, looped, none_⟩ := mult_loop_empty [] qs (j := j) (n := 0) (Nat.lt_succ_self _)
    exact ⟨i, qs.length, mr, looped, none_ ▸ nothing, by simp [none_, val]⟩
  · obtain ⟨i, mr, looped, result⟩ := mult_loop_done [] (j := j) (n := 0) left.digits empty right.digits
      (.inr ⟨rfl, rfl⟩) (Nat.lt_succ_self _)
    refine ⟨i, qs.length, mr, looped, ?_⟩
    rw [List.nil_append] at result
    obtain multiplied | ⟨rfl, none_⟩ := result
    · exact ⟨multiplied.positive left right empty, multiplied.value⟩
    · exact ⟨none_ ▸ nothing, by simp [none_, val]⟩

theorem sign_read (normal : Normal p.data) : (negative p).2.data = p.data ∧ ((negative p).1 = true ↔ val p.data < 0) := by
  obtain ⟨ds, n⟩ := p
  obtain positive | ⟨body, rfl, complement⟩ := normal
  · have nonneg := val_nonneg positive.digits
    obtain rfl | ⟨low, d, rfl, _, digit⟩ := top positive.digits
    · exact ⟨rfl, by simp [negative, sfbeg, fsfile, val]⟩
    · have some_ : sfbeg (fsfile ⟨low ++ [d], n⟩) = false := by simp [sfbeg, fsfile]
      have plus : ¬d < 0 := not_lt.mpr digit.1
      rw [negative, sbackc_end, some_]
      exact ⟨rfl, by simp [plus, nonneg]⟩
  · have below := val_below complement.digits
    have some_ : sfbeg (fsfile ⟨body ++ [-1], n⟩) = false := by simp [sfbeg, fsfile]
    have minus : val (body ++ [-1]) < 0 := by
      rw [val_snoc]
      omega
    rw [negative, sbackc_end, some_]
    exact ⟨rfl, by simp [minus]⟩

theorem positive_of_nonneg (normal : Normal ds) (nonneg : 0 ≤ val ds) : Positive ds := by
  obtain positive | ⟨body, rfl, complement⟩ := normal
  · exact positive
  · have below := val_below complement.digits
    rw [val_snoc] at nonneg
    omega

theorem magnitude (normal : Normal p.data) :
    ∃ m, (if (negative p).1 then chsign (copy (negative p).2) else .ok (negative p).2) = .ok m ∧ Positive m.data ∧
      val m.data = |val p.data| ∧ (¬(negative p).1 → m.data = p.data) := by
  obtain ⟨same, sign⟩ := sign_read normal
  by_cases minus : (negative p).1 = true
  · have below := sign.mp minus
    obtain ⟨m, changed, normal', value⟩ := chsign_negates (p := copy (negative p).2) (by rw [copy, rewind, same]; exact normal)
    rw [copy, rewind, same] at value
    refine ⟨m, by rw [if_pos minus, changed], positive_of_nonneg normal' (by omega), ?_, fun plus => absurd minus plus⟩
    rw [value, abs_of_neg below]
  · have above := not_lt.mp fun below => minus (sign.mpr below)
    exact ⟨(negative p).2, by rw [if_neg minus], same ▸ positive_of_nonneg normal above, by rw [same, abs_of_nonneg above], fun _ => same⟩

def Multiplies (p q : blk) : Prop := ∃ r, mult p q = .ok r ∧ r.1.data = p.data ∧ r.2.1.data = q.data ∧
  Normal r.2.2.data ∧ val r.2.2.data = val p.data * val q.data

theorem mult_multiplies (left : Normal p.data) (right : Normal q.data) : Multiplies p q := by
  obtain ⟨mp, first, positive, value, same⟩ := magnitude left
  obtain ⟨mq, second, positive', value', same'⟩ := magnitude right
  obtain ⟨i, j, mr, looped, positive'', product⟩ := mult_positive positive positive'
  have kept : (if (negative p).1 then (negative p).2 else ⟨mp.data, i⟩ : blk).data = p.data := by
    split_ifs with minus
    · exact (sign_read left).1
    · exact same minus
  have kept' : (if (negative q).1 then (negative q).2 else ⟨mq.data, j⟩ : blk).data = q.data := by
    split_ifs with minus
    · exact (sign_read right).1
    · exact same' minus
  have sign := (sign_read left).2
  have sign' := (sign_read right).2
  have signs : (val p.data < 0 ↔ val q.data < 0) ↔ (negative p).1 = (negative q).1 := by rw [← sign, ← sign', Bool.coe_iff_coe]
  rw [value, value', ← abs_mul] at product
  by_cases differ : (negative p).1 = (negative q).1
  · refine ⟨(_, _, mr), ?_, kept, kept', .inl positive'', ?_⟩
    · simp only [mult, first, second, ok_bind, looped]
      rw [if_neg (not_not.mpr differ)]
      rfl
    · have alike := signs.mpr differ
      rw [product]
      apply abs_of_nonneg
      by_cases minus : val p.data < 0
      · exact le_of_lt (mul_pos_of_neg_of_neg minus (alike.mp minus))
      · exact mul_nonneg (not_lt.mp minus) (not_lt.mp fun below => minus (alike.mpr below))
  · obtain ⟨r, changed, normal, opposite⟩ := chsign_negates (.inl positive'')
    refine ⟨(_, _, r), ?_, kept, kept', normal, ?_⟩
    · simp only [mult, first, second, ok_bind, looped]
      rw [if_pos differ, changed]
      rfl
    · have unlike := mt signs.mp differ
      rw [opposite, product, neg_eq_iff_eq_neg]
      apply abs_of_nonpos
      by_cases minus : val p.data < 0
      · exact mul_nonpos_of_nonpos_of_nonneg minus.le (not_lt.mp fun below => unlike ⟨fun _ => below, fun _ => minus⟩)
      · have below : val q.data < 0 := by tauto
        exact mul_nonpos_of_nonneg_of_nonpos (not_lt.mp minus) below.le

/-- Sums, products and opposite numbers are exact and in normal form, and the operands keep their
values, exactly where the sum is not minus one. -/
theorem exact_iff (left : Normal p.data) (right : Normal q.data) :
    (Adds p q ∧ Multiplies p q ∧ Negates p) ↔ val p.data + val q.data ≠ -1 := by
  rw [adds_iff left right]
  exact and_iff_left ⟨mult_multiplies left right, chsign_negates left⟩

theorem five : Normal [5] := .inl ⟨by simp [IsDigit], by simp⟩

/-- 1234 and minus 5678. -/
theorem exact_mixed : val [34, 12] + val [22, 43, -1] ≠ -1 ∧
    (Adds ⟨[34, 12], 0⟩ ⟨[22, 43, -1], 0⟩ ∧ Multiplies ⟨[34, 12], 0⟩ ⟨[22, 43, -1], 0⟩ ∧ Negates ⟨[34, 12], 0⟩) := by
  have left : Normal [34, 12] := .inl ⟨by simp [IsDigit], by simp⟩
  have right : Normal [22, 43, -1] := .inr ⟨[22, 43], rfl, by simp [IsDigit], by simp⟩
  exact ⟨by decide, (exact_iff left right).mpr (by decide)⟩

/-- Five and minus six: the sum is 99 with the sign behind it. -/
theorem add_minus_one : Normal [5] ∧ Normal [94, -1] ∧
    add ⟨[5], 0⟩ ⟨[94, -1], 0⟩ = .ok (⟨[5], 1⟩, ⟨[94, -1], 2⟩, ⟨[99, -1], 2⟩) ∧ ¬Adds ⟨[5], 0⟩ ⟨[94, -1], 0⟩ := by
  have added : add ⟨[5], 0⟩ ⟨[94, -1], 0⟩ = .ok (⟨[5], 1⟩, ⟨[94, -1], 2⟩, ⟨[99, -1], 2⟩) := rfl
  refine ⟨five, .inr ⟨[94], rfl, by simp [IsDigit], by simp⟩, added, ?_⟩
  rintro ⟨r, result, _, _, normal, _⟩
  rw [added, Except.ok.injEq] at result
  subst result
  exact not_normal normal

end Svr4.Proofs.DcProduct
