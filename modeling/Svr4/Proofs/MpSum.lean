import Svr4.Proofs.MpFrame

/-! `madd` and `msub`: first of operands that are not negative, by length, then of all. -/

namespace Svr4.Proofs.MpSum
open Function Svr4.Mp Positional MpDigits MpFrame

variable {malloc : Malloc} {s s' : Store} {a b c d p q sp n : Nat} {e e' : Int} {ds es xs ys : List Int}

def Normal (ds : List Int) : Prop := ∀ d, ds.getLast? = some d → d ≠ 0

theorem normal_nil : Normal [] := by simp [Normal]

theorem Normal.le_value (normal : Normal xs) (digits_ : Digits 32768 xs) (size : xs.length = n + 1) : (32768 : Int) ^ n ≤ value 32768 xs := by
  obtain ⟨init, x, rfl⟩ := List.eq_nil_or_concat xs |>.resolve_left (by rintro rfl; simp at size)
  rw [List.concat_eq_append] at *
  have last := normal x (by simp)
  have digit := digits_ x (by simp)
  have size' : init.length = n := by simpa using size
  rw [← size']
  exact Digits.pow_le (fun y member => digits_ y (List.mem_append_left _ member)) (by decide) (by omega)

theorem normal_of_le (digits_ : Digits 32768 xs) (size : xs.length = n + 1) (le : (32768 : Int) ^ n ≤ value 32768 xs) : Normal xs := by
  obtain ⟨init, x, rfl⟩ := List.eq_nil_or_concat xs |>.resolve_left (by rintro rfl; simp at size)
  rw [List.concat_eq_append] at *
  intro d last zero
  have size' : init.length = n := by simpa using size
  have below : value 32768 init + 1 ≤ 32768 ^ init.length :=
    Digits.lt_pow (fun y member => digits_ y (List.mem_append_left _ member)) (by decide : (0 : Int) ≤ 32768)
  have zero : x = 0 := by
    rw [← zero]
    simpa using last
  rw [value_append, zero, ← size'] at le
  simp only [value_cons, value_nil, mul_zero, add_zero] at le
  omega

theorem framed_done {compute : Store → Except Fault (Store × Int)} {P : Int → List Int → Prop} (malloc : Malloc)
    (num : Num s a e xs) (num' : Num s b e' ys)
    (sign : e = 1 ∨ e = -1) (sign' : e' = 1 ∨ e' = -1) (owner : Owner s c) (aBelow : a < sp) (bBelow : b < sp) (cBelow : c < sp)
    (computes : ∀ s₁, Num s₁ sp e xs → Num s₁ (sp + 1) e' ys → (s₁.mint c).len = 0 → compute s₁ = .error .fatal ∨
      ∃ s₂ k sign ds, compute s₁ = .ok (s₂, sign) ∧ Computed s₁ s₂ c sp k ds ∧ sign * k ≠ 0 ∧ P (sign * k) ds) :
    framed malloc s a b c sp compute = .error .fatal ∨
      ∃ s' k ds, framed malloc s a b c sp compute = .ok s' ∧ Result s s' c sp k ds ∧ P k ds := by
  unfold framed
  rcases operands_done malloc num num' sign sign' aBelow bBelow cBelow with failed | ⟨s', run, entered, kept, same⟩
  · exact .inl (by rw [failed]; rfl)
  obtain ⟨s₁, run₁, entered, empty⟩ := entered.freed (by omega) (by omega) kept same owner cBelow
  rw [run]
  simp only [bind, Except.bind, run₁]
  rcases computes s₁ entered.x entered.y empty with failed | ⟨s₂, k, sign, ds, run₂, computed, some_, holds⟩
  · exact .inl (by rw [failed])
  rw [run₂]
  obtain ⟨s', run', result, _⟩ := left_done entered empty (computed.signed cBelow sign) some_ cBelow
  exact .inr ⟨s', sign * k, ds, run', result, holds⟩

structure Sum (xs ys ds : List Int) : Prop where
  exact_ : value 32768 ds = value 32768 xs + value (32768 : Int) ys
  shape : ds.length = max xs.length ys.length ∨ ∃ init, ds = init ++ [1] ∧ init.length = max xs.length ys.length

theorem val_ne {h : Heap} {x : Ptr} (held : xs ≠ [] → Holds h x xs) (unused : h.block p = none) (some_ : xs ≠ []) : x ≠ .block p := by
  rintro rfl
  obtain ⟨junk, at_⟩ := held some_
  rw [unused] at at_
  cases at_

theorem m_add_done (malloc : Malloc) (x : Num s a 1 xs) (y : Num s b 1 ys) (shorter : ys.length ≤ xs.length) (c sp : Nat) :
    m_add malloc s a b c = .error .fatal ∨ ∃ s' ds, m_add malloc s a b c = .ok s' ∧ Result s s' c sp 1 ds ∧ Sum xs ys ds := by
  have xLen : (s.mint a).len = xs.length := by rw [x.len, one_mul]
  have yLen : (s.mint b).len = ys.length := by rw [y.len, one_mul]
  have size := x.size
  unfold m_add
  simp only [bind, Except.bind, xLen, yLen, int_fits (show -2 ^ 31 ≤ (xs.length : Int) + 1 by omega) (by omega), Int.toNat_natCast]
  rcases xalloc_done malloc s.heap (show 0 ≤ (xs.length : Int) + 1 by omega) (by omega) with failed | ⟨h, p, cs, got, unused, room, fits, kept⟩
  · exact .inl (by rw [failed])
  rw [got]
  have keeps := besides_keeps kept unused
  obtain ⟨h₁, c₁, h₂, c₂, ds, run₁, run₂, carry, held₂, kept₂, same, digits_, exact_⟩ :=
    add_done (fun some_ => holds_keeps (x.held some_) keeps) (fun some_ => holds_keeps (y.held some_) keeps) (val_ne x.held unused)
      (val_ne y.held unused) x.digits y.digits shorter room (by omega)
  simp only [run₁, run₂]
  have keeps₂ := besides_keeps (kept.trans kept₂) unused
  rcases carry with rfl | rfl
  · simp only [zero_ne_one, if_false]
    rcases eq_or_ne xs [] with rfl | some_
    · refine .inr ⟨⟨update s.mint c ⟨0, .block p⟩, h₂.release p⟩, [], ?_,
        result_zero (by simp) (fun d other => update_of_ne other ..) ?_ sp 1, ?_, .inl ?_⟩
      · simp [free, held₂]
      · intro q es held
        have other : q ≠ p := fun same => by rw [same, unused] at held; cases held
        simpa [Heap.release, other] using keeps₂ q es held
      · obtain rfl : ys = [] := List.length_eq_zero_iff.mp (by simpa using shorter)
        simp
      · exact (max_eq_left shorter).symm
    · have counted : (xs.length : Int) ≠ 0 := by simpa using some_
      refine .inr ⟨_, ds, by rw [if_neg counted], ?_, ?_, .inl (same.trans (max_eq_left shorter).symm)⟩
      · have result := result_fresh unused (kept.trans kept₂) held₂ digits_ c sp 1
        rwa [one_mul, same] at result
      · simpa using exact_
  · obtain ⟨o, rest, more⟩ := List.exists_cons_of_length_pos (show 0 < (cs.drop xs.length).length by rw [List.length_drop]; omega)
    rw [more] at held₂
    obtain ⟨h₃, stored, held₃, kept₃⟩ := store_done held₂ same (show -2 ^ 15 ≤ (1 : Int) ∧ 1 < 2 ^ 15 by decide)
    have counted : (xs.length : Int) + 1 ≠ 0 := by omega
    simp only [if_true, stored]
    refine .inr ⟨_, ds ++ [1], by rw [if_neg counted], ?_, ?_, .inr ⟨ds, rfl, same.trans (max_eq_left shorter).symm⟩⟩
    · have held₃' : h₃.block p = some ((ds ++ [1]) ++ rest) := by rw [held₃]; simp
      have result := result_fresh unused ((kept.trans kept₂).trans kept₃) held₃'
        (List.forall_mem_append.mpr ⟨digits_, by simp⟩) c sp 1
      simpa [same] using result
    · rw [value_append, same, ← exact_]
      simp

theorem Sum.symm (sum : Sum ys xs ds) : Sum xs ys ds := ⟨by rw [sum.exact_, add_comm], by rw [max_comm]; exact sum.shape⟩

theorem madd_positive (malloc : Malloc) (n : Nat) (num : Num s a 1 xs) (num' : Num s b 1 ys) (owner : Owner s c) (aBelow : a < sp) (bBelow : b < sp)
    (cBelow : c < sp) :
    madd malloc (n + 1) s a b c sp = .error .fatal ∨
      ∃ s' k ds, madd malloc (n + 1) s a b c sp = .ok s' ∧ Result s s' c sp k ds ∧ k = 1 ∧ Sum xs ys ds := by
  unfold madd
  refine framed_done malloc num num' (.inl rfl) (.inl rfl) owner aBelow bBelow cBelow fun s₁ x y empty => ?_
  have xLen : (s₁.mint sp).len = xs.length := by rw [x.len, one_mul]
  have yLen : (s₁.mint (sp + 1)).len = ys.length := by rw [y.len, one_mul]
  simp only [xLen, yLen, Int.natCast_nonneg, if_true, Nat.cast_le]
  by_cases shorter : ys.length ≤ xs.length
  · rw [if_pos shorter]
    rcases m_add_done malloc x y shorter c (sp + 2) with failed | ⟨s₂, ds, run, result, sum⟩
    · exact .inl (by rw [failed]; rfl)
    · exact .inr ⟨s₂, 1, 1, ds, by rw [run]; rfl, result.computed cBelow, by decide, rfl, sum⟩
  · rw [if_neg shorter]
    rcases m_add_done malloc y x (by omega) c (sp + 2) with failed | ⟨s₂, ds, run, result, sum⟩
    · exact .inl (by rw [failed]; rfl)
    · exact .inr ⟨s₂, 1, 1, ds, by rw [run]; rfl, result.computed cBelow, by decide, rfl, sum.symm⟩

theorem highest_done {h : Heap} {x : Ptr} (held : Holds h x ds) (digits_ : Digits 32768 ds) (n : Nat) (inside : n ≤ ds.length) :
    (∃ i < n, highest h x n = .ok (some i) ∧ Normal (ds.take (i + 1)) ∧ value 32768 (ds.take (i + 1)) = value (32768 : Int) (ds.take n)) ∨
      highest h x n = .ok none ∧ value (32768 : Int) (ds.take n) = 0 := by
  induction n with
  | zero => exact .inr ⟨rfl, by simp⟩
  | succ n ih =>
    have loaded := load_holds held inside
    have digit := digits_ _ (List.getElem_mem inside)
    have split : ds.take (n + 1) = ds.take n ++ [ds[n]] := List.take_succ_eq_append_getElem inside
    unfold highest
    simp only [loaded, bind, Except.bind]
    by_cases some_ : 0 < ds[n]
    · refine .inl ⟨n, Nat.lt_succ_self n, if_pos some_, ?_, rfl⟩
      intro d last
      rw [split, List.getLast?_concat, Option.some.injEq] at last
      omega
    · have zero : ds[n] = 0 := by omega
      have same : value (32768 : Int) (ds.take (n + 1)) = value 32768 (ds.take n) := by
        rw [split, value_append, zero]
        simp
      rw [if_neg some_, same]
      rcases ih (by omega) with ⟨i, below, run, rest⟩ | done
      · exact .inl ⟨i, by omega, run, rest⟩
      · exact .inr done

structure Gives (total : Int) (e : Int) (ds : List Int) : Prop where
  sign : e = 1 ∨ e = -1
  normal : Normal ds
  exact_ : e * value 32768 ds = total

theorem value_nonneg (digits_ : Digits 32768 xs) : (0 : Int) ≤ value 32768 xs := Digits.nonneg digits_ (by decide)

theorem value_lt (digits_ : Digits 32768 xs) (le : xs.length ≤ n) : value (32768 : Int) xs + 1 ≤ 32768 ^ n :=
  (Digits.lt_pow digits_ (by decide)).trans (pow_le_pow_right₀ (by decide) le)

theorem trimmed_done {h : Heap} {junk : List Int} (unused : s.heap.block p = none) (kept : Besides s.heap h p)
    (held : h.block p = some (ds ++ junk)) (digits_ : Digits 32768 ds) (c sp : Nat) :
    (∃ i, highest h (.block p) ds.length = .ok (some i) ∧
      ∃ fs, Result s ((Store.mk (update s.mint c ⟨0, .block p⟩) h).set c ⟨i + 1, .block p⟩) c sp 1 fs ∧ Gives (value 32768 ds) 1 fs) ∨
    highest h (.block p) ds.length = .ok none ∧ ∃ h', free h (.block p) = .ok h' ∧
      Result s ⟨update s.mint c ⟨0, .block p⟩, h'⟩ c sp 1 [] ∧ Gives (value 32768 ds) 1 [] := by
  have holds : Holds h (.block p) ds := ⟨junk, held⟩
  rcases highest_done holds digits_ ds.length le_rfl with ⟨i, below, run, normal, same⟩ | ⟨run, zero⟩
  · rw [List.take_length] at same
    refine .inl ⟨i, run, ds.take (i + 1), ?_, .inl rfl, normal, by rw [one_mul, same]⟩
    have held' : h.block p = some (ds.take (i + 1) ++ (ds.drop (i + 1) ++ junk)) := by
      rw [held, ← List.append_assoc, List.take_append_drop]
    have result := result_fresh unused kept held' (fun d member => digits_ d (List.mem_of_mem_take member)) c sp 1
    rw [one_mul, List.length_take_of_le below] at result
    simpa [Store.set] using result
  · rw [List.take_length] at zero
    refine .inr ⟨run, h.release p, by simp [free, held], result_zero (by simp) (fun d other => update_of_ne other ..) ?_ sp 1,
      .inl rfl, normal_nil, by rw [zero]; rfl⟩
    intro q es held
    have other : q ≠ p := fun same => by rw [same, unused] at held; cases held
    simpa [Heap.release, other] using besides_keeps kept unused q es held

theorem borrowed_done (malloc : Malloc) (n : Nat) {h : Heap} {junk : List Int} {total : Int} (unused : s.heap.block p = none)
    (kept : Besides s.heap h p) (held : h.block p = some (ds ++ junk)) (digits_ : Digits 32768 ds)
    (exact_ : value 32768 ds + 32768 ^ ds.length * -1 = total) (missing : total < 0) (less : -total < 32768 ^ ds.length) (cBelow : c < sp) :
    (∃ h₁, digits (complement (.block p)) (.block p) 0 ds.length 0 0 h = .ok (h₁, 0) ∧
      (madd malloc (n + 1) ⟨update (update s.mint c ⟨ds.length, .block p⟩) sp ⟨1, .one⟩, h₁⟩ c sp c (sp + 1) = .error .fatal ∨
        ∃ s', madd malloc (n + 1) ⟨update (update s.mint c ⟨ds.length, .block p⟩) sp ⟨1, .one⟩, h₁⟩ c sp c (sp + 1) = .ok s' ∧
          ∃ i, highest s'.heap (s'.mint c).val ds.length = .ok (some i) ∧
            ∃ fs, Result s (s'.set c { s'.mint c with len := -(i : Int) - 1 }) c sp (-1) fs ∧ Gives total (-1) fs)) := by
  obtain ⟨h₁, run₁, held₁, kept₁⟩ := complement_done held digits_
  refine ⟨h₁, run₁, ?_⟩
  set t : Store := ⟨update (update s.mint c ⟨ds.length, .block p⟩) sp ⟨1, .one⟩, h₁⟩ with tDef
  have cell : t.mint c = ⟨ds.length, .block p⟩ := by simp [tDef, show c ≠ sp by omega]
  have one : t.mint sp = ⟨1, .one⟩ := by simp [tDef]
  have flipped : Digits 32768 (ds.map (32768 - 1 - ·)) := by
    intro d member
    obtain ⟨x, inside, rfl⟩ := List.mem_map.mp member
    have := digits_ x inside
    omega
  have numX : Num t c 1 (ds.map (32768 - 1 - ·)) :=
    ⟨by rw [cell]; simp, fun _ => by rw [cell]; exact ⟨junk, held₁⟩, flipped⟩
  have numY : Num t sp 1 [1] := ⟨by rw [one]; rfl, fun _ => by rw [one]; rfl, by simp [Digits]⟩
  have owner : Owner t c := fun _ => ⟨p, _, by rw [cell], held₁⟩
  rcases madd_positive malloc n numX numY owner (Nat.lt_succ_of_lt cBelow) (Nat.lt_succ_self sp) (Nat.lt_succ_of_lt cBelow) with
    failed | ⟨s', k, fs, run, result, rfl, sum⟩
  · exact .inl failed
  have low := value_nonneg digits_
  have complemented := value_complement (32768 : Int) ds
  have whole : value 32768 fs = -total := by
    have := sum.exact_
    rw [value_cons, value_nil] at this
    omega
  have some_ : 0 < ds.length := by
    by_contra none_
    obtain rfl : ds = [] := List.length_eq_zero_iff.mp (by omega)
    simp at less
    omega
  have size : fs.length = ds.length := by
    have longest : max (ds.map (32768 - 1 - ·)).length [(1 : Int)].length = ds.length := by
      rw [List.length_map, List.length_singleton]
      exact max_eq_left some_
    rcases sum.shape with same | ⟨init, rfl, same⟩
    · exact same.trans longest
    · rw [longest] at same
      have high : (32768 : Int) ^ init.length ≤ value 32768 (init ++ [1]) :=
        Digits.pow_le (fun d member => result.num.digits d (List.mem_append_left _ member)) (by decide) le_rfl
      rw [same] at high
      omega
  refine .inr ⟨s', run, ?_⟩
  have filled : fs ≠ [] := List.ne_nil_of_length_pos (by omega)
  have len : (s'.mint c).len ≠ 0 := by
    rw [result.num.len]
    simpa using filled
  obtain ⟨q, es, val, live⟩ := result.owner len
  have holds := result.num.held filled
  rw [val] at holds
  obtain ⟨rest, held'⟩ := holds
  have at_ : Holds s'.heap (.block q) fs := ⟨rest, held'⟩
  rcases highest_done at_ result.num.digits fs.length le_rfl with ⟨i, below, scan, normal, same⟩ | ⟨_, zero⟩
  case inr =>
    rw [List.take_length] at zero
    omega
  rw [List.take_length] at same
  have kept' := kept.trans kept₁
  have owns : ∀ q, Owns t c q → q = p := fun q own => by simpa [Owns, cell, eq_comm] using own.2
  refine ⟨i, by rw [val, ← size]; exact scan, fs.take (i + 1), ⟨⟨?_, ?_, ?_⟩, ?_, ?_, ?_, ?_⟩, .inr rfl, normal, by rw [same, whole]; ring⟩
  · simp only [Store.set, update_self, List.length_take_of_le below]
    push_cast
    ring
  · intro _
    simp only [Store.set, update_self, val]
    exact ⟨fs.drop (i + 1) ++ rest, by rw [held', ← List.append_assoc, List.take_append_drop]⟩
  · exact fun d member => result.num.digits d (List.mem_of_mem_take member)
  · intro d small other
    have stays := result.cells d (by omega) other
    simp only [Store.set, update_of_ne other, stays, tDef, update_of_ne (show d ≠ sp by omega)]
  · intro q es held _
    refine result.blocks q es (besides_keeps kept' unused q es held) fun own => ?_
    rw [owns q own, unused] at held
    cases held
  · intro q own es held
    have own' : Owns s' c q := ⟨len, by simpa [Owns, Store.set] using own.2⟩
    have back := owns q (result.fresh q own' es (besides_keeps kept' unused q es held))
    rw [back, unused] at held
    cases held
  · intro _
    exact ⟨q, es, by simp [Store.set, val], live⟩

theorem m_sub_done (malloc : Malloc) (n : Nat) (x : Num s a 1 xs) (y : Num s b 1 ys) (shorter : ys.length ≤ xs.length)
    (empty : (s.mint c).len = 0) (aOther : a ≠ c) (bOther : b ≠ c) (cBelow : c < sp) :
    m_sub malloc (n + 2) s a b c sp = .error .fatal ∨
      ∃ s' k ds, m_sub malloc (n + 2) s a b c sp = .ok s' ∧ Result s s' c sp k ds ∧ Gives (value 32768 xs - value 32768 ys) k ds := by
  have xLen : (s.mint a).len = xs.length := by rw [x.len, one_mul]
  have yLen : (s.mint b).len = ys.length := by rw [y.len, one_mul]
  have size := x.size
  unfold m_sub
  simp only [bind, Except.bind, xLen]
  rcases xalloc_done malloc s.heap (show 0 ≤ (xs.length : Int) by omega) (by omega) with failed | ⟨h, p, cs, got, unused, room, fits, kept⟩
  · exact .inl (by rw [failed])
  rw [got]
  have keeps := besides_keeps kept unused
  simp only [update_of_ne aOther, update_of_ne bOther, xLen, yLen, Int.toNat_natCast]
  obtain ⟨h₁, c₁, h₂, c₂, ds, run₁, run₂, borrow, held₂, kept₂, same, digits_, exact_⟩ :=
    sub_done (fun some_ => holds_keeps (x.held some_) keeps) (fun some_ => holds_keeps (y.held some_) keeps) (val_ne x.held unused)
      (val_ne y.held unused) x.digits y.digits shorter room (by omega)
  simp only [run₁, run₂]
  have kept₂ := kept.trans kept₂
  rcases borrow with rfl | rfl
  · rw [mul_zero, add_zero] at exact_
    rw [if_neg (lt_irrefl _), ← exact_]
    simp only [empty, ← same, update_self, if_true]
    rcases trimmed_done unused kept₂ held₂ digits_ c sp with ⟨i, run, fs, result, gives⟩ | ⟨run, h', freed, result, gives⟩
    · rw [run]
      exact .inr ⟨_, 1, fs, rfl, result, gives⟩
    · rw [run]
      simp only [freed]
      exact .inr ⟨_, 1, [], rfl, result, gives⟩
  · have less := value_lt y.digits shorter
    have low := value_nonneg x.digits
    have below := value_lt digits_ same.le
    rw [if_pos (show (-1 : Int) < 0 by decide)]
    obtain ⟨h₃, run₃, rest⟩ := borrowed_done malloc n unused kept₂ held₂ digits_ (same ▸ exact_) (by omega) (by rw [same]; omega) cBelow
    rw [same] at run₃ rest
    rw [run₃]
    simp only [update_idem]
    rcases rest with failed | ⟨s', run, i, scan, fs, result, gives⟩
    · exact .inl (by rw [failed])
    · rw [run]
      simp only [scan]
      exact .inr ⟨_, -1, fs, rfl, result, gives⟩

theorem Gives.neg {total : Int} (gives : Gives total e ds) : Gives (-total) (-1 * e) ds :=
  ⟨by have := gives.sign; omega, gives.normal, by rw [← gives.exact_]; ring⟩

theorem Gives.nonzero {total : Int} (gives : Gives total e ds) : e ≠ 0 := by
  have := gives.sign
  omega

theorem msub_longer (malloc : Malloc) (n : Nat) (num : Num s a 1 xs) (num' : Num s b 1 ys) (shorter : ys.length ≤ xs.length) (owner : Owner s c)
    (aBelow : a < sp) (bBelow : b < sp) (cBelow : c < sp) :
    msub malloc (n + 3) s a b c sp = .error .fatal ∨ ∃ s' k ds, msub malloc (n + 3) s a b c sp = .ok s' ∧ Result s s' c sp k ds ∧
      Gives (value 32768 xs - value 32768 ys) k ds := by
  unfold msub
  refine framed_done malloc num num' (.inl rfl) (.inl rfl) owner aBelow bBelow cBelow fun s₁ x y empty => ?_
  have xLen : (s₁.mint sp).len = xs.length := by rw [x.len, one_mul]
  have yLen : (s₁.mint (sp + 1)).len = ys.length := by rw [y.len, one_mul]
  simp only [xLen, yLen, Int.natCast_nonneg, if_true, Nat.cast_le, shorter]
  rcases @m_sub_done _ _ _ c (sp + 2) _ _ malloc n x y shorter empty (by omega) (by omega) (by omega) with
    failed | ⟨s₂, k, ds, run, result, gives⟩
  · exact .inl (by rw [failed]; rfl)
  · exact .inr ⟨s₂, k, 1, ds, by rw [run]; rfl, result.computed cBelow, by rw [one_mul]; exact gives.nonzero,
      by rw [one_mul]; exact gives⟩

theorem msub_positive (malloc : Malloc) (n : Nat) (num : Num s a 1 xs) (num' : Num s b 1 ys) (owner : Owner s c) (aBelow : a < sp) (bBelow : b < sp)
    (cBelow : c < sp) :
    msub malloc (n + 4) s a b c sp = .error .fatal ∨ ∃ s' k ds, msub malloc (n + 4) s a b c sp = .ok s' ∧ Result s s' c sp k ds ∧
      Gives (value 32768 xs - value 32768 ys) k ds := by
  by_cases shorter : ys.length ≤ xs.length
  · exact msub_longer malloc (n + 1) num num' shorter owner aBelow bBelow cBelow
  rw [msub]
  refine framed_done malloc num num' (.inl rfl) (.inl rfl) owner aBelow bBelow cBelow fun s₁ x y empty => ?_
  have xLen : (s₁.mint sp).len = xs.length := by rw [x.len, one_mul]
  have yLen : (s₁.mint (sp + 1)).len = ys.length := by rw [y.len, one_mul]
  simp only [xLen, yLen, Int.natCast_nonneg, if_true, Nat.cast_le, shorter, if_false]
  rcases msub_longer malloc n y x (by omega) (fun some_ => absurd empty some_) (show sp + 1 < sp + 2 by omega) (show sp < sp + 2 by omega)
      (show c < sp + 2 by omega) with failed | ⟨s₂, k, ds, run, result, gives⟩
  · exact .inl (by rw [failed]; rfl)
  · have swapped := gives.neg
    rw [neg_sub] at swapped
    exact .inr ⟨s₂, k, -1, ds, by rw [run]; rfl, result.computed cBelow, swapped.nonzero, swapped⟩

theorem Sum.gives (sum : Sum xs ys ds) (digits_ : Digits 32768 ds) (digitsX : Digits 32768 xs) (digitsY : Digits 32768 ys)
    (normal : Normal xs) (normal' : Normal ys) : Gives (value 32768 xs + value 32768 ys) 1 ds := by
  refine ⟨.inl rfl, ?_, by rw [one_mul, sum.exact_]⟩
  rcases sum.shape with same | ⟨init, rfl, _⟩
  · cases size : ds.length with
    | zero =>
      obtain rfl := List.length_eq_zero_iff.mp size
      exact normal_nil
    | succ m =>
      refine normal_of_le digits_ size ?_
      rw [sum.exact_]
      have lowX := value_nonneg digitsX
      have lowY := value_nonneg digitsY
      rcases le_total ys.length xs.length with le | le
      · have := normal.le_value digitsX (show xs.length = m + 1 by omega)
        omega
      · have := normal'.le_value digitsY (show ys.length = m + 1 by omega)
        omega
  · intro d last
    simp at last
    omega

structure Turned (s t : Store) (c sp : Nat) (xs ys : List Int) : Prop where
  x : Num t sp 1 xs
  y : Num t (sp + 1) 1 ys
  empty : (t.mint c).len = 0
  back : ∀ s' k ds, Computed t s' c sp k ds → Computed s s' c sp k ds

theorem turned_x (x : Num s sp (-1) xs) (y : Num s (sp + 1) 1 ys) (empty : (s.mint c).len = 0) (cBelow : c < sp) :
    Turned s (negate s sp) c sp xs ys :=
  ⟨x.negated, y.negate_other (by omega), by rwa [negate_other (by omega)], fun _ _ _ computed => computed.of_negate_x⟩

theorem turned_y (x : Num s sp 1 xs) (y : Num s (sp + 1) (-1) ys) (empty : (s.mint c).len = 0) (cBelow : c < sp) :
    Turned s (negate s (sp + 1)) c sp xs ys :=
  ⟨x.negate_other (by omega), y.negated, by rwa [negate_other (by omega)], fun _ _ _ computed => computed.of_negate_y⟩

theorem turned_both (x : Num s sp (-1) xs) (y : Num s (sp + 1) (-1) ys) (empty : (s.mint c).len = 0) (cBelow : c < sp) :
    Turned s (negate (negate s sp) (sp + 1)) c sp xs ys :=
  ⟨x.negated.negate_other (by omega), (y.negate_other (by omega)).negated,
    by rwa [negate_other (by omega), negate_other (by omega)], fun _ _ _ computed => computed.of_negate_y.of_negate_x⟩

section inside

variable {t : Store} (inside : Turned s t c sp xs ys) (cBelow : c < sp)

include inside cBelow

theorem madd_inside (malloc : Malloc) (n : Nat) (normal : Normal xs) (normal' : Normal ys) :
    madd malloc (n + 1) t sp (sp + 1) c (sp + 2) = .error .fatal ∨
      ∃ s' ds, madd malloc (n + 1) t sp (sp + 1) c (sp + 2) = .ok s' ∧ Computed s s' c sp 1 ds ∧
        Gives (value 32768 xs + value 32768 ys) 1 ds := by
  rcases madd_positive malloc n inside.x inside.y (fun some_ => absurd inside.empty some_) (show sp < sp + 2 by omega)
      (show sp + 1 < sp + 2 by omega) (show c < sp + 2 by omega) with failed | ⟨s', k, ds, run, result, rfl, sum⟩
  · exact .inl failed
  · exact .inr ⟨s', ds, run, inside.back s' 1 ds (result.computed cBelow),
      sum.gives result.num.digits inside.x.digits inside.y.digits normal normal'⟩

theorem msub_inside (malloc : Malloc) (n : Nat) :
    msub malloc (n + 4) t sp (sp + 1) c (sp + 2) = .error .fatal ∨
      ∃ s' k ds, msub malloc (n + 4) t sp (sp + 1) c (sp + 2) = .ok s' ∧ Computed s s' c sp k ds ∧
        Gives (value 32768 xs - value 32768 ys) k ds := by
  rcases msub_positive malloc n inside.x inside.y (fun some_ => absurd inside.empty some_) (show sp < sp + 2 by omega)
      (show sp + 1 < sp + 2 by omega) (show c < sp + 2 by omega) with failed | ⟨s', k, ds, run, result, gives⟩
  · exact .inl failed
  · exact .inr ⟨s', k, ds, run, inside.back s' k ds (result.computed cBelow), gives⟩

theorem msub_inside' (malloc : Malloc) (n : Nat) :
    msub malloc (n + 4) t (sp + 1) sp c (sp + 2) = .error .fatal ∨
      ∃ s' k ds, msub malloc (n + 4) t (sp + 1) sp c (sp + 2) = .ok s' ∧ Computed s s' c sp k ds ∧
        Gives (value 32768 ys - value 32768 xs) k ds := by
  rcases msub_positive malloc n inside.y inside.x (fun some_ => absurd inside.empty some_) (show sp + 1 < sp + 2 by omega)
      (show sp < sp + 2 by omega) (show c < sp + 2 by omega) with failed | ⟨s', k, ds, run, result, gives⟩
  · exact .inl failed
  · exact .inr ⟨s', k, ds, run, inside.back s' k ds (result.computed cBelow), gives⟩

end inside

section signs

variable (num : Num s a e xs) (num' : Num s b e' ys) (sign : e = 1 ∨ e = -1 ∧ xs ≠ []) (sign' : e' = 1 ∨ e' = -1 ∧ ys ≠ [])
  (normal : Normal xs) (normal' : Normal ys) (owner : Owner s c) (aBelow : a < sp) (bBelow : b < sp) (cBelow : c < sp)

include num num' sign sign' normal normal' owner aBelow bBelow cBelow

theorem madd_done (malloc : Malloc) (n : Nat) :
    madd malloc (n + 5) s a b c sp = .error .fatal ∨ ∃ s' k ds, madd malloc (n + 5) s a b c sp = .ok s' ∧ Result s s' c sp k ds ∧
      Gives (e * value 32768 xs + e' * value 32768 ys) k ds := by
  by_cases both : e = 1 ∧ e' = 1
  · obtain ⟨rfl, rfl⟩ := both
    rcases madd_positive malloc (n + 4) num num' owner aBelow bBelow cBelow with failed | ⟨s', k, ds, run, result, rfl, sum⟩
    · exact .inl failed
    · rw [one_mul, one_mul]
      exact .inr ⟨s', 1, ds, run, result, sum.gives result.num.digits num.digits num'.digits normal normal'⟩
  rw [madd]
  refine framed_done malloc num num' (sign.imp_right And.left) (sign'.imp_right And.left) owner aBelow bBelow cBelow fun s₁ x y empty => ?_
  have xLen := x.len
  have yLen := y.len
  rcases sign with rfl | ⟨rfl, some_⟩
  · rw [if_pos (show 0 ≤ (s₁.mint sp).len by rw [xLen]; omega)]
    rcases sign' with rfl | ⟨rfl, some'⟩
    · exact absurd ⟨rfl, rfl⟩ both
    · have positive := List.length_pos_of_ne_nil some'
      rw [if_neg (show ¬0 ≤ (s₁.mint (sp + 1)).len by rw [yLen]; omega)]
      rcases msub_inside (turned_y x y empty cBelow) cBelow malloc n with failed | ⟨s₂, k, ds, run, computed, gives⟩
      · exact .inl (by rw [failed]; rfl)
      · refine .inr ⟨s₂, k, 1, ds, by rw [run]; rfl, computed, by rw [one_mul]; exact gives.nonzero, ?_⟩
        rw [one_mul, one_mul, neg_one_mul, ← sub_eq_add_neg]
        exact gives
  · have positive := List.length_pos_of_ne_nil some_
    rw [if_neg (show ¬0 ≤ (s₁.mint sp).len by rw [xLen]; omega)]
    by_cases none_ : e' = -1 ∨ ys = []
    · have y' : Num s₁ (sp + 1) (-1) ys := by
        rcases none_ with rfl | rfl
        · exact y
        · exact y.zero (-1)
      rw [if_pos (show (s₁.mint (sp + 1)).len ≤ 0 by rw [y'.len]; omega)]
      rcases madd_inside (turned_both x y' empty cBelow) cBelow malloc (n + 3) normal normal' with failed | ⟨s₂, ds, run, computed, gives⟩
      · exact .inl (by rw [failed]; rfl)
      · refine .inr ⟨s₂, 1, -1, ds, by rw [run]; rfl, computed, by decide, ?_⟩
        have total : -1 * value 32768 xs + e' * value 32768 ys = -(value 32768 xs + value 32768 ys) := by
          rcases none_ with rfl | rfl
          · ring
          · simp
        rw [total]
        exact gives.neg
    · obtain rfl : e' = 1 := by
        rcases sign' with rfl | ⟨rfl, _⟩
        · rfl
        · exact absurd (.inl rfl) none_
      have positive := List.length_pos_of_ne_nil fun none' => none_ (.inr none')
      rw [if_neg (show ¬(s₁.mint (sp + 1)).len ≤ 0 by rw [yLen]; omega)]
      rcases msub_inside' (turned_x x y empty cBelow) cBelow malloc n with failed | ⟨s₂, k, ds, run, computed, gives⟩
      · exact .inl (by rw [failed]; rfl)
      · refine .inr ⟨s₂, k, 1, ds, by rw [run]; rfl, computed, by rw [one_mul]; exact gives.nonzero, ?_⟩
        rw [one_mul, one_mul, neg_one_mul, neg_add_eq_sub]
        exact gives

theorem msub_done (malloc : Malloc) (n : Nat) :
    msub malloc (n + 5) s a b c sp = .error .fatal ∨ ∃ s' k ds, msub malloc (n + 5) s a b c sp = .ok s' ∧ Result s s' c sp k ds ∧
      Gives (e * value 32768 xs - e' * value 32768 ys) k ds := by
  by_cases both : e = 1 ∧ e' = 1
  · obtain ⟨rfl, rfl⟩ := both
    rw [one_mul, one_mul]
    exact msub_positive malloc (n + 1) num num' owner aBelow bBelow cBelow
  rw [msub]
  refine framed_done malloc num num' (sign.imp_right And.left) (sign'.imp_right And.left) owner aBelow bBelow cBelow fun s₁ x y empty => ?_
  have xLen := x.len
  have yLen := y.len
  rcases sign with rfl | ⟨rfl, some_⟩
  · rw [if_pos (show 0 ≤ (s₁.mint sp).len by rw [xLen]; omega)]
    rcases sign' with rfl | ⟨rfl, some'⟩
    · exact absurd ⟨rfl, rfl⟩ both
    · have positive := List.length_pos_of_ne_nil some'
      rw [if_neg (show ¬0 ≤ (s₁.mint (sp + 1)).len by rw [yLen]; omega)]
      rcases madd_inside (turned_y x y empty cBelow) cBelow malloc (n + 3) normal normal' with failed | ⟨s₂, ds, run, computed, gives⟩
      · exact .inl (by rw [failed]; rfl)
      · refine .inr ⟨s₂, 1, 1, ds, by rw [run]; rfl, computed, by decide, ?_⟩
        rw [one_mul, one_mul, neg_one_mul, sub_neg_eq_add]
        exact gives
  · have positive := List.length_pos_of_ne_nil some_
    rw [if_neg (show ¬0 ≤ (s₁.mint sp).len by rw [xLen]; omega)]
    by_cases none_ : e' = -1 ∨ ys = []
    · have y' : Num s₁ (sp + 1) (-1) ys := by
        rcases none_ with rfl | rfl
        · exact y
        · exact y.zero (-1)
      rw [if_pos (show (s₁.mint (sp + 1)).len ≤ 0 by rw [y'.len]; omega)]
      rcases msub_inside' (turned_both x y' empty cBelow) cBelow malloc n with failed | ⟨s₂, k, ds, run, computed, gives⟩
      · exact .inl (by rw [failed]; rfl)
      · refine .inr ⟨s₂, k, 1, ds, by rw [run]; rfl, computed, by rw [one_mul]; exact gives.nonzero, ?_⟩
        have total : -1 * value 32768 xs - e' * value 32768 ys = value 32768 ys - value 32768 xs := by
          rcases none_ with rfl | rfl
          · ring
          · simp
        rw [total, one_mul]
        exact gives
    · obtain rfl : e' = 1 := by
        rcases sign' with rfl | ⟨rfl, _⟩
        · rfl
        · exact absurd (.inl rfl) none_
      have positive := List.length_pos_of_ne_nil fun none' => none_ (.inr none')
      rw [if_neg (show ¬(s₁.mint (sp + 1)).len ≤ 0 by rw [yLen]; omega)]
      rcases madd_inside (turned_x x y empty cBelow) cBelow malloc (n + 3) normal normal' with failed | ⟨s₂, ds, run, computed, gives⟩
      · exact .inl (by rw [failed]; rfl)
      · refine .inr ⟨s₂, 1, -1, ds, by rw [run]; rfl, computed, by decide, ?_⟩
        rw [one_mul, neg_one_mul, ← neg_add']
        exact gives.neg

end signs

end Svr4.Proofs.MpSum
