import Svr4.Proofs.MpSum

/-! `mult`: the rows of `m_mult`, each added to what is there, and the signs around it. -/

namespace Svr4.Proofs.MpProduct
open Function Mp Positional MpDigits MpFrame MpSum

variable {malloc : Malloc} {h h' : Heap} {s s' : Store} {x y : Ptr} {a b c d p q sp n j : Nat} {e e' m : Int} {cs ds xs ys zs lo hi junk : List Int}

theorem product_small {u v : Int} (digit : 0 ≤ u ∧ u ≤ 32768 - 1) (digit' : 0 ≤ v ∧ v ≤ 32768 - 1) : 0 ≤ u * v ∧ u * v ≤ 32767 * 32767 :=
  ⟨mul_nonneg digit.1 digit'.1, mul_le_mul digit.2 digit'.2 digit'.1 (by decide)⟩

def split (sum t : Int) : Int × Int := ((sum + t) % 32768, (sum + t) / 32768)

section split

variable {terms : List Int} {sum t : Int}

theorem split_digit : 0 ≤ (split sum t).1 ∧ (split sum t).1 ≤ 32768 - 1 := by
  unfold split
  dsimp only
  omega

theorem split_exact : (split sum t).1 + 32768 * (split sum t).2 = sum + t := Int.emod_add_mul_ediv ..

theorem split_sum (small : 0 ≤ sum ∧ sum ≤ 32768 - 1) (term : 0 ≤ t ∧ t ≤ 32767 * 32767 + 32767) :
    0 ≤ (split sum t).2 ∧ (split sum t).2 ≤ 32768 - 1 := by
  unfold split
  dsimp only
  omega

theorem row_done {step : Heap → Nat → Int → Except Fault (Int × Int)} {pre old post : List Int} (held : h.block p = some (pre ++ old ++ post))
    (place : pre.length = j) (same : old.length = terms.length) (range : ∀ t ∈ terms, 0 ≤ t ∧ t ≤ 32767 * 32767 + 32767)
    (steps : ∀ h' pre' i sum, (inside : i < terms.length) → Besides h h' p → h'.block p = some (pre' ++ (old ++ post).drop i) →
      pre'.length = j + i → (0 ≤ sum ∧ sum ≤ 32768 - 1) → step h' i sum = .ok (split sum terms[i])) :
    ∃ h' sum ds, digits step (.block p) j terms.length 0 0 h = .ok (h', sum) ∧ (0 ≤ sum ∧ sum ≤ 32768 - 1) ∧
      h'.block p = some (pre ++ ds ++ post) ∧ Besides h h' p ∧ ds.length = terms.length ∧ Digits 32768 ds ∧
      value 32768 ds + 32768 ^ terms.length * sum = value 32768 terms := by
  have keeps : ∀ sum, (0 ≤ sum ∧ sum ≤ 32768 - 1) → ∀ t ∈ terms, 0 ≤ (split sum t).2 ∧ (split sum t).2 ≤ 32768 - 1 :=
    fun sum small t member => split_sum small (range t member)
  have zero : (0 : Int) ≤ 0 ∧ (0 : Int) ≤ 32768 - 1 := by decide
  obtain ⟨h', run, held', kept⟩ := digits_done held (show _ = j + 0 from place) same
    (fun h' pre' i sum inside kept now place small => by
      rw [Nat.zero_add]
      exact steps h' pre' i sum inside kept now place small)
    keeps (fun sum small t member => by have := @split_digit sum t; omega) zero
  have digits_ : ∀ d ∈ (settle split 0 terms).1, 0 ≤ d ∧ d ≤ 32768 - 1 := settle_digits keeps (fun _ _ _ _ => split_digit) zero
  have total := settle_value keeps (fun _ _ _ _ => split_exact) zero
  exact ⟨h', _, _, run, settle_carry keeps zero, held', kept, settle_length, digits_, by rw [total, zero_add]⟩

end split

theorem first_row_done (held : Holds h x xs) (other : x ≠ .block p) (digits_ : Digits 32768 xs) (digit : 0 ≤ m ∧ m ≤ 32768 - 1)
    (room : h.block p = some cs) (fits : xs.length ≤ cs.length) :
    ∃ h' sum ds, digits (first_row x m) (.block p) 0 xs.length 0 0 h = .ok (h', sum) ∧ (0 ≤ sum ∧ sum ≤ 32768 - 1) ∧
      Settled h h' p cs ds sum (value 32768 xs * m) xs.length := by
  have steps : ∀ h' i sum, (inside : i < (xs.map (· * m)).length) → Besides h h' p → (0 ≤ sum ∧ sum ≤ 32768 - 1) →
      first_row x m h' i sum = .ok (split sum (xs.map (· * m))[i]) := by
    intro h' i sum inside kept small
    rw [List.length_map] at inside
    have term := product_small (digits_ _ (List.getElem_mem inside)) digit
    rw [List.getElem_map]
    simp only [first_row, load_holds (held.besides kept other) inside, bind, Except.bind,
      int_fits (show -2 ^ 31 ≤ xs[i] * m by omega) (by omega), int_fits (show -2 ^ 31 ≤ sum + xs[i] * m by omega) (by omega)]
    rfl
  have range : ∀ t ∈ xs.map (· * m), 0 ≤ t ∧ t ≤ 32767 * 32767 + 32767 := by
    intro t member
    obtain ⟨u, inside, rfl⟩ := List.mem_map.mp member
    have := product_small (digits_ u inside) digit
    omega
  have start : h.block p = some ([] ++ cs.take xs.length ++ cs.drop xs.length) := by simpa using room
  obtain ⟨h', sum, ds, run, small, held', kept, same, digits', exact_⟩ := row_done start (show _ = 0 from rfl) (by simp [fits]) range
    (fun h' _ i sum inside kept _ _ small => steps h' i sum inside kept small)
  rw [List.length_map] at run same exact_
  rw [value_map_mul] at exact_
  exact ⟨h', sum, ds, run, small, by simpa using held', kept, same, digits', exact_⟩

theorem next_row_done (held : Holds h x xs) (other : x ≠ .block p) (digits_ : Digits 32768 xs) (digit : 0 ≤ m ∧ m ≤ 32768 - 1)
    (room : h.block p = some (lo ++ hi ++ junk)) (place : lo.length = j) (same : hi.length = xs.length) (digits' : Digits 32768 hi) :
    ∃ h' sum ds, digits (next_row x (.block p) j m) (.block p) j xs.length 0 0 h = .ok (h', sum) ∧ (0 ≤ sum ∧ sum ≤ 32768 - 1) ∧
      h'.block p = some (lo ++ ds ++ junk) ∧ Besides h h' p ∧ ds.length = xs.length ∧ Digits 32768 ds ∧
      value 32768 ds + 32768 ^ xs.length * sum = value 32768 xs * m + value 32768 hi := by
  have size : ((xs.map (· * m)).zipWith (· + ·) hi).length = xs.length := by simp [same]
  have steps : ∀ h' pre' i sum, (inside : i < ((xs.map (· * m)).zipWith (· + ·) hi).length) → Besides h h' p →
      h'.block p = some (pre' ++ (hi ++ junk).drop i) → pre'.length = j + i → (0 ≤ sum ∧ sum ≤ 32768 - 1) →
      next_row x (.block p) j m h' i sum = .ok (split sum ((xs.map (· * m)).zipWith (· + ·) hi)[i]) := by
    intro h' pre' i sum inside kept now place small
    rw [List.getElem_zipWith, List.getElem_map]
    rw [size] at inside
    have inside' : i < hi.length := by omega
    have term := product_small (digits_ _ (List.getElem_mem inside)) digit
    have there := digits' _ (List.getElem_mem inside')
    rw [List.drop_eq_getElem_cons (by simp; omega), List.getElem_append_left inside'] at now
    simp only [next_row, load_holds (held.besides kept other) inside, load_at now place, bind, Except.bind,
      int_fits (show -2 ^ 31 ≤ xs[i] * m by omega) (by omega), int_fits (show -2 ^ 31 ≤ xs[i] * m + hi[i] by omega) (by omega),
      int_fits (show -2 ^ 31 ≤ sum + (xs[i] * m + hi[i]) by omega) (by omega)]
    rfl
  have range : ∀ t ∈ (xs.map (· * m)).zipWith (· + ·) hi, 0 ≤ t ∧ t ≤ 32767 * 32767 + 32767 := by
    intro t member
    obtain ⟨i, inside, rfl⟩ := List.getElem_of_mem member
    rw [List.getElem_zipWith, List.getElem_map]
    have := product_small (digits_ _ (List.getElem_mem (show i < xs.length by omega))) digit
    have := digits' _ (List.getElem_mem (show i < hi.length by omega))
    omega
  obtain ⟨h', sum, ds, run, small, held', kept, same', digits'', exact_⟩ := row_done room place (by rw [size, same]) range steps
  rw [size] at run same' exact_
  rw [value_add _ (by simp [same]), value_map_mul] at exact_
  exact ⟨h', sum, ds, run, small, held', kept, same', digits'', exact_⟩

theorem rows_done (held : Holds h x xs) (held' : Holds h y ys) (other : x ≠ .block p) (other' : y ≠ .block p) (digits_ : Digits 32768 xs)
    (digits' : Digits 32768 ys) (room : h.block p = some (zs ++ junk)) (digitsZ : Digits 32768 zs) (place : zs.length = j + xs.length)
    (count : ys.length = j + n) (fits : n ≤ junk.length) :
    ∃ h' ds, rows x y (.block p) xs.length n j h = .ok h' ∧ h'.block p = some (ds ++ junk.drop n) ∧ Besides h h' p ∧
      ds.length = zs.length + n ∧ Digits 32768 ds ∧
      value 32768 ds = value 32768 zs + 32768 ^ j * (value 32768 (ys.drop j) * value 32768 xs) := by
  induction n generalizing h j zs junk with
  | zero =>
    refine ⟨h, zs, rfl, by simpa using room, .refl, rfl, digitsZ, ?_⟩
    rw [List.drop_eq_nil_of_le (by omega)]
    simp
  | succ n ih =>
    obtain ⟨o, junk, rfl⟩ := List.exists_cons_of_length_pos (show 0 < junk.length by omega)
    have inside : j < ys.length := by omega
    have digit := digits' _ (List.getElem_mem inside)
    have lower : (zs.take j).length = j := List.length_take_of_le (by omega)
    have upper : (zs.drop j).length = xs.length := by
      rw [List.length_drop]
      omega
    have room' : h.block p = some (zs.take j ++ zs.drop j ++ o :: junk) := by rw [List.take_append_drop, room]
    obtain ⟨h₁, sum, ds, run₁, small, held₁, kept₁, same, digits₁, exact_⟩ := next_row_done held other digits_ digit room' lower upper
      (fun d member => digitsZ d (List.mem_of_mem_drop member))
    have place₁ : (zs.take j ++ ds).length = j + xs.length := by rw [List.length_append, lower, same]
    obtain ⟨h₂, stored, held₂, kept₂⟩ := store_done held₁ place₁ (show -2 ^ 15 ≤ sum ∧ sum < 2 ^ 15 by omega)
    have held₂' : h₂.block p = some ((zs.take j ++ ds ++ [sum]) ++ junk) := by rw [held₂]; simp
    have kept := kept₁.trans kept₂
    obtain ⟨h₃, fs, run₃, held₃, kept₃, size, digits₃, total⟩ := ih (held.besides kept other) (held'.besides kept other') held₂'
      (List.forall_mem_append.mpr ⟨List.forall_mem_append.mpr ⟨fun d member => digitsZ d (List.mem_of_mem_take member), digits₁⟩, by
        simpa using small⟩)
      (show _ = j + 1 + xs.length by rw [List.length_append, place₁, List.length_singleton]; omega) (by omega)
      (by simpa using fits)
    refine ⟨h₃, fs, ?_, held₃, kept.trans kept₃, ?_, digits₃, ?_⟩
    · unfold rows
      simp only [load_holds held' inside, bind, Except.bind, run₁, stored]
      exact run₃
    · rw [size, List.length_append, place₁, List.length_singleton]
      omega
    · have parts := value_append (32768 : Int) (zs.take j) (zs.drop j)
      rw [List.take_append_drop, lower] at parts
      rw [total, value_append, value_append, List.length_append, lower, same, List.drop_eq_getElem_cons inside, parts]
      simp only [value_cons, value_nil, pow_succ, pow_add]
      linear_combination 32768 ^ j * exact_

def Wide (s : Store) (c : Nat) (ds : List Int) (n : Nat) : Prop :=
  ∃ zs, Holds s.heap (s.mint c).val (ds ++ zs) ∧ (ds ++ zs).length = n ∧ ∀ z ∈ zs, z = 0

theorem m_mult_done (malloc : Malloc) (numX : Num s a 1 xs) (numY : Num s b 1 ys) (someX : xs ≠ []) (someY : ys ≠ []) (normal : Normal xs)
    (normal' : Normal ys) (fits : xs.length + ys.length + 4 ≤ 2 ^ 31) (aOther : a ≠ c) (bOther : b ≠ c) (sp : Nat) :
    m_mult malloc s a b c = .error .fatal ∨
      ∃ s' ds, m_mult malloc s a b c = .ok s' ∧ Result s s' c sp 1 ds ∧ ds ≠ [] ∧ Gives (value 32768 xs * value 32768 ys) 1 ds ∧
        Wide s' c ds (xs.length + ys.length) := by
  have xLen : (s.mint a).len = xs.length := by rw [numX.len, one_mul]
  have yLen : (s.mint b).len = ys.length := by rw [numY.len, one_mul]
  have positiveX := List.length_pos_of_ne_nil someX
  have positiveY := List.length_pos_of_ne_nil someY
  unfold m_mult
  simp only [bind, Except.bind, xLen, yLen, int_fits (show -2 ^ 31 ≤ (xs.length : Int) + ys.length by omega) (by omega), Int.toNat_natCast]
  rcases xalloc_done malloc s.heap (show 0 ≤ (xs.length : Int) + ys.length by omega) (by omega) with
    failed | ⟨h, p, cs, got, unused, room, large, kept⟩
  · exact .inl (by rw [failed])
  rw [got]
  have keeps := besides_keeps kept unused
  have heldX := holds_keeps (numX.held someX) keeps
  have heldY := holds_keeps (numY.held someY) keeps
  have otherX := val_ne numX.held unused someX
  have otherY := val_ne numY.held unused someY
  simp only [update_of_ne aOther, update_of_ne bOther, load_holds heldY positiveY]
  obtain ⟨h₁, sum, ds, run₁, small, held₁, kept₁, same, digits₁, exact₁⟩ := first_row_done heldX otherX numX.digits
    (numY.digits _ (List.getElem_mem positiveY)) room (by omega)
  obtain ⟨o, junk, more⟩ := List.exists_cons_of_length_pos (show 0 < (cs.drop xs.length).length by rw [List.length_drop]; omega)
  rw [more] at held₁
  obtain ⟨h₂, stored, held₂, kept₂⟩ := store_done held₁ same (show -2 ^ 15 ≤ sum ∧ sum < 2 ^ 15 by omega)
  have held₂' : h₂.block p = some ((ds ++ [sum]) ++ junk) := by rw [held₂]; simp
  have kept' := kept₁.trans kept₂
  have remaining : cs.length = xs.length + 1 + junk.length := by
    have := congrArg List.length more
    simp at this
    omega
  obtain ⟨h₃, fs, run₃, held₃, kept₃, size, digits₃, total⟩ := rows_done (heldX.besides kept' otherX) (heldY.besides kept' otherY) otherX otherY
    numX.digits numY.digits held₂' (List.forall_mem_append.mpr ⟨digits₁, by simpa using small⟩)
    (show _ = 1 + xs.length by rw [List.length_append, same, List.length_singleton]; omega) (show ys.length = 1 + (ys.length - 1) by omega)
    (by omega)
  simp only [run₁, stored, run₃]
  have count : fs.length = xs.length + ys.length := by
    rw [size, List.length_append, same, List.length_singleton]
    omega
  have product : value 32768 fs = value 32768 xs * value (32768 : Int) ys := by
    have parts := congrArg (value (32768 : Int)) (List.drop_eq_getElem_cons positiveY)
    rw [List.drop_zero, value_cons, zero_add] at parts
    rw [total, value_append, same, value_cons, value_nil, mul_zero, add_zero, exact₁]
    linear_combination -(value (32768 : Int) xs) * parts
  have keptAll := (kept.trans kept').trans kept₃
  -- the highest place, which is 0 where the product has a digit less
  have top : (((xs.length : Int) + ys.length) - 1).toNat = xs.length + ys.length - 1 := by omega
  have inside : xs.length + ys.length - 1 < fs.length := by omega
  have loaded : load h₃ (.block p) (xs.length + ys.length - 1) = .ok fs[xs.length + ys.length - 1] :=
    load_holds (show Holds h₃ (.block p) fs from ⟨_, held₃⟩) inside
  have digitTop := digits₃ _ (List.getElem_mem inside)
  rw [top, loaded]
  have parts : fs = fs.take (xs.length + ys.length - 1) ++ [fs[xs.length + ys.length - 1]] := by
    conv_lhs => rw [← List.take_of_length_le (show fs.length ≤ xs.length + ys.length - 1 + 1 by omega), List.take_succ_eq_append_getElem inside]
  have large : (32768 : Int) ^ (xs.length + ys.length - 2) ≤ value 32768 xs * value 32768 ys := by
    have lowX := normal.le_value numX.digits (show xs.length = xs.length - 1 + 1 by omega)
    have lowY := normal'.le_value numY.digits (show ys.length = ys.length - 1 + 1 by omega)
    calc (32768 : Int) ^ (xs.length + ys.length - 2) = 32768 ^ (xs.length - 1) * 32768 ^ (ys.length - 1) := by
          rw [← pow_add]
          congr 1
          omega
      _ ≤ _ := mul_le_mul lowX lowY (by positivity) (value_nonneg numX.digits)
  by_cases zero : fs[xs.length + ys.length - 1] = 0
  · have size' : (fs.take (xs.length + ys.length - 1)).length = xs.length + ys.length - 2 + 1 := by
      rw [List.length_take_of_le inside.le]
      omega
    have same' : value 32768 (fs.take (xs.length + ys.length - 1)) = value (32768 : Int) fs := by
      conv_rhs => rw [parts, value_append, zero]
      simp
    have digits' : Digits 32768 (fs.take (xs.length + ys.length - 1)) := fun d member => digits₃ d (List.mem_of_mem_take member)
    have held' : h₃.block p = some (fs.take (xs.length + ys.length - 1) ++ (fs.drop (xs.length + ys.length - 1) ++ junk.drop (ys.length - 1))) := by
      rw [held₃, ← List.append_assoc, List.take_append_drop]
    rw [zero] at parts
    refine .inr ⟨_, fs.take (xs.length + ys.length - 1), rfl, ?_, List.ne_nil_of_length_pos (by omega), ⟨.inl rfl,
      normal_of_le digits' size' (by rw [same', product]; exact large), by rw [one_mul, same', product]⟩,
      [0], by rw [← parts]; simpa using ⟨_, held₃⟩, by rw [← parts, count], by simp⟩
    have result := result_fresh unused keptAll held' digits' c sp 1
    rw [one_mul, size'] at result
    simp only [zero, if_true, update_idem]
    rwa [show (xs.length : Int) + ys.length - 1 = ((xs.length + ys.length - 2 + 1 : Nat) : Int) by omega]
  · refine .inr ⟨_, fs, rfl, ?_, List.ne_nil_of_length_pos (by omega), ⟨.inl rfl, ?_, by rw [one_mul, product]⟩,
      [], by rw [List.append_nil]; simpa using ⟨_, held₃⟩, by rw [List.append_nil, count], nofun⟩
    · have result := result_fresh unused keptAll held₃ digits₃ c sp 1
      rw [one_mul, count, Nat.cast_add] at result
      simpa only [zero, if_false, update_idem] using result
    · intro d last
      rw [parts, List.getLast?_concat, Option.some.injEq] at last
      rwa [← last]

theorem _mp_mcan_done (num : Num s a e ds) (sign : e = 1 ∨ e = -1) (normal : Normal ds) : _mp_mcan s a = .ok s := by
  unfold _mp_mcan
  rcases eq_or_ne ds [] with rfl | some_
  · rw [if_pos (by simp [num.len])]
  have positive := List.length_pos_of_ne_nil some_
  rw [if_neg (show (s.mint a).len ≠ 0 by rw [num.len]; rcases sign with rfl | rfl <;> omega), num.magnitude sign]
  have top : ds.length = ds.length - 1 + 1 := by omega
  have inside : ds.length - 1 < ds.length := by omega
  have last : ds[ds.length - 1] ≠ 0 := normal _ (by rw [List.getLast?_eq_getElem?, List.getElem?_eq_getElem inside])
  have led : leading s.heap (s.mint a).val ds.length = .ok ds.length := by
    conv_lhs => rw [top]
    unfold leading
    simp only [load_holds (num.held some_) inside, bind, Except.bind, if_neg last]
    rw [← top]
  simp only [bind, Except.bind, Int.toNat_natCast, led, if_true]

theorem copies_fit {s₁ : Store} (entered : Entered s s₁ c sp 1 1 xs ys) (someX : xs ≠ []) (someY : ys ≠ []) :
    xs.length + ys.length + 4 ≤ 2 ^ 31 := by
  have lenX : (s₁.mint sp).len ≠ 0 := by simpa [entered.x.len] using someX
  have lenY : (s₁.mint (sp + 1)).len ≠ 0 := by simpa [entered.y.len] using someY
  obtain ⟨q, es, val, live⟩ := entered.xOwner lenX
  obtain ⟨q', es', val', live'⟩ := entered.yOwner lenY
  have heldX := entered.x.held someX
  have heldY := entered.y.held someY
  rw [val] at heldX
  rw [val'] at heldY
  obtain ⟨junk, heldX⟩ := heldX
  obtain ⟨junk', heldY⟩ := heldY
  have size := blocks_size heldX heldY fun same => entered.apart q ⟨lenX, val⟩ ⟨lenY, same ▸ val'⟩
  simp only [List.length_append] at size
  omega

theorem negate_signed : negate s c = s.set c { s.mint c with len := -1 * (s.mint c).len } := by rw [negate, neg_one_mul]

section signs

variable (num : Num s a e xs) (num' : Num s b e' ys) (sign : e = 1 ∨ e = -1) (sign' : e' = 1 ∨ e' = -1)
  (normal : Normal xs) (normal' : Normal ys) (owner : Owner s c) (aBelow : a < sp) (bBelow : b < sp) (cBelow : c < sp)

include num num' sign sign' normal normal' owner aBelow bBelow cBelow

theorem mult_done (malloc : Malloc) :
    mult malloc s a b c sp = .error .fatal ∨ ∃ s' k ds, mult malloc s a b c sp = .ok s' ∧ Result s s' c sp k ds ∧
      Gives (e * value 32768 xs * (e' * value 32768 ys)) k ds ∧ (xs ≠ [] → ys ≠ [] → Wide s' c ds (xs.length + ys.length)) := by
  unfold mult
  simp only [_mp_mcan_done num sign normal, _mp_mcan_done num' sign' normal', bind, Except.bind]
  by_cases none_ : (s.mint a).len = 0 ∨ (s.mint b).len = 0
  · rw [if_pos none_]
    have zero : xs = [] ∨ ys = [] := by
      rw [num.len, num'.len] at none_
      rcases sign with rfl | rfl <;> rcases sign' with rfl | rfl <;> simpa using none_
    obtain ⟨s', run, empty, cells, others, _⟩ := xfree_done owner
    refine .inr ⟨s', 1, [], run, ⟨⟨by simpa using empty, fun some_ => absurd rfl some_, nofun⟩, fun d _ => cells d, ?_,
      fun q own => absurd empty own.1, fun some_ => absurd empty some_⟩, ⟨.inl rfl, normal_nil, ?_⟩, fun someX someY => ?_⟩
    · exact fun q es held notC => (others q notC).trans held
    · rcases zero with rfl | rfl <;> simp
    · rcases zero with rfl | rfl
      · exact absurd rfl someX
      · exact absurd rfl someY
  rw [if_neg none_]
  obtain ⟨lenA, lenB⟩ := not_or.mp none_
  have someX : xs ≠ [] := fun none_ => lenA (by simp [num.len, none_])
  have someY : ys ≠ [] := fun none_ => lenB (by simp [num'.len, none_])
  have positiveX := List.length_pos_of_ne_nil someX
  have positiveY := List.length_pos_of_ne_nil someY
  rcases operands_done malloc num num' sign sign' aBelow bBelow cBelow with failed | ⟨s₁, run₁, entered, kept, same⟩
  · exact .inl (by rw [failed])
  rw [run₁]
  have sameA : (s₁.mint a).len = e * xs.length := by
    rw [← num.len]
    rcases eq_or_ne a c with rfl | other
    · rw [same]
    · rw [entered.cells a aBelow other]
  have sameB : (s₁.mint b).len = e' * ys.length := by
    rw [← num'.len]
    rcases eq_or_ne b c with rfl | other
    · rw [same]
    · rw [entered.cells b bBelow other]
  obtain ⟨t, turned, entered, kept, same⟩ : ∃ t, (if (s₁.mint a).len < 0 then negate s₁ sp else s₁) = t ∧ Entered s t c sp 1 e' xs ys ∧
      Keeps s.heap t.heap ∧ t.mint c = s.mint c := by
    rw [sameA]
    rcases sign with rfl | rfl
    · exact ⟨s₁, if_neg (by omega), entered, kept, same⟩
    · exact ⟨negate s₁ sp, if_pos (by omega), entered.negate_x, kept, (update_of_ne (by omega) ..).trans same⟩
  obtain ⟨t', turned', entered, kept, same⟩ : ∃ t', (if (s₁.mint b).len < 0 then negate t (sp + 1) else t) = t' ∧ Entered s t' c sp 1 1 xs ys ∧
      Keeps s.heap t'.heap ∧ t'.mint c = s.mint c := by
    rw [sameB]
    rcases sign' with rfl | rfl
    · exact ⟨t, if_neg (by omega), entered, kept, same⟩
    · exact ⟨negate t (sp + 1), if_pos (by omega), entered.negate_y, kept, (update_of_ne (by omega) ..).trans same⟩
  obtain ⟨k, kDef, minus⟩ : ∃ k : Int, (if (s₁.mint b).len < 0 then -(if (s₁.mint a).len < 0 then -1 else 1) else if (s₁.mint a).len < 0 then -1 else 1) = k ∧
      k = e * e' := by
    rw [sameA, sameB]
    refine ⟨_, rfl, ?_⟩
    rcases sign with rfl | rfl <;> rcases sign' with rfl | rfl <;> split_ifs <;> omega
  obtain ⟨s₂, freed, entered, empty⟩ := entered.freed one_ne_zero one_ne_zero kept same owner cBelow
  simp only [turned, turned', kDef, freed]
  have xLen : (s₂.mint sp).len = xs.length := by rw [entered.x.len, one_mul]
  have yLen : (s₂.mint (sp + 1)).len = ys.length := by rw [entered.y.len, one_mul]
  have fits := copies_fit entered someX someY
  have multiplied : (if (s₂.mint sp).len < (s₂.mint (sp + 1)).len then m_mult malloc s₂ sp (sp + 1) c else m_mult malloc s₂
    (sp + 1) sp c) = .error .fatal ∨
      ∃ s₃ ds, (if (s₂.mint sp).len < (s₂.mint (sp + 1)).len then m_mult malloc s₂ sp (sp + 1) c else m_mult malloc s₂ (sp + 1) sp c) = .ok s₃ ∧
        Result s₂ s₃ c (sp + 2) 1 ds ∧ ds ≠ [] ∧ Gives (value 32768 xs * value 32768 ys) 1 ds ∧ Wide s₃ c ds (xs.length + ys.length) := by
    split
    · exact m_mult_done malloc entered.x entered.y someX someY normal normal' fits (by omega) (by omega) (sp + 2)
    · rw [mul_comm, Nat.add_comm xs.length]
      exact m_mult_done malloc entered.y entered.x someY someX normal' normal (by omega) (by omega) (by omega) (sp + 2)
  rcases multiplied with failed | ⟨s₃, ds, run₃, result, some_, gives, wide⟩
  · exact .inl (by rw [failed])
  rw [run₃]
  have computed := (result.computed cBelow).signed cBelow k
  rw [mul_one] at computed
  have unit : k = 1 ∨ k = -1 := by
    rw [minus]
    rcases sign with rfl | rfl <;> rcases sign' with rfl | rfl <;> decide
  have signed : (if k < 0 then negate s₃ c else s₃) = s₃.set c { s₃.mint c with len := k * (s₃.mint c).len } := by
    rcases unit with rfl | rfl
    · simp [Store.set]
    · rw [if_pos (by decide), negate_signed]
  have filled : ((s₃.set c { s₃.mint c with len := k * (s₃.mint c).len }).mint c).len ≠ 0 := by
    rw [computed.result.num.len]
    exact mul_ne_zero (by omega) (by simpa using some_)
  simp only [signed, if_neg filled]
  obtain ⟨s₄, run₄, result₄, cell, block⟩ := left_done entered empty computed (by omega) cBelow
  refine .inr ⟨s₄, k, ds, run₄, result₄, ⟨unit, gives.normal, ?_⟩, fun _ _ => ?_⟩
  · have product := gives.exact_
    rw [one_mul] at product
    rw [product, minus]
    ring
  · obtain ⟨zs, held, size, zeros⟩ := wide
    obtain ⟨q, es, val, _⟩ := computed.result.owner filled
    have same : (s₃.mint c).val = .block q := by simpa [Store.set] using val
    refine ⟨zs, ?_, size, zeros⟩
    rw [same] at held
    obtain ⟨junk, at_⟩ := held
    rw [cell, val]
    exact ⟨junk, (block q ⟨filled, val⟩).trans at_⟩

end signs

end Svr4.Proofs.MpProduct

/-! The MINTs of a program as integers: each call leaves the exact result and nothing else changed, and
a sequence of calls computes what the same operations on integers do. -/

namespace Svr4.Proofs.MpExact
open Function Mp Positional MpDigits MpFrame MpSum MpProduct

def Value (s : Store) (a : Nat) (v : Int) : Prop :=
  ∃ e ds, (e = 1 ∨ e = -1 ∧ ds ≠ []) ∧ Num s a e ds ∧ Normal ds ∧ e * value 32768 ds = v

/-- Each MINT below `sp` has the array of its digits, if it has one, for itself. -/
structure Sound (s : Store) (sp : Nat) : Prop where
  owner : ∀ d < sp, Owner s d
  apart : ∀ d < sp, ∀ d' < sp, d ≠ d' → ∀ q, Owns s d q → ¬Owns s d' q

/-- The run fails for want of memory, or leaves `w` in `c` and the other MINTs as they were. -/
def Leaves (run : Except Fault Store) (s : Store) (c sp : Nat) (w : Int) : Prop :=
  run = .error .fatal ∨
    ∃ s', run = .ok s' ∧ Sound s' sp ∧ Value s' c w ∧ ∀ d < sp, d ≠ c → s'.mint d = s.mint d ∧ ∀ v, Value s d v → Value s' d v

variable {s s' : Store} {a b c sp : Nat} {e k u v total : Int} {ds xs ys : List Int}

theorem gives_value (gives : Gives total k ds) (num : Num s c k ds) : Value s c total := by
  rcases eq_or_ne ds [] with rfl | some_
  · exact ⟨1, [], .inl rfl, num.zero 1, gives.normal, by rw [← gives.exact_]; simp⟩
  · exact ⟨k, ds, gives.sign.imp_right (⟨·, some_⟩), num, gives.normal, gives.exact_⟩

theorem result_leaves {run : Except Fault Store} (sound : Sound s sp) (cBelow : c < sp)
    (done : run = .error .fatal ∨ ∃ s' k ds, run = .ok s' ∧ Result s s' c sp k ds ∧ Gives total k ds) : Leaves run s c sp total := by
  rcases done with failed | ⟨s', k, ds, ran, result, gives⟩
  · exact .inl failed
  have kept : ∀ d < sp, d ≠ c → ∀ q, Owns s d q → s'.heap.block q = s.heap.block q := by
    intro d below other q own
    obtain ⟨es, held⟩ := Owns.live (sound.owner d below) own
    rw [held]
    exact result.blocks q es held fun own' => sound.apart d below c cBelow other q own own'
  have owns : ∀ d < sp, d ≠ c → ∀ q, Owns s' d q ↔ Owns s d q := fun d below other q => by rw [Owns, Owns, result.cells d below other]
  have clear : ∀ d < sp, d ≠ c → ∀ q, Owns s' c q → ¬Owns s' d q := by
    intro d below other q own own'
    have own' := (owns d below other q).mp own'
    obtain ⟨es, held⟩ := Owns.live (sound.owner d below) own'
    exact sound.apart d below c cBelow other q own' (result.fresh q own es held)
  refine .inr ⟨s', ran, ⟨fun d below => ?_, fun d below d' below' other q own => ?_⟩, gives_value gives result.num, fun d below other => ?_⟩
  · rcases eq_or_ne d c with rfl | other
    · exact result.owner
    · exact (sound.owner d below).others (result.cells d below other) (kept d below other)
  · rcases eq_or_ne d c with rfl | notC
    · exact clear d' below' other.symm q own
    · rcases eq_or_ne d' c with rfl | notC'
      · exact fun own' => clear d below notC q own' own
      · rw [owns d' below' notC']
        exact sound.apart d below d' below' other q ((owns d below notC q).mp own)
  · refine ⟨result.cells d below other, ?_⟩
    rintro v ⟨e, xs, sign, num, normal, rfl⟩
    exact ⟨e, xs, sign, num.others (result.cells d below other) (by rcases sign with rfl | ⟨rfl, _⟩ <;> decide) (kept d below other), normal, rfl⟩

theorem madd_leaves (malloc : Malloc) (n : Nat) (sound : Sound s sp) (aBelow : a < sp) (bBelow : b < sp) (cBelow : c < sp)
    (x : Value s a u) (y : Value s b v) : Leaves (madd malloc (n + 5) s a b c sp) s c sp (u + v) := by
  obtain ⟨e, xs, sign, num, normal, rfl⟩ := x
  obtain ⟨e', ys, sign', num', normal', rfl⟩ := y
  exact result_leaves sound cBelow
    (madd_done num num' sign sign' normal normal' (sound.owner c cBelow) aBelow bBelow cBelow malloc n)

theorem msub_leaves (malloc : Malloc) (n : Nat) (sound : Sound s sp) (aBelow : a < sp) (bBelow : b < sp) (cBelow : c < sp)
    (x : Value s a u) (y : Value s b v) : Leaves (msub malloc (n + 5) s a b c sp) s c sp (u - v) := by
  obtain ⟨e, xs, sign, num, normal, rfl⟩ := x
  obtain ⟨e', ys, sign', num', normal', rfl⟩ := y
  exact result_leaves sound cBelow
    (msub_done num num' sign sign' normal normal' (sound.owner c cBelow) aBelow bBelow cBelow malloc n)

theorem mult_leaves (malloc : Malloc) (sound : Sound s sp) (aBelow : a < sp) (bBelow : b < sp) (cBelow : c < sp)
    (x : Value s a u) (y : Value s b v) : Leaves (mult malloc s a b c sp) s c sp (u * v) := by
  obtain ⟨e, xs, sign, num, normal, rfl⟩ := x
  obtain ⟨e', ys, sign', num', normal', rfl⟩ := y
  apply result_leaves sound cBelow
  rcases mult_done num num' (sign.imp_right And.left) (sign'.imp_right And.left) normal normal' (sound.owner c cBelow) aBelow bBelow
    cBelow malloc with failed | ⟨s', k, ds, ran, result, gives, _⟩
  · exact .inl failed
  · exact .inr ⟨s', k, ds, ran, result, gives⟩

inductive Call
  | madd (a b c : Nat)
  | msub (a b c : Nat)
  | mult (a b c : Nat)

def Call.run (malloc : Malloc) (n sp : Nat) (s : Store) : Call → Except Fault Store
  | .madd a b c => Mp.madd malloc (n + 5) s a b c sp
  | .msub a b c => Mp.msub malloc (n + 5) s a b c sp
  | .mult a b c => Mp.mult malloc s a b c sp

def Call.eval (env : Nat → Int) : Call → Nat → Int
  | .madd a b c => update env c (env a + env b)
  | .msub a b c => update env c (env a - env b)
  | .mult a b c => update env c (env a * env b)

def Call.Below (sp : Nat) : Call → Prop
  | .madd a b c | .msub a b c | .mult a b c => a < sp ∧ b < sp ∧ c < sp

structure Models (s : Store) (sp : Nat) (env : Nat → Int) : Prop where
  sound : Sound s sp
  values : ∀ d < sp, Value s d (env d)

theorem Leaves.models {run : Except Fault Store} {env : Nat → Int} (leaves : Leaves run s c sp total) (models : Models s sp env) :
    run = .error .fatal ∨ ∃ s', run = .ok s' ∧ Models s' sp (update env c total) := by
  rcases leaves with failed | ⟨s', ran, sound, value_, others⟩
  · exact .inl failed
  refine .inr ⟨s', ran, sound, fun d below => ?_⟩
  rcases eq_or_ne d c with rfl | other
  · rwa [update_self]
  · rw [update_of_ne other]
    exact (others d below other).2 _ (models.values d below)

theorem call_models (malloc : Malloc) (n : Nat) {env : Nat → Int} (models : Models s sp env) (call : Call) (below : call.Below sp) :
    call.run malloc n sp s = .error .fatal ∨ ∃ s', call.run malloc n sp s = .ok s' ∧ Models s' sp (call.eval env) := by
  cases call with
  | madd a b c =>
    obtain ⟨aBelow, bBelow, cBelow⟩ := below
    exact (madd_leaves malloc n models.sound aBelow bBelow cBelow (models.values a aBelow) (models.values b bBelow)).models models
  | msub a b c =>
    obtain ⟨aBelow, bBelow, cBelow⟩ := below
    exact (msub_leaves malloc n models.sound aBelow bBelow cBelow (models.values a aBelow) (models.values b bBelow)).models models
  | mult a b c =>
    obtain ⟨aBelow, bBelow, cBelow⟩ := below
    exact (mult_leaves malloc models.sound aBelow bBelow cBelow (models.values a aBelow) (models.values b bBelow)).models models

theorem calls_model (malloc : Malloc) (n : Nat) {env : Nat → Int} (models : Models s sp env) (calls : List Call)
    (below : ∀ call ∈ calls, call.Below sp) :
    calls.foldlM (Call.run malloc n sp) s = .error .fatal ∨
      ∃ s', calls.foldlM (Call.run malloc n sp) s = .ok s' ∧ Models s' sp (calls.foldl Call.eval env) := by
  induction calls generalizing s env with
  | nil => exact .inr ⟨s, rfl, models⟩
  | cons call calls ih =>
    rw [List.foldlM_cons]
    rcases call_models malloc n models call (below call List.mem_cons_self) with failed | ⟨s₁, ran, models₁⟩
    · exact .inl (by rw [failed]; rfl)
    · rw [ran]
      exact ih models₁ fun call later => below call (List.mem_cons_of_mem _ later)

def bump : Malloc := fun h n =>
  if fits : max LOWEST (h.top + 1) + 2 * ((n + 1) / 2) ≤ 2 ^ 32 then
    some {
      addr := max LOWEST (h.top + 1)
      contents := List.replicate ((n + 1) / 2) (-1)
      room := by
        rw [List.length_replicate]
        omega
      low := le_max_left ..
      high := by rwa [List.length_replicate]
      unused := by
        by_contra held
        obtain ⟨ds, held⟩ := Option.ne_none_iff_exists'.mp held
        have := h.inside _ _ held
        omega
      apart := by
        intro q es held
        have := h.inside q es held
        omega }
  else none

def sample : Store where
  mint d := if d = 0 then ⟨2, .block 8⟩ else if d = 1 then ⟨-1, .block 16⟩ else ⟨0, .one⟩
  heap := {
    block p := if p = 8 then some [5, 1, 0, 0] else if p = 16 then some [7, 0, 0] else none
    top := 22
    inside := by
      intro p ds held
      split_ifs at held <;> cases held <;> simp [LOWEST, *]
    limit := by decide
    apart := by
      intro p q ds es held held' before
      split_ifs at held held' <;> cases held <;> cases held' <;> simp_all }

theorem sample_sound : Sound sample 2 := by
  have first : ∀ q, Owns sample 0 q → q = 8 := fun q own => by simpa [sample, eq_comm] using own.2
  have second : ∀ q, Owns sample 1 q → q = 16 := fun q own => by simpa [sample, eq_comm] using own.2
  constructor
  · intro d below some_
    interval_cases d
    · exact ⟨8, _, rfl, rfl⟩
    · exact ⟨16, _, rfl, rfl⟩
  · intro d below d' below' other q own own'
    interval_cases d <;> interval_cases d'
    · exact other rfl
    · have := (first q own).symm.trans (second q own')
      omega
    · have := (second q own).symm.trans (first q own')
      omega
    · exact other rfl

theorem sample_first : Value sample 0 32773 :=
  ⟨1, [5, 1], .inl rfl, ⟨rfl, fun _ => ⟨[0, 0], rfl⟩, by simp [Digits]⟩, by simp [MpSum.Normal], by simp⟩

theorem sample_second : Value sample 1 (-7) :=
  ⟨-1, [7], .inr ⟨rfl, by simp⟩, ⟨rfl, fun _ => ⟨[0, 0], rfl⟩, by simp [Digits]⟩, by simp [MpSum.Normal], by simp⟩

theorem calls_model_sample :
    (List.foldlM (Call.run bump 0 2) sample [.madd 0 1 1, .mult 1 1 0, .msub 0 1 0] = .error .fatal ∨
      ∃ s', List.foldlM (Call.run bump 0 2) sample [.madd 0 1 1, .mult 1 1 0, .msub 0 1 0] = .ok s' ∧
        Models s' 2 (List.foldl Call.eval (fun d => if d = 0 then 32773 else -7) [.madd 0 1 1, .mult 1 1 0, .msub 0 1 0])) ∧
      (List.foldlM (Call.run bump 0 2) sample [.madd 0 1 1, .mult 1 1 0, .msub 0 1 0]).toOption.isSome := by
  have models : Models sample 2 fun d => if d = 0 then 32773 else -7 := ⟨sample_sound, fun d below => by
    interval_cases d
    · exact sample_first
    · exact sample_second⟩
  exact ⟨calls_model bump 0 models _ (by simp [Call.Below]), by decide +kernel⟩

end Svr4.Proofs.MpExact
