import Svr4.Qsort

/-! What the loops of qsort.c do with the records: the loops over bytes exchange and shift whole
records, and `qst` leaves the smallest record among the first ones. -/

namespace Svr4.Proofs.QsortParts
open Function Shuffle Qsort

variable {qsz n : Nat} {m m' m0 : Nat → Record qsz} {base max i j k l mid : Nat} {qcmp : Record qsz → Record qsz → Int}

/-- The order of the records: its outcome changes its sign with the order of the two, and it is transitive. -/
structure TotalPreorder (qcmp : Record qsz → Record qsz → Int) : Prop where
  flip : ∀ a b, 0 < qcmp a b ↔ qcmp b a < 0
  trans : ∀ a b c, qcmp a b ≤ 0 → qcmp b c ≤ 0 → qcmp a c ≤ 0

theorem TotalPreorder.refl (order : TotalPreorder qcmp) (a : Record qsz) : qcmp a a ≤ 0 := by
  have := order.flip a a
  omega

theorem TotalPreorder.le_of_lt (order : TotalPreorder qcmp) {a b : Record qsz} (less : ¬ qcmp a b ≤ 0) : qcmp b a ≤ 0 := by
  have := order.flip a b
  omega

theorem put_apply (i : Nat) (t : Fin qsz) (c : UInt8) (k : Nat) (t' : Fin qsz) :
    put m i t c k t' = if k = i ∧ t' = t then c else m k t' := by
  unfold put
  by_cases here : k = i
  · subst here
    rw [update_self, update_apply]
    simp only [true_and]
  · rw [update_of_ne here, if_neg fun both => here both.1]

theorem swap_eq (apart : i ≠ j) : Qsort.swap m i j = exchange m i j := by
  suffices prefixes : ∀ (l : List (Fin qsz)) (m' : Nat → Record qsz), l.Nodup →
      ∀ k t, l.foldl (fun m t => put (put m i t (m j t)) j t (m i t)) m' k t =
        if t ∈ l then exchange m' i j k t else m' k t by
    funext k t
    rw [Qsort.swap, prefixes _ _ (List.nodup_finRange qsz), if_pos (List.mem_finRange t)]
  intro l
  induction l with
  | nil => exact fun m' _ k t => (if_neg List.not_mem_nil).symm
  | cons t' l ih =>
    intro m' once k t
    obtain ⟨fresh, once⟩ := List.nodup_cons.mp once
    have byte : ∀ k t, put (put m' i t' (m' j t')) j t' (m' i t') k t = if t = t' then exchange m' i j k t else m' k t := by
      intro k t
      rw [put_apply, put_apply, exchange]
      by_cases here : t = t'
      · subst here
        by_cases right : k = j
        · simp [right]
        · by_cases left : k = i
          · simp [left, apart]
          · simp [right, left]
      · simp [here]
    rw [List.foldl_cons, ih _ once, byte]
    by_cases here : t = t'
    · subst here
      rw [if_neg fresh, if_pos rfl, if_pos List.mem_cons_self]
    · simp only [List.mem_cons, here, false_or, if_false]
      split
      case isTrue later =>
        have same : ∀ k, put (put m' i t' (m' j t')) j t' (m' i t') k t = m' k t := fun k => (byte k t).trans (if_neg here)
        unfold exchange
        by_cases right : k = j
        · simp only [right, update_self, same]
        · by_cases left : k = i
          · simp only [left, update_of_ne apart, update_self, same]
          · simp only [update_of_ne right, update_of_ne left, same]
      case isFalse => rfl

def rotated (m : Nat → Record qsz) (hi min : Nat) (k : Nat) : Record qsz :=
  if k = hi then m min else if hi < k ∧ k ≤ min then m (k - 1) else m k

theorem shift_apply (hi min : Nat) (before : hi ≤ min) (m : Nat → Record qsz) (t : Fin qsz) (k : Nat) (t' : Fin qsz) :
    shift hi min m t k t' = if t' = t then rotated m hi min k t else m k t' := by
  have moved : ∀ c, hi + c ≤ min → ∀ m : Nat → Record qsz, ∀ k t',
      (List.range' (hi + 1) c).reverse.foldl (fun m i => put m i t (m (i - 1) t)) m k t' =
        if t' = t ∧ hi < k ∧ k ≤ hi + c then m (k - 1) t else m k t' := by
    intro c
    induction c with
    | zero =>
      intro _ m k t'
      rw [if_neg (by omega)]
      rfl
    | succ c ih =>
      intro few m k t'
      rw [List.range'_concat, List.reverse_append, List.reverse_singleton, List.singleton_append, List.foldl_cons, ih (by omega),
        put_apply, put_apply]
      have place : hi + 1 + 1 * c = hi + c + 1 := by omega
      rw [place]
      by_cases byte : t' = t
      · subst byte
        by_cases last : k = hi + c + 1
        · subst last
          rw [if_neg (by omega), if_pos ⟨rfl, rfl⟩, if_pos (by omega)]
        · by_cases inside : hi < k ∧ k ≤ hi + c
          · rw [if_pos ⟨rfl, inside⟩, if_neg (by omega), if_pos (by omega)]
          · rw [if_neg (by omega), if_neg (by omega), if_neg (by omega)]
      · rw [if_neg (by simp [byte]), if_neg (by simp [byte]), if_neg (by simp [byte])]
  unfold shift rotated
  rw [put_apply, moved (min - hi) (by omega)]
  by_cases byte : t' = t
  · subst byte
    by_cases first : k = hi
    · rw [if_pos ⟨first, rfl⟩, if_pos rfl, if_pos first]
    · by_cases inside : hi < k ∧ k ≤ min
      · rw [if_neg (by simp [first]), if_pos (by omega), if_pos rfl, if_neg first, if_pos inside]
      · rw [if_neg (by simp [first]), if_neg (by omega), if_pos rfl, if_neg first, if_neg inside]
  · rw [if_neg (by simp [byte]), if_neg (by simp [byte]), if_neg byte]

theorem shifts_eq (hi min : Nat) (before : hi ≤ min) (m : Nat → Record qsz) : shifts m hi min = rotated m hi min := by
  suffices prefixes : ∀ (l : List (Fin qsz)) (m : Nat → Record qsz), l.Nodup →
      ∀ k t, l.foldl (shift hi min) m k t = if t ∈ l then rotated m hi min k t else m k t by
    funext k t
    rw [shifts, prefixes _ _ (List.nodup_reverse.mpr (List.nodup_finRange qsz)), if_pos (List.mem_reverse.mpr (List.mem_finRange t))]
  intro l
  induction l with
  | nil => exact fun m _ k t => (if_neg List.not_mem_nil).symm
  | cons t' l ih =>
    intro m once k t
    obtain ⟨fresh, once⟩ := List.nodup_cons.mp once
    have byte := shift_apply hi min before m t'
    rw [List.foldl_cons, ih _ once, byte]
    by_cases here : t = t'
    · subst here
      rw [if_neg fresh, if_pos rfl, if_pos List.mem_cons_self]
    · simp only [List.mem_cons, here, false_or, if_false]
      split
      case isTrue later =>
        have same : ∀ k, shift hi min m t' k t = m k t := fun k => (byte k t).trans (if_neg here)
        unfold rotated
        split_ifs
        · exact same min
        · exact same (k - 1)
        · exact same k
      case isFalse => rfl

theorem rotated_shuffled {hi min : Nat} (before : hi ≤ min) (m : Nat → Record qsz) : Shuffled hi (min + 1) m (rotated m hi min) := by
  induction min, before using Nat.le_induction generalizing m with
  | base =>
    have same : rotated m hi hi = m := by
      funext k
      unfold rotated
      split_ifs with first second
      · rw [first]
      · omega
      · rfl
    rw [same]
    exact .refl
  | succ min before ih =>
    have steps : rotated m hi (min + 1) = rotated (exchange m min (min + 1)) hi min := by
      funext k
      unfold rotated exchange
      by_cases first : k = hi
      · rw [if_pos first, if_pos first, update_of_ne (by omega), update_self]
      · rw [if_neg first, if_neg first]
        by_cases last : k = min + 1
        · subst last
          rw [if_pos (by omega), if_neg (by omega), update_self, Nat.add_sub_cancel]
        · by_cases inside : hi < k ∧ k ≤ min
          · rw [if_pos (by omega), if_pos inside, update_of_ne (by omega), update_of_ne (by omega)]
          · rw [if_neg (by omega), if_neg inside, update_of_ne last, update_of_ne (by omega)]
    rw [steps]
    exact (Shuffled.exchange (p := min) (q := min + 1) ⟨before, by omega⟩ ⟨by omega, by omega⟩).trans
      ((ih _).mono le_rfl (by omega))

theorem compare_inside (first : i < n) (second : j < n) : compare n qcmp m i j = some (qcmp (m i) (m j)) := if_pos ⟨first, second⟩

theorem median_done (qcmp : Record qsz → Record qsz → Int) (m : Nat → Record qsz) (low : base ≤ i) (high : i < max) (few : max ≤ n) :
    ∃ j, median n qcmp m base max i = some j ∧ base ≤ j ∧ j < max := by
  have chosen : ∀ (p : Prop) [Decidable p] (x y : Nat), base ≤ x ∧ x < max → base ≤ y ∧ y < max →
      base ≤ (if p then x else y) ∧ (if p then x else y) < max := by
    intro p _ x y left right
    split
    · exact left
    · exact right
  unfold median
  dsimp only
  rw [compare_inside (by omega) (by omega), Option.bind_eq_bind, Option.bind_some]
  have first := chosen (qcmp (m base) (m i) > 0) base i (by omega) (by omega)
  generalize (if qcmp (m base) (m i) > 0 then base else i) = j at first ⊢
  rw [compare_inside (by omega) (by omega), Option.bind_some]
  split
  case isTrue =>
    have second := chosen (j = base) i base (by omega) (by omega)
    generalize (if j = base then i else base) = j' at second ⊢
    rw [compare_inside (by omega) (by omega), Option.bind_some]
    exact ⟨_, rfl, chosen _ _ _ (by omega) second⟩
  case isFalse => exact ⟨j, rfl, first⟩

structure Split (qcmp : Record qsz → Record qsz → Int) (m0 m : Nat → Record qsz) (base max i j mid : Nat) : Prop where
  low : base ≤ i
  first : i ≤ mid
  second : mid ≤ j
  high : j < max
  below : ∀ k, base ≤ k → k < i → qcmp (m k) (m mid) ≤ 0
  above : ∀ k, j < k → k < max → qcmp (m mid) (m k) ≤ 0
  shuffled : Shuffled base max m0 m

theorem up_done (split_ : Split qcmp m0 m base max i j mid) (few : max ≤ n) :
    ∃ i', up n qcmp m mid i = some i' ∧ i ≤ i' ∧ Split qcmp m0 m base max i' j mid ∧ (i' < mid → ¬ qcmp (m i') (m mid) ≤ 0) := by
  have bounds := (⟨split_.first, split_.second, split_.high⟩ : i ≤ mid ∧ mid ≤ j ∧ j < max)
  induction rest : mid - i generalizing i with
  | zero =>
    unfold up
    rw [if_neg (by omega)]
    exact ⟨i, rfl, le_rfl, split_, fun more => by omega⟩
  | succ rest' ih =>
    unfold up
    rw [if_pos (by omega), compare_inside (by omega) (by omega), Option.bind_some]
    split
    case isTrue upto =>
      have next : Split qcmp m0 m base max (i + 1) j mid := by
        refine { split_ with low := by have := split_.low; omega, first := by omega, below := fun k low high => ?_ }
        rcases Nat.lt_or_eq_of_le (Nat.le_of_lt_succ high) with less | rfl
        · exact split_.below k low less
        · exact upto
      obtain ⟨i', runs, later, done⟩ := ih next (by omega) (by omega)
      exact ⟨i', runs, by omega, done⟩
    case isFalse greater => exact ⟨i, rfl, le_rfl, split_, fun _ => greater⟩

theorem down_done (split_ : Split qcmp m0 m base max i j mid) (few : max ≤ n) :
    ∃ j', down n qcmp m mid j = some j' ∧ j' ≤ j ∧ Split qcmp m0 m base max i j' mid ∧ (mid < j' → ¬ qcmp (m mid) (m j') ≤ 0) := by
  have bounds := (⟨split_.second, split_.high⟩ : mid ≤ j ∧ j < max)
  induction rest : j - mid generalizing j with
  | zero =>
    unfold down
    rw [if_neg (by omega)]
    exact ⟨j, rfl, le_rfl, split_, fun more => by omega⟩
  | succ rest' ih =>
    unfold down
    rw [if_pos (by omega), compare_inside (by omega) (by omega), Option.bind_some]
    split
    case isTrue upto =>
      have next : Split qcmp m0 m base max i (j - 1) mid := by
        refine { split_ with second := by omega, high := by omega, above := fun k low high => ?_ }
        rcases Nat.lt_or_eq_of_le (show j ≤ k by omega) with less | rfl
        · exact split_.above k less high
        · exact upto
      obtain ⟨j', runs, earlier, done⟩ := ih next (by omega) (by omega)
      exact ⟨j', runs, by omega, done⟩
    case isFalse greater => exact ⟨j, rfl, le_rfl, split_, fun _ => greater⟩

theorem partition_done (order : TotalPreorder qcmp) (fuel : Nat) (split_ : Split qcmp m0 m base max i j mid) (few : max ≤ n)
    (enough : j - i < fuel) : ∃ m' mid', partition n qcmp fuel m i j mid = some (m', mid') ∧ Split qcmp m0 m' base max mid' mid' mid' := by
  induction fuel generalizing m i j mid with
  | zero => omega
  | succ fuel ih =>
    obtain ⟨i', ups, later, split_, stop⟩ := up_done split_ few
    obtain ⟨j', downs, earlier, split_, stop'⟩ := down_done split_ few
    unfold partition
    rw [ups, Option.bind_eq_bind, Option.bind_some, downs, Option.bind_some]
    clear ups downs
    have first := split_.first
    have second := split_.second
    have high := split_.high
    have low := split_.low
    split
    case isTrue more =>
      have less := order.le_of_lt (stop' more)
      have swapped : Qsort.swap m i' j' = exchange m i' j' := swap_eq (by omega)
      have here : exchange m i' j' i' = m j' := by rw [exchange, update_of_ne (by omega), update_self]
      have there : exchange m i' j' j' = m i' := by rw [exchange, update_self]
      have other : ∀ k, k ≠ i' → k ≠ j' → exchange m i' j' k = m k := by
        intro k left right
        rw [exchange, update_of_ne right, update_of_ne left]
      have shuffled := split_.shuffled.trans (Shuffled.exchange (p := i') (q := j') ⟨low, by omega⟩ ⟨by omega, high⟩)
      rw [swapped]
      split
      case isTrue met =>
        subst met
        apply ih _ (by omega)
        refine ⟨by omega, by omega, le_rfl, high, fun k low' high' => ?_, fun k low' high' => ?_, shuffled⟩
        · rw [there]
          rcases Nat.lt_or_eq_of_le (Nat.le_of_lt_succ high') with before | rfl
          · rw [other k (by omega) (by omega)]
            exact split_.below k low' before
          · rw [here]
            exact less
        · rw [there, other k (by omega) (by omega)]
          exact split_.above k low' high'
      case isFalse apart =>
        have greater := order.le_of_lt (stop (by omega))
        apply ih _ (by omega)
        refine ⟨by omega, by omega, by omega, by omega, fun k low' high' => ?_, fun k low' high' => ?_, shuffled⟩
        · rw [other mid (by omega) (by omega)]
          rcases Nat.lt_or_eq_of_le (Nat.le_of_lt_succ high') with before | rfl
          · rw [other k (by omega) (by omega)]
            exact split_.below k low' before
          · rw [here]
            exact less
        · rw [other mid (by omega) (by omega)]
          rcases Nat.lt_or_eq_of_le (show j' ≤ k by omega) with behind | rfl
          · rw [other k (by omega) (by omega)]
            exact split_.above k behind high'
          · rw [there]
            exact greater
    case isFalse met =>
      obtain rfl : j' = mid := by omega
      split
      case isTrue met => exact ⟨m, j', rfl, met ▸ split_⟩
      case isFalse apart =>
        have greater := order.le_of_lt (stop (by omega))
        have swapped : Qsort.swap m i' j' = exchange m i' j' := swap_eq apart
        have here : exchange m i' j' i' = m j' := by rw [exchange, update_of_ne apart, update_self]
        have there : exchange m i' j' j' = m i' := by rw [exchange, update_self]
        have other : ∀ k, k ≠ i' → k ≠ j' → exchange m i' j' k = m k := by
          intro k left right
          rw [exchange, update_of_ne right, update_of_ne left]
        rw [swapped]
        apply ih _ (by omega)
        refine ⟨low, le_rfl, by omega, by omega, fun k low' high' => ?_, fun k low' high' => ?_,
          split_.shuffled.trans (Shuffled.exchange ⟨low, by omega⟩ ⟨by omega, high⟩)⟩
        · rw [here, other k (by omega) (by omega)]
          exact split_.below k low' high'
        · rw [here]
          rcases Nat.lt_or_eq_of_le (show j' ≤ k by omega) with behind | rfl
          · rw [other k (by omega) (by omega)]
            exact split_.above k behind high'
          · rw [there]
            exact greater

end Svr4.Proofs.QsortParts

/-! `qsort` sorts: as `qst` leaves the smallest record among the first ones, the insertion sort has it
as its sentinel, and does not come before the array. -/

namespace Svr4.Proofs.QsortSorts
open Function Shuffle Qsort QsortParts

variable {qsz n : Nat} {m m' : Nat → Record qsz} {a base max l mid fuel : Nat} {qcmp : Record qsz → Record qsz → Int} {thresh : Int}

def Heads (qcmp : Record qsz → Record qsz → Int) (m : Nat → Record qsz) (a l : Nat) : Prop :=
  ∃ k, a ≤ k ∧ k < l ∧ k < a + THRESH ∧ ∀ k', a ≤ k' → k' < l → qcmp (m k) (m k') ≤ 0

theorem smallest_exists (order : TotalPreorder qcmp) (m : Nat → Record qsz) (some_ : a < l) :
    ∃ k, a ≤ k ∧ k < l ∧ ∀ k', a ≤ k' → k' < l → qcmp (m k) (m k') ≤ 0 := by
  induction l, some_ using Nat.le_induction with
  | base =>
    refine ⟨a, le_rfl, Nat.lt_succ_self a, fun k' low high => ?_⟩
    rw [show k' = a by omega]
    exact order.refl _
  | succ l some_ ih =>
    obtain ⟨k, low, high, least⟩ := ih
    by_cases upto : qcmp (m k) (m l) ≤ 0
    · refine ⟨k, low, by omega, fun k' low' high' => ?_⟩
      rcases Nat.lt_or_eq_of_le (Nat.le_of_lt_succ high') with before | rfl
      · exact least k' low' before
      · exact upto
    · have less := order.le_of_lt upto
      refine ⟨l, by omega, by omega, fun k' low' high' => ?_⟩
      rcases Nat.lt_or_eq_of_le (Nat.le_of_lt_succ high') with before | rfl
      · exact order.trans _ _ _ less (least k' low' before)
      · exact order.refl _

def Sorts (n : Nat) (qcmp : Record qsz → Record qsz → Int) (thresh mthresh : Int) (fuel : Nat) : Prop :=
  ∀ (m : Nat → Record qsz) (a l : Nat), a < l → l ≤ n → l - a ≤ fuel →
    ∃ m', qst n qcmp thresh mthresh fuel m a l (((l : Int) - a) * qsz) = some m' ∧ Shuffled a l m m' ∧ Heads qcmp m' a l

theorem part_done (order : TotalPreorder qcmp) {mthresh : Int} (bytes : 0 < qsz) (is : thresh = THRESH * qsz)
    (sorts : Sorts n qcmp thresh mthresh fuel) (m : Nat → Record qsz) (few : l ≤ n) (enough : l - a ≤ fuel) :
    ∃ m', (if ((l : Int) - a) * qsz ≥ thresh then qst n qcmp thresh mthresh fuel m a l (((l : Int) - a) * qsz) else some m) = some m' ∧
      Shuffled a l m m' ∧ (a < l → Heads qcmp m' a l) := by
  have count : ((l : Int) - a) * qsz ≥ thresh ↔ a + THRESH ≤ l := by
    rw [is, ge_iff_le, mul_le_mul_iff_of_pos_right (Int.natCast_pos.mpr bytes)]
    omega
  split
  case isTrue many =>
    have many := count.mp many
    have some_ : a < l := (Nat.lt_add_of_pos_right (by decide)).trans_le many
    obtain ⟨m', runs, shuffled, heads⟩ := sorts m a l some_ few enough
    exact ⟨m', runs, shuffled, fun _ => heads⟩
  case isFalse small =>
    have small := mt count.mpr small
    refine ⟨m, rfl, .refl, fun some_ => ?_⟩
    obtain ⟨k, low, high, least⟩ := smallest_exists order m some_
    exact ⟨k, low, high, by omega, least⟩

theorem split_left {m0 : Nat → Record qsz} (split_ : Split qcmp m0 m base max mid mid mid) (left : Shuffled base mid m m') :
    Split qcmp m0 m' base max mid mid mid := by
  have high := split_.high
  have pivot : m' mid = m mid := left.outside mid (by omega)
  refine { split_ with below := ?_, above := fun k low' high' => ?_, shuffled := split_.shuffled.trans (left.mono le_rfl high.le) }
  · rw [pivot]
    exact left.all (P := fun x => qcmp x (m mid) ≤ 0) split_.below
  · rw [pivot, left.outside k (by omega)]
    exact split_.above k low' high'

theorem split_right {m0 : Nat → Record qsz} (split_ : Split qcmp m0 m base max mid mid mid) (right : Shuffled (mid + 1) max m m') :
    Split qcmp m0 m' base max mid mid mid := by
  have low := split_.low
  have pivot : m' mid = m mid := right.outside mid (by omega)
  refine { split_ with below := fun k low' high' => ?_, above := ?_, shuffled := split_.shuffled.trans (right.mono (by omega) le_rfl) }
  · rw [pivot, right.outside k (by omega)]
    exact split_.below k low' high'
  · rw [pivot]
    exact right.all (P := fun x => qcmp (m mid) x ≤ 0) split_.above

theorem heads_join (order : TotalPreorder qcmp) {m0 : Nat → Record qsz} (split_ : Split qcmp m0 m base max mid mid mid)
    (heads : base < mid → Heads qcmp m base mid) : Heads qcmp m base max := by
  have low := split_.low
  have high := split_.high
  by_cases some_ : base < mid
  · obtain ⟨k, first, last, head, least⟩ := heads some_
    refine ⟨k, first, by omega, head, fun k' low' high' => ?_⟩
    rcases lt_trichotomy k' mid with before | rfl | behind
    · exact least k' low' before
    · exact split_.below k first last
    · exact order.trans _ _ _ (split_.below k first last) (split_.above k' behind high')
  · have : 0 < THRESH := by decide
    refine ⟨mid, low, high, by omega, fun k' low' high' => ?_⟩
    rcases Nat.lt_or_ge mid k' with behind | here
    · exact split_.above k' behind high'
    · rw [show k' = mid by omega]
      exact order.refl _

theorem qst_done (order : TotalPreorder qcmp) (mthresh : Int) (bytes : 0 < qsz) (is : thresh = THRESH * qsz) (fuel : Nat) :
    Sorts n qcmp thresh mthresh fuel := by
  induction fuel with
  | zero =>
    intro m a l some_ _ enough
    omega
  | succ fuel ih =>
    intro m base max some_ few enough
    have half : (((max : Int) - base) * qsz / qsz / 2).toNat = (max - base) / 2 := by
      rw [Int.mul_ediv_cancel _ (by omega)]
      omega
    unfold qst
    rw [half]
    obtain ⟨mid, at_⟩ : ∃ mid, base + (max - base) / 2 = mid := ⟨_, rfl⟩
    dsimp only
    rw [at_]
    obtain ⟨m1, first, shuffled⟩ : ∃ m1, (if ((max : Int) - base) * qsz ≥ mthresh then
        (median n qcmp m base max mid).map fun j => if j ≠ mid then Qsort.swap m mid j else m else some m) = some m1 ∧
        Shuffled base max m m1 := by
      split
      case isTrue =>
        have low : base ≤ mid := by omega
        have high : mid < max := by omega
        obtain ⟨j, runs, low', high'⟩ := median_done qcmp m low high few
        rw [runs]
        refine ⟨_, rfl, ?_⟩
        dsimp only
        split
        case isTrue apart => exact swap_eq (Ne.symm apart) ▸ Shuffled.exchange ⟨low, high⟩ ⟨low', high'⟩
        case isFalse => exact .refl
      case isFalse => exact ⟨m, rfl, .refl⟩
    rw [first, Option.bind_eq_bind, Option.bind_some]
    have start : Split qcmp m m1 base max base (max - 1) mid :=
      ⟨le_rfl, by omega, by omega, by omega, fun k low high => by omega, fun k low high => by omega, shuffled⟩
    obtain ⟨m2, mid', parts, split_⟩ := partition_done order (max - base) start few (by omega)
    rw [parts]
    simp only [Option.bind_eq_bind, Option.bind_some]
    have low := split_.low
    have high := split_.high
    have left := fun m => part_done order bytes is ih m (show mid' ≤ n by omega) (show mid' - base ≤ fuel by omega)
    have right := fun m => part_done order bytes is ih m few (show max - (mid' + 1) ≤ fuel by omega)
    split
    case isTrue =>
      obtain ⟨m3, runs, lefts, heads⟩ := left m2
      obtain ⟨m4, runs', rights, _⟩ := right m3
      rw [runs, Option.bind_some, runs']
      have split_ := split_right (split_left split_ lefts) rights
      refine ⟨m4, rfl, split_.shuffled, heads_join order split_ fun some_' => ?_⟩
      obtain ⟨k, first, last, head, least⟩ := heads some_'
      refine ⟨k, first, last, head, fun k' low' high' => ?_⟩
      rw [rights.outside k (by omega), rights.outside k' (by omega)]
      exact least k' low' high'
    case isFalse =>
      obtain ⟨m3, runs, rights, _⟩ := right m2
      obtain ⟨m4, runs', lefts, heads⟩ := left m3
      rw [runs, Option.bind_some, runs']
      have split_ := split_left (split_right split_ rights) lefts
      exact ⟨m4, rfl, split_.shuffled, heads_join order split_ heads⟩

theorem smallest_done (order : TotalPreorder qcmp) (m : Nat → Record qsz) {hi j lo : Nat} (few : hi ≤ n) (first : j ≤ lo)
    (inside : lo < hi) (least : ∀ k, k ≤ lo → qcmp (m j) (m k) ≤ 0) :
    ∃ j', smallest n qcmp m hi j lo = some j' ∧ j' < hi ∧ ∀ k, k < hi → qcmp (m j') (m k) ≤ 0 := by
  induction rest : hi - lo generalizing j lo with
  | zero => omega
  | succ rest' ih =>
    unfold smallest
    split
    case isTrue more =>
      rw [compare_inside (by omega) (by omega), Option.bind_some]
      split
      case isTrue greater =>
        have less := order.le_of_lt (not_le.mpr greater)
        apply ih le_rfl more _ (by omega)
        intro k upto
        rcases Nat.lt_or_eq_of_le upto with before | rfl
        · exact order.trans _ _ _ less (least k (by omega))
        · exact order.refl _
      case isFalse upto' =>
        apply ih (by omega) more _ (by omega)
        intro k upto
        rcases Nat.lt_or_eq_of_le upto with before | rfl
        · exact least k (by omega)
        · exact not_lt.mp upto'
    case isFalse last => exact ⟨j, rfl, by omega, fun k before => least k (by omega)⟩

def Ordered (qcmp : Record qsz → Record qsz → Int) (m : Nat → Record qsz) (l : Nat) : Prop :=
  ∀ p q, p < q → q < l → qcmp (m p) (m q) ≤ 0

theorem scan_done (m : Nat → Record qsz) {min : Nat} (inside : min < n) (sentinel : qcmp (m 0) (m min) ≤ 0) (p : Nat)
    (some_ : 1 ≤ p) (upto : p ≤ min) (greater : ∀ k, p ≤ k → k < min → ¬ qcmp (m k) (m min) ≤ 0) :
    ∃ hi, scan n qcmp m min p = some hi ∧ hi < min ∧ qcmp (m hi) (m min) ≤ 0 ∧
      ∀ k, hi < k → k < min → ¬ qcmp (m k) (m min) ≤ 0 := by
  induction p with
  | zero => omega
  | succ p ih =>
    unfold scan
    rw [compare_inside (by omega) inside, Option.bind_some]
    split
    case isTrue more =>
      have further : p ≠ 0 := by
        rintro rfl
        exact absurd sentinel (not_le.mpr more)
      apply ih (by omega) (by omega)
      intro k low high
      rcases Nat.lt_or_eq_of_le low with behind | rfl
      · exact greater k behind high
      · exact not_le.mpr more
    case isFalse found => exact ⟨p, rfl, upto, not_lt.mp found, greater⟩

theorem insert_done (order : TotalPreorder qcmp) {m : Nat → Record qsz} {min : Nat} (some_ : 1 ≤ min) (inside : min < n)
    (sentinel : ∀ k, k < n → qcmp (m 0) (m k) ≤ 0) (ordered : Ordered qcmp m min) :
    ∃ m', insert n qcmp m min = some m' ∧ Shuffled 0 n m m' ∧ (∀ k, k < n → qcmp (m' 0) (m' k) ≤ 0) ∧ Ordered qcmp m' (min + 1) := by
  obtain ⟨hi, runs, before, upto, greater⟩ := scan_done m inside (sentinel min inside) min some_ le_rfl (fun k low high => by omega)
  have result : insert n qcmp m min = some (rotated m (hi + 1) min) := by
    unfold Qsort.insert
    rw [runs, Option.map_some, shifts_eq _ _ (by omega)]
    split
    case isTrue => rfl
    case isFalse last =>
      obtain rfl : hi + 1 = min := not_not.mp last
      congr 1
      funext k
      unfold rotated
      split_ifs with first second
      · rw [first]
      · omega
      · rfl
  have shuffled : Shuffled 0 n m (rotated m (hi + 1) min) := (rotated_shuffled (by omega) m).mono (Nat.zero_le _) (by omega)
  refine ⟨_, result, shuffled, ?_, ?_⟩
  · have first : rotated m (hi + 1) min 0 = m 0 := by
      unfold rotated
      rw [if_neg (by omega), if_neg (by omega)]
    intro k few
    rw [first]
    exact shuffled.all (P := fun x => qcmp (m 0) x ≤ 0) (fun k _ few => sentinel k few) k (Nat.zero_le _) few
  · -- what is up to `hi` is not behind the record, what comes further is
    have front : ∀ p, p ≤ hi → qcmp (m p) (m min) ≤ 0 := by
      intro p low
      rcases Nat.lt_or_eq_of_le low with less | rfl
      · exact order.trans _ _ _ (ordered p hi less before) upto
      · exact upto
    have first : rotated m (hi + 1) min (hi + 1) = m min := if_pos rfl
    have early : ∀ k, k ≤ hi → rotated m (hi + 1) min k = m k := by
      intro k low
      unfold rotated
      rw [if_neg (by omega), if_neg (by omega)]
    have late : ∀ k, hi + 1 < k → k ≤ min → rotated m (hi + 1) min k = m (k - 1) := by
      intro k low high
      unfold rotated
      rw [if_neg (by omega), if_pos ⟨low, high⟩]
    intro p q less last
    rcases lt_trichotomy q (hi + 1) with q_early | rfl | q_late
    · rw [early p (by omega), early q (by omega)]
      exact ordered p q less (by omega)
    · rw [first, early p (by omega)]
      exact front p (by omega)
    · rw [late q q_late (by omega)]
      rcases lt_trichotomy p (hi + 1) with p_early | rfl | p_late
      · rw [early p (by omega)]
        exact ordered p (q - 1) (by omega) (by omega)
      · rw [first]
        exact order.le_of_lt (greater (q - 1) (by omega) (by omega))
      · rw [late p p_late (by omega)]
        exact ordered (p - 1) (q - 1) (by omega) (by omega)

theorem inserts_done (order : TotalPreorder qcmp) {m : Nat → Record qsz} (sentinel : ∀ k, k < n → qcmp (m 0) (m k) ≤ 0) (c : Nat)
    (few : c < n) : ∃ m', (List.range' 1 c).foldlM (insert n qcmp) m = some m' ∧ Shuffled 0 n m m' ∧
      (∀ k, k < n → qcmp (m' 0) (m' k) ≤ 0) ∧ Ordered qcmp m' (c + 1) := by
  induction c with
  | zero => exact ⟨m, rfl, .refl, sentinel, fun p q less last => by omega⟩
  | succ c ih =>
    obtain ⟨m1, runs, shuffled, sentinel, ordered⟩ := ih (by omega)
    obtain ⟨m2, runs', shuffled', sentinel', ordered'⟩ := insert_done order (Nat.succ_pos c) few sentinel ordered
    refine ⟨m2, ?_, shuffled.trans shuffled', sentinel', ordered'⟩
    rw [List.range'_concat, List.foldlM_append, runs, Option.bind_eq_bind, Option.bind_some, List.foldlM_cons, Nat.one_mul,
      Nat.add_comm 1 c, runs']
    rfl

/-- `qsort` comes to its end with comparisons of records of the array only, and never before the first one; it leaves the
records in order, and all others as they were. -/
theorem qsort_sorts (n : Nat) (bytes : 0 < qsz) (small : n * qsz < 2 ^ 31) (order : TotalPreorder qcmp) (m : Nat → Record qsz) :
    ∃ m', qsort n qcmp m = some m' ∧ (slice m' 0 n).Perm (slice m 0 n) ∧ (∀ k, n ≤ k → m' k = m k) ∧
      ∀ p q, p < q → q < n → qcmp (m' p) (m' q) ≤ 0 := by
  suffices done : ∃ m', qsort n qcmp m = some m' ∧ Shuffled 0 n m m' ∧ Ordered qcmp m' n by
    obtain ⟨m', runs, shuffled, ordered⟩ := done
    exact ⟨m', runs, shuffled.perm, fun k out => shuffled.outside k (by omega), ordered⟩
  unfold qsort
  split
  case isTrue few => exact ⟨m, rfl, .refl, fun p q less last => by omega⟩
  case isFalse many =>
    have thresh : THRESH ≤ n → int (qsz * THRESH) = THRESH * qsz := by
      intro four
      have product : THRESH * qsz ≤ n * qsz := Nat.mul_le_mul_right qsz four
      have value : THRESH = 4 := rfl
      rw [value] at product ⊢
      rw [int, Int.bmod_eq_of_le (by omega) (by omega), Int.mul_comm]
    obtain ⟨m1, first, shuffled, hi, is, few, some_, least⟩ : ∃ m1, (if n ≥ THRESH then
        qst n qcmp (int (qsz * THRESH)) (int (qsz * MTHRESH)) n m 0 n (n * qsz) else some m) = some m1 ∧ Shuffled 0 n m m1 ∧
        ∃ hi, (if n ≥ THRESH then (int (qsz * THRESH) / qsz).toNat else n) = hi ∧ hi ≤ n ∧ 1 ≤ hi ∧
          ∃ k, k < hi ∧ ∀ k', k' < n → qcmp (m1 k) (m1 k') ≤ 0 := by
      split
      case isTrue four =>
        obtain ⟨m1, runs, shuffled, k, _, _, head, least⟩ :=
          qst_done order (int (qsz * MTHRESH)) bytes (thresh four) n m 0 n (by omega) le_rfl (by omega)
        rw [Int.natCast_zero, Int.sub_zero] at runs
        refine ⟨m1, runs, shuffled, THRESH, ?_, four, by decide, k, by omega, fun k' few => least k' (Nat.zero_le _) few⟩
        rw [thresh four, Int.mul_ediv_cancel _ (by omega), Int.toNat_natCast]
      case isFalse few =>
        obtain ⟨k, _, high, least⟩ := smallest_exists order m (show 0 < n by omega)
        exact ⟨m, rfl, .refl, n, rfl, le_rfl, by omega, k, high, fun k' few => least k' (Nat.zero_le _) few⟩
    dsimp only
    rw [first, is, Option.bind_eq_bind, Option.bind_some]
    obtain ⟨k, inside, least⟩ := least
    obtain ⟨j, runs, before, smallest_⟩ := smallest_done order m1 few (le_refl 0) (by omega)
      (fun k upto => by rw [Nat.le_zero.mp upto]; exact order.refl _)
    have all : ∀ k', k' < n → qcmp (m1 j) (m1 k') ≤ 0 := fun k' inside' => order.trans _ _ _ (smallest_ k inside) (least k' inside')
    rw [runs]
    simp only [Option.bind_eq_bind, Option.bind_some]
    obtain ⟨m2, is, shuffled', sentinel⟩ : ∃ m2, (if j ≠ 0 then Qsort.swap m1 0 j else m1) = m2 ∧ Shuffled 0 n m1 m2 ∧
        ∀ k', k' < n → qcmp (m2 0) (m2 k') ≤ 0 := by
      split
      case isTrue apart =>
        rw [swap_eq (Ne.symm apart)]
        have shuffled' : Shuffled 0 n m1 (exchange m1 0 j) := .exchange ⟨le_rfl, by omega⟩ ⟨Nat.zero_le _, by omega⟩
        have first : exchange m1 0 j 0 = m1 j := by rw [exchange, update_of_ne (Ne.symm apart), update_self]
        refine ⟨_, rfl, shuffled', fun k' inside' => ?_⟩
        rw [first]
        exact shuffled'.all (P := fun x => qcmp (m1 j) x ≤ 0) (fun k' _ inside' => all k' inside') k' (Nat.zero_le _) inside'
      case isFalse same =>
        obtain rfl := not_not.mp same
        exact ⟨m1, rfl, .refl, all⟩
    rw [is]
    obtain ⟨m3, inserts, shuffled'', _, ordered⟩ := inserts_done order sentinel (n - 1) (by omega)
    refine ⟨m3, inserts, shuffled.trans (shuffled'.trans shuffled''), ?_⟩
    rwa [Nat.sub_add_cancel (by omega)] at ordered

/-- Five records of a byte. -/
theorem qsort_sorts_five : ∃ m',
    qsort 5 (fun a b : Record 1 => ((a 0).toNat : Int) - (b 0).toNat) (fun k _ => 200 - 3 * k.toUInt8) = some m' ∧
    (slice m' 0 5).Perm (slice (fun k _ => 200 - 3 * k.toUInt8) 0 5) ∧ (∀ k, 5 ≤ k → m' k = fun _ => 200 - 3 * k.toUInt8) ∧
    ∀ p q, p < q → q < 5 → (fun a b : Record 1 => ((a 0).toNat : Int) - (b 0).toNat) (m' p) (m' q) ≤ 0 := by
  apply qsort_sorts 5 (by decide) (by decide)
  constructor
  · intro a b
    omega
  · intro a b c
    omega

end Svr4.Proofs.QsortSorts
