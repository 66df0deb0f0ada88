import Svr4.Diff

/-! What `stone` is given: `sort` orders the lines by their values and serials, so that `equiv`
and `unsort` leave each line of the first file with the start of its class in the second one,
and each class with its serials in ascending order. -/

namespace Svr4.Proofs.DiffSort
open Function Shuffle Diff

variable {a b : Nat → Line} {m n : Nat}

def key (l : Line) : Int ×ₗ Nat := toLex (l.value, l.serial)

theorem after_iff {aim ai : Line} : after aim ai ↔ key ai < key aim := by
  unfold after key
  rw [Prod.Lex.toLex_lt_toLex]
  constructor
  · rintro (less | ⟨same, less⟩)
    · exact .inl less
    · exact .inr ⟨same.symm, less⟩
  · rintro (less | ⟨same, less⟩)
    · exact .inl less
    · exact .inr ⟨same.symm, less⟩

def Ordered (a : Nat → Line) (n hole : Nat) : Prop := ∀ p q, 1 ≤ p → p < q → q ≤ n → q ≠ hole → key (a p) ≤ key (a q)

theorem sift_shuffled (gap : m ≠ 0) (a : Nat → Line) (ai : Nat) (inside : ai + m ≤ n) : Shuffled 1 (n + 1) a (sift gap a ai) := by
  induction ai using Nat.strong_induction_on generalizing a with
  | _ ai ih =>
    unfold sift
    split
    case isFalse => exact .refl
    case isTrue some_ =>
      split
      · exact .refl
      · apply (Shuffled.exchange (p := ai) (q := ai + m) ⟨some_, by omega⟩ ⟨by omega, by omega⟩).trans
        apply ih (ai - m) (by omega)
        omega

theorem sift_ordered (gap : 1 ≠ 0) (a : Nat → Line) (ai : Nat) (ordered : Ordered a n (ai + 1)) (inside : ai + 1 ≤ n) :
    Ordered (sift gap a ai) n 0 := by
  induction ai generalizing a with
  | zero =>
    intro p q first before last _
    unfold sift
    exact ordered p q first before last (by omega)
  | succ ai ih =>
    unfold sift
    rw [if_pos (Nat.succ_pos ai)]
    split
    case isTrue greater =>
      have greater := after_iff.mp greater
      intro p q first before last _
      by_cases hole : q = ai + 1 + 1
      · subst hole
        rcases Nat.lt_or_eq_of_le (Nat.le_of_lt_succ before) with less | rfl
        · exact (ordered p (ai + 1) first less (by omega) (by omega)).trans greater.le
        · exact greater.le
      · exact ordered p q first before last hole
    case isFalse less =>
      have less : key (a (ai + 1 + 1)) ≤ key (a (ai + 1)) := not_lt.mp (mt after_iff.mpr less)
      apply ih _ _ (by omega)
      intro p q first before last hole
      have here : exchange a (ai + 1) (ai + 1 + 1) (ai + 1) = a (ai + 1 + 1) := by
        rw [exchange, update_of_ne (by omega), update_self]
      have there : exchange a (ai + 1) (ai + 1 + 1) (ai + 1 + 1) = a (ai + 1) := by rw [exchange, update_self]
      have other : ∀ r, r ≠ ai + 1 → r ≠ ai + 1 + 1 → exchange a (ai + 1) (ai + 1 + 1) r = a r := by
        intro r left right
        rw [exchange, update_of_ne right, update_of_ne left]
      -- the line from `ai + 1` is now behind the one that comes from there
      have behind : ∀ r, 1 ≤ r → r < ai + 1 → key (a r) ≤ key (a (ai + 1)) := fun r low high =>
        ordered r (ai + 1) low high (by omega) (by omega)
      rcases lt_trichotomy q (ai + 1 + 1) with left | rfl | right
      · rw [other p (by omega) (by omega), other q hole (by omega)]
        exact ordered p q first before last (by omega)
      · rw [there]
        rcases Nat.lt_or_eq_of_le (Nat.le_of_lt_succ before) with further | rfl
        · rw [other p (by omega) (by omega)]
          exact behind p first further
        · exact here ▸ less
      · have apart : ∀ r, 1 ≤ r → r < q → key (a r) ≤ key (a q) := fun r low high => ordered r q low high last (by omega)
        rw [other q (by omega) (by omega)]
        by_cases left : p = ai + 1
        · rw [left, here]
          exact apart _ (by omega) right
        · by_cases left' : p = ai + 1 + 1
          · rw [left', there]
            exact apart _ (by omega) (by omega)
          · rw [other p left left']
            exact apart p first before

theorem pass_shuffled (gap : m ≠ 0) (a : Nat → Line) (k : Nat) (inside : k + m ≤ n) :
    Shuffled 1 (n + 1) a ((List.range' 1 k).foldl (sift gap) a) := by
  induction k with
  | zero => exact .refl
  | succ k ih =>
    rw [List.range'_concat, List.foldl_append]
    exact (ih (by omega)).trans (sift_shuffled gap _ _ (by omega))

theorem pass_ordered (gap : 1 ≠ 0) (a : Nat → Line) (k : Nat) :
    Ordered ((List.range' 1 k).foldl (sift gap) a) (k + 1) 0 := by
  induction k with
  | zero =>
    intro p q first before last _
    omega
  | succ k ih =>
    rw [List.range'_concat, List.foldl_append]
    apply sift_ordered gap _ _ _ (by omega)
    intro p q first before last hole
    exact ih p q first before (by omega) (by omega)

theorem passes_shuffled (a : Nat → Line) (few : m ≤ n) : Shuffled 1 (n + 1) a (passes a n m) := by
  induction m using Nat.strong_induction_on generalizing a with
  | _ m ih =>
    unfold passes
    split
    case isFalse => exact .refl
    case isTrue gap => exact (pass_shuffled gap a (n - m) (by omega)).trans (ih (m / 2) (by omega) _ (by omega))

theorem passes_ordered (a : Nat → Line) (gap : m ≠ 0) (few : m ≤ n) : Ordered (passes a n m) n 0 := by
  induction m using Nat.strong_induction_on generalizing a with
  | _ m ih =>
    unfold passes
    rw [dif_pos gap]
    by_cases last : m / 2 = 0
    · -- the distance of the last pass is one
      obtain rfl : m = 1 := by omega
      unfold passes
      rw [dif_neg (by omega)]
      have done := pass_ordered gap a (n - 1)
      rwa [Nat.sub_add_cancel few] at done
    · exact ih (m / 2) (by omega) _ last (by omega)

theorem distance_least (j k : Nat) (low : 2 ≤ j) (start : 3 ≤ k) : 3 ≤ distance n j k := by
  fun_induction distance n j k with
  | case1 j k more ih => exact ih (by omega) (by omega)
  | case2 => exact start

theorem distance_most (j k : Nat) (start : k / 2 ≤ n) : distance n j k / 2 ≤ n := by
  fun_induction distance n j k with
  | case1 j k more ih => exact ih (by omega)
  | case2 => exact start

theorem sort_shuffled (a : Nat → Line) (n : Nat) : Shuffled 1 (n + 1) a (sort a n) :=
  passes_shuffled a (distance_most 1 0 (by omega))

theorem sort_ordered (a : Nat → Line) (n : Nat) : Ordered (sort a n) n 0 := by
  by_cases few : n ≤ 1
  · intro p q first before last _
    omega
  · have start : 3 ≤ distance n 1 0 := by
      unfold distance
      rw [if_pos (by omega)]
      unfold distance
      rw [if_pos (by omega)]
      exact distance_least _ _ (by omega) (by omega)
    exact passes_ordered a (by omega) (distance_most 1 0 (by omega))

structure Sorted (a : Nat → Line) (n : Nat) : Prop where
  ordered : Ordered a n 0
  inside : ∀ i, 1 ≤ i → i ≤ n → 1 ≤ (a i).serial ∧ (a i).serial ≤ n
  distinct : ∀ i j, 1 ≤ i → i ≤ n → 1 ≤ j → j ≤ n → (a i).serial = (a j).serial → i = j
  every : ∀ t, 1 ≤ t → t ≤ n → ∃ i, 1 ≤ i ∧ i ≤ n ∧ (a i).serial = t
  nonzero : ∀ i, 1 ≤ i → i ≤ n → (a i).value ≠ 0

theorem sorted (serials : ∀ i, 1 ≤ i → i ≤ n → (a i).serial = i) (nonzero : ∀ i, 1 ≤ i → i ≤ n → (a i).value ≠ 0) :
    Sorted (sort a n) n := by
  obtain ⟨σ, fixed, eq⟩ := sort_shuffled a n
  have keeps : ∀ i, 1 ≤ i → i ≤ n → 1 ≤ σ i ∧ σ i ≤ n := by
    intro i low high
    by_contra out
    have stays := σ.injective (fixed (σ i) (by omega))
    omega
  have serial : ∀ i, 1 ≤ i → i ≤ n → (sort a n i).serial = σ i := by
    intro i low high
    rw [eq, comp_apply]
    exact serials _ (keeps i low high).1 (keeps i low high).2
  constructor
  case ordered => exact sort_ordered a n
  case inside => exact fun i low high => (serial i low high).symm ▸ keeps i low high
  case distinct =>
    intro i j low high low' high' same
    rw [serial i low high, serial j low' high'] at same
    exact σ.injective same
  case every =>
    intro t low high
    have back : 1 ≤ σ.symm t ∧ σ.symm t ≤ n := by
      by_contra out
      have stays := fixed (σ.symm t) (by omega)
      rw [σ.apply_symm_apply] at stays
      omega
    exact ⟨σ.symm t, back.1, back.2, (serial _ back.1 back.2).trans (σ.apply_symm_apply t)⟩
  case nonzero =>
    intro i low high
    rw [eq, comp_apply]
    exact nonzero _ (keeps i low high).1 (keeps i low high).2

theorem sorted_value (serials : ∀ i, 1 ≤ i → i ≤ n → (a i).serial = i) {i : Nat} (low : 1 ≤ i) (high : i ≤ n) :
    (sort a n i).value = (a (sort a n i).serial).value := by
  obtain ⟨σ, fixed, eq⟩ := sort_shuffled a n
  have keeps : 1 ≤ σ i ∧ σ i ≤ n := by
    by_contra out
    have stays := σ.injective (fixed (σ i) (by omega))
    omega
  rw [eq, comp_apply, serials _ keeps.1 keeps.2]

theorem Sorted.value_le (sorted : Sorted a n) {p q : Nat} (first : 1 ≤ p) (before : p ≤ q) (last : q ≤ n) :
    (a p).value ≤ (a q).value := by
  rcases Nat.lt_or_eq_of_le before with before | rfl
  · rcases Prod.Lex.toLex_le_toLex.mp (sorted.ordered p q first before last (by omega)) with less | ⟨same, _⟩
    · exact less.le
    · exact same.le
  · exact le_rfl

theorem Sorted.serial_lt (sorted : Sorted a n) {p : Nat} (first : 1 ≤ p) (last : p + 1 ≤ n)
    (same : (a (p + 1)).value = (a p).value) : (a p).serial < (a (p + 1)).serial := by
  rcases Prod.Lex.toLex_le_toLex.mp (sorted.ordered p (p + 1) first (by omega) last (by omega)) with less | ⟨_, upto⟩
  · exact absurd same less.ne'
  · apply lt_of_le_of_ne upto
    intro serials
    have := sorted.distinct p (p + 1) first (by omega) (by omega) last serials
    omega

def Starts (b : Nat → Line) (j : Nat) : Prop := j = 1 ∨ (b (j - 1)).value ≠ (b j).value

def Found (b : Nat → Line) (m : Nat) (value index : Int) : Prop :=
  index = 0 ∧ (∀ k, 1 ≤ k → k ≤ m → (b k).value ≠ value) ∨
    ∃ j : Nat, index = j ∧ 1 ≤ j ∧ j ≤ m ∧ Starts b j ∧ (b j).value = value

theorem equiv_values_done (a : Nat → Line) (i j : Nat) (value : Nat → Int) (start : 1 ≤ j)
    (ordered : ∀ p q, 1 ≤ p → p ≤ q → q ≤ m → (b p).value ≤ (b q).value)
    (todo : ∀ p, i ≤ p → p ≤ n → (a p).value = value p)
    (rest : ∀ p q, i ≤ p → p ≤ q → q ≤ n → value p ≤ value q)
    (below : ∀ p k, i ≤ p → p ≤ n → 1 ≤ k → k < j → (b k).value < value p)
    (done : ∀ p, 1 ≤ p → p < i → Found b m (value p) (a p).value) (p : Nat) (first : 1 ≤ p) (last : p ≤ n) :
    Found b m (value p) (equiv_values a n b m i j p).value ∧ (equiv_values a n b m i j p).serial = (a p).serial := by
  -- a line that gets its value leaves those behind it as they are
  have next : ∀ (a : Nat → Line) (i : Nat) (index : Int) (found : Found b m (value i) index)
      (done : ∀ p, 1 ≤ p → p < i → Found b m (value p) (a p).value) (p : Nat), 1 ≤ p → p < i + 1 →
      Found b m (value p) (update a i { a i with value := index } p).value := by
    intro a i index found done p first before
    by_cases here : p = i
    · rw [here, update_self]
      exact found
    · rw [update_of_ne here]
      exact done p first (by omega)
  have behind : ∀ (a : Nat → Line) (i : Nat) (l : Line), (∀ p, i ≤ p → p ≤ n → (a p).value = value p) →
      ∀ p, i + 1 ≤ p → p ≤ n → (update a i l p).value = value p := by
    intro a i l todo p after inside
    rw [update_of_ne (by omega)]
    exact todo p (by omega) inside
  have serial : ∀ (a : Nat → Line) (i : Nat) (index : Int) (p : Nat),
      (update a i { a i with value := index } p).serial = (a p).serial := by
    intro a i index p
    by_cases here : p = i
    · rw [here, update_self]
    · rw [update_of_ne here]
  fun_induction equiv_values a n b m i j with
  | case1 a i j more inside less ih =>
    have none_ : Found b m (value i) 0 := by
      refine .inl ⟨rfl, fun k low high same => ?_⟩
      rcases Nat.lt_or_ge k j with before | after
      · exact (below i k le_rfl more low before).ne same
      · have := ordered j k start after high
        have := todo i le_rfl more
        omega
    have ih := ih start (behind a i _ todo) (fun p q after => rest p q (by omega)) (fun p k after => below p k (by omega))
      (next a i 0 none_ done)
    exact ⟨ih.1, ih.2.trans (serial a i 0 p)⟩
  | case2 a i j more inside _ same ih =>
    have here := todo i le_rfl more
    have starts : Starts b j := by
      by_cases one : j = 1
      · exact .inl one
      · have less := below i (j - 1) le_rfl more (by omega) (by omega)
        exact .inr (by omega)
    have ih := ih start (behind a i _ todo) (fun p q after => rest p q (by omega)) (fun p k after => below p k (by omega))
      (next a i j (.inr ⟨j, rfl, start, inside, starts, same.symm.trans here⟩) done)
    exact ⟨ih.1, ih.2.trans (serial a i j p)⟩
  | case3 a i j more inside less same ih =>
    apply ih (by omega) todo rest _ done
    intro p k after inside low high
    have upto := rest i p le_rfl after inside
    by_cases here : k = j
    · subst here
      have := todo i le_rfl more
      omega
    · exact below p k after inside low (by omega)
  | case4 a i j more beyond ih =>
    have none_ : Found b m (value i) 0 := .inl ⟨rfl, fun k low high => (below i k le_rfl more low (by omega)).ne⟩
    have ih := ih start (behind a i _ todo) (fun p q after => rest p q (by omega)) (fun p k after => below p k (by omega))
      (next a i 0 none_ done)
    exact ⟨ih.1, ih.2.trans (serial a i 0 p)⟩
  | case5 a i j none_ => exact ⟨done p first (by omega), rfl⟩

open Classical in
noncomputable def entry (b : Nat → Line) (j : Nat) : Int := if Starts b j then -(b j).serial else (b j).serial

theorem equiv_member_done (c : Nat → Int) (j : Nat) (outer : Bool) (nonzero : 1 ≤ m → (b (m + 1)).value ≠ (b m).value)
    (head : outer = true → 1 ≤ j ∧ j ≤ m + 1 ∧ Starts b j ∧ ∀ k, 1 ≤ k → k < j → c k = entry b k)
    (inner : outer = false → 1 ≤ j ∧ j ≤ m ∧ ∀ k, 1 ≤ k → k ≤ j → c k = entry b k) :
    ∃ c', equiv_member b m c j outer = some c' ∧ (∀ k, 1 ≤ k → k ≤ m → c' k = entry b k) ∧ c' (m + 1) = -1 := by
  fun_induction equiv_member b m c j outer with
  | case1 c j more ih =>
    obtain ⟨low, high, starts, done⟩ := head rfl
    apply ih nofun
    intro _
    refine ⟨low, more, fun k first last => ?_⟩
    by_cases here : k = j
    · rw [here, update_self, entry, if_pos starts]
    · rw [update_of_ne here]
      exact done k first (by omega)
  | case2 c j none_ =>
    obtain ⟨low, high, starts, done⟩ := head rfl
    refine ⟨_, rfl, fun k first last => ?_, ?_⟩
    · rw [update_of_ne (by omega)]
      exact done k first (by omega)
    · rw [show m + 1 = j by omega, update_self]
  | case3 c j outer is out =>
    have := inner (by simpa using is)
    omega
  | case4 c j outer is _ same ih =>
    obtain ⟨low, high, done⟩ := inner (by simpa using is)
    have inside : j ≠ m := by
      rintro rfl
      exact nonzero low same
    apply ih nofun
    intro _
    refine ⟨by omega, by omega, fun k first last => ?_⟩
    by_cases here : k = j + 1
    · subst here
      have within : ¬ Starts b (j + 1) := by
        rintro (one | differ)
        · omega
        · exact differ same.symm
      rw [update_self, entry, if_neg within]
    · rw [update_of_ne here]
      exact done k first (by omega)
  | case5 c j outer is _ differ ih =>
    obtain ⟨low, high, done⟩ := inner (by simpa using is)
    apply ih _ nofun
    intro _
    exact ⟨by omega, by omega, .inr (Ne.symm differ), fun k first last => done k first (by omega)⟩

theorem unsort_done (distinct : ∀ i j, 1 ≤ i → i ≤ n → 1 ≤ j → j ≤ n → (a i).serial = (a j).serial → i = j)
    (A : Nat → Int) (k : Nat) (few : k ≤ n) :
    ∀ i, 1 ≤ i → i ≤ k → (List.range' 1 k).foldl (fun A i => update A (a i).serial (a i).value) A (a i).serial = (a i).value := by
  induction k with
  | zero =>
    intro i first last
    omega
  | succ k ih =>
    intro i first last
    rw [List.range'_concat, List.foldl_append, List.foldl_cons, List.foldl_nil]
    by_cases here : i = 1 + 1 * k
    · rw [here, update_self]
    · rw [update_of_ne]
      · exact ih (by omega) i first (by omega)
      · intro same
        exact here (distinct i _ first (by omega) (by omega) (by omega) same)

structure Classes (a : Nat → Int) (n : Nat) (b : Nat → Int) (m : Nat) : Prop where
  start : ∀ i, 1 ≤ i → i ≤ n → a i = 0 ∨ ∃ j : Nat, a i = j ∧ 1 ≤ j ∧ j ≤ m ∧ b j < 0
  inside : ∀ j, 1 ≤ j → j ≤ m → 1 ≤ |b j| ∧ |b j| ≤ m
  rising : ∀ j, 1 ≤ j → j < m → 0 < b (j + 1) → |b j| < b (j + 1)
  stop : b (m + 1) = -1

def InClass (b : Nat → Int) (m j p : Nat) : Prop := j ≤ p ∧ p ≤ m ∧ ∀ t, j < t → t ≤ p → 0 < b t

def Alike (a b : Nat → Int) (m x y : Nat) : Prop := ∃ j p : Nat, a x = j ∧ j ≠ 0 ∧ InClass b m j p ∧ |b p| = y

theorem found_start {c : Nat → Int} (sorted : Sorted b m) (entries : ∀ k, 1 ≤ k → k ≤ m → c k = entry b k) {value index : Int}
    (found : Found b m value index) : index = 0 ∨ ∃ j : Nat, index = j ∧ 1 ≤ j ∧ j ≤ m ∧ c j < 0 := by
  rcases found with ⟨none_, _⟩ | ⟨j, rfl, low, high, starts, _⟩
  · exact .inl none_
  · refine .inr ⟨j, rfl, low, high, ?_⟩
    have serial := (sorted.inside j low high).1
    rw [entries j low high, entry, if_pos starts]
    omega

theorem abs_entry (j : Nat) : |entry b j| = (b j).serial := by
  unfold entry
  split
  · rw [abs_neg, Nat.abs_cast]
  · exact Nat.abs_cast _

theorem entry_pos_iff (sorted : Sorted b m) {t : Nat} (low : 2 ≤ t) (high : t ≤ m) :
    0 < entry b t ↔ (b (t - 1)).value = (b t).value := by
  have serial := (sorted.inside t (by omega) high).1
  unfold entry
  split
  case isTrue starts =>
    have differ := starts.resolve_left (by omega)
    constructor
    · intro positive
      omega
    · exact fun same => absurd same differ
  case isFalse within =>
    constructor
    · intro _
      by_contra differ
      exact within (.inr differ)
    · intro _
      omega

theorem inClass_iff {c : Nat → Int} (sorted : Sorted b m) (entries : ∀ k, 1 ≤ k → k ≤ m → c k = entry b k) {j p : Nat}
    (low : 1 ≤ j) (high : j ≤ m) (starts : Starts b j) :
    InClass c m j p ↔ 1 ≤ p ∧ p ≤ m ∧ (b p).value = (b j).value := by
  constructor
  · rintro ⟨after, inside, class_⟩
    refine ⟨by omega, inside, ?_⟩
    induction p with
    | zero => omega
    | succ p ih =>
      rcases Nat.lt_or_eq_of_le after with less | rfl
      · have same := class_ (p + 1) less le_rfl
        rw [entries _ (by omega) inside, entry_pos_iff sorted (by omega) inside, Nat.add_sub_cancel] at same
        rw [← same]
        exact ih (by omega) (by omega) (fun t after upto => class_ t after (by omega))
      · rfl
  · rintro ⟨first, inside, same⟩
    have after : j ≤ p := by
      by_contra before
      have upto := sorted.value_le first (show p ≤ j - 1 by omega) (by omega)
      have upto' := sorted.value_le (show 1 ≤ j - 1 by omega) (show j - 1 ≤ j by omega) high
      have differ := starts.resolve_left (by omega)
      omega
    refine ⟨after, inside, fun t behind upto => ?_⟩
    rw [entries t (by omega) (by omega), entry_pos_iff sorted (by omega) (by omega)]
    have first := sorted.value_le low (show j ≤ t - 1 by omega) (by omega)
    have second := sorted.value_le (show 1 ≤ t - 1 by omega) (show t - 1 ≤ t by omega) (by omega)
    have third := sorted.value_le (show 1 ≤ t by omega) upto inside
    omega

theorem classes_done (sorted : Sorted a n) (sorted' : Sorted b m) (memory memory' : Nat → Int) (value value' : Nat → Int)
    (is : ∀ i, 1 ≤ i → i ≤ n → (a i).value = value (a i).serial) (is' : ∀ i, 1 ≤ i → i ≤ m → (b i).value = value' (b i).serial) :
    ∃ member, equiv_member (update b (m + 1) { b (m + 1) with value := 0 }) m memory 1 true = some member ∧
      Classes (unsort (equiv_values a n b m 1 1) n memory') n member m ∧
      ∀ x y, 1 ≤ x → x ≤ n → (Alike (unsort (equiv_values a n b m 1 1) n memory') member m x y ↔
        1 ≤ y ∧ y ≤ m ∧ value x = value' y) := by
  obtain ⟨b', def_⟩ : ∃ b', b' = update b (m + 1) { b (m + 1) with value := 0 } := ⟨_, rfl⟩
  have same : ∀ k, k ≤ m → b' k = b k := fun k few => def_ ▸ update_of_ne (by omega) ..
  have last : (b' (m + 1)).value = 0 := by rw [def_, update_self]
  have entries : ∀ k, 1 ≤ k → k ≤ m → entry b' k = entry b k := by
    intro k low high
    unfold entry Starts
    rw [same k high, same (k - 1) (by omega)]
  obtain ⟨member, runs, done, stop⟩ := equiv_member_done (b := b') memory 1 true
    (fun some_ => by
      rw [last, same m le_rfl]
      exact (sorted'.nonzero m some_ le_rfl).symm)
    (fun _ => ⟨le_rfl, by omega, .inl rfl, fun k first before => by omega⟩) nofun
  have done : ∀ k, 1 ≤ k → k ≤ m → member k = entry b k := fun k low high => (done k low high).trans (entries k low high)
  have values := equiv_values_done (n := n) (b := b) (m := m) a 1 1 (fun i => (a i).value) le_rfl
    (fun p q first before last => sorted'.value_le first before last) (fun _ _ _ => rfl)
    (fun p q first before last => sorted.value_le first before last) (fun p k _ _ low high => by omega)
    (fun p first before => by omega)
  have put : ∀ i, 1 ≤ i → i ≤ n →
      unsort (equiv_values a n b m 1 1) n memory' (a i).serial = (equiv_values a n b m 1 1 i).value := by
    intro i first inside
    have put := unsort_done (a := equiv_values a n b m 1 1) (n := n) (fun i j low high low' high' serials => by
      rw [(values i low high).2, (values j low' high').2] at serials
      exact sorted.distinct i j low high low' high' serials) memory' n le_rfl i first inside
    rwa [(values i first inside).2] at put
  refine ⟨member, def_ ▸ runs, ⟨?_, ?_, ?_, stop⟩, ?_⟩
  · intro t low high
    obtain ⟨i, first, inside, rfl⟩ := sorted.every t low high
    rw [put i first inside]
    exact found_start sorted' done (values i first inside).1
  · intro j low high
    have serial := sorted'.inside j low high
    rw [done j low high, abs_entry]
    omega
  · intro j low high positive
    rw [done (j + 1) (by omega) high] at positive
    rw [done j low (by omega), done (j + 1) (by omega) high, abs_entry]
    have value := (entry_pos_iff sorted' (by omega) high).mp positive
    have less := sorted'.serial_lt low high value.symm
    rw [← abs_of_pos positive, abs_entry]
    omega
  · intro x y low high
    obtain ⟨i, first, inside, rfl⟩ := sorted.every x low high
    have found := (values i first inside).1
    unfold Alike
    rw [put i first inside, ← is i first inside]
    constructor
    · rintro ⟨j, p, at_, some_, class_, here⟩
      rcases found with ⟨none_, _⟩ | ⟨j', at', low', high', starts, same⟩
      · omega
      · obtain rfl : j = j' := by omega
        obtain ⟨first', inside', same'⟩ := (inClass_iff sorted' done low' high' starts).mp class_
        rw [done p first' inside', abs_entry] at here
        obtain rfl := Int.ofNat_inj.mp here
        exact ⟨(sorted'.inside p first' inside').1, (sorted'.inside p first' inside').2,
          same.symm.trans (same'.symm.trans (is' p first' inside'))⟩
    · rintro ⟨first', inside', same⟩
      obtain ⟨p, low', high', rfl⟩ := sorted'.every y first' inside'
      rw [← is' p low' high'] at same
      rcases found with ⟨_, none_⟩ | ⟨j, at_, low'', high'', starts, same'⟩
      · exact absurd same.symm (none_ p low' high')
      · refine ⟨j, p, at_, by omega, (inClass_iff sorted' done low'' high'' starts).mpr ⟨low', high', ?_⟩, ?_⟩
        · exact same.symm.trans same'.symm
        · rw [done p low' high', abs_entry]

end Svr4.Proofs.DiffSort
