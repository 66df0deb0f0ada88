import Svr4.Sorting

/-! `qksort` puts a block of records in order, and marks those that the next one equals. -/

namespace Svr4.Proofs.SortParts
open Function Shuffle Sorting

def Proper (r : Record) : Prop := ∃ body, r = body ++ [newline] ∧ newline ∉ body ∧ (0 : UInt8) ∉ body

/-- The comparison is a total preorder of the lines: it is not negative where the first may
stand before the second, and zero where each may stand before the other. -/
structure Compares (compare : Compare) : Prop where
  zero : ∀ x y, Proper x → Proper y → (compare x y = 0 ↔ 0 ≤ compare x y ∧ 0 ≤ compare y x)
  total : ∀ x y, Proper x → Proper y → 0 ≤ compare x y ∨ 0 ≤ compare y x
  trans : ∀ x y z, Proper x → Proper y → Proper z → 0 ≤ compare x y → 0 ≤ compare y z → 0 ≤ compare x z

variable {compare : Compare} {x y z v : Record} {m m' : Nat → Record} {a b l k : Nat} {uflg : Bool}

namespace Compares
variable (compares : Compares compare)
include compares

theorem self (first : Proper x) : compare x x = 0 := by
  have total := compares.total x x first first
  exact (compares.zero x x first first).mpr ⟨total.elim id id, total.elim id id⟩

theorem neg_iff (first : Proper x) (second : Proper y) : compare x y < 0 ↔ 0 < compare y x := by
  have zero := compares.zero y x second first
  have total := compares.total x y first second
  omega

theorem zero_comm (first : Proper x) (second : Proper y) : compare x y = 0 ↔ compare y x = 0 := by
  rw [compares.zero x y first second, compares.zero y x second first, and_comm]

theorem congr (first : Proper x) (second : Proper y) (third : Proper z) (same : compare y z = 0) :
    (compare x y < 0 ↔ compare x z < 0) ∧ (compare x y = 0 ↔ compare x z = 0) ∧ (compare x y > 0 ↔ compare x z > 0) := by
  have forth := (compares.zero y z second third).mp same
  have zero := compares.zero x y first second
  have zero' := compares.zero x z first third
  have total := compares.total x y first second
  have total' := compares.total x z first third
  have one := compares.trans x y z first second third
  have two := compares.trans x z y first third second
  have three := compares.trans y z x second third first
  have four := compares.trans z y x third second first
  omega

theorem congr_left (first : Proper x) (second : Proper y) (third : Proper z) (same : compare y z = 0) :
    (compare y x < 0 ↔ compare z x < 0) ∧ (compare y x = 0 ↔ compare z x = 0) ∧ (compare y x > 0 ↔ compare z x > 0) := by
  obtain ⟨neg, zero, pos⟩ := compares.congr first second third same
  have neg_y := compares.neg_iff first second
  have neg_z := compares.neg_iff first third
  have neg_y' := compares.neg_iff second first
  have neg_z' := compares.neg_iff third first
  omega

end Compares

structure Parted (compare : Compare) (v : Record) (a l : Nat) (m : Nat → Record) (i j lp hp : Nat) : Prop where
  after : ∀ k, a ≤ k → k < i → compare (m k) v < 0
  same : ∀ k, lp ≤ k → k ≤ hp → compare (m k) v = 0
  before : ∀ k, j < k → k < l → compare (m k) v > 0

theorem exchange_apply (m : Nat → Record) (p q k : Nat) :
    exchange m p q k = if k = q then m p else if k = p then m q else m k := by
  simp only [exchange, update_apply]

theorem qstexc_apply {p q r : Nat} (apart : p ≠ q) :
    qstexc m p q r k = if k = q then m p else if k = r then m q else if k = p then m r else m k := by
  have other := apart.symm
  simp only [qstexc, update_apply, if_neg other]

theorem qstexc_eq {p q r : Nat} (first : p ≠ q) (second : p ≠ r) : qstexc m p q r = exchange (exchange m p r) r q := by
  funext k
  rw [qstexc_apply first, exchange_apply, exchange_apply, exchange_apply, exchange_apply]
  have other := second.symm
  split_ifs <;> simp_all

theorem qstexc_shuffles {p q r : Nat} (first : a ≤ p ∧ p < l) (second : a ≤ q ∧ q < l) (third : a ≤ r ∧ r < l) (apart : p ≠ q)
    (apart' : p ≠ r) : Shuffled a l m (qstexc m p q r) := by
  rw [qstexc_eq apart apart']
  exact (Shuffled.exchange first third).trans (Shuffled.exchange third second)

section turns
variable {i j lp hp : Nat} (parted : Parted compare v a l m i j lp hp)
include parted

theorem Parted.pivot_left (left : i < lp) (pivots : lp ≤ hp) (right : hp ≤ j) (equal : compare (m i) v = 0) :
    Parted compare v a l (exchange m i (lp - 1)) i j (lp - 1) hp := by
  refine ⟨fun k low high => ?_, fun k low high => ?_, fun k low high => ?_⟩
  · rw [exchange_apply, if_neg (by omega), if_neg (by omega)]
    exact parted.after k low high
  · rw [exchange_apply]
    split_ifs with here there
    · exact equal
    · omega
    · exact parted.same k (by omega) high
  · rw [exchange_apply, if_neg (by omega), if_neg (by omega)]
    exact parted.before k low high

theorem Parted.after_left (later : compare (m i) v < 0) : Parted compare v a l m (i + 1) j lp hp := by
  refine ⟨fun k low high => ?_, parted.same, parted.before⟩
  by_cases here : k = i
  · rwa [here]
  · exact parted.after k low (by omega)

theorem Parted.pivot_right (left : i ≤ lp) (pivots : lp ≤ hp) (right : hp < j) (equal : compare (m j) v = 0) :
    Parted compare v a l (exchange m (hp + 1) j) i j lp (hp + 1) := by
  refine ⟨fun k low high => ?_, fun k low high => ?_, fun k low high => ?_⟩
  · rw [exchange_apply, if_neg (by omega), if_neg (by omega)]
    exact parted.after k low high
  · rw [exchange_apply]
    split_ifs with here there
    · obtain rfl : j = hp + 1 := by omega
      exact equal
    · exact equal
    · exact parted.same k low (by omega)
  · rw [exchange_apply, if_neg (by omega), if_neg (by omega)]
    exact parted.before k low high

theorem Parted.turn_right (met : i = lp) (pivots : lp ≤ hp) (right : hp < j) (later : compare (m j) v < 0) :
    Parted compare v a l (qstexc m i (hp + 1) j) (lp + 1) j (lp + 1) (hp + 1) := by
  have apart : i ≠ hp + 1 := by omega
  refine ⟨fun k low high => ?_, fun k low high => ?_, fun k low high => ?_⟩
  · rw [qstexc_apply apart, if_neg (by omega), if_neg (by omega)]
    split_ifs with here
    · exact later
    · exact parted.after k low (by omega)
  · rw [qstexc_apply apart]
    split_ifs with here there there
    · exact parted.same i (by omega) (by omega)
    · omega
    · omega
    · exact parted.same k (by omega) (by omega)
  · rw [qstexc_apply apart, if_neg (by omega), if_neg (by omega), if_neg (by omega)]
    exact parted.before k low high

theorem Parted.both (left : i < lp) (pivots : lp ≤ hp) (right : hp < j) (earlier : compare (m i) v > 0) (later : compare (m j) v < 0) :
    Parted compare v a l (exchange m i j) (i + 1) (j - 1) lp hp := by
  refine ⟨fun k low high => ?_, fun k low high => ?_, fun k low high => ?_⟩
  · rw [exchange_apply, if_neg (by omega)]
    split_ifs with here
    · exact later
    · exact parted.after k low (by omega)
  · rw [exchange_apply, if_neg (by omega), if_neg (by omega)]
    exact parted.same k low high
  · rw [exchange_apply]
    split_ifs with here there
    · exact earlier
    · omega
    · exact parted.before k (by omega) high

theorem Parted.before_right (earlier : compare (m j) v > 0) : Parted compare v a l m i (j - 1) lp hp := by
  refine ⟨parted.after, parted.same, fun k low high => ?_⟩
  by_cases here : k = j
  · rwa [here]
  · exact parted.before k (by omega) high

theorem Parted.turn_left (left : i < lp) (pivots : lp ≤ hp) (met : hp = j) (earlier : compare (m i) v > 0) :
    Parted compare v a l (qstexc m j (lp - 1) i) i (hp - 1) (lp - 1) (hp - 1) := by
  have apart : j ≠ lp - 1 := by omega
  refine ⟨fun k low high => ?_, fun k low high => ?_, fun k low high => ?_⟩
  · rw [qstexc_apply apart, if_neg (by omega), if_neg (by omega), if_neg (by omega)]
    exact parted.after k low high
  · rw [qstexc_apply apart]
    split_ifs with here there there
    · exact parted.same j (by omega) (by omega)
    · omega
    · omega
    · exact parted.same k (by omega) (by omega)
  · rw [qstexc_apply apart, if_neg (by omega), if_neg (by omega)]
    split_ifs with here
    · exact earlier
    · exact parted.before k (by omega) high

end turns

theorem proper_shuffled (shuffled : Shuffled a l m m') (proper : ∀ r ∈ slice m a l, Proper r) : ∀ r ∈ slice m' a l, Proper r :=
  fun r member => proper r (shuffled.perm.mem_iff.mp member)

theorem proper_at (proper : ∀ r ∈ slice m a l, Proper r) (low : a ≤ k) (high : k < l) : Proper (m k) :=
  proper (m k) (mem_slice.mpr ⟨k, low, high, rfl⟩)

def Part.Good (compare : Compare) (v : Record) (s : Sorting.Part a l) : Prop := Parted compare v a l s.mem s.i s.j s.lp s.hp

structure Ended (compare : Compare) (v : Record) (s r : Sorting.Part a l) : Prop where
  good : Part.Good compare v r
  left : r.i = r.lp
  right : r.j = r.hp
  shuffled : Shuffled a l s.mem r.mem

theorem Ended.step {s s' r : Sorting.Part a l} (shuffled : Shuffled a l s.mem s'.mem) (ended : Ended compare v s' r) :
    Ended compare v s r := ⟨ended.good, ended.left, ended.right, shuffled.trans ended.shuffled⟩

section loops
variable {s : Sorting.Part a l} (compares : Compares compare) (one : Proper v) (proper : ∀ r ∈ slice s.mem a l, Proper r)
  (good : Part.Good compare v s)
include compares one proper good

theorem at_i : (compare (s.mem s.i) (s.mem s.lp) < 0 ↔ compare (s.mem s.i) v < 0) ∧
    (compare (s.mem s.i) (s.mem s.lp) = 0 ↔ compare (s.mem s.i) v = 0) ∧
    (compare (s.mem s.i) (s.mem s.lp) > 0 ↔ compare (s.mem s.i) v > 0) := by
  have left := s.left
  have low := s.low
  have pivots := s.pivots
  have right := s.right
  have high := s.high
  exact compares.congr (proper_at proper low (by omega)) (proper_at proper (by omega) (by omega)) one (good.same s.lp le_rfl pivots)

theorem at_j : (compare (s.mem s.hp) (s.mem s.j) < 0 ↔ compare (s.mem s.j) v > 0) ∧
    (compare (s.mem s.hp) (s.mem s.j) = 0 ↔ compare (s.mem s.j) v = 0) ∧
    (compare (s.mem s.hp) (s.mem s.j) > 0 ↔ compare (s.mem s.j) v < 0) := by
  have left := s.left
  have low := s.low
  have pivots := s.pivots
  have right := s.right
  have high := s.high
  have there : Proper (s.mem s.j) := proper_at proper (by omega) high
  obtain ⟨neg, zero, pos⟩ := compares.congr_left there (proper_at (k := s.hp) proper (by omega) (by omega)) one (good.same s.hp pivots le_rfl)
  have before := compares.neg_iff one there
  have after := compares.neg_iff there one
  have same := compares.zero_comm one there
  omega

end loops

theorem part_done (compares : Compares compare) {s : Sorting.Part a l} {loop : Bool} (one : Proper v)
    (proper : ∀ r ∈ slice s.mem a l, Proper r) (good : Part.Good compare v s)
    (ahead : loop = true → s.i < s.lp → compare (s.mem s.i) v > 0) : Ended compare v s (part compare loop s) := by
  fun_induction part compare loop s with
  | case1 loop s top c equal ih =>
    obtain ⟨_, zero, _⟩ := at_i compares one proper good
    have low := s.low
    have pivots := s.pivots
    have right := s.right
    have high := s.high
    have shuffled : Shuffled a l s.mem (exchange s.mem s.i (s.lp - 1)) := .exchange (by omega) (by omega)
    have next := good.pivot_left top.2 pivots right (zero.mp equal)
    exact (ih (proper_shuffled shuffled proper) next (fun no => by cases no)).step shuffled
  | case2 loop s top c other later ih =>
    obtain ⟨neg, _, _⟩ := at_i compares one proper good
    have ended := ih proper (good.after_left (neg.mp later)) (fun no => by cases no)
    exact ⟨ended.good, ended.left, ended.right, ended.shuffled⟩
  | case3 loop s top c other earlier ih =>
    obtain ⟨_, _, pos⟩ := at_i compares one proper good
    exact ih proper good fun _ _ => pos.mp (by omega)
  | case4 loop s top more c equal ih =>
    obtain ⟨_, zero, _⟩ := at_j compares one proper good
    have low := s.low
    have left := s.left
    have pivots := s.pivots
    have high := s.high
    have shuffled : Shuffled a l s.mem (exchange s.mem (s.hp + 1) s.j) := .exchange (by omega) (by omega)
    have next := good.pivot_right left pivots more (zero.mp equal)
    refine (ih (proper_shuffled shuffled proper) next fun _ some_ => ?_).step shuffled
    dsimp only at some_ ⊢
    rw [exchange_apply, if_neg (by omega), if_neg (by omega)]
    exact ahead (by simpa [some_] using top) some_
  | case5 loop s top more c other later met ih =>
    obtain ⟨_, _, pos⟩ := at_j compares one proper good
    have low := s.low
    have pivots := s.pivots
    have high := s.high
    have shuffled : Shuffled a l s.mem (qstexc s.mem s.i (s.hp + 1) s.j) :=
      qstexc_shuffles (by omega) (by omega) (by omega) (by omega) (by omega)
    have next := good.turn_right met pivots more (pos.mp later)
    exact (ih (proper_shuffled shuffled proper) next fun _ some_ => absurd some_ (lt_irrefl _)).step shuffled
  | case6 loop s top more c other later apart ih =>
    obtain ⟨_, _, pos⟩ := at_j compares one proper good
    have low := s.low
    have left := s.left
    have pivots := s.pivots
    have high := s.high
    have some_ : s.i < s.lp := by omega
    have earlier := ahead (by simpa [some_] using top) some_
    have shuffled : Shuffled a l s.mem (exchange s.mem s.i s.j) := .exchange (by omega) (by omega)
    have next := good.both some_ pivots more earlier (pos.mp later)
    exact (ih (proper_shuffled shuffled proper) next (fun no => by cases no)).step shuffled
  | case7 loop s top more c other earlier ih =>
    obtain ⟨neg, _, _⟩ := at_j compares one proper good
    have ended := ih proper (good.before_right (neg.mp (by omega))) fun _ some_ => ahead (by simpa [some_] using top) some_
    exact ⟨ended.good, ended.left, ended.right, ended.shuffled⟩
  | case8 loop s top less met =>
    have right := s.right
    exact ⟨good, met, by omega, .refl⟩
  | case9 loop s top less apart ih =>
    have low := s.low
    have left := s.left
    have pivots := s.pivots
    have right := s.right
    have high := s.high
    have some_ : s.i < s.lp := by omega
    have shuffled : Shuffled a l s.mem (qstexc s.mem s.j (s.lp - 1) s.i) :=
      qstexc_shuffles (by omega) (by omega) (by omega) (by omega) (by omega)
    have next := good.turn_left some_ pivots (by omega) (ahead (by simpa [some_] using top) some_)
    exact (ih (proper_shuffled shuffled proper) next (fun no => by cases no)).step shuffled

def dups (compare : Compare) (uflg : Bool) : List Record → List Record
  | [] => []
  | [x] => [x]
  | x :: y :: rest => (if uflg ∧ compare x y = 0 then mark x else x) :: dups compare uflg (y :: rest)

def Descending (compare : Compare) (l : List Record) : Prop := l.Pairwise fun x y => compare x y ≤ 0

theorem dups_append {first : List Record} {x y : Record} {rest : List Record} (less : compare x y ≠ 0) :
    dups compare uflg ((first ++ [x]) ++ y :: rest) = dups compare uflg (first ++ [x]) ++ dups compare uflg (y :: rest) := by
  induction first with
  | nil => simp [dups, less]
  | cons z first ih =>
    cases first with
    | nil => simpa [dups] using ih
    | cons w first => simpa [dups] using ih

theorem dups_split {first second : List Record} (less : ∀ x ∈ first, ∀ y ∈ second, compare x y ≠ 0) :
    dups compare uflg (first ++ second) = dups compare uflg first ++ dups compare uflg second := by
  cases second with
  | nil => simp [dups]
  | cons y rest =>
    rcases List.eq_nil_or_concat first with rfl | ⟨first, x, rfl⟩
    · simp [dups]
    · rw [List.concat_eq_append]
      exact dups_append (less x (by simp) y (by simp))

theorem dups_off {l : List Record} : dups compare false l = l := by
  induction l with
  | nil => rfl
  | cons x l ih =>
    cases l with
    | nil => rfl
    | cons y l => simpa [dups] using ih

theorem dups_same {first : List Record} {x : Record} (same : (first ++ [x]).Pairwise fun y z => compare y z = 0) :
    dups compare true (first ++ [x]) = first.map mark ++ [x] := by
  induction first with
  | nil => rfl
  | cons y first ih =>
    obtain ⟨head, tail⟩ := List.pairwise_cons.mp same
    cases first with
    | nil => simp [dups, head]
    | cons z first =>
      have zero : compare y z = 0 := head z (by simp)
      simpa [dups, zero] using ih tail

structure Sorted (compare : Compare) (uflg : Bool) (a l : Nat) (m m' : Nat → Record) : Prop where
  outside : ∀ k, ¬ (a ≤ k ∧ k < l) → m' k = m k
  sorted : ∃ records, records.Perm (slice m a l) ∧ Descending compare records ∧ slice m' a l = dups compare uflg records

theorem slice_marks {lp hp : Nat} (some_ : lp ≤ hp) : slice (marks m lp hp) lp (hp + 1) = (slice m lp hp).map mark ++ [m hp] := by
  rw [← slice_append some_ (Nat.le_succ hp), slice_one, marks, if_neg (by omega), slice, slice, List.map_map]
  congr 1
  apply List.map_congr_left
  intro k member
  obtain ⟨low, high⟩ := List.mem_range'_1.mp member
  rw [comp_apply, marks, if_pos (by omega)]

theorem descending_same (compares : Compares compare) {l : List Record} (one : Proper v) (proper : ∀ x ∈ l, Proper x)
    (same : ∀ x ∈ l, compare x v = 0) : l.Pairwise fun x y => compare x y = 0 := by
  apply List.pairwise_of_forall_mem_list
  intro x first y second
  exact (compares.congr (proper x first) (proper y second) one (same y second)).2.1.mpr (same x first)

theorem assemble (compares : Compares compare) (one : Proper v) {s r : Sorting.Part a l} (proper : ∀ x ∈ slice s.mem a l, Proper x)
    (ended : Ended compare v s r)
    (first : ∃ records, records.Perm (slice r.mem a r.lp) ∧ Descending compare records ∧ slice m a r.lp = dups compare uflg records)
    (second : slice m r.lp (r.hp + 1) = slice (if uflg then marks r.mem r.lp r.hp else r.mem) r.lp (r.hp + 1))
    (third : ∃ records, records.Perm (slice r.mem (r.hp + 1) l) ∧ Descending compare records ∧
      slice m (r.hp + 1) l = dups compare uflg records) :
    ∃ records, records.Perm (slice s.mem a l) ∧ Descending compare records ∧ slice m a l = dups compare uflg records := by
  obtain ⟨later, perm, down, is⟩ := first
  obtain ⟨earlier, perm', down', is'⟩ := third
  have low : a ≤ r.lp := r.low.trans r.left
  have high : r.hp + 1 ≤ l := Nat.lt_of_le_of_lt r.right r.high
  have pivots := r.pivots
  have proper_ := proper_shuffled ended.shuffled proper
  have whole : slice r.mem a l = slice r.mem a r.lp ++ (slice r.mem r.lp (r.hp + 1) ++ slice r.mem (r.hp + 1) l) := by
    rw [slice_append (by omega) high, slice_append low (by omega)]
  rw [whole] at proper_
  have good := ended.good
  rw [Part.Good, ended.left, ended.right] at good
  have after : ∀ x ∈ later, Proper x ∧ compare x v < 0 := by
    intro x member
    have member := perm.mem_iff.mp member
    obtain ⟨k, least, most, rfl⟩ := mem_slice.mp member
    exact ⟨proper_ _ (List.mem_append_left _ member), good.after k least most⟩
  have same : ∀ x ∈ slice r.mem r.lp (r.hp + 1), Proper x ∧ compare x v = 0 := by
    intro x member
    obtain ⟨k, least, most, rfl⟩ := mem_slice.mp member
    exact ⟨proper_ _ (List.mem_append_right _ (List.mem_append_left _ member)), good.same k least (by omega)⟩
  have before : ∀ x ∈ earlier, Proper x ∧ compare x v > 0 := by
    intro x member
    have member := perm'.mem_iff.mp member
    obtain ⟨k, least, most, rfl⟩ := mem_slice.mp member
    exact ⟨proper_ _ (List.mem_append_right _ (List.mem_append_right _ member)), good.before k (by omega) most⟩
  have equal := descending_same compares one (fun x member => (same x member).1) fun x member => (same x member).2
  have less : ∀ x ∈ later, ∀ y ∈ slice r.mem r.lp (r.hp + 1), compare x y < 0 := fun x first y second =>
    (compares.congr (after x first).1 (same y second).1 one (same y second).2).1.mpr (after x first).2
  have less' : ∀ x ∈ slice r.mem r.lp (r.hp + 1), ∀ y ∈ earlier, compare x y < 0 := fun x first y second =>
    (compares.neg_iff (same x first).1 (before y second).1).mpr
      ((compares.congr (before y second).1 (same x first).1 one (same x first).2).2.2.mpr (before y second).2)
  have less'' : ∀ x ∈ later, ∀ y ∈ earlier, compare x y < 0 := by
    intro x first y second
    by_contra not_
    have through := compares.trans x y v (after x first).1 (before y second).1 one (by omega) (by have := (before y second).2; omega)
    have := (after x first).2
    omega
  have middle : slice m r.lp (r.hp + 1) = dups compare uflg (slice r.mem r.lp (r.hp + 1)) := by
    rw [second]
    cases uflg with
    | false => exact dups_off.symm
    | true =>
      have ends : slice r.mem r.lp (r.hp + 1) = slice r.mem r.lp r.hp ++ [r.mem r.hp] := by
        rw [← slice_one, slice_append pivots (Nat.le_succ _)]
      rw [ends] at equal
      rw [if_pos rfl, slice_marks pivots, ends, dups_same equal]
  refine ⟨later ++ (slice r.mem r.lp (r.hp + 1) ++ earlier), ?_, ?_, ?_⟩
  · apply List.Perm.trans _ ended.shuffled.perm
    rw [whole]
    exact perm.append ((List.Perm.refl _).append perm')
  · refine List.pairwise_append.mpr ⟨down, List.pairwise_append.mpr ⟨?_, down', fun x first y second => ?_⟩, fun x first y second => ?_⟩
    · exact equal.imp fun zero => zero.le
    · exact (less' x first y second).le
    · rcases List.mem_append.mp second with second | second
      · exact (less x first y second).le
      · exact (less'' x first y second).le
  · rw [dups_split, dups_split, ← is, ← is', ← middle, slice_append (by omega) high, slice_append low (by omega)]
    · exact fun x first y second => (less' x first y second).ne
    · intro x first y second
      rcases List.mem_append.mp second with second | second
      · exact (less x first y second).ne
      · exact (less'' x first y second).ne

theorem marks_outside {lp hp : Nat} (out : k < lp ∨ hp ≤ k) : marks m lp hp k = m k := by
  rw [marks, if_neg (by omega)]

theorem sorted_few (few : l - a ≤ 1) :
    ∃ records, records.Perm (slice m a l) ∧ Descending compare records ∧ slice m a l = dups compare uflg records := by
  have size : (slice m a l).length ≤ 1 := length_slice.trans_le few
  refine ⟨slice m a l, .refl _, ?_, ?_⟩
  · match slice m a l, size with
    | [], _ => exact List.Pairwise.nil
    | [x], _ => exact List.pairwise_singleton _ x
  · match slice m a l, size with
    | [], _ => rfl
    | [x], _ => rfl

theorem Sorted.proper {c d : Nat} (sorted : Sorted compare uflg a l m m') (apart : l ≤ c ∨ d ≤ a)
    (proper : ∀ r ∈ slice m c d, Proper r) : ∀ r ∈ slice m' c d, Proper r := by
  have same : slice m' c d = slice m c d := slice_congr fun k low high => sorted.outside k (by omega)
  rwa [same]

theorem Sorted.both {m'' : Nat → Record} {c d e f : Nat} (first : Sorted compare uflg c d m m') (second : Sorted compare uflg e f m' m'')
    (apart : d ≤ e ∨ f ≤ c) :
    (∃ records, records.Perm (slice m c d) ∧ Descending compare records ∧ slice m'' c d = dups compare uflg records) ∧
      (∃ records, records.Perm (slice m e f) ∧ Descending compare records ∧ slice m'' e f = dups compare uflg records) ∧
      ∀ k, ¬ (c ≤ k ∧ k < d) → ¬ (e ≤ k ∧ k < f) → m'' k = m k := by
  obtain ⟨records, perm, down, is⟩ := first.sorted
  obtain ⟨records', perm', down', is'⟩ := second.sorted
  have later : slice m'' c d = slice m' c d := slice_congr fun k low high => second.outside k (by omega)
  have earlier : slice m' e f = slice m e f := slice_congr fun k low high => first.outside k (by omega)
  refine ⟨⟨records, perm, down, later.trans is⟩, ⟨records', earlier ▸ perm', down', is'⟩, fun k out out' => ?_⟩
  rw [second.outside k out', first.outside k out]

theorem qksort_sorted (compares : Compares compare) (proper : ∀ r ∈ slice m a l, Proper r) :
    Sorted compare uflg a l m (qksort compare uflg m a l) := by
  induction size : l - a using Nat.strong_induction_on generalizing m a l with
  | _ n ih =>
    subst size
    rw [qksort]
    split
    case isTrue few => exact ⟨fun _ _ => rfl, sorted_few few⟩
    case isFalse some_ =>
      have one : Proper (m (a + pivot compare m a l)) := proper_at proper (Nat.le_add_right _ _) (pivot_inside compare m some_)
      have start : Part.Good compare (m (a + pivot compare m a l)) (begin_ compare m a l some_) := by
        have inside := pivot_inside compare m some_
        refine ⟨fun k low high => absurd high (Nat.not_lt.mpr low), fun k low high => ?_, fun k low high => ?_⟩
        · obtain rfl := Nat.le_antisymm low high
          exact compares.self one
        · exact absurd (show l - 1 < k from low) (by omega)
      have ended : Ended compare _ _ (part compare false (begin_ compare m a l some_)) :=
        part_done compares one proper start (fun no => by cases no)
      generalize part compare false (begin_ compare m a l some_) = s at ended
      have low : a ≤ s.lp := s.low.trans s.left
      have high : s.hp + 1 ≤ l := Nat.lt_of_le_of_lt s.right s.high
      have pivots := s.pivots
      have shorter := s.shorter
      have rest : ∀ k, k < s.lp ∨ s.hp ≤ k → (if uflg then marks s.mem s.lp s.hp else s.mem) k = s.mem k := by
        intro k out
        cases uflg with
        | false => rfl
        | true => exact marks_outside out
      have proper_ := proper_shuffled ended.shuffled proper
      have left : slice (if uflg then marks s.mem s.lp s.hp else s.mem) a s.lp = slice s.mem a s.lp :=
        slice_congr fun k _ most => rest k (.inl most)
      have right : slice (if uflg then marks s.mem s.lp s.hp else s.mem) (s.hp + 1) l = slice s.mem (s.hp + 1) l :=
        slice_congr fun k least _ => rest k (.inr (by omega))
      have outside : ∀ k, ¬ (a ≤ k ∧ k < l) → (if uflg then marks s.mem s.lp s.hp else s.mem) k = m k := by
        intro k out
        rw [rest k (by omega)]
        exact ended.shuffled.outside k out
      have proper_left : ∀ r ∈ slice s.mem a s.lp, Proper r := by
        intro r member
        apply proper_
        rw [← slice_append low (by omega : s.lp ≤ l)]
        exact List.mem_append_left _ member
      have proper_right : ∀ r ∈ slice s.mem (s.hp + 1) l, Proper r := by
        intro r member
        apply proper_
        rw [← slice_append (by omega : a ≤ s.hp + 1) high]
        exact List.mem_append_right _ member
      dsimp only
      generalize is : (if uflg then marks s.mem s.lp s.hp else s.mem) = marked at *
      have finish : ∀ m', (∃ records, records.Perm (slice marked a s.lp) ∧ Descending compare records ∧
          slice m' a s.lp = dups compare uflg records) → (∃ records, records.Perm (slice marked (s.hp + 1) l) ∧
          Descending compare records ∧ slice m' (s.hp + 1) l = dups compare uflg records) →
          (∀ k, ¬ (a ≤ k ∧ k < s.lp) → ¬ (s.hp + 1 ≤ k ∧ k < l) → m' k = marked k) → Sorted compare uflg a l m m' := by
        intro m' first third same
        rw [left] at first
        rw [right] at third
        refine ⟨fun k out => (same k (by omega) (by omega)).trans (outside k out), ?_⟩
        have second : slice m' s.lp (s.hp + 1) = slice marked s.lp (s.hp + 1) :=
          slice_congr fun k least most => same k (by omega) (by omega)
        rw [← is] at second
        exact assemble compares one (s := begin_ compare m a l some_) proper ended first second third
      split
      case isTrue =>
        have first := ih _ shorter.2 (right.symm ▸ proper_right) rfl
        have second := ih _ shorter.1 (first.proper (.inr (by omega)) (left.symm ▸ proper_left)) rfl
        obtain ⟨one_, two, same⟩ := first.both second (.inr (by omega))
        exact finish _ two one_ fun k out out' => same k out' out
      case isFalse =>
        have first := ih _ shorter.1 (left.symm ▸ proper_left) rfl
        have second := ih _ shorter.2 (first.proper (.inl (by omega)) (right.symm ▸ proper_right)) rfl
        obtain ⟨one_, two, same⟩ := first.both second (.inl (by omega))
        exact finish _ one_ two same

end Svr4.Proofs.SortParts
