import Svr4.Proofs.DiffStone

/-! The matches that `unravel` writes down are a longest common subsequence of the values: the
trimmed ends lose nothing, and between them the chain of the last candidate is a longest one. -/

namespace Svr4.Proofs.DiffLongest
open Function Diff DiffSort DiffStone Subsequence

variable {s : Stone} {J J' : Nat → Int} {values0 values1 : List Int} {i l m n p pref suff len0 len1 : Nat}

def matched (J : Nat → Int) (n : Nat) : Finset Nat := {i ∈ Finset.Icc 1 n | J i ≠ 0}

def Pairs (J : Nat → Int) (values0 values1 : List Int) : Prop :=
  ∀ i, 1 ≤ i → i ≤ values0.length → J i ≠ 0 → values0[i - 1]? = values1[(J i).toNat - 1]?

theorem mem_matched : i ∈ matched J n ↔ (1 ≤ i ∧ i ≤ n) ∧ J i ≠ 0 := by rw [matched, Finset.mem_filter, Finset.mem_Icc]

theorem matched_update {v : Int} (low : 1 ≤ p) (high : p ≤ n) (todo : J p = 0) (some_ : v ≠ 0) :
    (matched (update J p v) n).card = (matched J n).card + 1 := by
  have is : matched (update J p v) n = insert p (matched J n) := by
    ext i
    rw [Finset.mem_insert, mem_matched, mem_matched]
    by_cases here : i = p
    · subst here
      rw [update_self]
      simp only [low, high, some_, ne_eq, not_false_eq_true, and_self, true_or]
    · rw [update_of_ne here]
      simp only [here, false_or]
  rw [is, Finset.card_insert_of_notMem]
  exact fun member => (mem_matched.mp member).2 todo

theorem matched_succ (J : Nat → Int) (n : Nat) :
    (matched J (n + 1)).card = (matched J n).card + if J (n + 1) = 0 then 0 else 1 := by
  have range : Finset.Icc 1 (n + 1) = insert (n + 1) (Finset.Icc 1 n) := by
    ext i
    rw [Finset.mem_insert, Finset.mem_Icc, Finset.mem_Icc]
    omega
  unfold matched
  rw [range, Finset.filter_insert]
  by_cases none_ : J (n + 1) = 0
  · rw [if_neg (not_not.mpr none_), if_pos none_, Nat.add_zero]
  · rw [if_pos none_, if_neg none_, Finset.card_insert_of_notMem]
    intro member
    have := (mem_matched.mp member).1
    omega

theorem matched_pruned (rows : pref + suff ≤ len0) (cols : pref + suff ≤ len1) :
    (matched (pruned pref suff len0 len1) len0).card = pref + suff := by
  have is : matched (pruned pref suff len0 len1) len0 = Finset.Icc 1 pref ∪ Finset.Icc (len0 - suff + 1) len0 := by
    ext i
    rw [mem_matched, Finset.mem_union, Finset.mem_Icc, Finset.mem_Icc]
    unfold pruned
    split_ifs <;> omega
  have apart : Disjoint (Finset.Icc 1 pref) (Finset.Icc (len0 - suff + 1) len0) := by
    rw [Finset.disjoint_left]
    intro i left right
    rw [Finset.mem_Icc] at left right
    omega
  rw [is, Finset.card_union_of_disjoint apart, Nat.card_Icc, Nat.card_Icc]
  omega

theorem chain_of_increasing (increasing : Increasing J values0.length values1.length) (pairs : Pairs J values0 values1)
    (few : n ≤ values0.length) : ∃ x y : Nat, Chain (Match values0 values1) (matched J n).card x y ∧ x ≤ n ∧
      ∀ i, n < i → i ≤ values0.length → J i ≠ 0 → y < J i := by
  induction n with
  | zero =>
    refine ⟨0, 0, .nil, le_rfl, fun i low high some_ => ?_⟩
    have := increasing.inside i low high some_
    omega
  | succ n ih =>
    obtain ⟨x, y, chain, upto, behind⟩ := ih (by omega)
    rw [matched_succ]
    split
    case isTrue none_ => exact ⟨x, y, chain, by omega, fun i low => behind i (by omega)⟩
    case isFalse some_ =>
      obtain ⟨low, high⟩ := increasing.inside (n + 1) (by omega) few some_
      have right := behind (n + 1) (by omega) few some_
      have same := pairs (n + 1) (by omega) few some_
      refine ⟨n + 1, (J (n + 1)).toNat, chain.next (by omega) (by omega) ⟨by omega, few, by omega, by omega, same⟩, le_rfl, ?_⟩
      intro i later inside some_'
      have := increasing.rising (n + 1) i (by omega) later inside some_ some_'
      omega

theorem chain_counts (grown : Grown s n m) (rows : pref + n ≤ len0) {q : Nat} (rank : Rank s.clist l q) (old : q < s.clen)
    (fuel : Nat) (todo : ∀ i, pref < i → i ≤ pref + (s.clist q).x → J i = 0) (runs : chain s.clist pref fuel q J = some J') :
    (matched J' len0).card = (matched J len0).card + l := by
  induction rank generalizing fuel J with
  | @root q zero =>
    cases fuel with
    | zero => exact absurd runs nofun
    | succ fuel =>
      rw [chain, if_pos zero] at runs
      rw [Option.some.inj runs, Nat.add_zero]
  | @next l q some_ rank ih =>
    cases fuel with
    | zero => exact absurd runs nofun
    | succ fuel =>
      have continues := (grown.cands q old).resolve_left (fun zero => some_ zero.2)
      have x_inside := continues.x_inside
      have y_inside := continues.y_inside
      have x_less := continues.x_less
      rw [chain, if_neg some_] at runs
      rw [ih (continues.older.trans old) fuel ?_ runs, matched_update (by omega) (by omega) (todo _ (by omega) (by omega)) (by omega)]
      · omega
      · intro i low high
        rw [update_of_ne (by omega)]
        exact todo i low (by omega)

theorem chain_pairs (grown : Grown s n m)
    (same : ∀ q, q < s.clen → (s.clist q).y ≠ 0 → values0[pref + (s.clist q).x - 1]? = values1[pref + (s.clist q).y.toNat - 1]?)
    (fuel : Nat) {q : Nat} (old : q < s.clen) (pairs : Pairs J values0 values1) (runs : chain s.clist pref fuel q J = some J') :
    Pairs J' values0 values1 := by
  induction fuel generalizing q J with
  | zero => exact absurd runs nofun
  | succ fuel ih =>
    unfold chain at runs
    split at runs
    case isTrue => exact Option.some.inj runs ▸ pairs
    case isFalse some_ =>
      have continues := (grown.cands q old).resolve_left (fun zero => some_ zero.2)
      have y_inside := continues.y_inside
      apply ih (continues.older.trans old) _ runs
      intro i low high
      by_cases here : i = (s.clist q).x + pref
      · intro _
        have place : ((s.clist q).y + pref).toNat = pref + (s.clist q).y.toNat := by omega
        rw [here, update_self, place, Nat.add_comm _ pref]
        exact same q old some_
      · rw [update_of_ne here]
        exact pairs i low high

structure Trimmed (values0 values1 : List Int) (pref suff : Nat) : Prop where
  rows : pref + suff ≤ values0.length
  cols : pref + suff ≤ values1.length
  front : ∀ i, i < pref → values0[i]? = values1[i]?
  back : ∀ i, i < suff → values0[values0.length - suff + i]? = values1[values1.length - suff + i]?

theorem file_value (values : List Int) (low : 1 ≤ i) (high : i ≤ values.length) : values[i - 1]? = some (file values i).value := by
  rw [file, List.getD_eq_getElem?_getD, List.getElem?_eq_getElem (by omega), Option.getD_some]

theorem prune_pref_same (file0 file1 : Nat → Line) (done : ∀ i, i < pref → (file0 (i + 1)).value = (file1 (i + 1)).value) :
    ∀ i, i < prune_pref file0 file1 len0 len1 pref → (file0 (i + 1)).value = (file1 (i + 1)).value := by
  fun_induction prune_pref file0 file1 len0 len1 pref with
  | case1 pref same ih =>
    apply ih
    intro i before
    rcases Nat.lt_or_eq_of_le (Nat.le_of_lt_succ before) with less | rfl
    · exact done i less
    · exact same.2.2
  | case2 => exact done

theorem prune_suff_same (file0 file1 : Nat → Line) (done : ∀ i, i < suff → (file0 (len0 - i)).value = (file1 (len1 - i)).value) :
    ∀ i, i < prune_suff file0 file1 len0 len1 pref suff → (file0 (len0 - i)).value = (file1 (len1 - i)).value := by
  fun_induction prune_suff file0 file1 len0 len1 pref suff with
  | case1 suff same ih =>
    apply ih
    intro i before
    rcases Nat.lt_or_eq_of_le (Nat.le_of_lt_succ before) with less | rfl
    · exact done i less
    · exact same.2.2
  | case2 => exact done

theorem trimmed (values0 values1 : List Int) :
    Trimmed values0 values1 (prune_pref (file values0) (file values1) values0.length values1.length 0)
      (prune_suff (file values0) (file values1) values0.length values1.length
        (prune_pref (file values0) (file values1) values0.length values1.length 0) 0) := by
  have rows := prune_pref_le (file values0) (file values1) (Nat.zero_le values0.length) (Nat.zero_le values1.length)
  have front : ∀ i, i < prune_pref (file values0) (file values1) values0.length values1.length 0 →
      (file values0 (i + 1)).value = (file values1 (i + 1)).value :=
    prune_pref_same _ _ (fun i (none_ : i < 0) => absurd none_ i.not_lt_zero)
  generalize prune_pref _ _ _ _ 0 = pref at *
  have tails := prune_suff_le (file values0) (file values1) (Nat.zero_le (values0.length - pref)) (Nat.zero_le (values1.length - pref))
  have back : ∀ i, i < prune_suff (file values0) (file values1) values0.length values1.length pref 0 →
      (file values0 (values0.length - i)).value = (file values1 (values1.length - i)).value :=
    prune_suff_same _ _ (fun i (none_ : i < 0) => absurd none_ i.not_lt_zero)
  generalize prune_suff _ _ _ _ pref 0 = suff at *
  refine ⟨by omega, by omega, fun i before => ?_, fun i before => ?_⟩
  · have line := file_value values0 (i := i + 1) (by omega) (by omega)
    have line' := file_value values1 (i := i + 1) (by omega) (by omega)
    rw [front i before] at line
    exact line.trans line'.symm
  · have line := file_value values0 (i := values0.length - suff + i + 1) (by omega) (by omega)
    have line' := file_value values1 (i := values1.length - suff + i + 1) (by omega) (by omega)
    have same := back (suff - 1 - i) (by omega)
    rw [show values0.length - (suff - 1 - i) = values0.length - suff + i + 1 by omega,
      show values1.length - (suff - 1 - i) = values1.length - suff + i + 1 by omega] at same
    rw [same] at line
    exact line.trans line'.symm

def middle (values : List Int) (pref suff : Nat) : List Int := (values.drop pref).take (values.length - pref - suff)

theorem middle_parts (values : List Int) (few : pref + suff ≤ values.length) :
    values = values.take pref ++ middle values pref suff ++ values.drop (values.length - suff) := by
  have rest : middle values pref suff ++ values.drop (values.length - suff) = values.drop pref := by
    have place : values.drop (values.length - suff) = (values.drop pref).drop (values.length - pref - suff) := by
      rw [List.drop_drop]
      congr 1
      omega
    rw [middle, place, List.take_append_drop]
  rw [List.append_assoc, rest, List.take_append_drop]

theorem middle_length {values : List Int} (few : pref + suff ≤ values.length) :
    (middle values pref suff).length = values.length - pref - suff := by
  rw [middle, List.length_take, List.length_drop]
  omega

theorem middle_get {values : List Int} (low : 1 ≤ i) (high : i ≤ values.length - pref - suff) :
    (middle values pref suff)[i - 1]? = some (file values (pref + i)).value := by
  rw [middle, List.getElem?_take_of_lt (by omega), List.getElem?_drop, ← file_value values (by omega) (by omega)]
  congr 1
  omega

theorem Trimmed.parts (is : Trimmed values0 values1 pref suff) :
    values1 = values0.take pref ++ middle values1 pref suff ++ values0.drop (values0.length - suff) := by
  have front : values0.take pref = values1.take pref := by
    apply List.ext_getElem?
    intro i
    rw [List.getElem?_take, List.getElem?_take]
    split
    case isTrue before => exact is.front i before
    case isFalse => rfl
  have back : values0.drop (values0.length - suff) = values1.drop (values1.length - suff) := by
    have rows := is.rows
    have cols := is.cols
    apply List.ext_getElem?
    intro i
    rw [List.getElem?_drop, List.getElem?_drop]
    rcases Nat.lt_or_ge i suff with before | beyond
    · exact is.back i before
    · rw [List.getElem?_eq_none (by omega), List.getElem?_eq_none (by omega)]
  rw [front, back]
  exact middle_parts values1 is.cols

theorem middle_sorted (pref suff : Nat) {values : List Int} (some_ : ∀ v ∈ values, v ≠ 0) (few : pref + suff ≤ values.length) :
    Sorted (sort (sfile (file values) pref (values.length - pref - suff)) (values.length - pref - suff)) (values.length - pref - suff) ∧
    ∀ i, 1 ≤ i → i ≤ values.length - pref - suff →
      (sort (sfile (file values) pref (values.length - pref - suff)) (values.length - pref - suff) i).value =
        (file values (pref + (sort (sfile (file values) pref (values.length - pref - suff)) (values.length - pref - suff) i).serial)).value := by
  obtain ⟨slen, def_⟩ : ∃ slen, values.length - pref - suff = slen := ⟨_, rfl⟩
  rw [def_]
  have serials : ∀ i, 1 ≤ i → i ≤ slen → (sfile (file values) pref slen i).serial = i := by
    intro i low high
    rw [sfile, if_pos high]
  have sorts : Sorted (sort (sfile (file values) pref slen) slen) slen := by
    apply sorted serials
    intro i low high
    rw [sfile, if_pos high]
    exact some_ _ (List.mem_of_getElem? (file_value values (by omega) (by omega)))
  refine ⟨sorts, fun i low high => ?_⟩
  rw [sorted_value serials low high, sfile, if_pos (sorts.inside i low high).2]

theorem unravelled_done (memory : Memory) (some_ : ∀ v ∈ values0, v ≠ 0) (some_' : ∀ v ∈ values1, v ≠ 0) :
    ∃ J, unravelled memory values0 values1 = some J ∧ Increasing J values0.length values1.length ∧ Pairs J values0 values1 ∧
      IsGreatest (lengths values0 values1) (matched J values0.length).card := by
  have ends := trimmed values0 values1
  unfold unravelled
  dsimp only
  generalize prune_pref _ _ _ _ 0 = pref at *
  generalize prune_suff _ _ _ _ pref 0 = suff at *
  have rows := ends.rows
  have cols := ends.cols
  obtain ⟨sorts, values⟩ := middle_sorted pref suff some_ rows
  obtain ⟨sorts', values'⟩ := middle_sorted pref suff some_' cols
  obtain ⟨member, members, classes, alike⟩ := classes_done sorts sorts' memory.ints memory.ints
    (fun i => (file values0 (pref + i)).value) (fun i => (file values1 (pref + i)).value) values values'
  obtain ⟨s, stones, grown, best⟩ := stone_done classes memory
  obtain ⟨J, unravels, increasing⟩ := unravel_done grown rows cols
  have same : ∀ q, q < s.clen → (s.clist q).y ≠ 0 →
      values0[pref + (s.clist q).x - 1]? = values1[pref + (s.clist q).y.toNat - 1]? := by
    intro q old nonzero
    have x_inside := ((grown.cands q old).resolve_left (fun zero => nonzero zero.2)).x_inside
    obtain ⟨y, is, match_⟩ := (best.matched q old).resolve_left nonzero
    obtain ⟨low, high, same⟩ := (alike _ y x_inside.1 x_inside.2).mp match_
    rw [is, Int.toNat_natCast, file_value values0 (by omega) (by omega), file_value values1 (by omega) (by omega)]
    exact congrArg some same
  have last := grown.listed s.k le_rfl
  have pairs : Pairs J values0 values1 := by
    apply chain_pairs grown same _ last _ unravels
    intro i low high nonzero
    unfold pruned at nonzero ⊢
    split_ifs at nonzero ⊢ with front back
    · exact ends.front (i - 1) (by omega)
    · have line := ends.back (i - 1 - (values0.length - suff)) (by omega)
      rw [show values0.length - suff + (i - 1 - (values0.length - suff)) = i - 1 by omega] at line
      rw [line]
      congr 1
      omega
    · exact absurd rfl nonzero
  have count : (matched J values0.length).card = pref + suff + s.k := by
    rw [chain_counts grown (by omega) (best.rank s.k le_rfl) last _ _ unravels, matched_pruned rows cols]
    intro i low high
    have x_le := grown.x_le last
    unfold pruned
    rw [if_neg (by omega), if_neg (by omega)]
  refine ⟨J, ?_, increasing, pairs, ?_, fun length is => ?_⟩
  · simp only [members, stones, unravels, Option.bind_eq_bind, Option.bind_some]
  · obtain ⟨x, y, chain, _⟩ := chain_of_increasing increasing pairs (n := values0.length) le_rfl
    exact lengths_chain chain
  · have most : ∀ l x y, Chain (Match (middle values0 pref suff) (middle values1 pref suff)) l x y → l ≤ s.k := by
      intro l x y chain
      have inside : x ≤ values0.length - pref - suff := by
        rcases chain_end chain with rfl | match_
        · exact Nat.zero_le _
        · exact middle_length rows ▸ match_.2.1
      apply (best.least l x y (chain.mono fun x y match_ => ?_) inside).1
      obtain ⟨low, high, low', high', same⟩ := match_
      rw [middle_length rows] at high
      rw [middle_length cols] at high'
      rw [middle_get low high, middle_get low' high'] at same
      exact (alike x y low high).mpr ⟨low', high', Option.some.inj same⟩
    have le := lengths_le (middle_parts values0 rows) ends.parts most is
    rw [List.length_take_of_le (by omega), List.length_drop] at le
    omega

/-- `J` pairs the lines of a longest common subsequence of the hashes. -/
theorem longest_subsequence (memory : Memory) (values0 values1 : List Int) (hashed : ∀ v ∈ values0, v ≠ 0)
    (hashed' : ∀ v ∈ values1, v ≠ 0) : ∃ J, unravelled memory values0 values1 = some J ∧
      (∀ i, 1 ≤ i → i ≤ values0.length → J i ≠ 0 → 1 ≤ J i ∧ J i ≤ values1.length) ∧
      (∀ i j, 1 ≤ i → i < j → j ≤ values0.length → J i ≠ 0 → J j ≠ 0 → J i < J j) ∧
      (∀ i, 1 ≤ i → i ≤ values0.length → J i ≠ 0 → values0[i - 1]? = values1[(J i).toNat - 1]?) ∧
      IsGreatest {n | ∃ common : List Int, common.Sublist values0 ∧ common.Sublist values1 ∧ common.length = n}
        ({i ∈ Finset.Icc 1 values0.length | J i ≠ 0}).card := by
  obtain ⟨J, runs, increasing, pairs, greatest⟩ := unravelled_done memory hashed hashed'
  exact ⟨J, runs, increasing.inside, increasing.rising, pairs, greatest⟩

/-- Of three and four lines two are matched. -/
theorem longest_subsequence_two : ∃ J, unravelled ⟨fun _ => 7, fun _ => 7, fun _ => ⟨7, 7, 7⟩⟩ [5, 6, 8] [6, 5, 9, 8] = some J ∧
    (∀ i, 1 ≤ i → i ≤ 3 → J i ≠ 0 → 1 ≤ J i ∧ J i ≤ 4) ∧
    (∀ i j, 1 ≤ i → i < j → j ≤ 3 → J i ≠ 0 → J j ≠ 0 → J i < J j) ∧
    (∀ i, 1 ≤ i → i ≤ 3 → J i ≠ 0 → ([5, 6, 8] : List Int)[i - 1]? = ([6, 5, 9, 8] : List Int)[(J i).toNat - 1]?) ∧
    IsGreatest {n | ∃ common : List Int, common.Sublist [5, 6, 8] ∧ common.Sublist [6, 5, 9, 8] ∧ common.length = n}
      ({i ∈ Finset.Icc 1 3 | J i ≠ 0}).card :=
  longest_subsequence _ [5, 6, 8] [6, 5, 9, 8] (by decide) (by decide)

end Svr4.Proofs.DiffLongest
