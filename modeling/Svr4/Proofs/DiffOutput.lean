import Svr4.Proofs.DiffCheck
import Svr4.Proofs.DiffLongest

/-! The calls of `change` as a script that edits the first file into the second one. -/

namespace Svr4.Proofs.DiffOutput
open Function Splice Diff DiffStone DiffCheck DiffLongest

variable {J : Nat → Int} {old new : List Str} {i0 p q r : Nat} {calls : List Change}

/-- The lines from `a` to `b` make way for those from `c` to `d`. -/
def apply (new text : List Str) (r : Change) : List Str := splice text r.a r.b (segment new r.c.toNat r.d.toNat)

/-- The numbers of lines are those of the first file, so that the last lines are edited first. -/
def edited (opt : Opt) (new text : List Str) (calls : List Change) : List Str :=
  if opt = .D_EDIT then calls.foldl (apply new) text else calls.foldr (fun r text => apply new text r) text

def Before (r r' : Change) : Prop := r.b + 1 < r'.a ∧ r.d + 1 < r'.c

/-- Both ranges of lines, which may be empty, lie in their files. -/
def Inside (old new : List Str) (r : Change) : Prop :=
  1 ≤ r.a ∧ r.a ≤ r.b + 1 ∧ r.b ≤ old.length ∧ 1 ≤ r.c ∧ r.c ≤ r.d + 1 ∧ r.d ≤ new.length

theorem apply_joined {r : Change} (inside : Inside old new r) :
    apply new (joined old new r.b r.d.toNat) r = joined old new (r.a - 1) (r.c.toNat - 1) := by
  obtain ⟨_, before, rows, _, before', _⟩ := inside
  exact splice_joined before rows (by omega)

structure Ahead (J : Nat → Int) (old new : List Str) (i0 p : Nat) : Prop where
  start : 1 ≤ i0 ∧ i0 ≤ old.length + 1
  here : J (i0 - 1) = p
  few : p ≤ new.length
  sentinel : J (old.length + 1) = new.length + 1
  above : ∀ i, i0 ≤ i → i ≤ old.length + 1 → J i ≠ 0 → p < J i
  rising : ∀ i j, i0 ≤ i → i < j → j ≤ old.length + 1 → J i ≠ 0 → J j ≠ 0 → J i < J j
  same : ∀ i, i0 ≤ i → i ≤ old.length → J i ≠ 0 → old[i - 1]? = new[(J i).toNat - 1]?

theorem Ahead.next (ahead : Ahead J old new i0 p) (inside : i0 ≤ old.length) (follows : J i0 = p + 1) :
    Ahead J old new (i0 + 1) (p + 1) ∧ joined old new i0 (p + 1) = joined old new (i0 - 1) p := by
  have start := ahead.start
  have few : p + 1 ≤ new.length := by
    have := ahead.rising i0 (old.length + 1) le_rfl (by omega) le_rfl (by omega) (by have := ahead.sentinel; omega)
    have := ahead.sentinel
    omega
  constructor
  · constructor
    case start => omega
    case here => exact follows
    case few => exact few
    case sentinel => exact ahead.sentinel
    case above =>
      intro i later upto some_
      have := ahead.rising i0 i le_rfl later upto (by omega) some_
      push_cast
      omega
    case rising => exact fun i j later => ahead.rising i j (by omega)
    case same => exact fun i later => ahead.same i (by omega)
  · have same := ahead.same i0 le_rfl inside (by omega)
    rw [follows, show ((p : Int) + 1).toNat - 1 = p by omega] at same
    have line : new[p]? = some new[p] := List.getElem?_eq_getElem few
    have joins := joined_succ (same.trans line) line
    rwa [Nat.sub_add_cancel start.1] at joins

theorem same_up_done (ahead : Ahead J old new i0 p) :
    ∃ p', Ahead J old new (same_up J old.length i0) p' ∧ i0 ≤ same_up J old.length i0 ∧ p' + i0 = p + same_up J old.length i0 ∧
      joined old new (same_up J old.length i0 - 1) p' = joined old new (i0 - 1) p := by
  fun_induction same_up J old.length i0 generalizing p with
  | case1 i0 more ih =>
    have follows : J i0 = p + 1 := by rw [more.2, ahead.here]
    obtain ⟨next, joins⟩ := ahead.next more.1 follows
    obtain ⟨p', done, later, count, same⟩ := ih next
    exact ⟨p', done, by omega, by omega, same.trans joins⟩
  | case2 => exact ⟨p, ahead, le_rfl, rfl, rfl⟩

theorem same_up_more (ahead : Ahead J old new i0 p) (inside : i0 ≤ old.length) (follows : J i0 = p + 1) :
    i0 < same_up J old.length i0 := by
  unfold same_up
  rw [if_pos ⟨inside, by rw [follows, ahead.here]⟩]
  exact (same_up_done (ahead.next inside follows).1).choose_spec.2.1

theorem zeros_up_done (J : Nat → Int) (m i1 : Nat) (start : i1 ≤ m) (sentinel : J (m + 1) ≠ 0) :
    i1 ≤ zeros_up J m i1 ∧ zeros_up J m i1 ≤ m ∧ J (zeros_up J m i1 + 1) ≠ 0 := by
  fun_induction zeros_up J m i1 with
  | case1 i1 more ih =>
    have ih := ih more.1
    exact ⟨by omega, ih.2⟩
  | case2 i1 stop =>
    refine ⟨le_rfl, start, fun zero => ?_⟩
    rcases Nat.lt_or_eq_of_le start with less | rfl
    · exact stop ⟨less, zero⟩
    · exact sentinel zero

theorem Ahead.skip (ahead : Ahead J old new i0 p) {i1 : Nat} (later : i0 ≤ i1 + 1) (inside : i1 ≤ old.length) (some_ : J (i1 + 1) ≠ 0) :
    ∃ d : Nat, J (i1 + 1) = d + 1 ∧ p ≤ d ∧ d ≤ new.length ∧ (i1 = old.length → d = new.length) ∧
      Ahead (update J i1 (J (i1 + 1) - 1)) old new (i1 + 1) d := by
  have above := ahead.above (i1 + 1) later (by omega) some_
  obtain ⟨d, at_⟩ : ∃ d : Nat, J (i1 + 1) = d + 1 := ⟨(J (i1 + 1) - 1).toNat, by omega⟩
  have sentinel := ahead.sentinel
  have high : d ≤ new.length := by
    rcases Nat.lt_or_eq_of_le inside with less | rfl
    · have := ahead.rising (i1 + 1) (old.length + 1) later (by omega) le_rfl some_ (by omega)
      omega
    · omega
  refine ⟨d, at_, by omega, high, ?_, ?_⟩
  · rintro rfl
    omega
  have kept : ∀ i, i1 + 1 ≤ i → update J i1 (J (i1 + 1) - 1) i = J i := fun i behind => update_of_ne (by omega) ..
  constructor
  case start => omega
  case here =>
    rw [Nat.add_sub_cancel, update_self]
    omega
  case few => exact high
  case sentinel => rw [kept _ (by omega), sentinel]
  case above =>
    intro i behind upto nonzero
    rw [kept i behind] at nonzero ⊢
    rcases Nat.lt_or_eq_of_le behind with further | rfl
    · have := ahead.rising (i1 + 1) i later further upto some_ nonzero
      omega
    · omega
  case rising =>
    intro i j behind less upto nonzero nonzero'
    rw [kept i behind] at nonzero ⊢
    rw [kept j (by omega)] at nonzero' ⊢
    exact ahead.rising i j (by omega) less upto nonzero nonzero'
  case same =>
    intro i behind upto nonzero
    rw [kept i behind] at nonzero ⊢
    exact ahead.same i (by omega) upto nonzero

theorem ascending_done (fuel : Nat) (J : Nat → Int) (i0 p e : Nat) (ahead : Ahead J old new i0 p)
    (last : i0 = old.length + 1 → p = new.length) (first : e ≤ 1) (follows : e = 1 → i0 ≤ old.length → J i0 = p + 1)
    (enough : old.length + 3 ≤ fuel + i0 + e) :
    ∃ calls, ascending old.length fuel J i0 = some calls ∧
      calls.foldr (fun r text => apply new text r) old = joined old new (i0 - 1) p ∧ calls.Pairwise Before ∧
      ∀ r ∈ calls, Inside old new r ∧ i0 + e ≤ r.a ∧ p + e < r.c := by
  induction fuel generalizing J i0 p e with
  | zero =>
    have := ahead.start
    omega
  | succ fuel ih =>
    unfold ascending
    split
    case isFalse beyond =>
      have is : i0 = old.length + 1 := by have := ahead.start; omega
      refine ⟨[], rfl, ?_, List.Pairwise.nil, nofun⟩
      rw [List.foldr_nil, joined_all (by omega) (last is).ge]
    case isTrue inside =>
      obtain ⟨p', there, later, count, same⟩ := same_up_done ahead
      have fresh : i0 + e ≤ same_up J old.length i0 := by
        rcases Nat.lt_or_eq_of_le first with zero | one
        · omega
        · have := same_up_more ahead inside (follows one inside)
          omega
      generalize same_up J old.length i0 = a at *
      have start := there.start
      obtain ⟨after_, within, some_⟩ := zeros_up_done J old.length (a - 1) (by omega) (by rw [there.sentinel]; omega)
      dsimp only
      generalize zeros_up J old.length (a - 1) = b at *
      obtain ⟨d, at_, low, high, end_, rest⟩ := there.skip (by omega) within some_
      obtain ⟨calls, runs, result, ordered, insides⟩ := ih _ (b + 1) d 1 rest (fun is => end_ (by omega)) le_rfl
        (fun _ _ => by rw [update_of_ne (by omega), at_]) (by omega)
      rw [runs]
      have is : Inside old new ⟨a, b, J (a - 1) + 1, J (b + 1) - 1⟩ := by
        have here := there.here
        refine ⟨start.1, ?_, within, ?_, ?_, ?_⟩
        all_goals dsimp only
        all_goals omega
      refine ⟨_, rfl, ?_, List.pairwise_cons.mpr ⟨fun r member => ?_, ordered⟩, fun r member => ?_⟩
      · have joins := apply_joined is
        rw [List.foldr_cons, result, Nat.add_sub_cancel]
        dsimp only at joins
        rw [at_, there.here, show ((d : Int) + 1 - 1).toNat = d by omega, show ((p' : Int) + 1).toNat - 1 = p' by omega] at joins
        rw [at_, there.here, joins, same]
      · obtain ⟨_, more, more'⟩ := insides r member
        unfold Before
        dsimp only
        omega
      · rcases List.mem_cons.mp member with rfl | member
        · have here := there.here
          refine ⟨is, fresh, ?_⟩
          dsimp only
          omega
        · obtain ⟨is', more, more'⟩ := insides r member
          exact ⟨is', by omega, by omega⟩

structure Behind (J : Nat → Int) (old new : List Str) (i0 q : Nat) : Prop where
  start : i0 ≤ old.length
  here : J (i0 + 1) = q + 1
  few : q ≤ new.length
  sentinel : J 0 = 0
  below : ∀ i, 1 ≤ i → i ≤ i0 → J i ≠ 0 → 1 ≤ J i ∧ J i < q + 1
  rising : ∀ i j, 1 ≤ i → i < j → j ≤ i0 → J i ≠ 0 → J j ≠ 0 → J i < J j
  same : ∀ i, 1 ≤ i → i ≤ i0 → J i ≠ 0 → old[i - 1]? = new[(J i).toNat - 1]?

theorem Behind.next (behind : Behind J old new (i0 + 1) q) (follows : J (i0 + 1) = q) (some_ : J (i0 + 1) ≠ 0) :
    1 ≤ q ∧ Behind J old new i0 (q - 1) ∧ joined old new i0 (q - 1) = joined old new (i0 + 1) q := by
  have positive := (behind.below (i0 + 1) (by omega) le_rfl some_).1
  have few := behind.few
  refine ⟨by omega, ?_, ?_⟩
  · constructor
    case start =>
      have := behind.start
      omega
    case here => omega
    case few => omega
    case sentinel => exact behind.sentinel
    case below =>
      intro i low high nonzero
      have := behind.rising i (i0 + 1) low (by omega) le_rfl nonzero some_
      have := behind.below i low (by omega) nonzero
      omega
    case rising => exact fun i j low less high => behind.rising i j low less (by omega)
    case same => exact fun i low high => behind.same i low (by omega)
  · have same := behind.same (i0 + 1) (by omega) le_rfl some_
    rw [follows, Int.toNat_natCast, Nat.add_sub_cancel] at same
    have line : new[q - 1]? = some new[q - 1] := List.getElem?_eq_getElem (by omega)
    have joins := joined_succ (same.trans line) line
    rw [Nat.sub_add_cancel (by omega)] at joins
    exact joins.symm

theorem same_down_done (behind : Behind J old new i0 q) :
    ∃ q', Behind J old new (same_down J i0) q' ∧ same_down J i0 ≤ i0 ∧ q' + i0 = q + same_down J i0 ∧
      joined old new (same_down J i0) q' = joined old new i0 q := by
  induction i0 generalizing q with
  | zero => exact ⟨q, behind, le_rfl, rfl, rfl⟩
  | succ i0 ih =>
    unfold same_down
    split
    case isTrue more =>
      have follows : J (i0 + 1) = q := by rw [more.1, behind.here, add_sub_cancel_right]
      obtain ⟨positive, next, joins⟩ := behind.next follows more.2
      obtain ⟨q', done, earlier, count, same⟩ := ih next
      exact ⟨q', done, by omega, by omega, same.trans joins⟩
    case isFalse => exact ⟨q, behind, le_rfl, rfl, rfl⟩

theorem same_down_more (behind : Behind J old new i0 q) (inside : 1 ≤ i0) (follows : J i0 = q) (some_ : J i0 ≠ 0) :
    same_down J i0 < i0 := by
  cases i0 with
  | zero => omega
  | succ i0 =>
    unfold same_down
    rw [if_pos ⟨by rw [follows, behind.here, add_sub_cancel_right], some_⟩]
    have next := (same_down_done (behind.next follows some_).2.1).choose_spec.2.1
    omega

theorem zeros_down_done (J : Nat → Int) (i1 : Nat) (start : 1 ≤ i1) :
    1 ≤ zeros_down J i1 ∧ zeros_down J i1 ≤ i1 ∧ (zeros_down J i1 = 1 ∨ J (zeros_down J i1 - 1) ≠ 0) := by
  induction i1 with
  | zero => omega
  | succ i1 ih =>
    unfold zeros_down
    split
    case isTrue more =>
      have ih := ih (by omega)
      exact ⟨ih.1, by omega, ih.2.2⟩
    case isFalse stop =>
      refine ⟨start, le_rfl, ?_⟩
      by_cases one : i1 + 1 = 1
      · exact .inl one
      · exact .inr fun zero => stop ⟨by omega, zero⟩

theorem Behind.skip (behind : Behind J old new i0 q) {i1 : Nat} (low : 1 ≤ i1) (earlier : i1 ≤ i0 + 1)
    (some_ : i1 = 1 ∨ J (i1 - 1) ≠ 0) :
    ∃ c : Nat, J (i1 - 1) = c ∧ c ≤ q ∧ (i1 = 1 → c = 0) ∧ (i1 ≠ 1 → c ≠ 0) ∧
      Behind (update J i1 (J (i1 - 1) + 1)) old new (i1 - 1) c := by
  have start := behind.start
  have few := behind.few
  have bounds : 0 ≤ J (i1 - 1) ∧ J (i1 - 1) ≤ q := by
    rcases some_ with rfl | nonzero
    · rw [Nat.sub_self, behind.sentinel]
      omega
    · by_cases one : i1 = 1
      · rw [one, Nat.sub_self, behind.sentinel]
        omega
      · have := behind.below (i1 - 1) (by omega) (by omega) nonzero
        omega
  obtain ⟨c, at_⟩ : ∃ c : Nat, J (i1 - 1) = c := ⟨(J (i1 - 1)).toNat, by omega⟩
  refine ⟨c, at_, by omega, ?_, ?_, ?_⟩
  · rintro rfl
    rw [Nat.sub_self, behind.sentinel] at at_
    omega
  · rintro more rfl
    exact some_.elim more (fun nonzero => nonzero at_)
  have kept : ∀ i, i ≤ i1 - 1 → update J i1 (J (i1 - 1) + 1) i = J i := fun i before => update_of_ne (by omega) ..
  constructor
  case start => omega
  case here => rw [Nat.sub_add_cancel low, update_self, at_]
  case few => omega
  case sentinel => rw [kept 0 (Nat.zero_le _), behind.sentinel]
  case below =>
    intro i low' high nonzero
    rw [kept i high] at nonzero ⊢
    have some_ := some_.resolve_left (by omega)
    have positive := (behind.below i low' (by omega) nonzero).1
    rcases Nat.lt_or_eq_of_le high with less | rfl
    · have := behind.rising i (i1 - 1) low' less (by omega) nonzero some_
      omega
    · omega
  case rising =>
    intro i j low' less high nonzero nonzero'
    rw [kept i (by omega)] at nonzero ⊢
    rw [kept j high] at nonzero' ⊢
    exact behind.rising i j low' less (by omega) nonzero nonzero'
  case same =>
    intro i low' high nonzero
    rw [kept i high] at nonzero ⊢
    exact behind.same i low' (by omega) nonzero

theorem descending_done (fuel : Nat) (J : Nat → Int) (i0 q e : Nat) (behind : Behind J old new i0 q)
    (last : i0 = 0 → q = 0) (first : e ≤ 1) (follows : e = 1 → 1 ≤ i0 → J i0 = q ∧ J i0 ≠ 0) (enough : i0 + 2 ≤ fuel + e) :
    ∃ calls, descending fuel J i0 = some calls ∧ calls.foldl (apply new) (joined old new i0 q) = new ∧
      calls.Pairwise (fun r r' => Before r' r) ∧ ∀ r ∈ calls, Inside old new r ∧ r.b + e ≤ i0 ∧ r.d + e ≤ q := by
  induction fuel generalizing J i0 q e with
  | zero => omega
  | succ fuel ih =>
    unfold descending
    split
    case isFalse beyond =>
      obtain rfl : i0 = 0 := by omega
      obtain rfl := last rfl
      exact ⟨[], rfl, joined_none, List.Pairwise.nil, nofun⟩
    case isTrue inside =>
      obtain ⟨q', there, earlier, count, same⟩ := same_down_done behind
      have fresh : same_down J i0 + e ≤ i0 := by
        rcases Nat.lt_or_eq_of_le first with zero | one
        · omega
        · have := same_down_more behind inside (follows one inside).1 (follows one inside).2
          omega
      generalize same_down J i0 = b at *
      have start := there.start
      have few := there.few
      obtain ⟨low, upto, some_⟩ := zeros_down_done J (b + 1) (by omega)
      dsimp only
      generalize zeros_down J (b + 1) = a at *
      obtain ⟨c, at_, below, end_, more_, rest⟩ := there.skip low upto some_
      obtain ⟨calls, runs, result, ordered, insides⟩ := ih _ (a - 1) c 1 rest (fun is => end_ (by omega)) le_rfl
        (fun _ more => by
          rw [update_of_ne (by omega), at_]
          have := more_ (by omega)
          omega) (by omega)
      rw [runs]
      have here := there.here
      have is : Inside old new ⟨a, b, J (a - 1) + 1, J (b + 1) - 1⟩ := by
        refine ⟨low, upto, start, ?_, ?_, ?_⟩
        all_goals dsimp only
        all_goals omega
      refine ⟨_, rfl, ?_, List.pairwise_cons.mpr ⟨fun r member => ?_, ordered⟩, fun r member => ?_⟩
      · have joins := apply_joined is
        dsimp only at joins
        rw [at_, here, show ((q' : Int) + 1 - 1).toNat = q' by omega, show ((c : Int) + 1).toNat - 1 = c by omega, same] at joins
        rw [List.foldl_cons, at_, here, joins, result]
      · obtain ⟨_, more, more'⟩ := insides r member
        unfold Before
        dsimp only
        omega
      · rcases List.mem_cons.mp member with rfl | member
        · refine ⟨is, fresh, ?_⟩
          dsimp only
          omega
        · obtain ⟨is', more, more'⟩ := insides r member
          exact ⟨is', by omega, by omega⟩

def Ordered (opt : Opt) (calls : List Change) : Prop :=
  if opt = .D_EDIT then calls.Pairwise (fun r r' => Before r' r) else calls.Pairwise Before

theorem edited_none (opt : Opt) (new : List Str) :
    edited opt new [] [⟨1, 0, 1, new.length⟩] = new ∧ Ordered opt [⟨1, 0, 1, new.length⟩] ∧ Inside [] new ⟨1, 0, 1, new.length⟩ := by
  have is : Inside [] new ⟨1, 0, 1, new.length⟩ := by
    refine ⟨le_rfl, le_rfl, le_rfl, le_rfl, ?_, le_rfl⟩
    dsimp only
    omega
  have joins := apply_joined is
  dsimp only at joins
  rw [Int.toNat_natCast, joined_all (Nat.zero_le _) le_rfl] at joins
  have result : apply new [] ⟨1, 0, 1, new.length⟩ = new := joins.trans joined_none
  unfold edited Ordered
  refine ⟨?_, ?_, is⟩
  · split
    · exact result
    · exact result
  · split
    · exact List.pairwise_singleton ..
    · exact List.pairwise_singleton ..

theorem matching_behind (matching : Matching J old new) :
    Behind (update (update J 0 0) (old.length + 1) ((new.length : Int) + 1)) old new old.length new.length := by
  have kept : ∀ i, 1 ≤ i → i ≤ old.length → update (update J 0 0) (old.length + 1) ((new.length : Int) + 1) i = J i := by
    intro i low high
    rw [update_of_ne (by omega), update_of_ne (by omega)]
  constructor
  case start => exact le_rfl
  case here => exact update_self ..
  case few => exact le_rfl
  case sentinel => rw [update_of_ne (by omega), update_self]
  case below =>
    intro i low high some_
    rw [kept i low high] at some_ ⊢
    have := matching.inside i low high some_
    omega
  case rising =>
    intro i j low less high some_ some_'
    rw [kept i low (by omega)] at some_ ⊢
    rw [kept j (by omega) high] at some_' ⊢
    exact matching.rising i j low less high some_ some_'
  case same =>
    intro i low high some_
    rw [kept i low high] at some_ ⊢
    exact matching.same i low high some_

theorem output_done (matching : Matching J old new) (opt : Opt) :
    ∃ calls, output opt old.length new.length J = some calls ∧ edited opt new old calls = new ∧ Ordered opt calls ∧
      ∀ r ∈ calls, Inside old new r := by
  unfold output
  dsimp only
  obtain ⟨J', def_⟩ : ∃ J', update (update J 0 0) (old.length + 1) ((new.length : Int) + 1) = J' := ⟨_, rfl⟩
  rw [def_]
  have kept : ∀ i, 1 ≤ i → i ≤ old.length → J' i = J i := by
    intro i low high
    rw [← def_, update_of_ne (by omega), update_of_ne (by omega)]
  have first : J' 0 = 0 := by rw [← def_, update_of_ne (by omega), update_self]
  have last : J' (old.length + 1) = new.length + 1 := by rw [← def_, update_self]
  by_cases none_ : old.length = 0
  · obtain rfl := List.length_eq_zero_iff.mp none_
    obtain ⟨result, ordered, inside⟩ := edited_none opt new
    refine ⟨[⟨1, 0, 1, new.length⟩], ?_, result, ordered, ?_⟩
    · rw [if_pos none_]
      split
      · rfl
      · rfl
    · intro r member
      rw [List.mem_singleton.mp member]
      exact inside
  rw [if_neg none_]
  unfold edited Ordered
  split
  case isTrue normal =>
    have ahead : Ahead J' old new 1 0 := by
      constructor
      case start => omega
      case here => exact first
      case few => omega
      case sentinel => exact last
      case above =>
        intro i low high some_
        rcases Nat.lt_or_eq_of_le high with inside | rfl
        · rw [kept i low (by omega)] at some_ ⊢
          have := matching.inside i low (by omega) some_
          omega
        · omega
      case rising =>
        intro i j low less high some_ some_'
        rw [kept i low (by omega)] at some_ ⊢
        rcases Nat.lt_or_eq_of_le high with inside | rfl
        · rw [kept j (by omega) (by omega)] at some_' ⊢
          exact matching.rising i j low less (by omega) some_ some_'
        · have := matching.inside i low (by omega) some_
          omega
      case same =>
        intro i low high some_
        rw [kept i low high] at some_ ⊢
        exact matching.same i low high some_
    obtain ⟨calls, runs, result, ordered, insides⟩ := ascending_done (old.length + 2) J' 1 0 0 ahead (by omega) (by omega) nofun (by omega)
    refine ⟨calls, ?_, ?_, ?_, fun r member => (insides r member).1⟩
    · simp only [runs, List.append_nil, Option.map_eq_map, Option.map_some]
    · rw [result]
      exact joined_none
    · exact ordered
  case isFalse edit =>
    have edit := not_not.mp edit
    have behind : Behind J' old new old.length new.length := def_ ▸ matching_behind matching
    obtain ⟨calls, runs, result, ordered, insides⟩ :=
      descending_done (old.length + 2) J' old.length new.length 0 behind (by omega) (by omega) nofun (by omega)
    rw [joined_all le_rfl le_rfl] at result
    refine ⟨calls, ?_, ?_, ?_, fun r member => (insides r member).1⟩
    · simp only [runs, List.append_nil, Option.map_eq_map, Option.map_some]
    · rw [if_pos edit, result]
    · rwa [if_pos edit]

theorem unravelled_matching {f g : Str} (text : Text f) (text' : Text g) (hashed : ∀ l ∈ lines f, (readhash l).1 ≠ 0)
    (hashed' : ∀ l ∈ lines g, (readhash l).1 ≠ 0) (memory : Memory) :
    (prepare f).length = (lines f).length ∧ (prepare g).length = (lines g).length ∧
    ∃ J, unravelled memory (prepare f) (prepare g) = some J ∧ Increasing J (lines f).length (lines g).length ∧
      Matching (check J (prepare f).length f g) (lines f) (lines g) := by
  have are := lines_are text
  have are' := lines_are text'
  have values := prepare_lines are hashed
  have values' := prepare_lines are' hashed'
  rw [flatten_lines] at values values'
  have nonzero : ∀ ls : List Str, (∀ l ∈ ls, (readhash l).1 ≠ 0) → ∀ v ∈ ls.map fun l => (readhash l).1, v ≠ 0 := by
    intro ls hashed v member
    obtain ⟨l, line, rfl⟩ := List.mem_map.mp member
    exact hashed l line
  have rows : (prepare f).length = (lines f).length := by rw [values, List.length_map]
  have cols : (prepare g).length = (lines g).length := by rw [values', List.length_map]
  obtain ⟨J, runs, increasing, _⟩ := unravelled_done memory (values ▸ nonzero _ hashed) (values' ▸ nonzero _ hashed')
  rw [rows, cols] at increasing
  have matching := check_done are are' increasing
  rw [flatten_lines, flatten_lines] at matching
  exact ⟨rows, cols, J, runs, increasing, rows ▸ matching⟩

theorem notsame_done {f g : Str} (text : Text f) (text' : Text g) (hashed : ∀ l ∈ lines f, (readhash l).1 ≠ 0)
    (hashed' : ∀ l ∈ lines g, (readhash l).1 ≠ 0) (memory : Memory) (opt : Opt) :
    ∃ calls, notsame memory opt f g = some calls ∧ edited opt (lines g) (lines f) calls = lines g ∧ Ordered opt calls ∧
      ∀ r ∈ calls, Inside (lines f) (lines g) r := by
  obtain ⟨rows, cols, J, runs, -, matching⟩ := unravelled_matching text text' hashed hashed' memory
  obtain ⟨calls, outputs, result⟩ := output_done matching opt
  refine ⟨calls, ?_, result⟩
  rw [notsame_eq, runs, Option.bind_some, ← outputs, rows, cols]

theorem isbinary_text {f : Str} (text : Text f) : isbinary (f.take BUFSIZ) = false := by
  rw [isbinary, List.contains_eq_mem, decide_eq_false_iff_not]
  exact fun member => text.2 (List.mem_of_mem_take member)

theorem edited_same (opt : Opt) (calls : List Change) (insides : ∀ r ∈ calls, Inside old new r)
    (none_ : ∀ r ∈ calls, ¬ r.Effective) (text : List Str) : edited opt new text calls = text := by
  have same : ∀ r ∈ calls, ∀ text, apply new text r = text := by
    intro r member text
    obtain ⟨low, before, _, low', before', _⟩ := insides r member
    have empty := not_not.mp (none_ r member)
    have here : r.a - 1 = r.b := by omega
    have nothing : segment new r.c.toNat r.d.toNat = [] := by
      apply List.drop_of_length_le
      rw [List.length_take]
      omega
    rw [apply, splice, nothing, here, List.append_nil, List.take_append_drop]
  clear insides none_
  unfold edited
  split
  · induction calls with
    | nil => rfl
    | cons r calls ih =>
      rw [List.foldl_cons, same r List.mem_cons_self]
      exact ih (fun r member => same r (List.mem_cons_of_mem _ member))
  · induction calls with
    | nil => rfl
    | cons r calls ih =>
      rw [List.foldr_cons, ih (fun r member => same r (List.mem_cons_of_mem _ member))]
      exact same r List.mem_cons_self text

/-- The calls of `change` edit the first file into the second one. -/
theorem diff_edits {f g : Str} (text : Text f) (text' : Text g) (hashed : ∀ l ∈ lines f, (readhash l).1 ≠ 0)
    (hashed' : ∀ l ∈ lines g, (readhash l).1 ≠ 0) (memory : Memory) (opt : Opt) :
    ∃ calls, diff memory opt f g = some calls ∧ (edited opt (lines g) (lines f) calls).flatten = g ∧ Ordered opt calls ∧
      (∀ r ∈ calls, Inside (lines f) (lines g) r) ∧ ((∀ r ∈ calls, ¬ r.Effective) ↔ f = g) := by
  unfold diff
  by_cases equal : f = g
  · subst equal
    rw [if_pos rfl]
    refine ⟨[], rfl, ?_, ?_, nofun, fun _ => rfl, nofun⟩
    · unfold edited
      split
      · exact flatten_lines f
      · exact flatten_lines f
    · unfold Ordered
      split
      · exact List.Pairwise.nil
      · exact List.Pairwise.nil
  · obtain ⟨calls, runs, result, ordered, insides⟩ := notsame_done text text' hashed hashed' memory opt
    rw [if_neg equal, isbinary_text text, isbinary_text text']
    refine ⟨calls, runs, by rw [result, flatten_lines], ordered, insides, fun none_ => ?_, fun same => absurd same equal⟩
    have same := edited_same opt calls insides none_ (lines f)
    rw [← flatten_lines f, ← same, result, flatten_lines]

/-- A line is changed and one is added. -/
theorem diff_edits_two : ∃ calls, diff ⟨fun _ => 7, fun _ => 7, fun _ => ⟨7, 7, 7⟩⟩ .D_EDIT [97, 10, 98, 10] [97, 10, 99, 10, 100, 10] = some calls ∧
    (edited .D_EDIT (lines [97, 10, 99, 10, 100, 10]) (lines [97, 10, 98, 10]) calls).flatten = [97, 10, 99, 10, 100, 10] ∧
    Ordered .D_EDIT calls ∧ (∀ r ∈ calls, Inside (lines [97, 10, 98, 10]) (lines [97, 10, 99, 10, 100, 10]) r) ∧
    ((∀ r ∈ calls, ¬ r.Effective) ↔ ([97, 10, 98, 10] : Str) = [97, 10, 99, 10, 100, 10]) := by
  apply diff_edits
  · exact ⟨fun last is => (Option.some.inj is).symm, by decide⟩
  · exact ⟨fun last is => (Option.some.inj is).symm, by decide⟩
  · decide
  · decide

end Svr4.Proofs.DiffOutput
