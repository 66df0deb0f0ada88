import Svr4.Proofs.DiffStone

/-! Text as lines, and what `check` leaves of the matches: those whose lines are the same. -/

namespace Svr4.Proofs.DiffCheck
open Function Diff DiffStone

def Text (f : Str) : Prop := (∀ last, f.getLast? = some last → last = newline) ∧ 0 ∉ f

def lines : Str → List Str
  | [] => []
  | t :: f => if t = newline then [t] :: lines f else (t :: (lines f).headD []) :: (lines f).tail

def IsLine (l : Str) : Prop := ∃ body, l = body ++ [newline] ∧ newline ∉ body ∧ 0 ∉ body

variable {l l' f g : Str} {old new : List Str} {J : Nat → Int}

theorem headD_tail (ls : List Str) : (ls.headD [] ++ ls.tail.flatten) = ls.flatten := by cases ls <;> rfl

theorem flatten_lines (f : Str) : (lines f).flatten = f := by
  induction f with
  | nil => rfl
  | cons t f ih =>
    unfold lines
    split
    · rw [List.flatten_cons, ih]
      rfl
    · rw [List.flatten_cons, List.cons_append, headD_tail, ih]

theorem lines_are (text : Text f) : ∀ l ∈ lines f, IsLine l := by
  obtain ⟨ends, clean⟩ := text
  induction f with
  | nil => nofun
  | cons t f ih =>
    obtain ⟨real, clean'⟩ := not_or.mp (mt List.mem_cons.mpr clean)
    have ends' : ∀ last, f.getLast? = some last → last = newline := by
      intro last is
      apply ends last
      rw [List.getLast?_cons, is]
      rfl
    have ih := ih ends' clean'
    unfold lines
    intro l member
    split at member
    case isTrue here =>
      rcases List.mem_cons.mp member with rfl | later
      · exact ⟨[], by rw [here]; rfl, List.not_mem_nil, List.not_mem_nil⟩
      · exact ih l later
    case isFalse other =>
      cases rest : lines f with
      | nil =>
        have none_ : f = [] := by rw [← flatten_lines f, rest]; rfl
        subst none_
        exact absurd (ends t rfl) other
      | cons first more =>
        rw [rest] at member ih
        rcases List.mem_cons.mp member with rfl | later
        · obtain ⟨body, rfl, whole, clean⟩ := ih first List.mem_cons_self
          exact ⟨t :: body, rfl, by simp [whole, Ne.symm other], by simp [clean, real]⟩
        · exact ih l (List.mem_cons_of_mem _ later)

theorem sums_line (is : IsLine l) (sum shift : UInt32) (f : Str) : sums sum shift (l ++ f) = ((sums sum shift l).1, f) := by
  obtain ⟨body, rfl, whole, -⟩ := is
  induction body generalizing sum shift with
  | nil => rfl
  | cons t body ih =>
    obtain ⟨other, whole⟩ := not_or.mp (mt List.mem_cons.mpr whole)
    simp only [List.cons_append, sums, if_neg (Ne.symm other)]
    exact ih _ _ whole

theorem readhash_line (is : IsLine l) (f : Str) : readhash (l ++ f) = ((readhash l).1, f) := by
  rw [readhash, sums_line is, readhash]

theorem prepare_lines {ls : List Str} (are : ∀ l ∈ ls, IsLine l) (hashed : ∀ l ∈ ls, (readhash l).1 ≠ 0) :
    prepare ls.flatten = ls.map fun l => (readhash l).1 := by
  induction ls with
  | nil =>
    unfold prepare
    rfl
  | cons l ls ih =>
    have hash := readhash_line (are l List.mem_cons_self) ls.flatten
    rw [List.flatten_cons, prepare, hash, if_neg (hashed l List.mem_cons_self), List.map_cons,
      ih (fun l later => are l (List.mem_cons_of_mem _ later)) (fun l later => hashed l (List.mem_cons_of_mem _ later))]

theorem skipline_line (is : IsLine l) (f : Str) : skipline (l ++ f) = f := by
  obtain ⟨body, rfl, whole, clean⟩ := is
  induction body with
  | nil => rfl
  | cons t body ih =>
    obtain ⟨other, whole⟩ := not_or.mp (mt List.mem_cons.mpr whole)
    obtain ⟨real, clean⟩ := not_or.mp (mt List.mem_cons.mpr clean)
    simp only [List.cons_append, skipline, if_neg (Ne.symm real), if_pos (Ne.symm other)]
    exact ih whole clean

theorem skiplines (are : ∀ l ∈ new, IsLine l) (n : Nat) : skipline^[n] new.flatten = (new.drop n).flatten := by
  induction n generalizing new with
  | zero => rfl
  | succ n ih =>
    cases new with
    | nil =>
      have rest := ih are
      rw [List.drop_nil] at rest ⊢
      exact rest
    | cons l new =>
      rw [iterate_succ_apply, List.flatten_cons, skipline_line (are l List.mem_cons_self), List.drop_succ_cons]
      exact ih (fun l later => are l (List.mem_cons_of_mem _ later))

theorem skip_other {t : UInt8} (is : IsLine (t :: l)) (f : Str) : (if t ≠ newline then skipline (l ++ f) else l ++ f) = f := by
  have skips := skipline_line is f
  obtain ⟨body, eq, whole, clean⟩ := is
  by_cases ends : t = newline
  · cases body with
    | nil =>
      cases eq
      rfl
    | cons c body =>
      cases eq
      exact absurd List.mem_cons_self (ends ▸ whole)
  · have real : t ≠ 0 := by
      rintro rfl
      cases body with
      | nil => exact ends (List.cons.inj eq).1
      | cons c body =>
        cases eq
        exact clean List.mem_cons_self
    rw [List.cons_append, skipline, if_neg real] at skips
    rwa [if_pos ends] at skips ⊢

theorem isLine_tail {t : UInt8} (is : IsLine (t :: l)) (other : t ≠ newline) : IsLine l := by
  obtain ⟨body, eq, whole, clean⟩ := is
  cases body with
  | nil => exact absurd (List.cons.inj eq).1 other
  | cons c body =>
    cases eq
    exact ⟨body, rfl, fun member => whole (List.mem_cons_of_mem _ member), fun member => clean (List.mem_cons_of_mem _ member)⟩

theorem isLine_newline (is : IsLine (newline :: l)) : l = [] := by
  obtain ⟨body, eq, whole, _⟩ := is
  cases body with
  | nil => exact (List.cons.inj eq).2
  | cons c body =>
    cases eq
    exact absurd List.mem_cons_self whole

theorem same_line_lines (is : IsLine l) (is' : IsLine l') (f g : Str) :
    same_line (l ++ f) (l' ++ g) = (decide (l = l'), f, g) := by
  induction l generalizing l' with
  | nil =>
    obtain ⟨body, eq, _⟩ := is
    exact absurd eq (by simp)
  | cons c l ih =>
    cases l' with
    | nil =>
      obtain ⟨body, eq, _⟩ := is'
      exact absurd eq (by simp)
    | cons d l' =>
      rw [List.cons_append, List.cons_append, same_line]
      split
      case isTrue differ =>
        rw [skip_other is, skip_other is', decide_eq_false]
        exact fun same => differ (List.cons.inj same).1
      case isFalse same =>
        obtain rfl := not_not.mp same
        split
        case isTrue ends =>
          subst ends
          obtain rfl := isLine_newline is
          obtain rfl := isLine_newline is'
          rfl
        case isFalse other =>
          rw [ih (isLine_tail is other) (isLine_tail is' other)]
          simp only [List.cons.injEq, true_and]

structure Matching (J : Nat → Int) (old new : List Str) : Prop extends Increasing J old.length new.length where
  same : ∀ i, 1 ≤ i → i ≤ old.length → J i ≠ 0 → old[i - 1]? = new[(J i).toNat - 1]?

structure Checking (s : Check) (J : Nat → Int) (old new : List Str) (i : Nat) : Prop where
  f_eq : s.f = (old.drop i).flatten
  j_pos : 1 ≤ s.j
  g_eq : s.g = (new.drop (s.j.toNat - 1)).flatten
  ahead : ∀ t, i < t → s.J t = J t
  unread : ∀ t, i < t → t ≤ old.length → J t ≠ 0 → s.j ≤ J t
  kept : ∀ t, t ≤ i → s.J t = 0 ∨ s.J t = J t
  same : ∀ t, 1 ≤ t → t ≤ i → s.J t ≠ 0 → old[t - 1]? = new[(s.J t).toNat - 1]?

theorem check_line_done (are : ∀ l ∈ old, IsLine l) (are' : ∀ l ∈ new, IsLine l) (increasing : Increasing J old.length new.length)
    {s : Check} {i : Nat} (checking : Checking s J old new i) (more : i < old.length) :
    Checking (check_line s (i + 1)) J old new (i + 1) := by
  have line := checking.f_eq
  rw [List.drop_eq_getElem_cons more, List.flatten_cons] at line
  have is := are _ (List.getElem_mem more)
  unfold check_line
  split
  case isTrue none_ =>
    refine { checking with f_eq := ?_, ahead := fun t later => ?_, unread := fun t later => ?_, kept := fun t upto => ?_, same := fun t low upto => ?_ }
    · change skipline s.f = _
      rw [line, skipline_line is]
    · exact checking.ahead t (by omega)
    · exact checking.unread t (by omega)
    · rcases Nat.lt_or_eq_of_le upto with earlier | rfl
      · exact checking.kept t (by omega)
      · exact .inl none_
    · rcases Nat.lt_or_eq_of_le upto with earlier | rfl
      · exact checking.same t low (by omega)
      · exact fun some_ => absurd none_ some_
  case isFalse some_ =>
    rw [checking.ahead (i + 1) (by omega)] at some_ ⊢
    have inside := increasing.inside (i + 1) (by omega) more some_
    have reached := checking.unread (i + 1) (by omega) more some_
    have j_pos := checking.j_pos
    obtain ⟨n, skipped⟩ : ∃ n : Nat, (J (i + 1) - s.j).toNat = n := ⟨_, rfl⟩
    obtain ⟨k, at_⟩ : ∃ k : Nat, J (i + 1) = (k : Int) + 1 := ⟨(J (i + 1) - 1).toNat, by omega⟩
    have within : k < new.length := by omega
    have rest : skipline^[n] s.g = new[k] ++ (new.drop (k + 1)).flatten := by
      rw [checking.g_eq, skiplines (fun l member => are' l (List.mem_of_mem_drop member)), List.drop_drop]
      rw [show s.j.toNat - 1 + n = k by omega, List.drop_eq_getElem_cons within, List.flatten_cons]
    have is' := are' _ (List.getElem_mem within)
    dsimp only
    rw [skipped, line, rest, same_line_lines is is']
    dsimp only
    have next : (s.j + n + 1).toNat - 1 = k + 1 := by omega
    constructor
    case f_eq => rfl
    case j_pos =>
      change 1 ≤ s.j + n + 1
      omega
    case g_eq =>
      change _ = (new.drop ((s.j + n + 1).toNat - 1)).flatten
      rw [next]
    case ahead =>
      intro t later
      dsimp only
      split
      · exact checking.ahead t (by omega)
      · rw [update_of_ne (by omega)]
        exact checking.ahead t (by omega)
    case unread =>
      intro t later low some_'
      have := increasing.rising (i + 1) t (by omega) later low some_ some_'
      change s.j + n + 1 ≤ J t
      omega
    case kept =>
      intro t upto
      dsimp only
      rcases Nat.lt_or_eq_of_le upto with earlier | rfl
      · split
        · exact checking.kept t (by omega)
        · rw [update_of_ne (by omega)]
          exact checking.kept t (by omega)
      · split
        · exact .inr (checking.ahead _ (by omega))
        · exact .inl (update_self ..)
    case same =>
      intro t low upto
      dsimp only
      rcases Nat.lt_or_eq_of_le upto with earlier | rfl
      · split
        · exact checking.same t low (by omega)
        · rw [update_of_ne (by omega)]
          exact checking.same t low (by omega)
      · split
        case isTrue eq =>
          intro _
          rw [checking.ahead _ (by omega), at_, show ((k : Int) + 1).toNat - 1 = k by omega]
          rw [Nat.add_sub_cancel, List.getElem?_eq_getElem more, List.getElem?_eq_getElem within, of_decide_eq_true eq]
        case isFalse => exact fun some_ => absurd (update_self ..) some_

theorem check_done (are : ∀ l ∈ old, IsLine l) (are' : ∀ l ∈ new, IsLine l) (increasing : Increasing J old.length new.length) :
    Matching (check J old.length old.flatten new.flatten) old new := by
  have runs : ∀ i ≤ old.length,
      Checking ((List.range' 1 i).foldl check_line ⟨J, 1, old.flatten, new.flatten⟩) J old new i := by
    intro i few
    induction i with
    | zero =>
      refine ⟨rfl, le_rfl, rfl, fun _ _ => rfl, fun t later upto some_ => ?_, fun _ _ => .inr rfl, fun t low upto => by omega⟩
      exact (increasing.inside t (by omega) upto some_).1
    | succ i ih =>
      rw [List.range'_concat, List.foldl_append, List.foldl_cons, List.foldl_nil, Nat.one_mul, Nat.add_comm 1 i]
      exact check_line_done are are' increasing (ih (by omega)) (by omega)
  have done := runs old.length le_rfl
  unfold check
  refine ⟨⟨?_, ?_⟩, done.same⟩
  case refine_1 =>
    intro i low high some_
    have kept := (done.kept i high).resolve_left some_
    rw [kept] at some_ ⊢
    exact increasing.inside i low high some_
  case refine_2 =>
    intro i j low less high some_ some_'
    have kept := (done.kept i (by omega)).resolve_left some_
    have kept' := (done.kept j high).resolve_left some_'
    rw [kept] at some_ ⊢
    rw [kept'] at some_' ⊢
    exact increasing.rising i j low less high some_ some_'

end Svr4.Proofs.DiffCheck
