import Svr4.Library.Subsequence
import Svr4.Proofs.DiffSort

/-! The candidates of `stone`: each one continues a candidate with a smaller line in both
files, so that the chain which `unravel` follows matches lines in ascending order. No chain of
matches is longer than the list of candidates, and none of its length ends further to the left. -/

namespace Svr4.Proofs.DiffStone
open Function Diff DiffSort Subsequence

variable {l' q x : Nat} {a b : Nat → Int}

variable {s : Stone} {i j l m n oldl oldc pref pred k suff len0 len1 : Nat} {y : Int} {M P P' : Nat → Nat → Prop}

theorem prune_pref_le (file0 file1 : Nat → Line) (start : pref ≤ len0) (start' : pref ≤ len1) :
    prune_pref file0 file1 len0 len1 pref ≤ len0 ∧ prune_pref file0 file1 len0 len1 pref ≤ len1 := by
  fun_induction prune_pref file0 file1 len0 len1 pref with
  | case1 pref same ih => exact ih (by omega) (by omega)
  | case2 => exact ⟨start, start'⟩

theorem prune_suff_le (file0 file1 : Nat → Line) (start : suff ≤ len0 - pref) (start' : suff ≤ len1 - pref) :
    prune_suff file0 file1 len0 len1 pref suff ≤ len0 - pref ∧ prune_suff file0 file1 len0 len1 pref suff ≤ len1 - pref := by
  fun_induction prune_suff file0 file1 len0 len1 pref suff with
  | case1 suff same ih => exact ih (by omega) (by omega)
  | case2 => exact ⟨start, start'⟩

structure Continues (clist : Nat → Cand) (i m q : Nat) : Prop where
  x_inside : 1 ≤ (clist q).x ∧ (clist q).x ≤ i
  y_inside : 1 ≤ (clist q).y ∧ (clist q).y ≤ m
  older : (clist q).pred < q
  x_less : (clist (clist q).pred).x < (clist q).x
  y_less : (clist (clist q).pred).y < (clist q).y

structure Grown (s : Stone) (i m : Nat) : Prop where
  root : (s.clist (s.c 0)).x = 0 ∧ (s.clist (s.c 0)).y = 0
  cands : ∀ q, q < s.clen → (s.clist q).x = 0 ∧ (s.clist q).y = 0 ∨ Continues s.clist i m q
  listed : ∀ l, l ≤ s.k → s.c l < s.clen
  rising : ∀ l l', l < l' → l' ≤ s.k → (s.clist (s.c l)).y < (s.clist (s.c l')).y

theorem grown_start (memory : Memory) : Grown (stone_start memory) 0 m := by
  have zero : (stone_start memory).clist 0 = ⟨0, 0, 0⟩ := rfl
  constructor
  case root => exact ⟨rfl, rfl⟩
  case cands =>
    intro q new
    obtain rfl : q = 0 := Nat.lt_one_iff.mp new
    exact .inl ⟨rfl, rfl⟩
  case listed =>
    intro l low
    obtain rfl : l = 0 := Nat.le_zero.mp low
    exact Nat.one_pos
  case rising =>
    intro l l' less low
    have : l' ≤ 0 := low
    omega

theorem Grown.mono (grown : Grown s i m) (later : i ≤ j) : Grown s j m := by
  refine { grown with cands := fun q old => ?_ }
  apply (grown.cands q old).imp_right
  intro continues
  exact { continues with x_inside := ⟨continues.x_inside.1, continues.x_inside.2.trans later⟩ }

theorem Grown.y_le (grown : Grown s i m) {l : Nat} (upto : l ≤ l') (listed : l' ≤ s.k) :
    (s.clist (s.c l)).y ≤ (s.clist (s.c l')).y := by
  rcases Nat.lt_or_eq_of_le upto with less | rfl
  · exact (grown.rising l l' less listed).le
  · exact le_rfl

theorem Grown.x_le (grown : Grown s i m) (old : q < s.clen) : (s.clist q).x ≤ i := by
  rcases grown.cands q old with ⟨x, _⟩ | continues
  · omega
  · exact continues.x_inside.2

structure Place (s : Stone) (y : Int) (l : Nat) : Prop where
  some_ : 1 ≤ l
  few : l ≤ s.k + 1
  before : ∀ l', l' < l → (s.clist (s.c l')).y < y
  here : l ≤ s.k → y ≤ (s.clist (s.c l)).y

theorem narrow_done (grown : Grown s i m) (p q : Nat) (less : p < q) (few : q ≤ s.k + 1)
    (low : (s.clist (s.c p)).y < y) (high : q ≤ s.k → y < (s.clist (s.c q)).y) :
    Place s y (narrow s.clist s.c y p q) := by
  fun_induction narrow s.clist s.c y p q with
  | case1 p q more above ih => exact ih more (by omega) low (fun _ => above)
  | case2 p q more _ below ih => exact ih (by omega) few below high
  | case3 p q more above below =>
    have same : (s.clist (s.c ((p + q) / 2))).y = y := by omega
    exact ⟨by omega, by omega, fun l' before => same ▸ grown.rising l' _ before (by omega), fun _ => same.ge⟩
  | case4 p q met =>
    obtain rfl : q = p + 1 := by omega
    have place : (p + (p + 1)) / 2 + 1 = p + 1 := by omega
    rw [place]
    refine ⟨by omega, few, fun l' before => ?_, fun listed => (high listed).le⟩
    exact (grown.y_le (by omega) (by omega)).trans_lt low

theorem search_done (grown : Grown s i m) (positive : 0 < y) : Place s y (search s.clist s.c s.k y) := by
  unfold search
  split
  case isTrue last =>
    exact ⟨by omega, le_rfl, fun l' before => (grown.y_le (by omega) le_rfl).trans_lt last, fun listed => by omega⟩
  case isFalse => exact narrow_done grown 0 (s.k + 1) (by omega) le_rfl (by rw [grown.root.2]; exact positive) (fun listed => by omega)

def pushed (s : Stone) (i : Nat) (y : Int) (pred l k : Nat) : Stone :=
  { (newcand s i y pred).1 with c := update s.c l s.clen, k := k }

theorem pushed_kept (old : q < s.clen) : (pushed s i y pred l k).clist q = s.clist q := update_of_ne old.ne ..

theorem pushed_other (grown : Grown s i m) (listed : l' ≤ s.k) (other : l' ≠ l) :
    (pushed s i y pred l k).clist ((pushed s i y pred l k).c l') = s.clist (s.c l') := by
  have place : (pushed s i y pred l k).c l' = s.c l' := update_of_ne other ..
  rw [place, pushed_kept (grown.listed l' listed)]

theorem pushed_new : (pushed s i y pred l k).clist ((pushed s i y pred l k).c l) = ⟨i, y, pred⟩ := by
  have place : (pushed s i y pred l k).c l = s.clen := update_self ..
  rw [place]
  exact update_self ..

theorem Grown.push (grown : Grown s i m) (place : Place s y l) (behind : l ≤ s.k → y < (s.clist (s.c l)).y)
    (x_inside : 1 ≤ i) (y_inside : 1 ≤ y ∧ y ≤ m) (old : pred < s.clen) (x_less : (s.clist pred).x < i)
    (y_less : (s.clist pred).y < y) (count : k = s.k ∧ l ≤ s.k ∨ k = s.k + 1 ∧ l = s.k + 1) :
    Grown (pushed s i y pred l k) i m := by
  have some_ := place.some_
  have listed : ∀ l', l' ≤ k → l' ≠ l → l' ≤ s.k := by omega
  constructor
  case root =>
    rw [pushed_other grown (Nat.zero_le _) (by omega)]
    exact grown.root
  case cands =>
    intro q new
    rcases Nat.lt_or_eq_of_le (Nat.le_of_lt_succ new) with earlier | rfl
    · rw [pushed_kept earlier]
      apply (grown.cands q earlier).imp_right
      intro continues
      have older := continues.older
      constructor
      all_goals rw [pushed_kept earlier]
      · exact continues.x_inside
      · exact continues.y_inside
      · exact older
      · rw [pushed_kept (older.trans earlier)]
        exact continues.x_less
      · rw [pushed_kept (older.trans earlier)]
        exact continues.y_less
    · right
      have is : (pushed s i y pred l k).clist s.clen = ⟨i, y, pred⟩ := update_self ..
      constructor
      all_goals rw [is]
      · exact ⟨x_inside, le_rfl⟩
      · exact y_inside
      · exact old
      · rw [pushed_kept old]
        exact x_less
      · rw [pushed_kept old]
        exact y_less
  case listed =>
    intro l' low
    change update s.c l s.clen l' < s.clen + 1
    by_cases here : l' = l
    · rw [here, update_self]
      exact Nat.lt_succ_self _
    · rw [update_of_ne here]
      exact (grown.listed l' (listed l' low here)).trans (Nat.lt_succ_self _)
  case rising =>
    intro l1 l2 less low
    have low : l2 ≤ k := low
    by_cases left : l1 = l
    · subst left
      rw [pushed_new, pushed_other grown (listed l2 low (by omega)) (by omega)]
      exact (behind (by omega)).trans (grown.rising l1 l2 less (listed l2 low (by omega)))
    · rw [pushed_other grown (listed l1 (by omega) left) left]
      by_cases right : l2 = l
      · subst right
        rw [pushed_new]
        exact place.before l1 less
      · rw [pushed_other grown (listed l2 low right) right]
        exact grown.rising l1 l2 less (listed l2 low right)

structure Turning (s : Stone) (i oldl oldc : Nat) (y : Int) : Prop where
  old : oldc < s.clen ∧ (s.clist oldc).x < i
  behind : ∀ l, oldl < l → l ≤ s.k → (s.clist (s.c l)).x < i
  listed : oldl ≤ s.k
  less : (s.clist (s.c oldl)).y < y

theorem Turning.mono (turning : Turning s i oldl oldc y) {y' : Int} (more : y ≤ y') : Turning s i oldl oldc y' :=
  { turning with less := turning.less.trans_le more }

structure Search (s : Stone) (oldl oldc : Nat) (y : Int) (l pred : Nat) : Prop extends Place s y l where
  old : (s.clist oldc).y < y
  later : oldl < l
  pred_eq : l ≠ oldl + 1 ∧ pred = s.c (l - 1) ∨ l = oldl + 1 ∧ pred = oldc

theorem turn_cases (grown : Grown s i m) (turning : Turning s i oldl oldc y) (positive : 0 < y) :
    y ≤ (s.clist oldc).y ∧ turn s i y oldl oldc = (s, oldl, oldc, false) ∨
    ∃ l pred, Search s oldl oldc y l pred ∧
      (l ≤ s.k ∧ (s.clist (s.c l)).y = y ∧ turn s i y oldl oldc = (s, oldl, pred, false) ∨
        l ≤ s.k ∧ y < (s.clist (s.c l)).y ∧ turn s i y oldl oldc = (pushed s i y pred l s.k, l, s.c l, false) ∨
        l = s.k + 1 ∧ turn s i y oldl oldc = (pushed s i y pred l (s.k + 1), oldl, pred, true)) := by
  unfold turn
  split
  case isTrue less => exact .inl ⟨less, rfl⟩
  case isFalse above =>
    right
    have place := search_done grown positive
    generalize search s.clist s.c s.k y = l at place
    have later : oldl < l := by
      by_contra not
      have upto := (place.here (by have := turning.listed; omega)).trans (grown.y_le (Nat.le_of_not_lt not) turning.listed)
      have := turning.less
      omega
    have found : Search s oldl oldc y l (if l ≠ oldl + 1 then s.c (l - 1) else oldc) := by
      refine ⟨place, not_le.mp above, later, ?_⟩
      split
      case isTrue apart => exact .inl ⟨apart, rfl⟩
      case isFalse next => exact .inr ⟨not_not.mp next, rfl⟩
    refine ⟨l, _, found, ?_⟩
    dsimp only
    split
    case isTrue listed =>
      split
      case isTrue upto => exact .inl ⟨listed, le_antisymm upto (place.here listed), rfl⟩
      case isFalse less => exact .inr (.inl ⟨listed, not_le.mp less, rfl⟩)
    case isFalse last =>
      have few := place.few
      exact .inr (.inr ⟨by omega, rfl⟩)

theorem Search.pred_good (found : Search s oldl oldc y l pred) (grown : Grown s i m) (turning : Turning s i oldl oldc y) :
    pred < s.clen ∧ (s.clist pred).x < i ∧ (s.clist pred).y < y := by
  have few := found.few
  have later := found.later
  rcases found.pred_eq with ⟨apart, rfl⟩ | ⟨-, rfl⟩
  · exact ⟨grown.listed _ (by omega), turning.behind _ (by omega) (by omega), found.before _ (by omega)⟩
  · exact ⟨turning.old.1, turning.old.2, found.old⟩

theorem turn_done (grown : Grown s i m) (turning : Turning s i oldl oldc y) (x_inside : 1 ≤ i) (y_inside : 1 ≤ y ∧ y ≤ m) :
    Grown (turn s i y oldl oldc).1 i m ∧ ((turn s i y oldl oldc).2.2.2 = false →
      ∀ y' > y, Turning (turn s i y oldl oldc).1 i (turn s i y oldl oldc).2.1 (turn s i y oldl oldc).2.2.1 y') := by
  rcases turn_cases grown turning (by omega) with ⟨_, is⟩ | ⟨l, pred, found, cases_⟩
  · rw [is]
    exact ⟨grown, fun _ y' more => turning.mono (le_of_lt more)⟩
  obtain ⟨old, x_less, y_less⟩ := found.pred_good grown turning
  have few := found.few
  rcases cases_ with ⟨listed, same, is⟩ | ⟨listed, less, is⟩ | ⟨last, is⟩
  · rw [is]
    exact ⟨grown, fun _ y' more => ⟨⟨old, x_less⟩, turning.behind, turning.listed, turning.less.trans more⟩⟩
  · rw [is]
    have later := found.later
    refine ⟨grown.push found.toPlace (fun _ => less) x_inside y_inside old x_less y_less (.inl ⟨rfl, listed⟩), fun _ y' more => ?_⟩
    refine ⟨⟨(grown.listed l listed).trans (Nat.lt_succ_self _), ?_⟩, fun l' after low => ?_, listed, ?_⟩
    · rw [pushed_kept (grown.listed l listed)]
      exact turning.behind l later listed
    · rw [pushed_other grown low (Nat.ne_of_gt after)]
      exact turning.behind l' (later.trans after) low
    · rw [pushed_new]
      exact more
  · rw [is]
    exact ⟨grown.push found.toPlace (fun listed => by omega) x_inside y_inside old x_less y_less (.inr ⟨rfl, last⟩), nofun⟩

inductive Rank (clist : Nat → Cand) : Nat → Nat → Prop
  | root {q : Nat} (zero : (clist q).y = 0) : Rank clist 0 q
  | next {l q : Nat} (some_ : (clist q).y ≠ 0) (chain : Rank clist l (clist q).pred) : Rank clist (l + 1) q

theorem Rank.pushed (grown : Grown s i m) (rank : Rank s.clist l' q) (old : q < s.clen) :
    Rank (pushed s i y pred l k).clist l' q := by
  induction rank with
  | root zero => exact .root (by rwa [pushed_kept old])
  | next some_ chain ih =>
    have continues := (grown.cands _ old).resolve_left (fun zero => some_ zero.2)
    refine .next ?_ ?_
    · rwa [pushed_kept old]
    · rw [pushed_kept old]
      exact ih (continues.older.trans old)

structure Best (s : Stone) (M P : Nat → Nat → Prop) : Prop where
  matched : ∀ q, q < s.clen → (s.clist q).y = 0 ∨ ∃ y : Nat, (s.clist q).y = y ∧ M (s.clist q).x y
  rank : ∀ l, l ≤ s.k → Rank s.clist l (s.c l)
  least : ∀ l x y, Chain M l x y → P x y → l ≤ s.k ∧ (s.clist (s.c l)).y ≤ y

theorem best_start (memory : Memory) : Best (stone_start memory) M (fun x _ => x ≤ 0) := by
  have zero : (stone_start memory).clist 0 = ⟨0, 0, 0⟩ := rfl
  constructor
  case matched =>
    intro q new
    obtain rfl : q = 0 := Nat.lt_one_iff.mp new
    exact .inl rfl
  case rank =>
    intro l low
    obtain rfl : l = 0 := Nat.le_zero.mp low
    exact .root rfl
  case least =>
    rintro l x y chain top
    cases chain with
    | nil => exact ⟨le_rfl, le_rfl⟩
    | next _ down => omega

theorem Best.mono (best : Best s M P) (fewer : ∀ l x y, Chain M l x y → P' x y → P x y) : Best s M P' :=
  { best with least := fun l x y chain inside => best.least l x y chain (fewer l x y chain inside) }

theorem Best.push (best : Best s M P) (grown : Grown s i m) {y : Nat} (some_ : 1 ≤ l) (y_pos : y ≠ 0) (here : M i y)
    (old : pred < s.clen) (rank : Rank s.clist (l - 1) pred) (count : k = s.k ∧ l ≤ s.k ∨ k = s.k + 1 ∧ l = s.k + 1)
    (least : ∀ l' x y', Chain M l' x y' → P' x y' →
      l' ≤ k ∧ ((pushed s i y pred l k).clist ((pushed s i y pred l k).c l')).y ≤ y') :
    Best (pushed s i y pred l k) M P' := by
  have is : (pushed s i y pred l k).clist s.clen = ⟨i, y, pred⟩ := update_self ..
  constructor
  case matched =>
    intro q new
    rcases Nat.lt_or_eq_of_le (Nat.le_of_lt_succ new) with earlier | rfl
    · rw [pushed_kept earlier]
      exact best.matched q earlier
    · right
      rw [is]
      exact ⟨y, rfl, here⟩
  case rank =>
    intro l' low
    have low : l' ≤ k := low
    by_cases there : l' = l
    · subst there
      have place : (pushed s i y pred l' k).c l' = s.clen := update_self ..
      have next : Rank (pushed s i y pred l' k).clist (l' - 1 + 1) s.clen := by
        apply Rank.next
        · rw [is]
          exact Int.natCast_ne_zero.mpr y_pos
        · rw [is]
          exact rank.pushed grown old
      rwa [place, ← Nat.sub_add_cancel some_]
    · have listed : l' ≤ s.k := by omega
      have place : (pushed s i y pred l k).c l' = s.c l' := update_of_ne there ..
      rw [place]
      exact (best.rank l' listed).pushed grown (grown.listed l' listed)
  case least => exact least

def Reached (i : Nat) (y : Int) (x y' : Nat) : Prop := x < i ∨ x = i ∧ y' < y

structure Choosing (s : Stone) (M : Nat → Nat → Prop) (i oldl oldc : Nat) (y : Int) : Prop where
  rank : Rank s.clist oldl oldc ∨ oldl < s.k ∧ (s.clist (s.c (oldl + 1))).y < y
  bound : (s.clist oldc).y < y ∨ ∀ l x y', Chain M l x y' → x < i → oldl ≤ l → (s.clist oldc).y ≤ y'

theorem Choosing.mono (choosing : Choosing s M i oldl oldc y) {y' : Int} (more : y ≤ y') : Choosing s M i oldl oldc y' :=
  ⟨choosing.rank.imp_right fun next => ⟨next.1, next.2.trans_le more⟩, choosing.bound.imp_left fun less => less.trans_le more⟩

theorem Place.chain_le (place : Place s y l) (grown : Grown s i m) (best : Best s M (Reached i y)) {y' : Nat} (is : y = y')
    (chain : Chain M l' i y') : l' ≤ l := by
  cases chain with
  | nil => exact Nat.zero_le _
  | next chain down right =>
    by_contra beyond
    obtain ⟨listed, upto⟩ := best.least _ _ _ chain (.inl down)
    have here := place.here (by omega)
    have := grown.y_le (show l ≤ _ by omega) listed
    omega

theorem Place.pushed_least (place : Place s y l) (grown : Grown s i m) (best : Best s M (Reached i y))
    (behind : l ≤ s.k → y < (s.clist (s.c l)).y) (count : k = s.k ∧ l ≤ s.k ∨ k = s.k + 1 ∧ l = s.k + 1) {y' : Nat}
    (chain : Chain M l' x y') (reached : Reached i (y + 1) x y') :
    l' ≤ k ∧ ((pushed s i y pred l k).clist ((pushed s i y pred l k).c l')).y ≤ y' := by
  by_cases before : Reached i y x y'
  · obtain ⟨listed, upto⟩ := best.least l' x y' chain before
    refine ⟨by omega, ?_⟩
    by_cases there : l' = l
    · subst there
      rw [pushed_new]
      exact (behind listed).le.trans upto
    · rw [pushed_other grown listed there]
      exact upto
  · unfold Reached at before reached
    obtain ⟨rfl, is⟩ : x = i ∧ y = y' := by omega
    have few := place.chain_le grown best is chain
    refine ⟨by omega, ?_⟩
    by_cases there : l' = l
    · subst there
      rw [pushed_new, is]
    · rw [pushed_other grown (by omega) there]
      have := place.before l' (by omega)
      omega

theorem turn_best (grown : Grown s i m) (turning : Turning s i oldl oldc y) (choosing : Choosing s M i oldl oldc y)
    (best : Best s M (Reached i y)) {Y : Nat} (is : y = Y) (positive : 0 < y) (here : M i Y) :
    (Best (turn s i y oldl oldc).1 M (Reached i (y + 1))) ∧
    ((turn s i y oldl oldc).2.2.2 = false →
      ∀ y' > y, Choosing (turn s i y oldl oldc).1 M i (turn s i y oldl oldc).2.1 (turn s i y oldl oldc).2.2.1 y') ∧
    ((turn s i y oldl oldc).2.2.2 = true → Best (turn s i y oldl oldc).1 M (fun x _ => x ≤ i)) := by
  -- what is left to show where no candidate comes in
  have unchanged : (∀ l, Chain M l i Y → l ≤ s.k ∧ (s.clist (s.c l)).y ≤ y) → Best s M (Reached i (y + 1)) := by
    intro covered
    refine { best with least := fun l x y' chain reached => ?_ }
    by_cases before : Reached i y x y'
    · exact best.least l x y' chain before
    · unfold Reached at before reached
      obtain ⟨rfl, rfl⟩ : x = i ∧ y' = Y := by omega
      exact is ▸ covered l chain
  rcases turn_cases grown turning positive with ⟨less, eq⟩ | ⟨l, pred, found, cases_⟩
  · rw [eq]
    refine ⟨unchanged fun l chain => ?_, fun _ y' more => choosing.mono (le_of_lt more), nofun⟩
    have listed := turning.listed
    cases chain with
    | nil => exact ⟨Nat.zero_le _, by rw [grown.root.2]; omega⟩
    | @next l' _ _ _ _ chain down right =>
      have early : l' < oldl := by
        by_contra late
        have := (choosing.bound.resolve_left (by omega)) _ _ _ chain down (not_lt.mp late)
        omega
      exact ⟨by omega, (grown.y_le (by omega) listed).trans turning.less.le⟩
  have few := found.few
  have later := found.later
  obtain ⟨old, x_less, y_less⟩ := found.pred_good grown turning
  have rank : Rank s.clist (l - 1) pred := by
    rcases found.pred_eq with ⟨apart, rfl⟩ | ⟨next, rfl⟩
    · exact best.rank (l - 1) (by omega)
    · rcases choosing.rank with rank | ⟨listed, less⟩
      · rwa [next, Nat.add_sub_cancel]
      · have := found.toPlace.here (by omega)
        rw [next] at this
        omega
  rcases cases_ with ⟨listed, same, eq⟩ | ⟨listed, less, eq⟩ | ⟨last, eq⟩
  · rw [eq]
    refine ⟨unchanged fun l' chain => ?_, fun _ y' more => ⟨?_, ?_⟩, nofun⟩
    · have upto := found.chain_le grown best is chain
      exact ⟨by omega, (grown.y_le upto listed).trans same.le⟩
    · rcases found.pred_eq with ⟨apart, _⟩ | ⟨_, rfl⟩
      · exact .inr ⟨show oldl < s.k by omega, (found.before (oldl + 1) (by omega)).trans more⟩
      · exact (choosing.mono (le_of_lt more)).rank
    · exact .inl (y_less.trans more)
  · rw [eq]
    subst is
    refine ⟨best.push grown found.some_ (by omega) here old rank (.inl ⟨rfl, listed⟩) fun l' x y' chain reached =>
      found.pushed_least grown best (fun _ => less) (.inl ⟨rfl, listed⟩) chain reached, fun _ y' more => ⟨?_, ?_⟩, nofun⟩
    · exact .inl ((best.rank l listed).pushed grown (grown.listed l listed))
    · right
      intro l' x y' chain above upto
      obtain ⟨listed', least⟩ := best.least l' x y' chain (.inl above)
      rw [pushed_kept (grown.listed l listed)]
      exact (grown.y_le upto listed').trans least
  · rw [eq]
    subst is
    have count : s.k + 1 = s.k ∧ l ≤ s.k ∨ s.k + 1 = s.k + 1 ∧ l = s.k + 1 := .inr ⟨rfl, last⟩
    refine ⟨best.push grown found.some_ (by omega) here old rank count fun l' x y' chain reached =>
      found.pushed_least grown best (fun listed => by omega) count chain reached, nofun, fun _ => ?_⟩
    apply best.push grown found.some_ (by omega) here old rank count
    intro l' x y' chain inside
    rcases Nat.lt_or_ge y' (Y + 1) with before | beyond
    · apply found.pushed_least grown best (fun listed => by omega) count chain
      unfold Reached
      omega
    · -- the new candidate is the last one, and ends before the matches that are left
      have few' : l' ≤ s.k + 1 := by
        cases chain with
        | nil => omega
        | next chain down right =>
          have := (best.least _ _ _ chain (.inl (by omega))).1
          omega
      refine ⟨few', ?_⟩
      by_cases there : l' = l
      · subst there
        rw [pushed_new]
        dsimp only
        omega
      · rw [pushed_other grown (by omega) there]
        have := found.before l' (by omega)
        omega

theorem chain_end {y' : Nat} (chain : Chain M l x y') : x = 0 ∨ M x y' := by
  cases chain with
  | nil => exact .inl rfl
  | next _ _ _ here => exact .inr here

theorem class_le (classes : Classes a n b m) {first p : Nat} (some_ : first ≠ 0) (class_ : InClass b m first p)
    (after : first ≤ q) (upto : q ≤ p) : |b q| ≤ |b p| := by
  obtain ⟨_, inside, positive⟩ := class_
  induction p with
  | zero => omega
  | succ p ih =>
    rcases Nat.lt_or_eq_of_le upto with less | rfl
    · have next := positive (p + 1) (by omega) le_rfl
      have rising := classes.rising p (by omega) inside next
      rw [abs_of_pos next]
      exact (ih (by omega) (by omega) (by omega) (fun t behind low => positive t behind (by omega))).trans rising.le
    · exact le_rfl

theorem turns_done (classes : Classes a n b m) (grown : Grown s i m) (x_inside : 1 ≤ i)
    {first : Nat} (start : a i = first) (some_ : first ≠ 0) (class_ : InClass b m first j) (is : y = |b j|)
    (turning : Turning s i oldl oldc y) (choosing : Choosing s (Alike a b m) i oldl oldc y)
    (best : Best s (Alike a b m) (Reached i y)) :
    ∃ s', turns b m i s j y oldl oldc = some s' ∧ Grown s' i m ∧ Best s' (Alike a b m) (fun x _ => x ≤ i) := by
  have inside : ∀ {j : Nat} {y : Int}, InClass b m first j → y = |b j| → 1 ≤ y ∧ y ≤ m ∧ ∃ Y : Nat, y = Y ∧ Alike a b m i Y := by
    intro j y class_ is
    have y_inside := classes.inside j (by have := class_.1; omega) class_.2.1
    exact ⟨by omega, by omega, y.toNat, by omega, first, j, start, some_, class_, by omega⟩
  -- a match of this line is in the class up to `j`, or behind it
  have split_ : ∀ {j : Nat} {y : Int} {l x y' : Nat}, InClass b m first j → y = |b j| → Chain (Alike a b m) l x y' → x ≤ i →
      Reached i (y + 1) x y' ∨ x = i ∧ 0 < b (j + 1) ∧ b (j + 1) ≤ y' := by
    intro j y l x y' class_ is chain upto
    rcases Nat.lt_or_eq_of_le upto with above | rfl
    · exact .inl (.inl above)
    · obtain ⟨first', p, start', _, class_', here⟩ := (chain_end chain).resolve_left (by omega)
      obtain rfl : first = first' := by omega
      rcases Nat.lt_or_ge j p with after | before
      · have positive := class_'.2.2 (j + 1) (by have := class_.1; omega) after
        have upto' := class_le classes some_ class_' (show first ≤ j + 1 by have := class_.1; omega) after
        rw [abs_of_pos positive] at upto'
        exact .inr ⟨rfl, positive, by omega⟩
      · have upto' := class_le classes some_ class_ class_'.1 before
        exact .inl (.inr ⟨rfl, by omega⟩)
  obtain ⟨low, high, Y, Y_eq, here⟩ := inside class_ is
  have step := turn_done grown turning x_inside ⟨low, high⟩
  have step' := turn_best grown turning choosing best Y_eq low here
  clear low high Y_eq here
  fun_induction turns b m i s j y oldl oldc with
  | case1 s j y oldl oldc next stop => exact ⟨_, rfl, step.1, step'.2.2 stop⟩
  | case2 s j y oldl oldc next _ out =>
    have := class_.2.1
    omega
  | case3 s j y oldl oldc next go within positive ih =>
    have after := class_.1
    have apart : j ≠ m := by
      rintro rfl
      rw [classes.stop] at positive
      omega
    have class_' : InClass b m first (j + 1) := by
      refine ⟨by omega, by omega, fun t behind upto => ?_⟩
      rcases Nat.lt_or_eq_of_le upto with less | rfl
      · exact class_.2.2 t behind (by omega)
      · exact positive
    have is' : b (j + 1) = |b (j + 1)| := (abs_of_pos positive).symm
    have more := classes.rising j (by omega) (by omega) positive
    obtain ⟨low, high, Y, Y_eq, here⟩ := inside class_' is'
    have go : next.2.2.2 = false := by simpa using go
    have turning' := step.2 go (b (j + 1)) (is ▸ more)
    have choosing' := step'.2.1 go (b (j + 1)) (is ▸ more)
    have best' : Best next.1 (Alike a b m) (Reached i (b (j + 1))) := by
      apply step'.1.mono
      intro l x y' chain reached
      rcases split_ class_ is chain (by unfold Reached at reached; omega) with reached' | ⟨rfl, _, behind⟩
      · exact reached'
      · unfold Reached at reached
        omega
    exact ih step.1 class_' is' turning' choosing' best' (turn_done step.1 turning' x_inside ⟨low, high⟩)
      (turn_best step.1 turning' choosing' best' Y_eq low here)
  | case4 s j y oldl oldc next go within negative =>
    refine ⟨_, rfl, step.1, step'.1.mono fun l x y' chain upto => ?_⟩
    exact (split_ class_ is chain upto).resolve_right fun behind => negative behind.2.1

theorem stone_done (classes : Classes a n b m) (memory : Memory) :
    ∃ s, stone a n b m memory = some s ∧ Grown s n m ∧ Best s (Alike a b m) (fun x _ => x ≤ n) := by
  unfold stone
  suffices runs : ∀ i ≤ n, ∃ s, (List.range' 1 i).foldlM
      (fun s i => if a i = 0 then some s else turns b m i s (a i).toNat (-b (a i).toNat) 0 (s.c 0))
      (stone_start memory) = some s ∧ Grown s i m ∧ Best s (Alike a b m) (fun x _ => x ≤ i) from runs n le_rfl
  intro i few
  induction i with
  | zero => exact ⟨_, rfl, grown_start memory, best_start memory⟩
  | succ i ih =>
    obtain ⟨s, runs, grown, best⟩ := ih (by omega)
    rw [List.range'_concat, List.foldlM_append, runs]
    have place : 1 + 1 * i = i + 1 := by omega
    simp only [List.foldlM_cons, List.foldlM_nil, Option.bind_eq_bind, Option.bind_some, Option.pure_def, Option.bind_fun_some, place]
    split
    case isTrue none_ =>
      refine ⟨s, rfl, grown.mono (by omega), best.mono fun l x y' chain upto => ?_⟩
      rcases Nat.lt_or_eq_of_le upto with above | rfl
      · exact Nat.le_of_lt_succ above
      · obtain ⟨first, _, start, some_, _⟩ := (chain_end chain).resolve_left (by omega)
        omega
    case isFalse some_ =>
      obtain ⟨j, is, low, high, negative⟩ := (classes.start (i + 1) (by omega) few).resolve_left some_
      rw [is, Int.toNat_natCast]
      have y_eq : -b j = |b j| := (abs_of_neg negative).symm
      have y_inside := classes.inside j low high
      have first : ∀ t, j < t → t ≤ j → 0 < b t := fun t behind upto => by omega
      apply turns_done classes (grown.mono (by omega)) (by omega) is (by omega) ⟨le_rfl, high, first⟩ y_eq
      · constructor
        case old => exact ⟨grown.listed 0 (Nat.zero_le _), by rw [grown.root.1]; omega⟩
        case behind => exact fun l _ listed => Nat.lt_succ_of_le (grown.x_le (grown.listed l listed))
        case listed => exact Nat.zero_le _
        case less => rw [grown.root.2]; omega
      · exact ⟨.inl (.root grown.root.2), .inl (by rw [grown.root.2]; omega)⟩
      · apply best.mono
        intro l x y' chain reached
        rcases reached with above | ⟨rfl, before⟩
        · exact Nat.le_of_lt_succ above
        · -- the class starts at `j`
          obtain ⟨j', p, is', _, class_, here⟩ := (chain_end chain).resolve_left (by omega)
          obtain rfl : j = j' := by omega
          have := class_le classes (by omega) class_ le_rfl class_.1
          omega

structure Increasing (J : Nat → Int) (len0 len1 : Nat) : Prop where
  inside : ∀ i, 1 ≤ i → i ≤ len0 → J i ≠ 0 → 1 ≤ J i ∧ J i ≤ len1
  rising : ∀ i j, 1 ≤ i → i < j → j ≤ len0 → J i ≠ 0 → J j ≠ 0 → J i < J j

structure Unravelling (J : Nat → Int) (pref len0 len1 x : Nat) (y : Int) : Prop where
  increasing : Increasing J len0 len1
  before : ∀ i, 1 ≤ i → i ≤ pref → J i ≤ pref
  todo : ∀ i, pref < i → i ≤ pref + x → J i = 0
  behind : ∀ i, pref + x < i → i ≤ len0 → J i ≠ 0 → pref + y < J i

theorem Unravelling.put {J : Nat → Int} {x' : Nat} {y y' : Int} (is : Unravelling J pref len0 len1 x y)
    (x_inside : 1 ≤ x ∧ pref + x ≤ len0) (y_inside : 1 ≤ y ∧ pref + y ≤ len1) (x_less : x' < x) (y_less : y' < y) :
    Unravelling (update J (x + pref) (y + pref)) pref len0 len1 x' y' := by
  have here : update J (x + pref) (y + pref) (x + pref) = y + pref := update_self ..
  have other : ∀ i, i ≠ x + pref → update J (x + pref) (y + pref) i = J i := fun i ne => update_of_ne ne ..
  constructor
  case increasing =>
    constructor
    · intro i low high some_
      by_cases new : i = x + pref
      · rw [new, here]
        omega
      · rw [other i new] at some_ ⊢
        exact is.increasing.inside i low high some_
    · intro i j low less high some_ some_'
      by_cases left : i = x + pref
      · rw [other j (by omega)] at some_' ⊢
        have := is.behind j (by omega) high some_'
        rw [left, here]
        omega
      · rw [other i left] at some_ ⊢
        by_cases right : j = x + pref
        · have early : i ≤ pref := by
            by_contra within
            exact some_ (is.todo i (by omega) (by omega))
          have := is.before i low early
          rw [right, here]
          omega
        · rw [other j right] at some_' ⊢
          exact is.increasing.rising i j low less high some_ some_'
  case before =>
    intro i low high
    rw [other i (by omega)]
    exact is.before i low high
  case todo =>
    intro i low high
    rw [other i (by omega)]
    exact is.todo i low (by omega)
  case behind =>
    intro i low high some_
    by_cases new : i = x + pref
    · rw [new, here]
      omega
    · rw [other i new] at some_ ⊢
      by_cases between : i ≤ pref + x
      · exact absurd (is.todo i (by omega) between) some_
      · have := is.behind i (by omega) high some_
        omega

theorem chain_done (grown : Grown s n m) (rows : pref + n ≤ len0) (cols : pref + m ≤ len1) (fuel q : Nat)
    (old : q < s.clen) (enough : q < fuel) (J : Nat → Int)
    (is : Unravelling J pref len0 len1 (s.clist q).x (s.clist q).y) :
    ∃ J', chain s.clist pref fuel q J = some J' ∧ Increasing J' len0 len1 := by
  induction fuel generalizing q J with
  | zero => omega
  | succ fuel ih =>
    unfold chain
    split
    · exact ⟨J, rfl, is.increasing⟩
    case isFalse some_ =>
      have continues := (grown.cands q old).resolve_left (fun zero => some_ zero.2)
      have older := continues.older
      have x_inside := continues.x_inside
      have y_inside := continues.y_inside
      apply ih _ (older.trans old) (by omega)
      exact is.put (by omega) (by omega) continues.x_less continues.y_less

theorem unravel_done (grown : Grown s (len0 - pref - suff) (len1 - pref - suff)) (rows : pref + suff ≤ len0)
    (cols : pref + suff ≤ len1) : ∃ J, unravel s pref suff len0 len1 = some J ∧ Increasing J len0 len1 := by
  have last := grown.listed s.k le_rfl
  have x_le := grown.x_le last
  have y_le : (s.clist (s.c s.k)).y ≤ (len1 - pref - suff : Nat) := by
    rcases grown.cands _ last with ⟨_, zero⟩ | continues
    · omega
    · exact continues.y_inside.2
  apply chain_done grown (by omega) (by omega) _ _ last last
  unfold pruned
  constructor
  case increasing =>
    constructor
    · intro i low high
      split_ifs <;> omega
    · intro i j low less high
      split_ifs <;> omega
  all_goals
    intro i low high
    split_ifs <;> omega

end Svr4.Proofs.DiffStone
