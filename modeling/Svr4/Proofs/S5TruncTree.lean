import Svr4.S5Trunc

/-! The blocks under a pointer, and the ranges of the file that they are for. -/

namespace Svr4.Proofs.S5TruncTree
open Function S5Trunc

/-- A block; with height 0 it holds data. The first of the file's blocks that it is for. -/
structure Entry where
  block : Nat
  height : Nat
  first : Nat
  deriving DecidableEq

/-- The blocks under a pointer, which is for the blocks of the file from `base` on. -/
def under (n : Nat) (d : Nat → Nat → Nat) : Nat → Nat → Nat → List Entry
  | 0, bn, base => if bn = 0 then [] else [⟨bn, 0, base⟩]
  | k + 1, bn, base => if bn = 0 then [] else ⟨bn, k + 1, base⟩ :: (List.range n).flatMap fun i => under n d k (d bn i) (base + i * n ^ k)

def blocks (n : Nat) (d : Nat → Nat → Nat) : Nat → Nat → List Nat
  | 0, bn => if bn = 0 then [] else [bn]
  | k + 1, bn => if bn = 0 then [] else bn :: (List.range n).flatMap fun i => blocks n d k (d bn i)

variable {n k bn base c keep : Nat} {d d' : Nat → Nat → Nat} {e : Entry}

theorem under_hole (n : Nat) (d : Nat → Nat → Nat) (k base : Nat) : under n d k 0 base = [] := by
  cases k <;> rfl

theorem blocks_hole (n : Nat) (d : Nat → Nat → Nat) (k : Nat) : blocks n d k 0 = [] := by
  cases k <;> rfl

theorem under_succ (some : bn ≠ 0) (base : Nat) :
    under n d (k + 1) bn base = ⟨bn, k + 1, base⟩ :: (List.range n).flatMap fun i => under n d k (d bn i) (base + i * n ^ k) := if_neg some

theorem blocks_succ (some : bn ≠ 0) : blocks n d (k + 1) bn = bn :: (List.range n).flatMap fun i => blocks n d k (d bn i) := if_neg some

theorem under_blocks (n : Nat) (d : Nat → Nat → Nat) (k bn base : Nat) : (under n d k bn base).map Entry.block = blocks n d k bn := by
  induction k generalizing bn base with
  | zero =>
    rw [under, blocks]
    split <;> rfl
  | succ k ih =>
    rw [under, blocks]
    split
    · rfl
    · rw [List.map_cons, List.map_flatMap]
      simp only [ih]

theorem mem_blocks (member : e ∈ under n d k bn base) : e.block ∈ blocks n d k bn := by
  rw [← under_blocks n d k bn base]
  exact List.mem_map_of_mem member

theorem blocks_head (some : bn ≠ 0) (k : Nat) : blocks n d k bn = bn :: (blocks n d k bn).tail := by
  cases k with
  | zero => rw [blocks, if_neg some]; rfl
  | succ k => rw [blocks, if_neg some]; rfl

theorem under_congr (same : ∀ c ∈ blocks n d k bn, d' c = d c) (base : Nat) : under n d' k bn base = under n d k bn base := by
  induction k generalizing bn base with
  | zero => rfl
  | succ k ih =>
    by_cases some : bn = 0
    · rw [some, under_hole, under_hole]
    rw [blocks_succ some] at same
    rw [under_succ some, under_succ some, same bn (by simp)]
    congr 1
    refine List.flatMap_congr fun i inside => ih (fun c member => same c ?_) _
    exact List.mem_cons_of_mem _ (List.mem_flatMap.mpr ⟨i, inside, member⟩)

theorem blocks_congr (same : ∀ c ∈ blocks n d k bn, d' c = d c) : blocks n d' k bn = blocks n d k bn := by
  rw [← under_blocks n d' k bn 0, ← under_blocks n d k bn 0, under_congr same]

theorem under_range (positive : 0 < n) (member : e ∈ under n d k bn base) : base ≤ e.first ∧ e.first < base + n ^ k := by
  induction k generalizing bn base with
  | zero =>
    rw [under] at member
    split at member
    · cases member
    · obtain rfl := List.mem_singleton.mp member
      simp
  | succ k ih =>
    by_cases some : bn = 0
    · rw [some, under_hole] at member
      cases member
    rw [under_succ some] at member
    rcases List.mem_cons.mp member with rfl | later
    · exact ⟨le_rfl, Nat.lt_add_of_pos_right (Nat.pow_pos positive)⟩
    · obtain ⟨i, inside, member⟩ := List.mem_flatMap.mp later
      obtain ⟨low, high⟩ := ih member
      have step : i * n ^ k + n ^ k ≤ n ^ (k + 1) := by
        rw [← Nat.succ_mul, pow_succ, Nat.mul_comm (n ^ k)]
        exact Nat.mul_le_mul_right _ (List.mem_range.mp inside)
      omega

theorem mem_under {b off : Nat} (positive : 0 < n) (within : off < n ^ k) :
    ⟨b, 0, base + off⟩ ∈ under n d k bn base ↔ b ≠ 0 ∧ fetch n d k bn off = b := by
  induction k generalizing bn base off with
  | zero =>
    obtain rfl : off = 0 := by
      rw [pow_zero] at within
      omega
    rw [under, fetch]
    split
    · next hole =>
      simp only [List.not_mem_nil, false_iff, not_and]
      exact fun some is => some (is.symm.trans hole)
    · next some =>
      rw [List.mem_singleton, Entry.mk.injEq]
      exact ⟨fun ⟨is, _⟩ => ⟨is ▸ some, is.symm⟩, fun ⟨_, is⟩ => ⟨is.symm, rfl, rfl⟩⟩
  | succ k ih =>
    by_cases some : bn = 0
    · rw [some, under_hole]
      simp only [List.not_mem_nil, false_iff, not_and]
      exact fun some is => some is.symm
    have part : 0 < n ^ k := Nat.pow_pos positive
    have less : off / n ^ k < n := by
      rw [Nat.div_lt_iff_lt_mul part, Nat.mul_comm, ← pow_succ]
      exact within
    have parts := Nat.div_add_mod' off (n ^ k)
    have at_child := @ih (d bn (off / n ^ k)) (base + off / n ^ k * n ^ k) (off % n ^ k) (Nat.mod_lt off part)
    rw [show base + off / n ^ k * n ^ k + off % n ^ k = base + off by omega] at at_child
    rw [under_succ some, fetch, if_neg some, ← at_child, List.mem_cons, List.mem_flatMap]
    constructor
    · rintro (same | ⟨i, inside, member⟩)
      · cases same
      · obtain ⟨low, high⟩ := under_range positive member
        have child : off / n ^ k = i := by
          rw [Nat.div_eq_iff part]
          dsimp only at low high
          omega
        rwa [child]
    · exact fun member => .inr ⟨off / n ^ k, List.mem_range.mpr less, member⟩

theorem under_kept (positive : 0 < n) (before : base + n ^ k ≤ keep) :
    (under n d k bn base).filter (fun e => e.first < keep) = under n d k bn base := by
  refine List.filter_eq_self.mpr fun e member => ?_
  obtain ⟨_, high⟩ := under_range positive member
  simp only [decide_eq_true_eq]
  omega

theorem under_gone (positive : 0 < n) (behind : keep ≤ base) : (under n d k bn base).filter (fun e => e.first < keep) = [] := by
  refine List.filter_eq_nil_iff.mpr fun e member => ?_
  obtain ⟨low, _⟩ := under_range positive member
  simp only [decide_eq_true_eq]
  omega

theorem under_freed (positive : 0 < n) (behind : keep ≤ base) :
    (under n d k bn base).filter (fun e => keep ≤ e.first) = under n d k bn base := by
  refine List.filter_eq_self.mpr fun e member => ?_
  obtain ⟨low, _⟩ := under_range positive member
  simp only [decide_eq_true_eq]
  omega

theorem under_unfreed (positive : 0 < n) (before : base + n ^ k ≤ keep) : (under n d k bn base).filter (fun e => keep ≤ e.first) = [] := by
  refine List.filter_eq_nil_iff.mpr fun e member => ?_
  obtain ⟨_, high⟩ := under_range positive member
  simp only [decide_eq_true_eq]
  omega

theorem blocks_apart (once : (blocks n d (k + 1) bn).Nodup) (some : bn ≠ 0) : (∀ i < n, bn ∉ blocks n d k (d bn i)) ∧
    (∀ i < n, (blocks n d k (d bn i)).Nodup) ∧ ∀ i < n, ∀ j < n, i ≠ j → ∀ c ∈ blocks n d k (d bn i), c ∉ blocks n d k (d bn j) := by
  rw [blocks_succ some, List.nodup_cons, List.nodup_flatMap] at once
  obtain ⟨head, each, pairs⟩ := once
  refine ⟨fun i less member => head (List.mem_flatMap.mpr ⟨i, List.mem_range.mpr less, member⟩), fun i less => each i (List.mem_range.mpr less), ?_⟩
  have apart : ∀ i j, i < j → j < n → ∀ c ∈ blocks n d k (d bn i), c ∉ blocks n d k (d bn j) := by
    intro i j order less c member also
    have both := List.pairwise_iff_getElem.mp pairs i j (by simp; omega) (by simp; omega) order
    simp only [List.getElem_range, Function.onFun] at both
    exact both member also
  intro i lessI j lessJ other c member also
  rcases Nat.lt_or_gt_of_ne other with less | greater
  · exact apart i j less lessJ c member also
  · exact apart j i greater lessI c also member

theorem range_split {q : Nat} (less : q < n) : List.range n = List.range q ++ q :: List.range' (q + 1) (n - (q + 1)) := by
  rw [← List.range'_succ, List.range_eq_range', List.range_eq_range', show n - (q + 1) + 1 = n - q by omega]
  have joined := @List.range'_append_1 0 q (n - q)
  rw [Nat.zero_add] at joined
  rw [joined, show q + (n - q) = n by omega]

theorem under_split {q : Nat} (some : bn ≠ 0) (less : q < n) (base : Nat) :
    under n d (k + 1) bn base = ⟨bn, k + 1, base⟩ :: (((List.range q).flatMap fun i => under n d k (d bn i) (base + i * n ^ k)) ++
      (under n d k (d bn q) (base + q * n ^ k) ++ (List.range' (q + 1) (n - (q + 1))).flatMap fun i => under n d k (d bn i) (base + i * n ^ k))) := by
  rw [under_succ some, range_split less, List.flatMap_append, List.flatMap_cons]

theorem filter_flatMap_same {l : List Nat} {f : Nat → List Entry} {p : Entry → Bool} (same : ∀ i ∈ l, (f i).filter p = f i) :
    (l.flatMap f).filter p = l.flatMap f := by
  rw [List.filter_flatMap]
  exact List.flatMap_congr same

theorem filter_flatMap_nil {l : List Nat} {f : Nat → List Entry} {p : Entry → Bool} (none : ∀ i ∈ l, (f i).filter p = []) :
    (l.flatMap f).filter p = [] := by
  rw [List.filter_flatMap]
  exact List.flatMap_eq_nil_iff.mpr none

section after
variable {q : Nat} {w : Nat → Nat} (some : bn ≠ 0) (once : (blocks n d (k + 1) bn).Nodup) (less : q < n) (keeps : ∀ i ≤ q, w i = d bn i)
  (clears : ∀ i, q < i → i < n → w i = 0) (frame : ∀ c, c ∉ blocks n d k (d bn q) → d' c = update d bn w c)

include some once less keeps clears frame in
/-- When the pointers of a block behind `q` have been cleared, and at most what is under the
pointer `q` has changed. -/
theorem under_after (base : Nat) : under n d' (k + 1) bn base =
    ⟨bn, k + 1, base⟩ :: (((List.range q).flatMap fun i => under n d k (d bn i) (base + i * n ^ k)) ++ under n d' k (d bn q) (base + q * n ^ k)) := by
  obtain ⟨head, -, apart⟩ := blocks_apart once some
  have new : d' bn = w := by rw [frame bn (head q less), update_self]
  have last : ((List.range' (q + 1) (n - (q + 1))).flatMap fun i => under n d' k (w i) (base + i * n ^ k)) = [] := by
    refine List.flatMap_eq_nil_iff.mpr fun i inside => ?_
    obtain ⟨low, high⟩ := List.mem_range'_1.mp inside
    rw [clears i low (by omega), under_hole]
  have first : ((List.range q).flatMap fun i => under n d' k (w i) (base + i * n ^ k)) =
      (List.range q).flatMap fun i => under n d k (d bn i) (base + i * n ^ k) := by
    refine List.flatMap_congr fun i inside => ?_
    have before := List.mem_range.mp inside
    rw [keeps i (Nat.le_of_lt before)]
    refine under_congr (fun c member => ?_) _
    have other : c ≠ bn := by
      rintro rfl
      exact head i (before.trans less) member
    rw [frame c (apart i (before.trans less) q less (Nat.ne_of_lt before) c member), update_of_ne other]
  rw [under_split some less, new, first, last, keeps q le_rfl, List.append_nil]

include some once less keeps clears frame in
theorem gone_after {i : Nat} (behind : q ≤ i) (within : i < n) (member : c ∈ blocks n d k (d bn i)) (gone : c ∉ blocks n d' k (d bn q)) :
    c ∉ blocks n d' (k + 1) bn := by
  obtain ⟨head, -, apart⟩ := blocks_apart once some
  rw [← under_blocks n d' (k + 1) bn 0, under_after some once less keeps clears frame, List.map_cons, List.map_append, List.map_flatMap, under_blocks]
  simp only [under_blocks, List.mem_cons, List.mem_append, List.mem_flatMap, List.mem_range, not_or, not_exists, not_and]
  refine ⟨?_, fun j early also => ?_, gone⟩
  · rintro rfl
    exact head i within member
  · exact apart i within j (early.trans less) (by omega) c member also

end after

end Svr4.Proofs.S5TruncTree

/-! `s5indirtrunc` on a block that goes as a whole, and on one of which a part stays. -/

namespace Svr4.Proofs.S5TruncTree
open Function S5Trunc

variable {v : S5vfs} {error : Nat → Bool} {s t u : State} {l m : List Nat} {n k bn base last level c : Nat}
  {below : Nat → Int → State → State} {bap : Nat → Nat}

def Frees (s t : State) (l : List Nat) : Prop :=
  ∃ freed : List Nat, t = ⟨s.disk, s.freed ++ freed.map fun b => (b, s.disk)⟩ ∧ freed.Perm l

theorem Frees.refl (s : State) : Frees s s [] := ⟨[], by simp, .nil⟩

theorem Frees.trans (first : Frees s t l) (second : Frees t u m) : Frees s u (l ++ m) := by
  obtain ⟨f, rfl, same⟩ := first
  obtain ⟨g, rfl, alike⟩ := second
  exact ⟨f ++ g, by simp, same.append alike⟩

theorem Frees.perm (frees : Frees s t l) (same : l.Perm m) : Frees s t m := by
  obtain ⟨f, is, alike⟩ := frees
  exact ⟨f, is, alike.trans same⟩

theorem Frees.disk (frees : Frees s t l) : t.disk = s.disk := by
  obtain ⟨f, rfl, -⟩ := frees
  rfl

theorem Frees.blkfree (frees : Frees s t l) (b : Nat) : Frees s (blkfree b t) (b :: l) := by
  obtain ⟨f, rfl, same⟩ := frees
  exact ⟨f ++ [b], by simp [S5Trunc.blkfree], (List.perm_append_singleton b f).trans (same.cons b)⟩

def Whole (n k : Nat) (below : Nat → Int → State → State) : Prop :=
  ∀ c s, c ≠ 0 → Frees s (below c (-1) s) (blocks n s.disk.block k c).tail

theorem whole_data (n : Nat) : Whole n 0 fun _ _ s => s := by
  intro c s some
  rw [blocks, if_neg some]
  exact .refl s

theorem discard_succ (below : Nat → Int → State → State) (bap : Nat → Nat) (last : Int) (i : Nat) (s : State) :
    discard below bap last (i + 1) s =
      if (i : Int) > last then discard below bap last i (if bap i ≠ 0 then blkfree (bap i) (below (bap i) (-1) s) else s) else (s, (i : Int)) := rfl

theorem discard_frees (whole : Whole n k below) (bap : Nat → Nat) (q m : Nat) (order : q ≤ m) (s : State) :
    Frees s (discard below bap ((q : Int) - 1) m s).1 ((List.range' q (m - q)).flatMap fun i => blocks n s.disk.block k (bap i)) ∧
      (discard below bap ((q : Int) - 1) m s).2 = (q : Int) - 1 := by
  induction m generalizing s with
  | zero =>
    obtain rfl := Nat.le_zero.mp order
    exact ⟨.refl s, rfl⟩
  | succ m ih =>
    rw [discard_succ]
    by_cases within : q ≤ m
    · rw [if_pos (by omega : (m : Int) > (q : Int) - 1)]
      have first : Frees s (if bap m ≠ 0 then blkfree (bap m) (below (bap m) (-1) s) else s) (blocks n s.disk.block k (bap m)) := by
        split
        · next some =>
          rw [blocks_head some]
          exact (whole (bap m) s some).blkfree (bap m)
        · next none =>
          rw [not_not.mp none, blocks_hole]
          exact .refl s
      obtain ⟨rest, index⟩ := ih within (if bap m ≠ 0 then blkfree (bap m) (below (bap m) (-1) s) else s)
      refine ⟨?_, index⟩
      rw [first.disk] at rest
      refine (first.trans rest).perm ?_
      rw [show m + 1 - q = m - q + 1 by omega, List.range'_1_concat, List.flatMap_append, show q + (m - q) = m by omega]
      simpa using List.perm_append_comm
    · rw [if_neg (by omega : ¬ (m : Int) > (q : Int) - 1), show m + 1 - q = 0 by omega]
      exact ⟨.refl s, by dsimp only; omega⟩

variable (good : ∀ b, error b = false)

include good in
theorem indirect_whole (whole : Whole v.vfsNindir k below) (factor : Nat) : Whole v.vfsNindir (k + 1) (indirect v error factor below) := by
  intro bn s some
  unfold indirect
  rw [good bn, if_neg Bool.false_ne_true]
  obtain ⟨frees, -⟩ := discard_frees whole (s.disk.block bn) 0 v.vfsNindir (Nat.zero_le _) s
  rw [blocks_succ some, List.tail_cons, List.range_eq_range']
  simpa using frees

include good in
theorem s5indirtrunc_whole (level : Nat) : Whole v.vfsNindir (level + 1) (s5indirtrunc v error level) := by
  induction level with
  | zero => exact indirect_whole good (whole_data _) 1
  | succ level ih => exact indirect_whole good ih _

structure Cut (n : Nat) (s t : State) (k bn base keep : Nat) : Prop where
  dinode : t.disk.dinode = s.disk.dinode
  frame : ∀ c, c ∉ blocks n s.disk.block k bn → t.disk.block c = s.disk.block c
  kept : under n t.disk.block k bn base = (under n s.disk.block k bn base).filter fun e => e.first < keep
  freed : ∃ freed : List (Nat × Disk), t.freed = s.freed ++ freed ∧
    (freed.map Prod.fst).Perm (((under n s.disk.block k bn base).filter fun e => keep ≤ e.first).map Entry.block) ∧
    ∀ x ∈ freed, x.2.dinode = s.disk.dinode ∧ (∀ c, c ∉ blocks n s.disk.block k bn → x.2.block c = s.disk.block c) ∧ x.1 ∉ blocks n x.2.block k bn

theorem Cut.hole (n : Nat) (s : State) (k base keep : Nat) : Cut n s s k 0 base keep := by
  refine ⟨rfl, fun c _ => rfl, by rw [under_hole]; rfl, [], (List.append_nil _).symm, ?_, fun x member => by cases member⟩
  rw [under_hole]
  exact .nil

def Cuts (n k : Nat) (below : Nat → Int → State → State) : Prop :=
  ∀ c s base last, c ≠ 0 → last < n ^ k → (blocks n s.disk.block k c).Nodup → Cut n s (below c last s) k c base (base + last + 1)

/-- The block is written without the pointers behind `q`, what was under them is freed, and
what is under the pointer `q` is cut. -/
theorem Cut.assemble {q keep : Nat} {freed : List Nat} {w : Nat → Nat} (positive : 0 < n) (some : bn ≠ 0)
    (once : (blocks n s.disk.block (k + 1) bn).Nodup) (less : q < n) (keeps : ∀ i ≤ q, w i = s.disk.block bn i)
    (clears : ∀ i, q < i → i < n → w i = 0) (low : base + q * n ^ k < keep) (high : keep ≤ base + (q + 1) * n ^ k)
    (disk : u.disk = { s.disk with block := update s.disk.block bn w }) (frees : u.freed = s.freed ++ freed.map fun b => (b, u.disk))
    (same : freed.Perm ((List.range' (q + 1) (n - (q + 1))).flatMap fun i => blocks n s.disk.block k (s.disk.block bn i)))
    (cut : Cut n u t k (s.disk.block bn q) (base + q * n ^ k) keep) : Cut n s t (k + 1) bn base keep := by
  obtain ⟨head, each, apart⟩ := blocks_apart once some
  have block : u.disk.block = update s.disk.block bn w := by rw [disk]
  have dinode : u.disk.dinode = s.disk.dinode := by rw [disk]
  have inner : blocks n u.disk.block k (s.disk.block bn q) = blocks n s.disk.block k (s.disk.block bn q) := by
    refine blocks_congr fun c member => ?_
    rw [block]
    refine update_of_ne ?_ ..
    rintro rfl
    exact head q less member
  have inner' : under n u.disk.block k (s.disk.block bn q) (base + q * n ^ k) = under n s.disk.block k (s.disk.block bn q) (base + q * n ^ k) := by
    refine under_congr (fun c member => ?_) _
    rw [block]
    refine update_of_ne ?_ ..
    rintro rfl
    exact head q less member
  have outside : ∀ c, c ∉ blocks n s.disk.block (k + 1) bn → c ≠ bn ∧ c ∉ blocks n s.disk.block k (s.disk.block bn q) := by
    intro c member
    rw [blocks_succ some, List.mem_cons, not_or] at member
    exact ⟨member.1, fun also => member.2 (List.mem_flatMap.mpr ⟨q, List.mem_range.mpr less, also⟩)⟩
  obtain ⟨dinode', frame, kept, freed', freed_is, perm, gone⟩ := cut
  rw [inner] at frame gone
  rw [inner'] at kept perm
  have early : ∀ i ∈ List.range q, base + i * n ^ k + n ^ k ≤ keep := by
    intro i inside
    have := Nat.mul_le_mul_right (n ^ k) (Nat.succ_le_of_lt (List.mem_range.mp inside))
    rw [Nat.succ_mul] at this
    omega
  have late : ∀ i ∈ List.range' (q + 1) (n - (q + 1)), keep ≤ base + i * n ^ k := by
    intro i inside
    have := Nat.mul_le_mul_right (n ^ k) (List.mem_range'_1.mp inside).1
    omega
  have at_base : base < keep := by omega
  refine ⟨dinode'.trans dinode, fun c member => ?_, ?_, freed.map (fun b => (b, u.disk)) ++ freed', ?_, ?_, fun x member => ?_⟩
  · obtain ⟨other, also⟩ := outside c member
    rw [frame c also, block, update_of_ne other]
  · rw [under_after some once less keeps clears (fun c member => (frame c member).trans (congrFun block c)), kept, under_split some less base,
      List.filter_cons_of_pos (by simpa using at_base), List.filter_append, List.filter_append,
      filter_flatMap_same fun i inside => under_kept positive (early i inside), filter_flatMap_nil fun i inside => under_gone positive (late i inside),
      List.append_nil]
  · rw [freed_is, frees, List.append_assoc]
  · rw [under_split some less base, List.filter_cons_of_neg (by simpa using at_base), List.filter_append, List.filter_append,
      filter_flatMap_nil fun i inside => under_unfreed positive
        (early i inside), filter_flatMap_same fun i inside => under_freed positive (late i inside),
      List.nil_append, List.map_append, List.map_append, List.map_flatMap]
    simp only [under_blocks]
    rw [show (freed.map fun b => (b, u.disk)).map Prod.fst = freed by simp [Function.comp_def]]
    exact (same.append perm).trans List.perm_append_comm
  · rcases List.mem_append.mp member with first | second
    · obtain ⟨b, inside, rfl⟩ := List.mem_map.mp first
      refine ⟨dinode, fun c member => ?_, ?_⟩
      · dsimp only
        rw [block, update_of_ne (outside c member).1]
      · obtain ⟨i, range, member⟩ := List.mem_flatMap.mp (same.mem_iff.mp inside)
        obtain ⟨from_, to_⟩ := List.mem_range'_1.mp range
        refine gone_after some once less keeps clears (fun c _ => congrFun block c) (Nat.le_of_lt from_) (by omega) member ?_
        dsimp only
        rw [inner]
        exact apart i (by omega) q less (by omega) b member
    · obtain ⟨same_inode, frame', gone⟩ := gone x second
      refine ⟨same_inode.trans dinode, fun c member => ?_, ?_⟩
      · obtain ⟨other, also⟩ := outside c member
        rw [frame' c also, block, update_of_ne other]
      · have inside : x.1 ∈ blocks n s.disk.block k (s.disk.block bn q) := by
          have listed := perm.mem_iff.mp (List.mem_map_of_mem second)
          obtain ⟨e, member, is⟩ := List.mem_map.mp listed
          rw [← is]
          exact mem_blocks (List.mem_filter.mp member).1
        exact gone_after some once less keeps clears (fun c member => (frame' c member).trans (congrFun block c)) le_rfl less inside gone

include good in
theorem indirect_cuts (whole : Whole v.vfsNindir k below) (cuts : Cuts v.vfsNindir k below) :
    Cuts v.vfsNindir (k + 1) (indirect v error (v.vfsNindir ^ k) below) := by
  intro bn s base last some within once
  have positive := v.some
  have part : 0 < v.vfsNindir ^ k := Nat.pow_pos positive
  obtain ⟨head, each, -⟩ := blocks_apart once some
  have less : last / v.vfsNindir ^ k < v.vfsNindir := by
    rw [Nat.div_lt_iff_lt_mul part, Nat.mul_comm, ← pow_succ]
    exact within
  have rest := Nat.mod_lt last part
  have parts := Nat.div_add_mod' last (v.vfsNindir ^ k)
  have index : (if (last : Int) > 0 then (last : Int) / (v.vfsNindir ^ k : Nat) else (last : Int)) = (last / v.vfsNindir ^ k : Nat) := by
    split
    · exact (Int.natCast_div ..).symm
    · have zero : last = 0 := by omega
      rw [zero, Nat.zero_div]
  have remainder : (last : Int) % (v.vfsNindir ^ k : Nat) = (last % v.vfsNindir ^ k : Nat) := (Int.natCast_mod ..).symm
  unfold indirect
  rw [good bn, if_neg Bool.false_ne_true, index, remainder]
  generalize last / v.vfsNindir ^ k = q at less parts ⊢
  generalize last % v.vfsNindir ^ k = r at rest parts ⊢
  dsimp only
  rw [if_neg (by omega : ¬ (q : Int) < 0)]
  obtain ⟨w, content⟩ : ∃ w : Nat → Nat, w = fun i : Nat => if (i : Int) > q ∧ i < v.vfsNindir then 0 else s.disk.block bn i := ⟨_, rfl⟩
  have keeps : ∀ i ≤ q, w i = s.disk.block bn i := by
    intro i order
    rw [content]
    exact if_neg (by omega)
  have clears : ∀ i, q < i → i < v.vfsNindir → w i = 0 := by
    intro i order inside
    rw [content]
    exact if_pos (by omega)
  rw [← content]
  obtain ⟨frees, stop⟩ := discard_frees whole (s.disk.block bn) (q + 1) v.vfsNindir less (bwrite bn w s)
  rw [show ((q + 1 : Nat) : Int) - 1 = q by omega] at frees stop
  generalize S5Trunc.discard below (s.disk.block bn) q v.vfsNindir (bwrite bn w s) = z at frees stop ⊢
  obtain ⟨u, i⟩ := z
  dsimp only at frees stop ⊢
  rw [stop, Int.toNat_natCast]
  obtain ⟨freed, is, same⟩ := frees
  have inner : ∀ i < v.vfsNindir, blocks v.vfsNindir (bwrite bn w s).disk.block k
    (s.disk.block bn i) = blocks v.vfsNindir s.disk.block k (s.disk.block bn i) := by
    intro i inside
    refine blocks_congr fun c member => update_of_ne ?_ ..
    rintro rfl
    exact head i inside member
  have perm : freed.Perm ((List.range' (q + 1) (v.vfsNindir - (q + 1))).flatMap fun i => blocks v.vfsNindir s.disk.block k (s.disk.block bn i)) := by
    refine same.trans (.of_eq (List.flatMap_congr fun i range => inner i ?_))
    have := List.mem_range'_1.mp range
    omega
  have low : base + q * v.vfsNindir ^ k < base + last + 1 := by omega
  have high : base + last + 1 ≤ base + (q + 1) * v.vfsNindir ^ k := by
    rw [Nat.succ_mul]
    omega
  refine Cut.assemble (u := u) positive some once less keeps clears low high (by rw [is]; rfl) (by rw [is]; rfl) perm ?_
  split
  · next child =>
    have single : (blocks v.vfsNindir u.disk.block k (s.disk.block bn q)).Nodup := by
      rw [is]
      exact (inner q less).symm ▸ each q less
    have cut := cuts (s.disk.block bn q) u (base + q * v.vfsNindir ^ k) r child.2 rest single
    rwa [show base + q * v.vfsNindir ^ k + r + 1 = base + last + 1 by omega] at cut
  · next child =>
    have hole : s.disk.block bn q = 0 := by
      by_contra some
      exact child ⟨by omega, some⟩
    rw [hole]
    exact Cut.hole ..

include good in
theorem s5indirtrunc_cuts (level : Nat) : Cuts v.vfsNindir (level + 1) (s5indirtrunc v error level) := by
  induction level with
  | zero =>
    refine indirect_cuts good (whole_data _) fun c s base last some within once => ?_
    obtain rfl : last = 0 := by
      rw [pow_zero] at within
      omega
    refine ⟨rfl, fun c _ => rfl, ?_, [], (List.append_nil _).symm, ?_, fun x member => by cases member⟩
    · simp [under, some]
    · simp [under, some]
  | succ level ih => exact indirect_cuts good (s5indirtrunc_whole good level) ih

end Svr4.Proofs.S5TruncTree
