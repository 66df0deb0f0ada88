import Svr4.S5Alloc

/-! The array and the chain of lists on the disk stand for one set of free blocks. -/

namespace Svr4.Proofs.S5FreeList
open Function S5Alloc

def upper (free : Nat → Int) : Nat → List Int
  | 0 => []
  | n + 1 => free (n + 1) :: upper free n

inductive Represents (fblk : Int → Fblk) : Int → (Nat → Int) → List Int → Prop
  | last {n : Nat} {free : Nat → Int} (bound : n < NICFREE) (ends : free 0 = 0) : Represents fblk (n + 1) free (upper free n)
  | more {n : Nat} {free : Nat → Int} {rest : List Int} (bound : n < NICFREE) (some_ : free 0 ≠ 0)
      (chained : Represents fblk (fblk (free 0)).dfNfree (fblk (free 0)).dfFree rest) :
      Represents fblk (n + 1) free (upper free n ++ free 0 :: rest)

/-- The superblock and the chain stand for the set `F` of free blocks. -/
structure Stands (s : State) (F : Finset Int) : Prop where
  blocks : ∃ l : List Int, l.Nodup ∧ (∀ b, b ∈ F ↔ b ∈ l) ∧
    (Represents s.fblk s.fp.sNfree s.fp.sFree l ∨ s.fp.sNfree = 0 ∧ l = [])
  inRange : ∀ b ∈ F, badblock s.fp b = false
  tfree : s.fp.sTfree = F.card
  someInodes : 0 < s.fp.sIsize

variable {fblk fblk' : Int → Fblk} {n : Nat} {nfree : Int} {free free' : Nat → Int} {l : List Int} {s : State} {F : Finset Int} {b : Int}

theorem upper_congr (same : ∀ i, 0 < i → i ≤ n → free' i = free i) : upper free' n = upper free n := by
  induction n with
  | zero => rfl
  | succ n ih =>
    rw [upper, upper, same (n + 1) (by omega) (by omega), ih fun i positive below => same i positive (by omega)]

namespace Represents

theorem nfree_range (represents : Represents fblk nfree free l) : 1 ≤ nfree ∧ nfree ≤ NICFREE := by
  cases represents with
  | last bound => omega
  | more bound => omega

theorem congr (represents : Represents fblk nfree free l) (same : ∀ b ∈ l, fblk' b = fblk b) : Represents fblk' nfree free l := by
  induction represents with
  | last bound ends => exact .last bound ends
  | @more n free rest bound some_ chained ih =>
    apply Represents.more bound some_
    rw [same (free 0) (by simp)]
    exact ih fun b member => same b (by simp [member])

theorem congr_slots (represents : Represents fblk (n + 1) free l) (same : ∀ i, i ≤ n → free' i = free i) :
    Represents fblk (n + 1) free' l := by
  generalize count : (n + 1 : Int) = nfree at represents
  cases represents with
  | @last m _ bound ends =>
    obtain rfl : m = n := by omega
    rw [← upper_congr fun i _ below => same i below]
    exact .last bound ((same 0 (by omega)).trans ends)
  | @more m _ rest bound some_ chained =>
    obtain rfl : m = n := by omega
    have first := same 0 (by omega)
    rw [← upper_congr fun i _ below => same i below, ← first]
    rw [← first] at some_ chained
    exact .more bound some_ chained

theorem push (represents : Represents fblk (n + 1) free l) (room : n + 1 < NICFREE) :
    Represents fblk (n + 1 + 1 : Nat) free (free (n + 1) :: l) := by
  generalize count : (n + 1 : Int) = nfree at represents
  cases represents with
  | @last m _ bound ends =>
    obtain rfl : m = n := by omega
    have one : Represents fblk ((m + 1 : Nat) + 1) free (upper free (m + 1)) := .last room ends
    exact_mod_cast one
  | @more m _ rest bound some_ chained =>
    obtain rfl : m = n := by omega
    have one : Represents fblk ((m + 1 : Nat) + 1) free (upper free (m + 1) ++ free 0 :: rest) := .more room some_ chained
    exact_mod_cast one

end Represents

namespace Stands

theorem nonzero (stands : Stands s F) (member : b ∈ F) : b ≠ 0 := by
  have inside := stands.inRange b member
  have first := stands.someInodes
  simp only [badblock, decide_eq_false_iff_not, not_or, not_lt] at inside
  omega

theorem removed (stands : Stands s F) (once : (b :: l).Nodup) (same : ∀ c, c ∈ F ↔ c ∈ b :: l) {t : State}
    (fsize : t.fp.sFsize = s.fp.sFsize) (isize : t.fp.sIsize = s.fp.sIsize) (tfree : t.fp.sTfree = s.fp.sTfree - 1)
    (rest : Represents t.fblk t.fp.sNfree t.fp.sFree l ∨ t.fp.sNfree = 0 ∧ l = []) : Stands t (F.erase b) := by
  have member : b ∈ F := (same b).mpr (by simp)
  have positive := Finset.card_pos.mpr ⟨b, member⟩
  rw [List.nodup_cons] at once
  refine ⟨⟨l, once.2, fun c => ?_, rest⟩, fun c inside => ?_, ?_, by rw [isize]; exact stands.someInodes⟩
  · rw [Finset.mem_erase, same, List.mem_cons]
    constructor
    · rintro ⟨other, rfl | inside⟩
      · exact absurd rfl other
      · exact inside
    · intro inside
      exact ⟨fun here => once.1 (here ▸ inside), .inr inside⟩
  · have old := stands.inRange c (Finset.mem_of_mem_erase inside)
    rwa [badblock, fsize, isize]
  · rw [tfree, stands.tfree, Finset.card_erase_of_mem member]
    omega

end Stands

theorem blkalloc_upper {m : Nat} (count : s.fp.sNfree = m + 1 + 1) (bound : m + 1 < NICFREE) (some_ : s.fp.sFree (m + 1) ≠ 0)
    (good : badblock s.fp (s.fp.sFree (m + 1)) = false) (left : s.fp.sTfree ≠ 0) :
    blkalloc s false = (some (s.fp.sFree (m + 1)),
      { s with fp := { s.fp with sNfree := m + 1, sTfree := s.fp.sTfree - 1, sFmod := true } }) := by
  have taken : nextBlock s.fp s.fp.sNfree.toNat = some (s.fp.sFree (m + 1), m + 1) := by
    have size : s.fp.sNfree.toNat = m + 1 + 1 := by omega
    rw [size, nextBlock, if_neg some_, if_neg (by simp [good])]
  rw [blkalloc, taken]
  have fine : ¬ (((m + 1 : Nat) : Int) ≤ 0 ∨ (NICFREE : Int) < ((m + 1 : Nat) : Int)) := by omega
  simp only [Nat.add_eq_zero_iff, one_ne_zero, and_false, false_and, if_false, fine, left, ne_eq, not_false_eq_true, if_true]
  simp

theorem blkalloc_chain (count : s.fp.sNfree = 1) (some_ : s.fp.sFree 0 ≠ 0) (good : badblock s.fp (s.fp.sFree 0) = false)
    (left : s.fp.sTfree ≠ 0) (range : 1 ≤ (s.fblk (s.fp.sFree 0)).dfNfree ∧ (s.fblk (s.fp.sFree 0)).dfNfree ≤ NICFREE) :
    blkalloc s false = (some (s.fp.sFree 0), { s with fp := { s.fp with
      sNfree := (s.fblk (s.fp.sFree 0)).dfNfree, sFree := (s.fblk (s.fp.sFree 0)).dfFree, sTfree := s.fp.sTfree - 1, sFmod := true } }) := by
  have taken : nextBlock s.fp s.fp.sNfree.toNat = some (s.fp.sFree 0, 0) := by
    rw [count, Int.toNat_one, nextBlock, if_neg some_, if_neg (by simp [good])]
  have fine : ¬ ((s.fblk (s.fp.sFree 0)).dfNfree ≤ 0 ∨ (NICFREE : Int) < (s.fblk (s.fp.sFree 0)).dfNfree) := by omega
  rw [blkalloc, taken]
  simp only [and_self, if_true, fine, if_false, left, ne_eq, not_false_eq_true]

theorem nextBlock_empty (stands : Stands s ∅) : nextBlock s.fp s.fp.sNfree.toNat = none := by
  obtain ⟨l, _, same, represents | ⟨zero, _⟩⟩ := stands.blocks
  · have nothing : l = [] := List.eq_nil_iff_forall_not_mem.mpr fun c => by simp [← same]
    subst nothing
    generalize slots : s.fp.sFree = free at represents
    generalize count : s.fp.sNfree = nfree at represents
    generalize empty : ([] : List Int) = l at represents
    cases represents with
    | @last n _ bound ends =>
      have zero : n = 0 := by
        cases n with
        | zero => rfl
        | succ n => cases empty
      subst zero
      simp [nextBlock, slots, ends]
    | more => simp at empty
  · simp [zero, nextBlock]

theorem blkalloc_empty (stands : Stands s ∅) : (blkalloc s false).1 = none ∧ Stands (blkalloc s false).2 ∅ := by
  rw [blkalloc, nextBlock_empty stands]
  exact ⟨rfl, ⟨[], by simp, by simp, .inr ⟨rfl, rfl⟩⟩, by simp, by simp [nospace], stands.someInodes⟩

theorem blkalloc_takes (stands : Stands s F) (some_ : F ≠ ∅) :
    ∃ b ∈ F, (blkalloc s false).1 = some b ∧ Stands (blkalloc s false).2 (F.erase b) := by
  obtain ⟨l, once, same, represents | ⟨zero, rfl⟩⟩ := stands.blocks
  · have positive : s.fp.sTfree ≠ 0 := by
      rw [stands.tfree]
      exact_mod_cast (Finset.card_pos.mpr (Finset.nonempty_iff_ne_empty.mpr some_)).ne'
    have held : ∀ c ∈ l, c ∈ F ∧ c ≠ 0 ∧ badblock s.fp c = false := by
      intro c member
      have inside := (same c).mpr member
      exact ⟨inside, stands.nonzero inside, stands.inRange c inside⟩
    generalize slots : s.fp.sFree = free at represents
    generalize count : s.fp.sNfree = nfree at represents
    subst slots
    cases represents with
    | @last n _ bound ends =>
      cases n with
      | zero => exact absurd (Finset.eq_empty_iff_forall_notMem.mpr fun c => by simp [same, upper]) some_
      | succ m =>
        obtain ⟨member, nonzero, good⟩ := held (s.fp.sFree (m + 1)) (by simp [upper])
        refine ⟨s.fp.sFree (m + 1), member, ?_⟩
        rw [blkalloc_upper (by exact_mod_cast count) bound nonzero good positive]
        exact ⟨rfl, stands.removed once same rfl rfl rfl (.inl (.last (by omega) ends))⟩
    | @more n _ rest bound nonzero chained =>
      cases n with
      | zero =>
        obtain ⟨member, _, good⟩ := held (s.fp.sFree 0) (by simp)
        refine ⟨s.fp.sFree 0, member, ?_⟩
        rw [blkalloc_chain (by exact_mod_cast count) nonzero good positive chained.nfree_range]
        exact ⟨rfl, stands.removed once same rfl rfl rfl (.inl chained)⟩
      | succ m =>
        obtain ⟨member, nonzero', good⟩ := held (s.fp.sFree (m + 1)) (by simp [upper])
        refine ⟨s.fp.sFree (m + 1), member, ?_⟩
        rw [blkalloc_upper (by exact_mod_cast count) bound nonzero' good positive]
        exact ⟨rfl, stands.removed once same rfl rfl rfl (.inl (.more (by omega) nonzero chained))⟩
  · exact absurd (Finset.eq_empty_iff_forall_notMem.mpr fun c => by simp [same]) some_

theorem nextBlock_free (stands : Stands s F) {found : Int × Nat} (next : nextBlock s.fp s.fp.sNfree.toNat = some found) :
    found.1 ∈ F := by
  by_cases empty : F = ∅
  · subst empty
    rw [nextBlock_empty stands] at next
    cases next
  · obtain ⟨b, member, same, _⟩ := blkalloc_takes stands empty
    rw [blkalloc, next] at same
    simp only at same
    split at same
    all_goals
      split at same
      · cases same
      · cases same
        exact member

theorem Stands.added (stands : Stands s F) (fresh : b ∉ F) (good : badblock s.fp b = false) (once : l.Nodup) (same : ∀ c, c ∈ F ↔ c ∈ l)
    {t : State} (fsize : t.fp.sFsize = s.fp.sFsize) (isize : t.fp.sIsize = s.fp.sIsize) (tfree : t.fp.sTfree = s.fp.sTfree + 1)
    (all : Represents t.fblk t.fp.sNfree t.fp.sFree (b :: l)) : Stands t (insert b F) := by
  have absent : b ∉ l := fun member => fresh ((same b).mpr member)
  refine ⟨⟨b :: l, List.nodup_cons.mpr ⟨absent, once⟩, fun c => ?_, .inl all⟩, fun c inside => ?_, ?_,
    by rw [isize]; exact stands.someInodes⟩
  · rw [Finset.mem_insert, same, List.mem_cons]
  · rw [badblock, fsize, isize]
    rcases Finset.mem_insert.mp inside with rfl | old
    · exact good
    · exact stands.inRange c old
  · rw [tfree, stands.tfree, Finset.card_insert_of_notMem fresh]
    norm_num

theorem blkfree_adds (stands : Stands s F) (fresh : b ∉ F) :
    Stands (blkfree s b) (if badblock s.fp b then F else insert b F) := by
  obtain ⟨l, once, same, stored⟩ := stands.blocks
  cases good : badblock s.fp b with
  | true =>
    have asBefore : blkfree s b = { s with fp := { s.fp with sFmod := true } } := by
      rw [blkfree]
      exact if_pos good
    rw [asBefore, if_pos rfl]
    exact ⟨⟨l, once, same, stored⟩, stands.inRange, stands.tfree, stands.someInodes⟩
  | false =>
    have absent : b ∉ l := fun member => fresh ((same b).mpr member)
    have inside : ¬ (b < s.fp.sIsize ∨ b ≥ s.fp.sFsize) := by simpa [badblock] using good
    rw [if_neg (by simp)]
    rcases stored with represents | ⟨zero, rfl⟩
    · obtain ⟨low, high⟩ := represents.nfree_range
      obtain ⟨n, count⟩ : ∃ n : Nat, s.fp.sNfree = n + 1 := ⟨(s.fp.sNfree - 1).toNat, by omega⟩
      rw [count] at represents
      by_cases full : n + 1 = NICFREE
      · have stored : blkfree s b = { s with
            fblk := update s.fblk b ⟨n + 1, s.fp.sFree⟩
            fp := { s.fp with sFree := update s.fp.sFree 0 b, sNfree := 1, sTfree := s.fp.sTfree + 1, sFmod := true } } := by
          have positive : ¬ (n : Int) + 1 ≤ 0 := by omega
          have most : (NICFREE : Int) ≤ n + 1 := by omega
          simp [blkfree, badblock, inside, count, positive, most]
        rw [stored]
        refine stands.added fresh good once same rfl rfl rfl ?_
        have first : update s.fp.sFree 0 b 0 = b := update_self ..
        have one : Represents (update s.fblk b ⟨n + 1, s.fp.sFree⟩) ((0 : Nat) + 1) (update s.fp.sFree 0 b)
            (upper (update s.fp.sFree 0 b) 0 ++ update s.fp.sFree 0 b 0 :: l) := by
          have nonzero : b ≠ 0 := by
            have someInodes := stands.someInodes
            simp only [badblock, decide_eq_false_iff_not, not_or, not_lt] at good
            omega
          refine .more (by decide) (by rwa [first]) ?_
          rw [first, update_self]
          refine represents.congr fun c member => ?_
          have other : c ≠ b := fun here => absent (here ▸ member)
          exact update_of_ne other _ _
        rw [first] at one
        exact one
      · have stored : blkfree s b = { s with fp := { s.fp with
            sFree := update s.fp.sFree (n + 1) b, sNfree := n + 1 + 1, sTfree := s.fp.sTfree + 1, sFmod := true } } := by
          have positive : ¬ (n : Int) + 1 ≤ 0 := by omega
          have most : ¬ (NICFREE : Int) ≤ n + 1 := by omega
          have slot : ((n : Int) + 1).toNat = n + 1 := by omega
          simp [blkfree, badblock, inside, count, positive, most, slot]
        rw [stored]
        refine stands.added fresh good once same rfl rfl rfl ?_
        have others : ∀ i, i ≤ n → update s.fp.sFree (n + 1) b i = s.fp.sFree i := fun i below => update_of_ne (by omega) _ _
        have pushed := (represents.congr_slots others).push (by omega)
        rw [update_self] at pushed
        exact_mod_cast pushed
    · have stored : blkfree s b = { s with fp := { s.fp with
          sFree := update (update s.fp.sFree 0 0) 1 b, sNfree := 2, sTfree := s.fp.sTfree + 1, sFmod := true } } := by
        simp [blkfree, badblock, inside, zero, NICFREE]
      rw [stored]
      refine stands.added fresh good once same rfl rfl rfl ?_
      have two : Represents s.fblk ((1 : Nat) + 1) (update (update s.fp.sFree 0 0) 1 b) (upper (update (update s.fp.sFree 0 0) 1 b) 1) :=
        .last (by decide) (by simp)
      simpa [upper] using two

theorem Stands.written (stands : Stands s F) (others : ∀ c ∈ F, fblk' c = s.fblk c) : Stands { s with fblk := fblk' } F := by
  obtain ⟨l, once, same, stored⟩ := stands.blocks
  refine ⟨⟨l, once, same, ?_⟩, stands.inRange, stands.tfree, stands.someInodes⟩
  rcases stored with represents | empty
  · exact .inl (represents.congr fun c member => others c ((same c).mpr member))
  · exact .inr empty

/-- Calls one after the other, with the set that they should leave: `blkalloc` takes what it
returns, `blkfree` adds a block of the file system that is not free. Between the calls the
owners of blocks write into them. -/
inductive Run (s₀ : State) (F₀ : Finset Int) : State → Finset Int → Prop
  | start : Run s₀ F₀ s₀ F₀
  | blkalloc {s : State} {F : Finset Int} (before : Run s₀ F₀ s F) :
      Run s₀ F₀ (blkalloc s false).2 ((blkalloc s false).1.elim F F.erase)
  | blkfree {s : State} {F : Finset Int} {b : Int} (before : Run s₀ F₀ s F) (fresh : b ∉ F) :
      Run s₀ F₀ (blkfree s b) (if badblock s.fp b then F else insert b F)
  | write {s : State} {F : Finset Int} {fblk : Int → Fblk} (before : Run s₀ F₀ s F) (others : ∀ b ∈ F, fblk b = s.fblk b) :
      Run s₀ F₀ { s with fblk } F

theorem blkalloc_stands (stands : Stands s F) : Stands (blkalloc s false).2 ((blkalloc s false).1.elim F F.erase) := by
  by_cases empty : F = ∅
  · subst empty
    obtain ⟨none_, after⟩ := blkalloc_empty stands
    rw [none_]
    exact after
  · obtain ⟨b, _, some_, after⟩ := blkalloc_takes stands empty
    rw [some_]
    exact after

theorem Run.stands {s₀ : State} {F₀ : Finset Int} (run : Run s₀ F₀ s F) (first : Stands s₀ F₀) : Stands s F := by
  induction run with
  | start => exact first
  | blkalloc before ih => exact blkalloc_stands ih
  | blkfree before fresh ih => exact blkfree_adds ih fresh
  | write before others ih => exact ih.written others

/-- After any calls the array and the chain stand for the set that the calls should have
left. ENOSPC says that it is empty, and what `blkalloc` returns is in it. What is read
from the disk was in a free block. -/
theorem s5_free_list_exact (s₀ : State) (F₀ : Finset Int) (first : Stands s₀ F₀) (s : State) (F : Finset Int) (run : Run s₀ F₀ s F) :
    Stands s F ∧ s.fp.sTfree = F.card ∧ 0 ≤ s.fp.sNfree ∧ s.fp.sNfree ≤ NICFREE ∧
      ((blkalloc s false).1 = none ↔ F = ∅) ∧ (∀ b, (blkalloc s false).1 = some b → b ∈ F) ∧
      ∀ fblk, (∀ b ∈ F, fblk b = s.fblk b) →
        (blkalloc { s with fblk } false).1 = (blkalloc s false).1 ∧ (blkalloc { s with fblk } false).2.fp = (blkalloc s false).2.fp := by
  have stands := run.stands first
  have range : 0 ≤ s.fp.sNfree ∧ s.fp.sNfree ≤ NICFREE := by
    obtain ⟨_, _, _, represents | ⟨zero, _⟩⟩ := stands.blocks
    · obtain ⟨low, high⟩ := represents.nfree_range
      omega
    · omega
  refine ⟨stands, stands.tfree, range.1, range.2, ?_, fun b same => ?_, fun fblk others => ?_⟩
  · constructor
    · intro none_
      by_contra some_
      obtain ⟨b, _, same, _⟩ := blkalloc_takes stands some_
      rw [none_] at same
      cases same
    · rintro rfl
      exact (blkalloc_empty stands).1
  · by_cases empty : F = ∅
    · subst empty
      rw [(blkalloc_empty stands).1] at same
      cases same
    · obtain ⟨c, member, taken, _⟩ := blkalloc_takes stands empty
      rw [taken] at same
      cases same
      exact member
  · rw [blkalloc, blkalloc]
    cases next : nextBlock s.fp s.fp.sNfree.toNat with
    | none => exact ⟨rfl, rfl⟩
    | some found =>
      simp only [others found.1 (nextBlock_free stands next)]
      -- The read, and the check of the count.
      split <;> split <;> exact ⟨rfl, rfl⟩

/-- A file system of a hundred blocks whose only free block holds no other list. -/
def oneBlock : State where
  fp := ⟨10, 100, 2, fun i => if i = 1 then 20 else 0, 1, false⟩
  fblk _ := ⟨0, fun _ => 0⟩

theorem oneBlock_stands : Stands oneBlock {20} := by
  refine ⟨⟨[20], by simp, by simp, .inl ?_⟩, by simp [oneBlock, badblock], rfl, by decide⟩
  have one : Represents oneBlock.fblk ((1 : Nat) + 1) oneBlock.fp.sFree (upper oneBlock.fp.sFree 1) := .last (by decide) rfl
  exact one

/-- The theorem when that block has been taken. -/
theorem s5_free_list_exact_taken : (blkalloc (blkalloc oneBlock false).2 false).1 = none :=
  (s5_free_list_exact oneBlock {20} oneBlock_stands _ _ (.blkalloc .start)).2.2.2.2.1.mpr rfl

end Svr4.Proofs.S5FreeList

/-! The free list when the read of a list in a free block fails, and what the calls leave alone. -/

namespace Svr4.Proofs.S5FreeList
open Function S5Alloc

/-- The next block to be handed out is the one with the next list. -/
def refills (s : State) : Bool := (nextBlock s.fp s.fp.sNfree.toNat).any fun p => p.2 == 0

variable {s t : State} {F G : Finset Int} {b c : Int} {e : Bool} {fblk : Int → Fblk} {nfree : Int} {free : Nat → Int} {l m : List Int}

theorem blkalloc_fblk (s : State) (e : Bool) : (blkalloc s e).2.fblk = s.fblk := by
  rw [blkalloc]
  split
  · rfl
  · dsimp only
    split <;> split <;> rfl

theorem blkalloc_badblock (s : State) (e : Bool) (b : Int) : badblock (blkalloc s e).2.fp b = badblock s.fp b := by
  rw [blkalloc]
  split
  · rfl
  · dsimp only
    split <;> split <;> rfl

theorem blkfree_fblk (s : State) (other : c ≠ b) : (blkfree s b).fblk c = s.fblk c := by
  unfold blkfree
  dsimp only
  split
  · rfl
  · split <;> split <;> first | rfl | exact update_of_ne other ..

theorem blkalloc_quiet (quiet : ¬(refills s = true ∧ e = true)) : blkalloc s e = blkalloc s false := by
  cases e with
  | false => rfl
  | true =>
    have upper : refills s = false := by simpa using quiet
    rw [refills] at upper
    rw [blkalloc, blkalloc]
    cases next : nextBlock s.fp s.fp.sNfree.toNat with
    | none => rfl
    | some found =>
      rw [next] at upper
      have high : found.2 ≠ 0 := by simpa using upper
      simp [high]

theorem blkalloc_drops (stands : Stands s F) (list : refills s = true) :
    (blkalloc s true).1 = none ∧ Stands (blkalloc s true).2 ∅ ∧ ∃ b, b ∈ F := by
  rw [refills] at list
  cases next : nextBlock s.fp s.fp.sNfree.toNat with
  | none =>
    rw [next] at list
    cases list
  | some found =>
    rw [next] at list
    have zero : found.2 = 0 := by simpa using list
    have result : blkalloc s true = (none, nospace { s with fp := { s.fp with sNfree := 0 } }) := by
      rw [blkalloc, next]
      simp [zero]
    rw [result]
    exact ⟨rfl, ⟨⟨[], by simp, by simp, .inr ⟨rfl, rfl⟩⟩, by simp, rfl, stands.someInodes⟩, found.1, nextBlock_free stands next⟩

theorem blkalloc_outcome (stands : Stands s F) (quiet : ¬(refills s = true ∧ e = true)) :
    F = ∅ ∧ (blkalloc s e).1 = none ∧ Stands (blkalloc s e).2 F ∨ ∃ b ∈ F, (blkalloc s e).1 = some b ∧ Stands (blkalloc s e).2 (F.erase b) := by
  rw [blkalloc_quiet quiet]
  by_cases empty : F = ∅
  · subst empty
    exact .inl ⟨rfl, blkalloc_empty stands⟩
  · exact .inr (blkalloc_takes stands empty)

theorem blkfree_restores (stands : Stands t (F.erase b)) (member : b ∈ F) (good : badblock t.fp b = false) : Stands (blkfree t b) F := by
  have added := blkfree_adds stands (Finset.notMem_erase b F)
  rwa [good, if_neg Bool.false_ne_true, Finset.insert_erase member] at added

theorem Represents.unique (represents : Represents fblk nfree free l) (also : Represents fblk nfree free m) : l = m := by
  induction represents generalizing m with
  | @last n free _ ends =>
    generalize count : (n + 1 : Int) = nfree at also
    cases also with
    | @last n' => rw [show n' = n by omega]
    | more _ some_ => exact absurd ends some_
  | @more n free rest _ some_ _ ih =>
    generalize count : (n + 1 : Int) = nfree at also
    cases also with
    | last _ ends => exact absurd ends some_
    | @more n' _ rest' _ _ chained =>
      rw [show n' = n by omega, ih chained]

theorem Stands.unique (stands : Stands s F) (also : Stands s G) : F = G := by
  obtain ⟨l, _, same, list⟩ := stands.blocks
  obtain ⟨m, _, alike, list'⟩ := also.blocks
  have equal : l = m := by
    rcases list with represents | ⟨zero, rfl⟩ <;> rcases list' with represents' | ⟨zero', rfl⟩
    · exact Represents.unique represents represents'
    · have := represents.nfree_range.1
      omega
    · have := represents'.nfree_range.1
      omega
    · rfl
  exact Finset.ext fun b => by rw [same, alike, equal]

def Alike (F : Finset Int) (s t : State) : Prop := t.fp = s.fp ∧ ∀ b ∈ F, t.fblk b = s.fblk b

theorem Alike.refills (alike : Alike F s t) : refills t = refills s := by
  rw [S5FreeList.refills, S5FreeList.refills, alike.1]

theorem Alike.blkalloc (alike : Alike F s t) (stands : Stands s F) :
    (blkalloc t false).1 = (blkalloc s false).1 ∧ (blkalloc t false).2.fp = (blkalloc s false).2.fp := by
  obtain ⟨fp, blocks⟩ := alike
  rw [S5Alloc.blkalloc, S5Alloc.blkalloc, fp]
  cases next : nextBlock s.fp s.fp.sNfree.toNat with
  | none => exact ⟨rfl, by simp only [nospace, fp]⟩
  | some found =>
    simp only [blocks found.1 (nextBlock_free stands next)]
    split <;> split <;> exact ⟨rfl, by simp [nospace]⟩

end Svr4.Proofs.S5FreeList
