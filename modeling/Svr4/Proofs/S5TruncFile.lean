import Svr4.Proofs.S5TruncTree

/-! `s5freesp` frees the blocks of a file from a number on, and what was for them alone. -/

namespace Svr4.Proofs.S5TruncFile
open Function S5Trunc S5TruncTree

structure Slot where
  index : Nat
  height : Nat
  base : Nat

def direct (i : Nat) : Slot := ⟨i, 0, i⟩

/-- The first block of the file that is in a list of indirect blocks. -/
def base (n : Nat) : Nat → Nat
  | 0 => NDADDR
  | i + 1 => base n i + n ^ (i + 1)

def list (n i : Nat) : Slot := ⟨IB i, i + 1, base n i⟩

def slots (n : Nat) : List Slot := (List.range NDADDR).map direct ++ (List.range NIADDR).map (list n)

def slotBlocks (n : Nat) (d : Disk) (x : Slot) : List Entry := under n d.block x.height (d.dinode x.index) x.base

def fileBlocks (n : Nat) (d : Disk) : List Entry := (slots n).flatMap (slotBlocks n d)

def numbers (l : List Entry) : List Nat := l.map Entry.block

variable {v : S5vfs} {error : Nat → Bool} {s t u : State} {n keep : Nat} {before mid behind : List Slot} {x : Slot} {d : Disk}

/-- What a truncation to `keep` blocks is to do. A block is freed when it cannot be reached
from the inode on the disk any more. -/
structure Truncated (n : Nat) (s t : State) (keep : Nat) : Prop where
  kept : fileBlocks n t.disk = (fileBlocks n s.disk).filter fun e => e.first < keep
  freed : ∃ freed : List (Nat × Disk), t.freed = s.freed ++ freed ∧
    (freed.map Prod.fst).Perm (numbers ((fileBlocks n s.disk).filter fun e => keep ≤ e.first)) ∧
    ∀ x ∈ freed, x.1 ∉ numbers (fileBlocks n x.2)

structure CutAt (n : Nat) (s t : State) (mid : List Slot) (keep : Nat) : Prop where
  dinode : t.disk.dinode = s.disk.dinode
  frame : ∀ c, c ∉ numbers (mid.flatMap (slotBlocks n s.disk)) → t.disk.block c = s.disk.block c
  kept : mid.flatMap (slotBlocks n t.disk) = (mid.flatMap (slotBlocks n s.disk)).filter fun e => e.first < keep
  freed : ∃ freed : List (Nat × Disk), t.freed = s.freed ++ freed ∧
    (freed.map Prod.fst).Perm (numbers ((mid.flatMap (slotBlocks n s.disk)).filter fun e => keep ≤ e.first)) ∧
    ∀ x ∈ freed, x.2.dinode = s.disk.dinode ∧ (∀ c, c ∉ numbers (mid.flatMap (slotBlocks n s.disk)) → x.2.block c = s.disk.block c) ∧
      x.1 ∉ numbers (mid.flatMap (slotBlocks n x.2))

theorem CutAt.nothing (n : Nat) (s : State) (keep : Nat) : CutAt n s s [] keep :=
  ⟨rfl, fun _ _ => rfl, rfl, [], (List.append_nil _).symm, .nil, fun x member => by cases member⟩

theorem numbers_slot (n : Nat) (d : Disk) (x : Slot) : numbers (slotBlocks n d x) = blocks n d.block x.height (d.dinode x.index) := under_blocks ..

theorem CutAt.single (cut : Cut n s t x.height (s.disk.dinode x.index) x.base keep) : CutAt n s t [x] keep := by
  obtain ⟨dinode, frame, kept, freed, is, perm, gone⟩ := cut
  have one : ∀ d : Disk, [x].flatMap (slotBlocks n d) = slotBlocks n d x := fun d => List.flatMap_singleton ..
  refine ⟨dinode, fun c outside => frame c ?_, ?_, freed, is, ?_, fun y member => ?_⟩
  · rwa [one, numbers_slot] at outside
  · rw [one, one, slotBlocks, dinode]
    exact kept
  · rw [one]
    exact perm
  · obtain ⟨same, frame', gone'⟩ := gone y member
    rw [one, one, numbers_slot, numbers_slot, same]
    exact ⟨rfl, frame', gone'⟩

theorem under_slot (same : ∀ c ∈ numbers (slotBlocks n s.disk x), d.block c = s.disk.block c) (pointer : d.dinode x.index = s.disk.dinode x.index) :
    slotBlocks n d x = slotBlocks n s.disk x := by
  rw [slotBlocks, slotBlocks, pointer]
  refine under_congr (fun c member => same c ?_) _
  rwa [numbers_slot]

theorem filter_slots_same {l : List Slot} {p : Entry → Bool} (same : ∀ x ∈ l, (slotBlocks n d x).filter p = slotBlocks n d x) :
    (l.flatMap (slotBlocks n d)).filter p = l.flatMap (slotBlocks n d) := by
  rw [List.filter_flatMap]
  exact List.flatMap_congr same

theorem filter_slots_nil {l : List Slot} {p : Entry → Bool} (none : ∀ x ∈ l, (slotBlocks n d x).filter p = []) :
    (l.flatMap (slotBlocks n d)).filter p = [] := by
  rw [List.filter_flatMap]
  exact List.flatMap_eq_nil_iff.mpr none

section assemble
variable (list : slots n = before ++ (mid ++ behind)) (once : (numbers (fileBlocks n s.disk)).Nodup)
  (stays : ∀ x ∈ before ++ mid, d.dinode x.index = s.disk.dinode x.index) (clears : ∀ x ∈ behind, d.dinode x.index = 0)

include list in
theorem fileBlocks_split (d : Disk) :
    fileBlocks n d = before.flatMap (slotBlocks n d) ++ (mid.flatMap (slotBlocks n d) ++ behind.flatMap (slotBlocks n d)) := by
  rw [fileBlocks, list, List.flatMap_append, List.flatMap_append]

include list once in
theorem parts_apart {c : Nat} (member : c ∈ numbers (before.flatMap (slotBlocks n s.disk))) :
    c ∉ numbers (mid.flatMap (slotBlocks n s.disk)) ∧ c ∉ numbers (behind.flatMap (slotBlocks n s.disk)) := by
  rw [fileBlocks_split list, numbers, List.map_append, List.map_append, List.nodup_append] at once
  exact ⟨fun also => once.2.2 c member c (List.mem_append_left _ also) rfl, fun also => once.2.2 c member c (List.mem_append_right _ also) rfl⟩

include list once in
theorem parts_apart_mid {c : Nat} (member : c ∈ numbers (mid.flatMap (slotBlocks n s.disk))) :
    c ∉ numbers (behind.flatMap (slotBlocks n s.disk)) := by
  rw [fileBlocks_split list, numbers, List.map_append, List.map_append, List.nodup_append, List.nodup_append] at once
  exact fun also => once.2.1.2.2 c member c also rfl

include list once in
theorem mid_once : (numbers (mid.flatMap (slotBlocks n s.disk))).Nodup := by
  rw [fileBlocks_split list, numbers, List.map_append, List.map_append, List.nodup_append, List.nodup_append] at once
  exact once.2.1.1

include list once stays clears in
theorem fileBlocks_after (frame : ∀ c, c ∉ numbers (mid.flatMap (slotBlocks n s.disk)) → d.block c = s.disk.block c) :
    fileBlocks n d = before.flatMap (slotBlocks n s.disk) ++ mid.flatMap (slotBlocks n d) := by
  have last : behind.flatMap (slotBlocks n d) = [] := by
    refine List.flatMap_eq_nil_iff.mpr fun x inside => ?_
    rw [slotBlocks, clears x inside, under_hole]
  have first : before.flatMap (slotBlocks n d) = before.flatMap (slotBlocks n s.disk) := by
    refine List.flatMap_congr fun x inside => under_slot (fun c member => frame c ?_) (stays x (List.mem_append_left _ inside))
    refine (parts_apart list once ?_).1
    obtain ⟨e, there, rfl⟩ := List.mem_map.mp member
    exact List.mem_map_of_mem (List.mem_flatMap.mpr ⟨x, inside, there⟩)
  rw [fileBlocks_split list, first, last, List.append_nil]

include list once stays clears in
theorem Truncated.assemble {l : List Nat} {save : Nat → Nat} (positive : 0 < n) (inode : d = ⟨s.disk.block, save⟩)
    (early : ∀ x ∈ before, x.base + n ^ x.height ≤ keep) (late : ∀ x ∈ behind, keep ≤ x.base) (frees : Frees (iupdat save s) u l)
    (same : l.Perm (numbers (behind.flatMap (slotBlocks n s.disk)))) (cut : CutAt n u t mid keep) : Truncated n s t keep := by
  obtain ⟨f, is, perm⟩ := frees
  obtain rfl : u.disk = d := by rw [is, inode]; rfl
  have block : u.disk.block = s.disk.block := by rw [inode]
  have inner : mid.flatMap (slotBlocks n u.disk) = mid.flatMap (slotBlocks n s.disk) :=
    List.flatMap_congr fun x inside => under_slot (fun c _ => congrFun block c) (stays x (List.mem_append_right _ inside))
  obtain ⟨dinode, frame, kept, freed, freed_is, freed_perm, gone⟩ := cut
  rw [inner] at frame kept freed_perm gone
  have split := fileBlocks_split list s.disk
  refine ⟨?_, f.map (fun b => (b, u.disk)) ++ freed, ?_, ?_, fun x member => ?_⟩
  · rw [fileBlocks_after list once (d := t.disk) (fun x inside => by rw [dinode]; exact stays x inside)
      (fun x inside => by rw [dinode]; exact clears x inside)
      (fun c outside => (frame c outside).trans (congrFun block c)), split, kept, List.filter_append, List.filter_append,
      filter_slots_same fun x inside => under_kept positive (early x inside), filter_slots_nil fun x inside => under_gone positive
        (late x inside), List.append_nil]
  · rw [freed_is, is, List.append_assoc]
    rfl
  · rw [split, List.filter_append, List.filter_append, filter_slots_nil fun x inside => under_unfreed positive (early x inside),
      filter_slots_same fun x inside => under_freed positive (late x inside), List.nil_append, numbers, List.map_append, List.map_append]
    rw [show (f.map fun b => (b, u.disk)).map Prod.fst = f by simp [Function.comp_def]]
    exact ((perm.trans same).append freed_perm).trans List.perm_append_comm
  · rcases List.mem_append.mp member with first | second
    · obtain ⟨b, inside, rfl⟩ := List.mem_map.mp first
      have gone' := (perm.trans same).mem_iff.mp inside
      dsimp only
      rw [fileBlocks_after list once stays clears (fun c _ => congrFun block c), inner, numbers, List.map_append, List.mem_append, not_or]
      exact ⟨fun also => (parts_apart list once also).2 gone', fun also => parts_apart_mid list once also gone'⟩
    · obtain ⟨same_inode, frame', gone'⟩ := gone x second
      rw [fileBlocks_after list once (d := x.2) (fun y inside => by rw [same_inode]; exact stays y inside)
        (fun y inside => by rw [same_inode]; exact clears y inside) (fun c outside => (frame' c outside).trans (congrFun block c)),
        numbers, List.map_append, List.mem_append, not_or]
      have inside : x.1 ∈ numbers (mid.flatMap (slotBlocks n s.disk)) := by
        have listed := freed_perm.mem_iff.mp (List.mem_map_of_mem second)
        obtain ⟨e, member, is⟩ := List.mem_map.mp listed
        rw [← is]
        exact List.mem_map_of_mem (List.mem_filter.mp member).1
      exact ⟨fun also => (parts_apart list once also).1 inside, gone'⟩

end assemble

variable {save : Nat → Nat} {i q m : Nat} {last : Int}

theorem shrink_direct (less : i < NDADDR) : shrink v last save i = if (i : Int) > last then 0 else save i := if_pos less

theorem shrink_list (v : S5vfs) (last : Int) (save : Nat → Nat) (i : Nat) :
    shrink v last save (IB i) = if lastiblock v last i < 0 then 0 else save (IB i) := by
  unfold shrink
  rw [if_neg (by unfold IB; omega), show IB i - NDADDR = i by unfold IB; omega]

theorem freeLists_cons (v : S5vfs) (error : Nat → Bool) (last : Int) (save : Nat → Nat) (i : Nat) (rest : List Nat) (s : State) :
    freeLists v error last save (i :: rest) s =
      if lastiblock v last i ≥ 0 then (freeList v error last save i s, true) else freeLists v error last save rest (freeList v error last save i s) := rfl

section lists
variable (good : ∀ b, error b = false)

include good in
theorem freeList_whole (save : Nat → Nat) (negative : lastiblock v last i < 0) (s : State) :
    Frees s (freeList v error last save i s) (blocks v.vfsNindir s.disk.block (i + 1) (save (IB i))) := by
  unfold freeList
  rw [if_pos negative]
  dsimp only
  by_cases some : save (IB i) ≠ 0
  · rw [if_pos some, if_pos (by decide : (-1 : Int) < 0), blocks_head some]
    exact (s5indirtrunc_whole good i (save (IB i)) s some).blkfree _
  · rw [if_neg some, not_not.mp some, blocks_hole]
    exact .refl s

include good in
theorem freeList_cut (base : Nat) {part : Nat} (is : lastiblock v last i = part) (within : part < v.vfsNindir ^ (i + 1))
    (once : (blocks v.vfsNindir s.disk.block (i + 1) (save (IB i))).Nodup) :
    Cut v.vfsNindir s (freeList v error last save i s) (i + 1) (save (IB i)) base (base + part + 1) := by
  unfold freeList
  rw [is, if_neg (by omega : ¬ (part : Int) < 0)]
  dsimp only
  by_cases some : save (IB i) ≠ 0
  · rw [if_pos some, if_neg (by omega : ¬ (part : Int) < 0)]
    exact s5indirtrunc_cuts good i (save (IB i)) s base part some within once
  · rw [if_neg some, not_not.mp some]
    exact .hole ..

end lists

theorem freeDirect_discard (last : Int) (save : Nat → Nat) (m : Nat) (s : State) :
    freeDirect last save m s = (S5Trunc.discard (fun _ _ s => s) save last m s).1 := by
  induction m generalizing s with
  | zero => rfl
  | succ m ih =>
    unfold freeDirect S5Trunc.discard
    split
    · exact ih _
    · rfl

theorem freeDirect_frees (save : Nat → Nat) (q : Nat) (order : q ≤ NDADDR) (s : State) :
    Frees s (freeDirect ((q : Int) - 1) save NDADDR s) ((List.range' q (NDADDR - q)).flatMap fun i => blocks n s.disk.block 0 (save i)) := by
  rw [freeDirect_discard]
  exact (discard_frees (whole_data n) save q NDADDR order s).1

theorem numbers_flatMap (l : List Slot) : numbers (l.flatMap (slotBlocks n d)) = l.flatMap fun x => blocks n d.block x.height (d.dinode x.index) := by
  rw [numbers, List.map_flatMap]
  exact List.flatMap_congr fun x _ => numbers_slot n d x

theorem base_mono (n : Nat) : Monotone (base n) := monotone_nat_of_le_succ fun _ => Nat.le_add_right ..

theorem lastiblock_base (v : S5vfs) (last : Int) (few : i < NIADDR) : lastiblock v last i = last - base v.vfsNindir i := by
  have cases : i = 0 ∨ i = 1 ∨ i = 2 := by
    unfold NIADDR at few
    omega
  rcases cases with rfl | rfl | rfl
  · simp [lastiblock, base]
  · simp [lastiblock, base]
    omega
  · simp [lastiblock, base]
    ring

section run
variable (good : ∀ b, error b = false)

include good in
theorem freeLists_goes (save : Nat → Nat) {l : List Nat} (negative : ∀ i ∈ l, lastiblock v last i < 0) (rest : List Nat) (s : State) :
    ∃ t, Frees s t (l.flatMap fun i => blocks v.vfsNindir s.disk.block (i + 1) (save (IB i))) ∧
      freeLists v error last save (l ++ rest) s = freeLists v error last save rest t := by
  induction l generalizing s with
  | nil => exact ⟨s, .refl s, rfl⟩
  | cons i l ih =>
    have first := freeList_whole good save (negative i List.mem_cons_self) s
    obtain ⟨t, frees, same⟩ := ih (fun j member => negative j (List.mem_cons_of_mem _ member)) (freeList v error last save i s)
    rw [first.disk] at frees
    refine ⟨t, ?_, ?_⟩
    · rw [List.flatMap_cons]
      exact first.trans frees
    · rw [List.cons_append, freeLists_cons, if_neg (by have := negative i List.mem_cons_self; omega), same]

def keepBlocks (v : S5vfs) (lStart : Nat) : Nat := (lStart + 2 ^ v.vfsBshift - 1) >>> v.vfsBshift

variable {lStart : Nat} (once : (numbers (fileBlocks v.vfsNindir s.disk)).Nodup)

include good once in
theorem list_truncated (few : i < NIADDR) (low : base v.vfsNindir i < keepBlocks v lStart) (high : keepBlocks v lStart ≤ base v.vfsNindir (i + 1)) :
    Truncated v.vfsNindir s (s5freesp v error lStart s) (keepBlocks v lStart) := by
  unfold s5freesp
  rw [show lastblock v lStart = (keepBlocks v lStart : Int) - 1 from rfl]
  generalize keepBlocks v lStart = keep at low high ⊢
  have bound : NDADDR ≤ base v.vfsNindir i := base_mono v.vfsNindir (Nat.zero_le i)
  have step : base v.vfsNindir (i + 1) = base v.vfsNindir i + v.vfsNindir ^ (i + 1) := rfl
  have order : [TRIPLE, DOUBLE, SINGLE] = (List.range' (i + 1) (NIADDR - (i + 1))).reverse ++ i :: (List.range i).reverse := by
    have cases : i = 0 ∨ i = 1 ∨ i = 2 := by
      unfold NIADDR at few
      omega
    rcases cases with rfl | rfl | rfl <;> rfl
  have whole : slots v.vfsNindir = ((List.range NDADDR).map direct ++ (List.range i).map (list v.vfsNindir)) ++
      ([list v.vfsNindir i] ++ (List.range' (i + 1) (NIADDR - (i + 1))).map (list v.vfsNindir)) := by
    rw [slots, range_split few, List.map_append, List.map_cons, List.append_assoc]
    rfl
  have negative : ∀ j ∈ (List.range' (i + 1) (NIADDR - (i + 1))).reverse, lastiblock v ((keep : Int) - 1) j < 0 := by
    intro j member
    obtain ⟨after, within⟩ := List.mem_range'_1.mp (List.mem_reverse.mp member)
    have := base_mono v.vfsNindir after
    rw [lastiblock_base v _ (by omega : j < NIADDR)]
    omega
  have reached : ∀ j ≤ i, ¬ lastiblock v ((keep : Int) - 1) j < 0 := by
    intro j early
    have := base_mono v.vfsNindir early
    rw [lastiblock_base v _ (Nat.lt_of_le_of_lt early few)]
    omega
  have part : lastiblock v ((keep : Int) - 1) i = (keep - 1 - base v.vfsNindir i : Nat) := by
    rw [lastiblock_base v _ few]
    omega
  have pointers : ∀ j, shrink v ((keep : Int) - 1) s.disk.dinode (IB j) = if lastiblock v ((keep : Int) - 1) j < 0 then 0 else s.disk.dinode (IB j) :=
    shrink_list v _ _
  have directs : ∀ j < NDADDR, shrink v ((keep : Int) - 1) s.disk.dinode j = s.disk.dinode j := by
    intro j less
    rw [shrink_direct less, if_neg (by omega)]
  dsimp only
  generalize shrink v ((keep : Int) - 1) s.disk.dinode = w at pointers directs ⊢
  obtain ⟨u, frees, same⟩ := freeLists_goes good s.disk.dinode negative (i :: (List.range i).reverse) (iupdat w s)
  rw [order, same, freeLists_cons, if_pos (Int.not_lt.mp (reached i le_rfl))]
  dsimp only
  rw [if_pos rfl]
  have disk : u.disk = ⟨s.disk.block, w⟩ := frees.disk
  have stays : ∀ x ∈ ((List.range NDADDR).map direct ++ (List.range i).map (list v.vfsNindir)) ++ [list v.vfsNindir i],
      u.disk.dinode x.index = s.disk.dinode x.index := by
    intro x member
    rw [disk]
    rcases List.mem_append.mp member with before | mid
    · rcases List.mem_append.mp before with first | second
      · obtain ⟨j, less, rfl⟩ := List.mem_map.mp first
        exact directs j (List.mem_range.mp less)
      · obtain ⟨j, less, rfl⟩ := List.mem_map.mp second
        exact (pointers j).trans (if_neg (reached j (Nat.le_of_lt (List.mem_range.mp less))))
    · obtain rfl := List.mem_singleton.mp mid
      exact (pointers i).trans (if_neg (reached i le_rfl))
  have clears : ∀ x ∈ (List.range' (i + 1) (NIADDR - (i + 1))).map (list v.vfsNindir), u.disk.dinode x.index = 0 := by
    intro x member
    obtain ⟨j, inside, rfl⟩ := List.mem_map.mp member
    rw [disk]
    exact (pointers j).trans (if_pos (negative j (List.mem_reverse.mpr inside)))
  have pointer : u.disk.dinode (IB i) = s.disk.dinode (IB i) := stays (list v.vfsNindir i) (by simp)
  have single : (blocks v.vfsNindir u.disk.block (i + 1) (s.disk.dinode (IB i))).Nodup := by
    have once := mid_once whole once
    rw [numbers_flatMap, List.flatMap_singleton] at once
    rwa [disk]
  have cut : CutAt v.vfsNindir u (freeList v error ((keep : Int) - 1) s.disk.dinode i u) [list v.vfsNindir i] keep := by
    refine CutAt.single ?_
    have cut := freeList_cut good (base v.vfsNindir i) part (by omega) single
    rw [show base v.vfsNindir i + (keep - 1 - base v.vfsNindir i) + 1 = keep by omega, ← pointer] at cut
    exact cut
  refine Truncated.assemble whole once stays clears v.some disk (fun x member => ?_) (fun x member => ?_) frees ?_ cut
  · rcases List.mem_append.mp member with first | second
    · obtain ⟨j, less, rfl⟩ := List.mem_map.mp first
      have := List.mem_range.mp less
      change j + 1 ≤ keep
      omega
    · obtain ⟨j, less, rfl⟩ := List.mem_map.mp second
      have : base v.vfsNindir (j + 1) ≤ base v.vfsNindir i := base_mono v.vfsNindir (List.mem_range.mp less)
      change base v.vfsNindir (j + 1) ≤ keep
      omega
  · obtain ⟨j, inside, rfl⟩ := List.mem_map.mp member
    have := base_mono v.vfsNindir (List.mem_range'_1.mp inside).1
    change keep ≤ base v.vfsNindir j
    omega
  · rw [numbers_flatMap, List.flatMap_map]
    exact (List.reverse_perm _).flatMap_right _

include good once in
theorem direct_truncated (few : keepBlocks v lStart ≤ NDADDR) : Truncated v.vfsNindir s (s5freesp v error lStart s) (keepBlocks v lStart) := by
  unfold s5freesp
  rw [show lastblock v lStart = (keepBlocks v lStart : Int) - 1 from rfl]
  generalize keepBlocks v lStart = keep at few ⊢
  have order : [TRIPLE, DOUBLE, SINGLE] = (List.range NIADDR).reverse ++ [] := rfl
  have whole : slots v.vfsNindir = (List.range keep).map direct ++
      ([] ++ ((List.range' keep (NDADDR - keep)).map direct ++ (List.range NIADDR).map (list v.vfsNindir))) := by
    have joined : List.range keep ++ List.range' keep (NDADDR - keep) = List.range NDADDR := by
      have append := List.range'_append_1 (s := 0) (m := keep) (n := NDADDR - keep)
      rwa [Nat.zero_add, Nat.add_sub_of_le few, ← List.range_eq_range', ← List.range_eq_range'] at append
    rw [slots, ← joined, List.map_append, List.append_assoc]
    rfl
  have bound : ∀ j, NDADDR ≤ base v.vfsNindir j := fun j => base_mono v.vfsNindir (Nat.zero_le j)
  have negative : ∀ j ∈ (List.range NIADDR).reverse, lastiblock v ((keep : Int) - 1) j < 0 := by
    intro j member
    have := bound j
    rw [lastiblock_base v _ (List.mem_range.mp (List.mem_reverse.mp member))]
    omega
  have pointers : ∀ j < NIADDR, shrink v ((keep : Int) - 1) s.disk.dinode (IB j) = 0 := fun j less =>
    (shrink_list v _ _ j).trans (if_pos (negative j (List.mem_reverse.mpr (List.mem_range.mpr less))))
  have directs : ∀ j < NDADDR, shrink v ((keep : Int) - 1) s.disk.dinode j = if j < keep then s.disk.dinode j else 0 := by
    intro j less
    rw [shrink_direct less]
    split <;> split <;> first | rfl | omega
  dsimp only
  generalize shrink v ((keep : Int) - 1) s.disk.dinode = w at pointers directs ⊢
  obtain ⟨u, frees, same⟩ := freeLists_goes good s.disk.dinode negative [] (iupdat w s)
  rw [order, same, freeLists]
  dsimp only
  rw [if_neg Bool.false_ne_true]
  have last := frees.trans (freeDirect_frees (n := v.vfsNindir) s.disk.dinode keep few u)
  rw [frees.disk] at last
  have disk : (freeDirect ((keep : Int) - 1) s.disk.dinode NDADDR u).disk = ⟨s.disk.block, w⟩ := last.disk
  refine Truncated.assemble whole once (fun x member => ?_) (fun x member => ?_) v.some disk (fun x member => ?_)
    (fun x member => ?_) last ?_ (.nothing ..)
  · rw [List.append_nil] at member
    obtain ⟨j, less, rfl⟩ := List.mem_map.mp member
    have less := List.mem_range.mp less
    rw [disk]
    exact (directs j (by omega)).trans (if_pos less)
  · rw [disk]
    rcases List.mem_append.mp member with first | second
    · obtain ⟨j, inside, rfl⟩ := List.mem_map.mp first
      obtain ⟨after, within⟩ := List.mem_range'_1.mp inside
      exact (directs j (by omega)).trans (if_neg (by omega))
    · obtain ⟨j, less, rfl⟩ := List.mem_map.mp second
      exact pointers j (List.mem_range.mp less)
  · obtain ⟨j, less, rfl⟩ := List.mem_map.mp member
    exact List.mem_range.mp less
  · rcases List.mem_append.mp member with first | second
    · obtain ⟨j, inside, rfl⟩ := List.mem_map.mp first
      exact (List.mem_range'_1.mp inside).1
    · obtain ⟨j, less, rfl⟩ := List.mem_map.mp second
      exact few.trans (bound j)
  · rw [numbers_flatMap, List.flatMap_append, List.flatMap_map, List.flatMap_map]
    exact (List.perm_append_comm).trans (((List.reverse_perm _).flatMap_right _).append_left _)

end run

section reached
variable {b lbn : Nat}

theorem mem_direct (positive : 0 < n) (less : lbn < NDADDR) : ⟨b, 0, lbn⟩ ∈ fileBlocks n d ↔ b ≠ 0 ∧ d.dinode lbn = b := by
  have at_slot := @mem_under n 0 (d.dinode lbn) lbn d.block b 0 positive (Nat.pow_pos positive)
  rw [Nat.add_zero, fetch] at at_slot
  rw [← at_slot, fileBlocks, slots, List.flatMap_append, List.mem_append, List.mem_flatMap, List.mem_flatMap]
  constructor
  · rintro (⟨x, inside, member⟩ | ⟨x, inside, member⟩)
    · obtain ⟨j, -, rfl⟩ := List.mem_map.mp inside
      have range : j ≤ lbn ∧ lbn < j + n ^ 0 := under_range positive member
      rw [pow_zero] at range
      obtain rfl : j = lbn := by omega
      exact member
    · obtain ⟨j, -, rfl⟩ := List.mem_map.mp inside
      have range : base n j ≤ lbn ∧ lbn < base n j + n ^ (j + 1) := under_range positive member
      have := base_mono n (Nat.zero_le j)
      have : base n 0 = NDADDR := rfl
      omega
  · exact fun member => .inl ⟨direct lbn, List.mem_map_of_mem (List.mem_range.mpr less), member⟩

theorem mem_list (positive : 0 < n) (few : i < NIADDR) (low : base n i ≤ lbn) (high : lbn < base n (i + 1)) :
    ⟨b, 0, lbn⟩ ∈ fileBlocks n d ↔ b ≠ 0 ∧ fetch n d.block (i + 1) (d.dinode (IB i)) (lbn - base n i) = b := by
  have step : base n (i + 1) = base n i + n ^ (i + 1) := rfl
  have at_slot := @mem_under n (i + 1) (d.dinode (IB i)) (base n i) d.block b (lbn - base n i) positive (by omega)
  rw [Nat.add_sub_of_le low] at at_slot
  rw [← at_slot, fileBlocks, slots, List.flatMap_append, List.mem_append, List.mem_flatMap, List.mem_flatMap]
  constructor
  · rintro (⟨x, inside, member⟩ | ⟨x, inside, member⟩)
    · obtain ⟨j, less, rfl⟩ := List.mem_map.mp inside
      have less := List.mem_range.mp less
      have range : j ≤ lbn ∧ lbn < j + n ^ 0 := under_range positive member
      rw [pow_zero] at range
      have : base n 0 ≤ base n i := base_mono n (Nat.zero_le i)
      have : base n 0 = NDADDR := rfl
      omega
    · obtain ⟨j, -, rfl⟩ := List.mem_map.mp inside
      have range : base n j ≤ lbn ∧ lbn < base n (j + 1) := under_range positive member
      obtain rfl : j = i := by
        rcases Nat.lt_trichotomy j i with less | same | greater
        · have : base n (j + 1) ≤ base n i := base_mono n less
          omega
        · exact same
        · have : base n (i + 1) ≤ base n j := base_mono n greater
          omega
      exact member
  · exact fun member => .inr ⟨list n i, List.mem_map_of_mem (List.mem_range.mpr few), member⟩

theorem mem_fileBlocks (positive : 0 < n) (room : lbn < base n NIADDR) : ⟨b, 0, lbn⟩ ∈ fileBlocks n d ↔ b ≠ 0 ∧ bmap n d lbn = b := by
  have zero : base n 0 = NDADDR := rfl
  have one : base n 1 = base n 0 + n ^ 1 := rfl
  rw [pow_one] at one
  have two : base n 2 = base n 1 + n ^ 2 := rfl
  have three : base n NIADDR = base n 2 + n ^ 3 := rfl
  unfold bmap
  dsimp only
  split
  · next less => exact mem_direct positive less
  split
  · next single =>
    rw [mem_list positive (i := 0) (by decide) (show base n 0 ≤ lbn by omega) (show lbn < base n 1 by omega), zero]
    rfl
  split
  · next double =>
    rw [mem_list positive (i := 1) (by decide) (show base n 1 ≤ lbn by omega) (show lbn < base n 2 by omega), one, zero, Nat.sub_add_eq]
    rfl
  split
  · next triple =>
    rw [mem_list positive (i := 2) (by decide) (show base n 2 ≤ lbn by omega) (show lbn < base n NIADDR by omega), two, one,
      zero, Nat.sub_add_eq, Nat.sub_add_eq]
    rfl
  · omega

theorem Truncated.reached (truncated : Truncated n s t keep) (positive : 0 < n) (room : keep ≤ base n NIADDR) (before : lbn < keep) :
    bmap n t.disk lbn = bmap n s.disk lbn := by
  have same : ∀ b, b ≠ 0 ∧ bmap n t.disk lbn = b ↔ b ≠ 0 ∧ bmap n s.disk lbn = b := by
    intro b
    rw [← mem_fileBlocks positive (before.trans_le room), ← mem_fileBlocks positive (before.trans_le room), truncated.kept, List.mem_filter]
    exact and_iff_left (decide_eq_true before)
  by_cases hole : bmap n t.disk lbn = 0
  · by_contra other
    exact other (((same _).mpr ⟨fun none => other (hole.trans none.symm), rfl⟩).2)
  · exact ((same _).mp ⟨hole, rfl⟩).2.symm

end reached

/-- Where the file has no more blocks than its lists have room for. -/
theorem s5freesp_truncates {v : S5vfs} {error : Nat → Bool} {s : State} {lStart iSize : Nat} (good : ∀ b, error b = false)
    (once : (numbers (fileBlocks v.vfsNindir s.disk)).Nodup) (room : iSize ≤ 2 ^ v.vfsBshift * base v.vfsNindir NIADDR) (less : lStart < iSize) :
    Truncated v.vfsNindir s (s5freesp v error lStart s) (keepBlocks v lStart) ∧
      ∀ lbn < keepBlocks v lStart, bmap v.vfsNindir (s5freesp v error lStart s).disk lbn = bmap v.vfsNindir s.disk lbn := by
  have high : keepBlocks v lStart ≤ base v.vfsNindir NIADDR := by
    rw [keepBlocks, Nat.shiftRight_eq_div_pow]
    refine Nat.le_of_lt_succ (Nat.div_lt_of_lt_mul ?_)
    rw [Nat.mul_succ]
    have := Nat.two_pow_pos v.vfsBshift
    omega
  have zero : base v.vfsNindir 0 = NDADDR := rfl
  have place : keepBlocks v lStart ≤ NDADDR ∨ ∃ i < NIADDR, base v.vfsNindir i < keepBlocks v lStart ∧
    keepBlocks v lStart ≤ base v.vfsNindir (i + 1) := by
    by_cases few : keepBlocks v lStart ≤ NDADDR
    · exact .inl few
    · by_cases single : keepBlocks v lStart ≤ base v.vfsNindir 1
      · exact .inr ⟨0, by decide, by omega, single⟩
      · by_cases double : keepBlocks v lStart ≤ base v.vfsNindir 2
        · exact .inr ⟨1, by decide, by omega, double⟩
        · exact .inr ⟨2, by decide, by omega, high⟩
  have truncated : Truncated v.vfsNindir s (s5freesp v error lStart s) (keepBlocks v lStart) := by
    rcases place with few | ⟨i, inside, low, high⟩
    · exact direct_truncated good once few
    · exact list_truncated good once inside low high
  exact ⟨truncated, fun lbn before => truncated.reached v.some high before⟩

def small : S5vfs := ⟨9, 128, by decide⟩

/-- The SINGLE list is block 20, which has a hole and then block 21; the DOUBLE list is block
30 with block 31, which has the blocks 32 and 33. -/
def disk : Disk :=
  ⟨fun b i => if i = 0 then (if b = 30 then 31 else if b = 31 then 32 else 0) else if i = 1 then (if b = 20 then 21 else if b = 31 then 33 else 0) else 0,
   fun i => if i = 10 then 20 else if i = 11 then 30 else 0⟩

theorem s5freesp_truncates_small : Truncated 128 ⟨disk, []⟩ (s5freesp small (fun _ => false) 5200 ⟨disk, []⟩) 11 :=
  (@s5freesp_truncates small (fun _ => false) ⟨disk, []⟩ 5200 71168 (fun _ => rfl) (by decide +kernel) (by decide) (by decide)).1

/-- A block of pointers stays when the blocks under it that are to be kept are holes, a block
is freed while a pointer to it is in a block that goes as well, and a block that cannot be
read hides those under it. -/
theorem pointers_left :
    (numbers (fileBlocks 128 disk)).Nodup ∧ keepBlocks small 5200 = 11 ∧
    (under 128 disk.block 1 20 10 = [⟨20, 1, 10⟩, ⟨21, 0, 11⟩] ∧ 20 ∉ (s5freesp small (fun _ => false) 5200 ⟨disk, []⟩).freed.map Prod.fst) ∧
    (∃ x ∈ (s5freesp small (fun _ => false) 5200 ⟨disk, []⟩).freed, x.1 = 32 ∧ x.2.block 31 0 = 32) ∧
    (bmap 128 disk 138 = 32 ∧ 32 ∉ (s5freesp small (fun b => b == 31) 5200 ⟨disk, []⟩).freed.map Prod.fst) := by
  decide +kernel

end Svr4.Proofs.S5TruncFile
