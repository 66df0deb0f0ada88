import Svr4.S5Ialloc

/-! What the cache holds, and what a scan of the i-list puts there. -/

namespace Svr4.Proofs.S5InodeScan
open Function S5Ialloc

variable {v : S5vfs} {s : Filsys} {f g : Nat → Nat} {l : List Nat} {n k x y ino : Nat}

/-- How many inodes there are; the first one is number one. -/
def inodes (v : S5vfs) : Nat := v.vfsInopb * (v.sIsize - 2)

/-- The live part of the cache, from its top down to the first zero. -/
def live (f : Nat → Nat) : Nat → List Nat
  | 0 => []
  | n + 1 => if f n = 0 then [] else f n :: live f n

def freeFrom (v : S5vfs) (s : Filsys) (start : Nat) : List Nat :=
  (List.range' start (inodes v + 1 - start)).filter fun x => s.diMode x = 0

theorem inopb_pos : 0 < v.vfsInopb := Nat.two_pow_pos _

theorem inos_eq (v : S5vfs) (x : Nat) : FsINOS v x = x / v.vfsInopb * v.vfsInopb + 1 := by
  rw [FsINOS, Nat.shiftRight_eq_div_pow, Nat.shiftLeft_eq, S5vfs.vfsInopb]

theorem itod_eq (v : S5vfs) (x : Nat) : FsITOD v x = (x + (2 * v.vfsInopb - 1)) / v.vfsInopb := by
  rw [FsITOD, Nat.shiftRight_eq_div_pow, S5vfs.vfsInopb]

theorem inos_le (v : S5vfs) (x : Nat) : FsINOS v x ≤ x + 1 := by
  rw [inos_eq]
  exact Nat.succ_le_succ (Nat.div_mul_le_self x _)

theorem inos_le_self (inside : x % v.vfsInopb ≠ 0) : FsINOS v x ≤ x := by
  rw [inos_eq]
  have parts := Nat.div_add_mod' x v.vfsInopb
  omega

theorem inos_mono (order : x ≤ y) : FsINOS v x ≤ FsINOS v y := by
  rw [inos_eq, inos_eq]
  exact Nat.succ_le_succ (Nat.mul_le_mul_right _ (Nat.div_le_div_right order))

theorem itod_mono (order : x ≤ y) : FsITOD v x ≤ FsITOD v y := by
  rw [itod_eq, itod_eq]
  exact Nat.div_le_div_right (by omega)

theorem itod_inos (v : S5vfs) (x : Nat) : FsITOD v x ≤ FsITOD v (FsINOS v x) := by
  have positive := inopb_pos (v := v)
  rw [itod_eq, itod_eq, inos_eq]
  have parts := Nat.div_add_mod' x v.vfsInopb
  have small := Nat.mod_lt x positive
  rw [show x / v.vfsInopb * v.vfsInopb + 1 + (2 * v.vfsInopb - 1) = (x / v.vfsInopb + 2) * v.vfsInopb by rw [Nat.add_mul]; omega,
    Nat.mul_div_cancel _ positive]
  apply Nat.le_of_lt_succ
  apply (Nat.div_lt_iff_lt_mul positive).mpr
  rw [Nat.succ_eq_add_one, Nat.add_mul, Nat.add_mul]
  omega

theorem scan_size (v : S5vfs) (x : Nat) : (v.sIsize - FsITOD v (FsINOS v x)) * v.vfsInopb = inodes v + 1 - FsINOS v x := by
  have positive := inopb_pos (v := v)
  rw [itod_eq, inos_eq, inodes,
    show x / v.vfsInopb * v.vfsInopb + 1 + (2 * v.vfsInopb - 1) = (x / v.vfsInopb + 2) * v.vfsInopb by rw [Nat.add_mul]; omega,
    Nat.mul_div_cancel _ positive, Nat.add_sub_add_right, Nat.sub_mul, Nat.add_mul, Nat.mul_sub, Nat.mul_comm v.vfsInopb v.sIsize]
  omega

theorem live_congr (same : ∀ k < n, g k = f k) : live g n = live f n := by
  induction n with
  | zero => rfl
  | succ n ih => rw [live, live, same n (Nat.lt_succ_self n), ih (fun k less => same k (Nat.lt_succ_of_lt less))]

theorem mem_live (full : ∀ k < n, f k ≠ 0) : x ∈ live f n ↔ ∃ k < n, f k = x := by
  induction n with
  | zero => simp [live]
  | succ n ih =>
    rw [live, if_neg (full n (Nat.lt_succ_self n)), List.mem_cons, ih (fun k less => full k (Nat.lt_succ_of_lt less))]
    constructor
    · rintro (rfl | ⟨k, less, rfl⟩)
      · exact ⟨n, Nat.lt_succ_self n, rfl⟩
      · exact ⟨k, Nat.lt_succ_of_lt less, rfl⟩
    · rintro ⟨k, less, rfl⟩
      rcases Nat.lt_or_eq_of_le (Nat.le_of_lt_succ less) with lower | rfl
      · exact .inr ⟨k, lower, rfl⟩
      · exact .inl rfl

def pushes : Filsys → List Nat → Filsys
  | s, [] => s
  | s, x :: l => pushes { s with sNinode := s.sNinode - 1, sInode := update s.sInode (s.sNinode - 1) x } l

theorem pushes_append (s : Filsys) (l m : List Nat) : pushes s (l ++ m) = pushes (pushes s l) m := by
  induction l generalizing s with
  | nil => rfl
  | cons x l ih => exact ih _

theorem pushes_fields (s : Filsys) (l : List Nat) : (pushes s l).sNinode = s.sNinode - l.length ∧ (pushes s l).diMode = s.diMode ∧
    (pushes s l).sTinode = s.sTinode := by
  induction l generalizing s with
  | nil => exact ⟨rfl, rfl, rfl⟩
  | cons x l ih =>
    obtain ⟨ninode, mode, tinode⟩ := ih { s with sNinode := s.sNinode - 1, sInode := update s.sInode (s.sNinode - 1) x }
    refine ⟨?_, mode, tinode⟩
    rw [pushes, ninode, List.length_cons]
    dsimp only
    omega

theorem pushes_above (room : l.length ≤ s.sNinode) (above : s.sNinode ≤ k) : (pushes s l).sInode k = s.sInode k := by
  induction l generalizing s with
  | nil => rfl
  | cons x l ih =>
    rw [List.length_cons] at room
    rw [pushes, ih (by dsimp only; omega) (by dsimp only; omega)]
    exact update_of_ne (by omega) ..

theorem live_pushes (room : l.length ≤ s.sNinode) (some : ∀ x ∈ l, x ≠ 0)
    (same : ∀ k, s.sNinode - l.length ≤ k → k < s.sNinode → g k = (pushes s l).sInode k) :
    live g s.sNinode = l ++ live g (s.sNinode - l.length) := by
  induction l generalizing s with
  | nil => rfl
  | cons x l ih =>
    rw [List.length_cons] at *
    have step := ih (s := { s with sNinode := s.sNinode - 1, sInode := update s.sInode (s.sNinode - 1) x }) (by dsimp only; omega)
      (fun y member => some y (by simp [member])) (fun k low high => same k (by dsimp only at low; omega) (by dsimp only at high; omega))
    dsimp only at step
    have top : g (s.sNinode - 1) = x := by
      rw [same _ (by omega) (by omega), pushes, pushes_above (by dsimp only; omega) (by dsimp only; omega)]
      exact update_self ..
    obtain ⟨n, is⟩ := Nat.exists_eq_add_of_le' (show 1 ≤ s.sNinode by omega)
    rw [is] at step top ⊢
    rw [Nat.add_sub_cancel] at step top
    rw [live, top, if_neg (some x (by simp)), step, List.cons_append, show n + 1 - (l.length + 1) = n - l.length by omega]

def freeIn (s : Filsys) (ino n : Nat) : List Nat := (List.range' ino n).filter fun x => s.diMode x = 0

theorem freeIn_succ (s : Filsys) (ino n : Nat) :
    freeIn s ino (n + 1) = if s.diMode ino = 0 then ino :: freeIn s (ino + 1) n else freeIn s (ino + 1) n := by
  rw [freeIn, List.range'_succ, List.filter_cons]
  simp only [decide_eq_true_eq]
  rfl

theorem freeIn_add (s : Filsys) (ino n k : Nat) : freeIn s ino (n + k) = freeIn s ino n ++ freeIn s (ino + n) k := by
  have joined := @List.range'_append ino n k 1
  rw [one_mul] at joined
  rw [freeIn, ← joined, List.filter_append]
  rfl

theorem scanBlock_eq (s : Filsys) (n ino : Nat) (small : ino + n ≤ 65535) : (scanBlock n s ino).1 = pushes s ((freeIn s ino n).take s.sNinode) ∧
    ((scanBlock n s ino).1.sNinode ≠ 0 → (scanBlock n s ino).2 = ino + n) := by
  induction n generalizing s ino with
  | zero => exact ⟨by simp [scanBlock, freeIn, pushes], fun _ => rfl⟩
  | succ n ih =>
    unfold scanBlock
    by_cases full : s.sNinode = 0
    · rw [if_pos full, full, List.take_zero]
      exact ⟨rfl, fun room => absurd rfl room⟩
    rw [if_neg full, freeIn_succ, Nat.mod_eq_of_lt (show ino + 1 < 65536 by omega), show ino + (n + 1) = ino + 1 + n by omega]
    by_cases free : s.diMode ino = 0
    · obtain ⟨rest, last⟩ := ih { s with sNinode := s.sNinode - 1, sInode := update s.sInode (s.sNinode - 1) ino } (ino + 1) (by omega)
      obtain ⟨k, is⟩ := Nat.exists_eq_add_of_le' (show 1 ≤ s.sNinode by omega)
      rw [if_pos free, if_pos free]
      refine ⟨?_, last⟩
      rw [rest]
      dsimp only
      rw [is, List.take_succ_cons, pushes, is]
      rfl
    · rw [if_neg free, if_neg free]
      exact ih s (ino + 1) (by omega)

theorem scan_eq (s : Filsys) (n ino : Nat) (small : ino + n * v.vfsInopb ≤ 65535) :
    scan v n s ino = pushes s ((freeIn s ino (n * v.vfsInopb)).take s.sNinode) := by
  induction n generalizing s ino with
  | zero =>
    rw [Nat.zero_mul]
    simp [scan, freeIn, pushes]
  | succ n ih =>
    rw [Nat.succ_mul] at small
    obtain ⟨block, next⟩ := scanBlock_eq s v.vfsInopb ino (by omega)
    obtain ⟨ninode, mode, _⟩ := pushes_fields s ((freeIn s ino v.vfsInopb).take s.sNinode)
    unfold scan
    dsimp only
    rw [Nat.succ_mul, Nat.add_comm (n * v.vfsInopb), freeIn_add, List.take_append]
    split
    · next full =>
      rw [block, ninode, List.length_take] at full
      rw [block, show s.sNinode - (freeIn s ino v.vfsInopb).length = 0 by omega, List.take_zero, List.append_nil]
    · next more =>
      rw [next more, ih _ _ (by omega), block, ninode, pushes_append]
      rw [block, ninode, List.length_take] at more
      rw [List.length_take, show min s.sNinode (freeIn s ino v.vfsInopb).length = (freeIn s ino v.vfsInopb).length by omega]
      have same : freeIn (pushes s ((freeIn s ino v.vfsInopb).take s.sNinode)) (ino + v.vfsInopb) (n * v.vfsInopb) =
          freeIn s (ino + v.vfsInopb) (n * v.vfsInopb) := by
        generalize pushes s ((freeIn s ino v.vfsInopb).take s.sNinode) = t at mode
        rw [freeIn, freeIn, mode]
      rw [same]

theorem live_full (full : (live f n).length = n) : ∀ k < n, f k ≠ 0 := by
  induction n with
  | zero => exact fun k less => absurd less (Nat.not_lt_zero k)
  | succ n ih =>
    rw [live] at full
    split at full
    · exact absurd full.symm (Nat.succ_ne_zero n)
    next top =>
    intro k less
    rcases Nat.lt_or_eq_of_le (Nat.le_of_lt_succ less) with lower | rfl
    · exact ih (Nat.succ.inj full) k lower
    · exact top

theorem live_bottom (full : (live f (n + 1)).length = n + 1) : (live f (n + 1))[n]? = some (f 0) := by
  induction n with
  | zero => rw [live, if_neg (live_full full 0 (Nat.lt_succ_self 0))]; rfl
  | succ n ih =>
    have top := live_full full (n + 1) (Nat.lt_succ_self _)
    rw [live, if_neg top] at full ⊢
    rw [List.getElem?_cons_succ]
    exact ih (Nat.succ.inj full)

theorem live_zeros (room : l.length < s.sNinode) (some : ∀ x ∈ l, x ≠ 0) :
    live (update (update (pushes s l).sInode (s.sNinode - l.length - 1) 0) 0 0) s.sNinode = l := by
  obtain ⟨n, is⟩ := Nat.exists_eq_add_of_le' (show 1 ≤ s.sNinode - l.length by omega)
  rw [live_pushes (le_of_lt room) some, is, Nat.add_sub_cancel, live, if_pos, List.append_nil]
  · by_cases bottom : n = 0
    · rw [bottom, update_self]
    · rw [update_of_ne bottom, update_self]
  · intro k low _
    rw [update_of_ne (by omega), update_of_ne (by omega)]

/-- What a rebuilt cache is: the first free inodes from the start of the scan on, and zeros if there are too few. -/
theorem rebuild_live (size : inodes v + 1 ≤ 65535) (bound : s.sInode 0 ≤ inodes v) :
    (rebuild v s).sNinode = NICINOD - (freeFrom v s (FsINOS v (s.sInode 0))).length ∧
      live (rebuild v s).sInode NICINOD = (freeFrom v s (FsINOS v (s.sInode 0))).take NICINOD ∧
      ((rebuild v s).sNinode ≠ 0 → (rebuild v s).sInode 0 = 0) ∧ (rebuild v s).diMode = s.diMode ∧ (rebuild v s).sTinode = s.sTinode := by
  have start_le := (inos_le v (s.sInode 0)).trans (Nat.succ_le_succ bound)
  have start_pos : 0 < FsINOS v (s.sInode 0) := by rw [inos_eq]; exact Nat.succ_pos _
  have found := scan_eq (v := v) { s with sNinode := NICINOD } (v.sIsize - FsITOD v (FsINOS v (s.sInode 0))) (FsINOS v (s.sInode 0))
    (by rw [scan_size]; omega)
  have supply : freeIn { s with sNinode := NICINOD } (FsINOS v (s.sInode 0)) (inodes v + 1 - FsINOS v (s.sInode 0)) =
      freeFrom v s (FsINOS v (s.sInode 0)) := rfl
  rw [scan_size, supply] at found
  have some : ∀ x ∈ (freeFrom v s (FsINOS v (s.sInode 0))).take NICINOD, x ≠ 0 := by
    intro x member
    obtain ⟨range, _⟩ := List.mem_filter.mp (List.mem_of_mem_take member)
    have := (List.mem_range'_1.mp range).1
    omega
  unfold rebuild
  dsimp only at found ⊢
  rw [Nat.mod_eq_of_lt (by omega : FsINOS v (s.sInode 0) < 65536), found]
  have room : ((freeFrom v s (FsINOS v (s.sInode 0))).take NICINOD).length = min NICINOD (freeFrom v s (FsINOS v (s.sInode 0))).length :=
    List.length_take
  generalize freeFrom v s (FsINOS v (s.sInode 0)) = l at some room ⊢
  obtain ⟨t, is⟩ : ∃ t, t = { s with sNinode := NICINOD } := ⟨_, rfl⟩
  have large : t.sNinode = NICINOD := by rw [is]
  obtain ⟨ninode, mode, tinode⟩ := pushes_fields t (l.take NICINOD)
  rw [← is, show s.diMode = t.diMode by rw [is], show s.sTinode = t.sTinode by rw [is], ← large]
  rw [large, room] at ninode
  rw [← large] at some room ninode mode tinode
  split
  · next more =>
    have zeros := live_zeros (s := t) (l := l.take t.sNinode) (by omega) some
    rw [room, show t.sNinode - min t.sNinode l.length - 1 = (pushes t (l.take t.sNinode)).sNinode - 1 by rw [ninode]] at zeros
    exact ⟨by dsimp only; omega, zeros, fun _ => by dsimp only; exact update_self .., mode, tinode⟩
  · next none =>
    have stays := live_pushes (s := t) (l := l.take t.sNinode) (by omega) some (fun k _ _ => rfl)
    rw [room, show t.sNinode - min t.sNinode l.length = 0 by omega] at stays
    exact ⟨by omega, stays.trans (List.append_nil _), fun room => absurd room (by omega), mode, tinode⟩

end Svr4.Proofs.S5InodeScan

/-! No free inode is lost, as long as `iget` does not fail and no block is passed over. -/

namespace Svr4.Proofs.S5InodeHistory
open Function S5Ialloc S5InodeScan

variable {v : S5vfs} {s t : Filsys} {l rest : List Nat} {failed : Bool} {mode x ino n time : Nat}

structure Kept (v : S5vfs) (s : Filsys) : Prop where
  cached : ∀ x, 1 ≤ x → x ≤ inodes v → s.diMode x = 0 → x ∈ live s.sInode s.sNinode ∨ FsINOS v (s.sInode 0) ≤ x
  zeros : ∀ k < s.sNinode, s.sInode k = 0 → s.sInode 0 = 0
  within : ∀ x ∈ live s.sInode s.sNinode, 1 ≤ x ∧ x ≤ inodes v
  room : s.sNinode ≤ NICINOD
  bottom : s.sInode 0 ≤ inodes v
  counted : s.sTinode = (freeFrom v s 1).length

theorem mem_freeFrom {start : Nat} : x ∈ freeFrom v s start ↔ start ≤ x ∧ x ≤ inodes v ∧ s.diMode x = 0 := by
  rw [freeFrom, List.mem_filter, List.mem_range'_1, decide_eq_true_eq]
  constructor
  · rintro ⟨⟨low, high⟩, free⟩
    exact ⟨low, by omega, free⟩
  · rintro ⟨low, high, free⟩
    exact ⟨⟨low, by omega⟩, free⟩

theorem freeFrom_sorted (start : Nat) : (freeFrom v s start).Pairwise (· < ·) :=
  List.Pairwise.filter _ (List.pairwise_lt_range' _)

theorem freeFrom_taken {f : Nat → Nat} (low : 1 ≤ x) (high : x ≤ inodes v) (free : f x = 0) (set : mode ≠ 0) :
    ((List.range' 1 (inodes v)).filter fun y => f y = 0).length =
      ((List.range' 1 (inodes v)).filter fun y => update f x mode y = 0).length + 1 := by
  have once : ((List.range' 1 (inodes v)).filter fun y => f y = 0).Nodup := List.Nodup.filter _ (List.nodup_range' ..)
  have member : x ∈ (List.range' 1 (inodes v)).filter fun y => f y = 0 := by
    simp only [List.mem_filter, List.mem_range'_1, decide_eq_true_eq]
    exact ⟨⟨low, by omega⟩, free⟩
  have others : ((List.range' 1 (inodes v)).filter fun y => update f x mode y = 0) =
      ((List.range' 1 (inodes v)).filter fun y => f y = 0).erase x := by
    rw [once.erase_eq_filter, List.filter_filter]
    apply List.filter_congr
    intro y _
    by_cases same : y = x
    · simp [same, set]
    · simp [same]
  have some := List.length_pos_of_mem member
  rw [others, List.length_erase_of_mem member]
  omega

theorem pop_live (filled : live s.sInode s.sNinode = x :: rest) :
    pop s = (some x, { s with sNinode := s.sNinode - 1 }) ∧ live s.sInode (s.sNinode - 1) = rest ∧ 0 < s.sNinode := by
  unfold pop
  obtain is | ⟨n, is⟩ : s.sNinode = 0 ∨ ∃ n, s.sNinode = n + 1 := by cases s.sNinode <;> simp
  · rw [is] at filled
    cases filled
  rw [is, live] at filled
  split at filled
  · cases filled
  next top =>
  cases filled
  rw [is, if_pos (Nat.succ_pos n), Nat.add_sub_cancel, if_neg top]
  exact ⟨rfl, rfl, Nat.succ_pos n⟩

theorem pop_empty (empty : live s.sInode s.sNinode = []) : ∃ n, pop s = (none, { s with sNinode := n }) := by
  unfold pop
  split
  · next some =>
    obtain ⟨n, is⟩ := Nat.exists_eq_add_of_lt some
    rw [Nat.zero_add] at is
    rw [is, live] at empty
    split at empty
    · next top =>
      rw [is, Nat.add_sub_cancel, if_pos top]
      exact ⟨n, rfl⟩
    · cases empty
  · exact ⟨s.sNinode, rfl⟩

theorem take_kept (kept : Kept v s) (filled : live s.sInode s.sNinode = x :: rest) (set : mode ≠ 0)
    (found : failed = true → s.diMode x = 0 → FsINOS v (s.sInode 0) ≤ x) :
    Kept v (take failed mode { s with sNinode := s.sNinode - 1 } x).2 ∧
      (take failed mode { s with sNinode := s.sNinode - 1 } x).1 ≠ .enospc := by
  obtain ⟨_, fewer, some⟩ := pop_live filled
  obtain ⟨low, high⟩ := kept.within x (by simp [filled])
  have dropped : (s.diMode x = 0 → FsINOS v (s.sInode 0) ≤ x) → Kept v { s with sNinode := s.sNinode - 1 } := by
    intro behind
    refine ⟨fun y low high free => ?_, fun k less => kept.zeros k (by dsimp only at less; omega), ?_, ?_, kept.bottom, kept.counted⟩
    · dsimp only
      rw [fewer]
      rcases kept.cached y low high free with inside | after
      · rw [filled] at inside
        rcases List.mem_cons.mp inside with rfl | member
        · exact .inr (behind free)
        · exact .inl member
      · exact .inr after
    · dsimp only
      rw [fewer]
      exact fun y member => kept.within y (by simp [filled, member])
    · exact (Nat.sub_le _ _).trans kept.room
  unfold take
  split
  · next is => exact ⟨dropped (found is), Outcome.noConfusion⟩
  split
  · next free =>
    dsimp only at free
    refine ⟨⟨fun y low high still => ?_, fun k less => kept.zeros k (by dsimp only at less; omega), ?_, ?_, kept.bottom, ?_⟩, Outcome.noConfusion⟩
    · dsimp only at still ⊢
      have other : y ≠ x := by
        rintro rfl
        rw [update_self] at still
        exact set still
      rw [update_of_ne other] at still
      rw [fewer]
      rcases kept.cached y low high still with inside | after
      · rw [filled] at inside
        exact .inl ((List.mem_cons.mp inside).resolve_left other)
      · exact .inr after
    · dsimp only
      rw [fewer]
      exact fun y member => kept.within y (by simp [filled, member])
    · exact (Nat.sub_le _ _).trans kept.room
    · have counted := kept.counted
      have one := freeFrom_taken (v := v) low high free set
      rw [freeFrom, Nat.add_sub_cancel] at counted ⊢
      dsimp only
      omega
  · next taken => exact ⟨dropped fun free => absurd free taken, Outcome.noConfusion⟩

def supply (v : S5vfs) (s : Filsys) : List Nat := freeFrom v s (FsINOS v (s.sInode 0))

theorem supply_some (kept : Kept v s) (empty : live s.sInode s.sNinode = []) (more : 0 < s.sTinode) : supply v s ≠ [] := by
  rw [kept.counted] at more
  obtain ⟨x, member⟩ := List.exists_mem_of_length_pos more
  obtain ⟨low, high, free⟩ := mem_freeFrom.mp member
  rcases kept.cached x low high free with inside | after
  · rw [empty] at inside
    cases inside
  · exact List.ne_nil_of_mem (mem_freeFrom.mpr ⟨after, high, free⟩)

theorem rebuild_bottom (size : inodes v + 1 ≤ 65535) (bottom : s.sInode 0 ≤ inodes v) :
    (NICINOD ≤ (supply v s).length → (supply v s)[NICINOD - 1]? = some ((rebuild v s).sInode 0)) ∧
      ((supply v s).length < NICINOD → (rebuild v s).sInode 0 = 0) := by
  obtain ⟨ninode, filled, few, -⟩ := rebuild_live size bottom
  change _ = NICINOD - (supply v s).length at ninode
  change _ = (supply v s).take NICINOD at filled
  refine ⟨fun full => ?_, fun short => few (by omega)⟩
  have last := live_bottom (f := (rebuild v s).sInode) (n := NICINOD - 1) (by
    rw [show NICINOD - 1 + 1 = NICINOD from rfl, filled, List.length_take, Nat.min_eq_left full])
  rw [show NICINOD - 1 + 1 = NICINOD from rfl, filled, List.getElem?_take_of_lt (by decide)] at last
  exact last

theorem rebuild_kept (size : inodes v + 1 ≤ 65535) (kept : Kept v s) (empty : live s.sInode s.sNinode = []) :
    Kept v { rebuild v s with sNinode := NICINOD } := by
  obtain ⟨-, filled, -, mode, tinode⟩ := rebuild_live size kept.bottom
  change _ = (supply v s).take NICINOD at filled
  have within : ∀ y ∈ supply v s, 1 ≤ y ∧ y ≤ inodes v ∧ s.diMode y = 0 := by
    intro y member
    obtain ⟨low, high, free⟩ := mem_freeFrom.mp member
    rw [inos_eq] at low
    exact ⟨by omega, high, free⟩
  obtain ⟨bottom, short⟩ := rebuild_bottom size kept.bottom
  have low_bottom : (rebuild v s).sInode 0 ≤ inodes v := by
    by_cases full : NICINOD ≤ (supply v s).length
    · exact (within _ (List.mem_of_getElem? (bottom full))).2.1
    · rw [short (by omega)]
      exact Nat.zero_le _
  refine ⟨fun y low high free => ?_, fun k less zero => ?_, fun y member => ?_, le_rfl, low_bottom, ?_⟩
  · dsimp only at free ⊢
    rw [mode] at free
    rw [filled]
    have inside : y ∈ supply v s := by
      rcases kept.cached y low high free with inside | after
      · rw [empty] at inside
        cases inside
      · exact mem_freeFrom.mpr ⟨after, high, free⟩
    obtain ⟨k, there⟩ := List.mem_iff_getElem?.mp inside
    by_cases first : k < NICINOD
    · refine .inl (List.mem_iff_getElem?.mpr ⟨k, ?_⟩)
      rw [List.getElem?_take_of_lt first, there]
    · obtain ⟨size, at_k⟩ := List.getElem?_eq_some_iff.mp there
      have full : NICINOD ≤ (supply v s).length := by omega
      obtain ⟨size', at_bottom⟩ := List.getElem?_eq_some_iff.mp (bottom full)
      have order := List.pairwise_iff_getElem.mp (freeFrom_sorted (v := v) (s := s) (FsINOS v (s.sInode 0))) (NICINOD - 1) k size' size
        (lt_of_lt_of_le (by decide) (Nat.le_of_not_lt first))
      have order' : (rebuild v s).sInode 0 < y := by
        rw [← at_k, ← at_bottom]
        exact order
      exact .inr ((inos_le v _).trans order')
  · dsimp only at less zero ⊢
    by_cases full : NICINOD ≤ (supply v s).length
    · exact absurd zero (live_full (by rw [filled, List.length_take, Nat.min_eq_left full]) k less)
    · exact short (by omega)
  · dsimp only at member
    rw [filled] at member
    obtain ⟨low, high, _⟩ := within y (List.mem_of_mem_take member)
    exact ⟨low, high⟩
  · have counted := kept.counted
    rw [freeFrom] at counted ⊢
    dsimp only
    rw [tinode, mode]
    exact counted

theorem ialloc_cases (failed : Bool) (mode : Nat) (size : inodes v + 1 ≤ 65535) (kept : Kept v s) :
    (∃ x rest, live s.sInode s.sNinode = x :: rest ∧
      ∀ time, ialloc v failed mode (time + 1) s = some (take failed mode { s with sNinode := s.sNinode - 1 } x)) ∨
    (∃ x rest, live s.sInode s.sNinode = [] ∧ live (rebuild v s).sInode NICINOD = x :: rest ∧
      ∀ time, ialloc v failed mode (time + 2) s = some (take failed mode { rebuild v s with sNinode := NICINOD - 1 } x)) ∨
    freeFrom v s 1 = [] ∧
      ∀ time, ialloc v failed mode (time + 1) s = some (.enospc, { s with sNinode := 0, sTinode := 0 }) := by
  rcases filled : live s.sInode s.sNinode with _ | ⟨x, rest⟩
  · obtain ⟨n, popped⟩ := pop_empty filled
    by_cases more : 0 < s.sTinode
    · have some := supply_some kept filled more
      obtain ⟨ninode, built, -⟩ := rebuild_live size kept.bottom
      have again : rebuild v { s with sNinode := n } = rebuild v s := rfl
      have found : (rebuild v s).sNinode ≠ NICINOD := by
        have := List.length_pos_of_ne_nil some
        rw [ninode]
        change NICINOD - (supply v s).length ≠ NICINOD
        simp only [NICINOD]
        omega
      obtain ⟨x, rest, top⟩ := List.exists_cons_of_ne_nil (l := live (rebuild v s).sInode NICINOD) (by
        have front : (supply v s).take NICINOD ≠ [] := by simpa [NICINOD] using some
        rw [built]
        exact front)
      refine .inr (.inl ⟨x, rest, rfl, top, fun time => ?_⟩)
      obtain ⟨popped', -⟩ := pop_live (s := { rebuild v s with sNinode := NICINOD }) top
      rw [ialloc, popped]
      dsimp only
      rw [if_pos more, again, if_pos found, ialloc, popped']
    · refine .inr (.inr ⟨?_, fun time => ?_⟩)
      · have counted := kept.counted
        exact List.length_eq_zero_iff.mp (by omega)
      · rw [ialloc, popped]
        dsimp only
        rw [if_neg more]
  · obtain ⟨popped, -⟩ := pop_live filled
    refine .inl ⟨x, rest, rfl, fun time => ?_⟩
    rw [ialloc, popped]

theorem ialloc_more {r : Outcome × Filsys} (round : ialloc v failed mode time s = some r) :
    ialloc v failed mode (time + 1) s = some r := by
  induction time generalizing s with
  | zero => cases round
  | succ time ih =>
    rw [ialloc] at round ⊢
    split at round
    · exact round
    · split at round
      · dsimp only at round ⊢
        split at round
        · next more found =>
          rw [if_pos more, if_pos found]
          exact ih round
        · next more found =>
          rw [if_pos more, if_neg found]
          exact round
      · next more =>
        rw [if_neg more]
        exact round

def Loses (v : S5vfs) (s : Filsys) : Prop :=
  (∃ x rest, live s.sInode s.sNinode = x :: rest ∧ s.diMode x = 0 ∧ x < FsINOS v (s.sInode 0)) ∨
    (live s.sInode s.sNinode = [] ∧
      ∃ x z, (supply v s).head? = some x ∧ (supply v s)[NICINOD - 1]? = some z ∧ x < FsINOS v z)

/-- The last inode of a block is freed and becomes the bottom, but the scan starts from the next block. -/
def Skips (v : S5vfs) (s : Filsys) (ino : Nat) : Prop :=
  s.diMode ino ≠ 0 ∧ s.sNinode = 0 ∧ ino ≤ s.sInode 0 ∧ ino % v.vfsInopb = 0

theorem ialloc_kept (size : inodes v + 1 ≤ 65535) (kept : Kept v s) (set : mode ≠ 0) (careful : failed = true → ¬ Loses v s) :
    ∃ o t, (∀ time, ialloc v failed mode (time + 2) s = some (o, t)) ∧ Kept v t ∧
      (o = .enospc → freeFrom v s 1 = []) := by
  rcases ialloc_cases failed mode size kept with ⟨x, rest, filled, round⟩ | ⟨x, rest, empty, filled, round⟩ | ⟨none, round⟩
  · obtain ⟨after, other⟩ := take_kept kept filled set fun is free => by
      by_contra before
      exact careful is (.inl ⟨x, rest, filled, free, Nat.lt_of_not_le before⟩)
    exact ⟨_, _, fun time => round (time + 1), after, fun is => absurd is other⟩
  · obtain ⟨-, built, -⟩ := rebuild_live size kept.bottom
    change _ = (supply v s).take NICINOD at built
    obtain ⟨full, short⟩ := rebuild_bottom size kept.bottom
    have top : (supply v s).head? = some x := by
      rw [built] at filled
      have := congrArg List.head? filled
      rwa [List.head?_take, if_neg (by decide), List.head?_cons] at this
    obtain ⟨after, other⟩ := take_kept (rebuild_kept size kept empty) filled set fun is _ => by
      dsimp only
      by_cases enough : NICINOD ≤ (supply v s).length
      · by_contra before
        exact careful is (.inr ⟨empty, x, _, top, full enough, Nat.lt_of_not_le before⟩)
      · obtain ⟨low, -⟩ := mem_freeFrom.mp (List.mem_of_mem_head? top)
        rw [short (by omega)]
        rw [inos_eq] at low ⊢
        rw [Nat.zero_div]
        omega
    exact ⟨_, _, round, after, fun is => absurd is other⟩
  · refine ⟨_, _, fun time => round (time + 1), ?_, fun _ => none⟩
    refine ⟨fun x low high free => ?_, fun k less => absurd less (Nat.not_lt_zero k), fun y member => ?_, Nat.zero_le _, kept.bottom, ?_⟩
    · have member : x ∈ freeFrom v s 1 := mem_freeFrom.mpr ⟨low, high, free⟩
      rw [none] at member
      cases member
    · cases member
    · rw [freeFrom] at none ⊢
      dsimp only
      rw [none]
      rfl

section ifree

variable (kept : Kept v s) (low : 1 ≤ ino) (high : ino ≤ inodes v) (taken : s.diMode ino ≠ 0)

def freed (s : Filsys) (ino : Nat) : Filsys := { s with diMode := update s.diMode ino 0, sTinode := s.sTinode + 1 }

include kept low high taken in
theorem freed_counted : (freed s ino).sTinode = ((List.range' 1 (inodes v)).filter fun y => (freed s ino).diMode y = 0).length := by
  have one := freeFrom_taken (v := v) (f := update s.diMode ino 0) low high (update_self ..) taken
  have counted := kept.counted
  rw [update_idem, update_eq_self] at one
  rw [freeFrom, Nat.add_sub_cancel] at counted
  change s.sTinode + 1 = ((List.range' 1 (inodes v)).filter fun y => update s.diMode ino 0 y = 0).length
  omega

theorem freed_other {y : Nat} (free : (freed s ino).diMode y = 0) (other : y ≠ ino) : s.diMode y = 0 := by
  change update s.diMode ino 0 y = 0 at free
  rwa [update_of_ne other] at free

include kept in
theorem solid (bottom : 0 < s.sInode 0) : ∀ k < s.sNinode, s.sInode k ≠ 0 := by
  intro k less zero
  have := kept.zeros k less zero
  omega

include kept low high taken in
theorem bottom_kept (lower : ino < s.sInode 0) (away : s.sNinode = 0 → ino % v.vfsInopb ≠ 0) :
    Kept v { freed s ino with sInode := update s.sInode 0 ino } := by
  -- the old bottom is not before the new start of the scan
  have start : FsINOS v ino ≤ FsINOS v (s.sInode 0) := inos_mono (Nat.le_of_lt lower)
  have before := solid kept (Nat.zero_lt_of_lt lower)
  have after : ∀ k < s.sNinode, update s.sInode 0 ino k ≠ 0 := by
    intro k less
    by_cases bottom : k = 0
    · rw [bottom, update_self]
      exact Nat.ne_of_gt low
    · rw [update_of_ne bottom]
      exact before k less
  refine ⟨fun y low high free => ?_, fun k less zero => absurd zero (after k less), fun y member => ?_, kept.room, ?_, ?_⟩
  · change y ∈ live (update s.sInode 0 ino) s.sNinode ∨ FsINOS v (update s.sInode 0 ino 0) ≤ y
    rw [update_self, mem_live after]
    by_cases same : y = ino
    · rcases Nat.eq_zero_or_pos s.sNinode with empty | some
      · rw [same]
        exact .inr (inos_le_self (away empty))
      · exact .inl ⟨0, some, by rw [same, update_self]⟩
    rcases kept.cached y low high (freed_other free same) with inside | behind
    · obtain ⟨k, less, is⟩ := (mem_live before).mp inside
      by_cases bottom : k = 0
      · rw [bottom] at is
        exact .inr ((inos_le v ino).trans (is ▸ lower))
      · exact .inl ⟨k, less, by rw [update_of_ne bottom, is]⟩
    · exact .inr (start.trans behind)
  · obtain ⟨k, less, is⟩ := (mem_live after).mp member
    by_cases bottom : k = 0
    · rw [bottom, update_self] at is
      exact is ▸ ⟨low, high⟩
    · rw [update_of_ne bottom] at is
      exact kept.within y ((mem_live before).mpr ⟨k, less, is⟩)
  · dsimp only
    rw [update_self]
    exact high
  · rw [freeFrom, Nat.add_sub_cancel]
    exact freed_counted kept low high taken

include kept low high taken in
theorem aside_kept (upper : s.sInode 0 ≤ ino) (away : s.sNinode = 0 → ino ≤ s.sInode 0 → ino % v.vfsInopb ≠ 0) : Kept v (freed s ino) := by
  refine ⟨fun y above below free => ?_, kept.zeros, kept.within, kept.room, kept.bottom, ?_⟩
  · change y ∈ live s.sInode s.sNinode ∨ FsINOS v (s.sInode 0) ≤ y
    by_cases same : y = ino
    · subst same
      -- only the bottom itself may be before the start of its scan
      rcases Nat.lt_or_eq_of_le upper with greater | is
      · exact .inr ((inos_le v _).trans greater)
      rcases Nat.eq_zero_or_pos s.sNinode with empty | some
      · rw [is]
        exact .inr (inos_le_self (away empty is.ge))
      · exact .inl ((mem_live (solid kept (is ▸ low))).mpr ⟨0, some, is⟩)
    · exact kept.cached y above below (freed_other free same)
  · rw [freeFrom, Nat.add_sub_cancel]
    exact freed_counted kept low high taken

include kept low high taken in
theorem push_kept (some : 0 < s.sNinode) (room : s.sNinode < NICINOD) :
    Kept v { freed s ino with sInode := update s.sInode s.sNinode ino, sNinode := s.sNinode + 1 } := by
  have above : ∀ k < s.sNinode, update s.sInode s.sNinode ino k = s.sInode k := by
    intro k less
    exact update_of_ne (Nat.ne_of_lt less) ..
  have pushed : live (update s.sInode s.sNinode ino) (s.sNinode + 1) = ino :: live s.sInode s.sNinode := by
    rw [live, update_self, if_neg (Nat.ne_of_gt low), live_congr above]
  have bottom := above 0 some
  refine ⟨fun y above below free => ?_, fun k less zero => ?_, fun y member => ?_, room, ?_, ?_⟩
  · change y ∈ live (update s.sInode s.sNinode ino) (s.sNinode + 1) ∨ FsINOS v (update s.sInode s.sNinode ino 0) ≤ y
    rw [pushed, bottom]
    by_cases same : y = ino
    · exact .inl (by simp [same])
    · rcases kept.cached y above below (freed_other free same) with inside | after
      · exact .inl (List.mem_cons_of_mem _ inside)
      · exact .inr after
  · dsimp only at less zero ⊢
    rw [bottom]
    rcases Nat.lt_or_eq_of_le (Nat.le_of_lt_succ less) with lower | rfl
    · rw [above k lower] at zero
      exact kept.zeros k lower zero
    · rw [update_self] at zero
      omega
  · dsimp only at member
    rw [pushed] at member
    rcases List.mem_cons.mp member with rfl | inside
    · exact ⟨low, high⟩
    · exact kept.within y inside
  · dsimp only
    rw [bottom]
    exact kept.bottom
  · rw [freeFrom, Nat.add_sub_cancel]
    exact freed_counted kept low high taken

include kept low high in
theorem ifree_kept (careful : ¬ Skips v s ino) : Kept v (ifree s ino) := by
  have is : ifree s ino = if s.diMode ino = 0 then s
      else if s.sNinode ≥ NICINOD ∨ s.sNinode = 0 then
        if ino < s.sInode 0 then { freed s ino with sInode := update s.sInode 0 ino } else freed s ino
      else { freed s ino with sInode := update s.sInode s.sNinode ino, sNinode := s.sNinode + 1 } := rfl
  rw [is]
  split
  · exact kept
  next taken =>
  split
  · split
    · next lower =>
      exact bottom_kept kept low high taken lower fun empty edge => careful ⟨taken, empty, Nat.le_of_lt lower, edge⟩
    · next upper =>
      exact aside_kept kept low high taken (Nat.le_of_not_lt upper) fun empty below edge => careful ⟨taken, empty, below, edge⟩
  · next room => exact push_kept kept low high taken (by omega) (by omega)

end ifree

inductive Call
  | ialloc (failed : Bool) (mode : Nat)
  | ifree (ino : Nat)

def Legal (v : S5vfs) : Call → Prop
  | .ialloc _ mode => mode ≠ 0
  | .ifree ino => 1 ≤ ino ∧ ino ≤ inodes v

inductive Step (v : S5vfs) (s : Filsys) : Call → Filsys → Prop
  | ialloc {failed : Bool} {mode time : Nat} {o : Outcome} {t : Filsys} (round : ialloc v failed mode time s = some (o, t)) :
      Step v s (.ialloc failed mode) t
  | ifree {ino : Nat} : Step v s (.ifree ino) (ifree s ino)

/-- A file system that has just been mounted, with the number of its free inodes in the superblock. -/
structure Mounted (v : S5vfs) (s : Filsys) : Prop where
  empty : s.sNinode = 0
  start : s.sInode 0 = 0
  counted : s.sTinode = (freeFrom v s 1).length

inductive Run (v : S5vfs) (meets : Filsys → Call → Prop) (boot : Filsys) : Filsys → Prop
  | start : Run v meets boot boot
  | step {s t : Filsys} {c : Call} (run : Run v meets boot s) (legal : Legal v c) (careful : meets s c) (made : Step v s c t) : Run v meets boot t

def Careful (v : S5vfs) (s : Filsys) : Call → Prop
  | .ialloc failed _ => failed = true → ¬ Loses v s
  | .ifree ino => ¬ Skips v s ino

/-- A free inode is in the live part of the cache, or in a block from that of the bottom on. -/
def Safe (v : S5vfs) (s : Filsys) : Prop :=
  ∀ x, 1 ≤ x → x ≤ inodes v → s.diMode x = 0 → x ∈ live s.sInode s.sNinode ∨ FsITOD v (s.sInode 0) ≤ FsITOD v x

theorem mounted_kept (mounted : Mounted v s) : Kept v s := by
  obtain ⟨empty, start, counted⟩ := mounted
  refine ⟨fun x low _ _ => ?_, fun k less => ?_, fun x member => ?_, ?_, ?_, counted⟩
  · rw [start, inos_eq, Nat.zero_div, Nat.zero_mul]
    exact .inr low
  · rw [empty] at less
    exact absurd less (Nat.not_lt_zero k)
  · rw [empty] at member
    cases member
  · rw [empty]
    exact Nat.zero_le _
  · rw [start]
    exact Nat.zero_le _

theorem run_kept {boot : Filsys} (size : inodes v + 1 ≤ 65535) (mounted : Mounted v boot) (run : Run v (Careful v) boot s) : Kept v s := by
  induction run with
  | start => exact mounted_kept mounted
  | step run legal careful made kept =>
    cases made with
    | @ialloc failed mode time o t round =>
      obtain ⟨o', t', ends, after, -⟩ := ialloc_kept size kept legal careful
      have same := (ialloc_more (ialloc_more round)).symm.trans (ends time)
      cases same
      exact after
    | ifree => exact ifree_kept kept legal.1 legal.2 careful

theorem take_outcome (failed : Bool) (mode : Nat) (s : Filsys) (x : Nat) : (take failed mode s x).1 ≠ .enospc := by
  unfold take
  split
  · exact Outcome.noConfusion
  · split <;> exact Outcome.noConfusion

/-- In every run in which no inode is lost or skipped, a free inode is in the cache or will be
found, `ialloc` comes back, and it finds no inode only if there is none. -/
theorem no_inode_lost {boot : Filsys} (shift : 0 < v.vfsInoshift) (size : inodes v ≤ 65535) (mounted : Mounted v boot)
    (run : Run v (Careful v) boot s) :
    Safe v s ∧ (∀ failed mode, ∃ o t, ialloc v failed mode 2 s = some (o, t)) ∧
      ∀ failed mode time t, ialloc v failed mode time s = some (.enospc, t) → ∀ x, 1 ≤ x → x ≤ inodes v → s.diMode x ≠ 0 := by
  have even : 2 ∣ inodes v := (dvd_pow_self 2 (Nat.ne_of_gt shift)).mul_right _
  have kept := run_kept (show inodes v + 1 ≤ 65535 by omega) mounted run
  refine ⟨fun x low high free => ?_, fun failed mode => ?_, fun failed mode time t round x low high free => ?_⟩
  · rcases kept.cached x low high free with inside | after
    · exact .inl inside
    · exact .inr ((itod_inos v _).trans (itod_mono after))
  · rcases ialloc_cases failed mode (show inodes v + 1 ≤ 65535 by omega) kept with
      ⟨_, _, _, ends⟩ | ⟨_, _, _, _, ends⟩ | ⟨_, ends⟩
    · exact ⟨_, _, ends 1⟩
    · exact ⟨_, _, ends 0⟩
    · exact ⟨_, _, ends 1⟩
  · have later := ialloc_more (ialloc_more round)
    rcases ialloc_cases failed mode (show inodes v + 1 ≤ 65535 by omega) kept with
      ⟨_, _, _, ends⟩ | ⟨_, _, _, _, ends⟩ | ⟨none, ends⟩
    · exact take_outcome _ _ _ _ (congrArg Prod.fst (Option.some.inj ((ends _).symm.trans later)))
    · exact take_outcome _ _ _ _ (congrArg Prod.fst (Option.some.inj ((ends _).symm.trans later)))
    · have member : x ∈ freeFrom v s 1 := mem_freeFrom.mpr ⟨low, high, free⟩
      rw [none] at member
      cases member

def layout : S5vfs := ⟨3, 15⟩

def boot : Filsys := ⟨0, fun _ => 0, 104, fun _ => 0⟩

theorem boot_mounted : Mounted layout boot := ⟨rfl, rfl, by decide +kernel⟩

/-- Two blocks of eight inodes, of which the first two are free. -/
def tight : S5vfs := ⟨3, 4⟩

def used : Filsys := ⟨0, fun _ => 0, 2, fun x => if x ≤ 2 then 0 else 1⟩

theorem used_mounted : Mounted tight used := ⟨rfl, rfl, by decide +kernel⟩

/-- Inode 1 is got, inode 9 freed, and `iget` fails on it; when the cache has run out it is
found again. -/
theorem no_inode_lost_first : ∃ t, Run tight (Careful tight) used t ∧ Safe tight t ∧ live t.sInode t.sNinode = [] ∧
    ∃ t', ialloc tight false 1 2 t = some (.found 9, t') := by
  have played : ((ialloc tight false 1 2 used).bind fun first => (ialloc tight true 1 2 (ifree first.2 9)).bind fun second =>
      (ialloc tight false 1 2 second.2).bind fun third => (ialloc tight false 1 2 third.2).map fun fourth =>
        ([first.1, second.1, third.1, fourth.1], first.2.sNinode, live (ifree first.2 9).sInode (ifree first.2 9).sNinode,
          (ifree first.2 9).sInode 0, live third.2.sInode third.2.sNinode)) =
      some ([.found 1, .failed, .found 2, .found 9], 99, [9, 2], 0, []) := by decide +kernel
  obtain ⟨⟨o₁, s₁⟩, first, played⟩ := Option.bind_eq_some_iff.mp played
  obtain ⟨⟨o₂, s₂⟩, second, played⟩ := Option.bind_eq_some_iff.mp played
  obtain ⟨⟨o₃, s₃⟩, third, played⟩ := Option.bind_eq_some_iff.mp played
  obtain ⟨⟨o₄, s₄⟩, fourth, played⟩ := Option.map_eq_some_iff.mp played
  simp only [Prod.mk.injEq, List.cons.injEq] at played
  obtain ⟨⟨rfl, rfl, rfl, rfl, _⟩, full, cached, bottom, empty⟩ := played
  have freed : ¬ Skips tight s₁ 9 := fun skips => by
    rw [skips.2.1] at full
    cases full
  have kept : ¬ Loses tight (ifree s₁ 9) := by
    rintro (⟨x, rest, is, _, below⟩ | ⟨none_, _⟩)
    · obtain ⟨rfl, _⟩ := List.cons.inj (cached.symm.trans is)
      rw [bottom] at below
      exact absurd below (by decide)
    · rw [cached] at none_
      cases none_
  have run₁ : Run tight (Careful tight) used s₁ := .step (c := .ialloc false 1) .start one_ne_zero (fun failed => by cases failed) (.ialloc first)
  have run₂ : Run tight (Careful tight) used (ifree s₁ 9) := .step (c := .ifree 9) run₁ ⟨by decide, by decide⟩ freed .ifree
  have run₃ : Run tight (Careful tight) used s₂ := .step (c := .ialloc true 1) run₂ one_ne_zero (fun _ => kept) (.ialloc second)
  have run₄ : Run tight (Careful tight) used s₃ := .step (c := .ialloc false 1) run₃ one_ne_zero (fun failed => by cases failed) (.ialloc third)
  exact ⟨s₃, run₄, (no_inode_lost (by decide) (by decide) used_mounted run₄).1, empty, s₄, fourth⟩

/-- The first inode is dropped when `iget` fails, and the cache has the inodes up to number 100. -/
theorem inode_lost : Mounted layout boot ∧ ∃ t, ialloc layout true 1 2 boot = some (.failed, t) ∧
    Run layout (fun _ _ => True) boot t ∧ t.diMode 1 = 0 ∧ ¬ Safe layout t := by
  have failed : (ialloc layout true 1 2 boot).map (fun r => (r.1, r.2.diMode 1, r.2.sInode 0, decide (1 ∈ live r.2.sInode r.2.sNinode))) =
      some (.failed, 0, 100, false) := by decide +kernel
  obtain ⟨⟨o, t⟩, is, same⟩ := Option.map_eq_some_iff.mp failed
  simp only [Prod.mk.injEq, decide_eq_false_iff_not] at same
  obtain ⟨rfl, free, bottom, lost⟩ := same
  refine ⟨boot_mounted, t, is, .step (c := .ialloc true 1) .start (Nat.succ_ne_zero 0) trivial (.ialloc is), free, fun safe => ?_⟩
  rcases safe 1 le_rfl (by decide) free with inside | after
  · exact lost inside
  · rw [bottom] at after
    exact absurd after (by decide)

end Svr4.Proofs.S5InodeHistory
