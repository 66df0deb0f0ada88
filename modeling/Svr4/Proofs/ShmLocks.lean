import Svr4.ShmLock

/-! What the loops over the pages of a segment do to the locks of each page. -/

namespace Svr4.Proofs.ShmPages
open Function PageLock ShmLock

variable {n : Nat} {i j : Fin n} {l : List (Fin n)} {s : Pages n} {vpp fails : Fin n → Bool}

def lckcnt (s : Pages n) (i : Fin n) : Nat := (s.mem.pages i).p_lckcnt

def Here (s : Pages n) (i : Fin n) : Prop := s.anon i = true ∧ s.core i = true

def Affords (mem : PageLock.State (Fin n)) (count : Nat) : Prop := ∀ k < count, room { mem with availrmem := mem.availrmem - k } = true

def Unlocked (s : Pages n) (i : Fin n) : Bool := lckcnt s i = 0

theorem lock_counts {mem : PageLock.State (Fin n)} (few : (mem.pages i).p_lckcnt < 65535) (j : Fin n) :
    ((page_pp_lock mem i false false).2.pages j).p_lckcnt = (mem.pages j).p_lckcnt + if j = i ∧
    (page_pp_lock mem i false false).1 = true then 1 else 0 := by
  unfold page_pp_lock raised increment PAGE_LOCK_MAXIMUM
  rw [if_neg (by decide)]
  by_cases here : j = i
  · subst here
    simp only [Bool.false_eq_true, if_false, true_and]
    split_ifs <;> simp_all
  · simp only [here, false_and, if_false, add_zero, Bool.false_eq_true]
    split_ifs <;> simp [here, setlck_elsewhere]

theorem lock_twice {mem : PageLock.State (Fin n)} (locked : (mem.pages i).p_lckcnt ≠ 0) : (page_pp_lock mem i false false).1 = true := by
  unfold page_pp_lock
  rw [if_neg (by decide), if_pos locked]

theorem lock_room {mem : PageLock.State (Fin n)} (locked : (mem.pages i).p_lckcnt = 0) (enough : room mem = true) :
    page_pp_lock mem i false false = (true, setlck (take mem) i 1) := by
  unfold page_pp_lock
  rw [if_neg (by decide), if_neg (not_not.mpr locked), if_neg (by decide), if_pos enough, locked]
  rfl

theorem lock_over {mem : PageLock.State (Fin n)} (locked : (mem.pages i).p_lckcnt ≠ 0) :
    ∃ k, page_pp_lock mem i false false = (true, setlck mem i k) ∧ k ≠ 0 := by
  refine ⟨raised (mem.pages i).p_lckcnt, ?_, ?_⟩
  · unfold page_pp_lock
    rw [if_neg (by decide), if_pos locked]
  · unfold raised PAGE_LOCK_MAXIMUM
    split_ifs <;> omega

theorem unlock_counts {mem : PageLock.State (Fin n)} (some_ : (mem.pages i).p_lckcnt ≠ 0) (small : (mem.pages i).p_lckcnt ≤ 65535) (j : Fin n) :
    ((page_pp_unlock mem i false false).pages j).p_lckcnt = (mem.pages j).p_lckcnt - if j = i then 1 else 0 := by
  unfold page_pp_unlock decrement
  by_cases here : j = i
  · subst here
    simp only [Bool.false_eq_true, if_false]
    split_ifs <;> simp <;> omega
  · simp only [Bool.false_eq_true, if_false]
    split_ifs <;> simp [here, setlck_elsewhere]

structure Locked (l : List (Fin n)) (vpp : Fin n → Bool) (s : Pages n) (error : Option Errno) (vpp' : Fin n → Bool) (s' : Pages n) : Prop where
  counts : ∀ i, lckcnt s' i = lckcnt s i + if vpp' i = true ∧ vpp i = false then 1 else 0
  kept : ∀ i, vpp i = true → vpp' i = true
  outside : ∀ i, i ∉ l → vpp' i = vpp i
  here : ∀ i, Here s i → Here s' i
  found : ∀ i, vpp' i = true → vpp i = false → Here s' i
  done : error = none → ∀ i ∈ l, vpp' i = true

theorem Locked.stop {error : Option Errno} {s' : Pages n} (failed : error ≠ none) (same : ∀ i, lckcnt s' i = lckcnt s i)
    (here : ∀ i, Here s i → Here s' i) :
    Locked l vpp s error vpp s' where
  counts i := by simp [same]
  kept _ set := set
  outside _ _ := rfl
  here := here
  found _ set unset := absurd (set.symm.trans unset) (by decide)
  done none_ := absurd none_ failed

theorem fault_here (s : Pages n) (i : Fin n) : Here (segvn_fault s i) i := ⟨update_self .., update_self ..⟩

theorem Here.fault (i : Fin n) (here : Here s j) : Here (segvn_fault s i) j := by
  by_cases same : j = i
  · exact same ▸ fault_here s i
  · exact ⟨(update_of_ne same ..).trans here.1, (update_of_ne same ..).trans here.2⟩

theorem lock_loop_locks (few : ∀ i ∈ l, vpp i = false → lckcnt s i < 65535) (nodup : l.Nodup) :
    Locked l vpp s (lock_loop fails l vpp s).1 (lock_loop fails l vpp s).2.1 (lock_loop fails l vpp s).2.2 := by
  induction l generalizing vpp s with
  | nil => exact ⟨by simp [lock_loop], fun _ set => set, fun _ _ => rfl, fun _ here => here, by simp +contextual [lock_loop], nofun⟩
  | cons i l ih =>
    obtain ⟨fresh, nodup⟩ := List.nodup_cons.mp nodup
    have few' : ∀ j ∈ l, vpp j = false → lckcnt s j < 65535 := fun j member => few j (List.mem_cons_of_mem _ member)
    unfold lock_loop
    by_cases set : vpp i = true
    · rw [if_pos set]
      obtain ⟨counts, kept, outside, here, found, done⟩ := ih few' nodup
      refine ⟨counts, kept, fun j other => outside j fun member => other (List.mem_cons_of_mem _ member), here, found, ?_⟩
      intro none_ j member
      rcases List.mem_cons.mp member with rfl | member
      · exact kept j set
      · exact done none_ j member
    rw [if_neg set]
    by_cases fail : fails i = true
    · rw [if_pos fail]
      exact .stop (by simp) (fun _ => rfl) fun _ here => here
    rw [if_neg fail]
    have room_ : lckcnt s i < 65535 := few i (List.mem_cons_self ..) (by simpa using set)
    have counted := lock_counts (show ((segvn_fault s i).mem.pages i).p_lckcnt < 65535 from room_)
    dsimp only
    generalize page_pp_lock (segvn_fault s i).mem i false false = r at counted ⊢
    obtain ⟨locked, mem⟩ := r
    dsimp only
    have counted' : ∀ j, lckcnt { segvn_fault s i with mem := mem } j = lckcnt s j + if j = i ∧ locked = true then 1 else 0 := by
      exact counted
    have here' : ∀ j, Here s j → Here { segvn_fault s i with mem := mem } j := fun j here => here.fault i
    cases locked with
    | false =>
      rw [if_neg (by decide)]
      exact .stop (by simp) (fun j => by simpa using counted' j) here'
    | true =>
      rw [if_pos rfl]
      have few'' : ∀ j ∈ l, update vpp i true j = false → lckcnt { segvn_fault s i with mem := mem } j < 65535 := by
        intro j member unset
        have other : j ≠ i := fun same => fresh (same ▸ member)
        rw [update_of_ne other] at unset
        rw [counted', if_neg fun both => other both.1]
        exact few' j member unset
      obtain ⟨counts, kept, outside, here, found, done⟩ := ih few'' nodup
      have first := kept i (update_self ..)
      refine ⟨?_, ?_, ?_, fun j here_ => here j (here' j here_), ?_, ?_⟩
      · intro j
        rw [counts, counted']
        by_cases same : j = i
        · subst same
          simp [first, set]
        · simp [same]
      · intro j set'
        by_cases same : j = i
        · exact same ▸ first
        · exact kept j ((update_of_ne same ..).trans set')
      · intro j other
        have same : j ≠ i := fun same => other (same ▸ List.mem_cons_self ..)
        rw [outside j fun member => other (List.mem_cons_of_mem _ member), update_of_ne same]
      · intro j set' unset
        by_cases same : j = i
        · subst same
          exact here j (fault_here s j)
        · exact found j set' ((update_of_ne same ..).trans unset)
      · intro none_ j member
        rcases List.mem_cons.mp member with rfl | member
        · exact first
        · exact done none_ j member

theorem Affords.less {mem : PageLock.State (Fin n)} {count : Nat} (enough : Affords mem (count + 1)) : Affords (take mem) count := by
  intro k few
  have := enough (k + 1) (by omega)
  rw [← this]
  unfold room take
  congr 3
  push_cast
  omega

theorem lock_loop_succeeds (nodup : l.Nodup) (unset : ∀ i ∈ l, vpp i = false) (faults : ∀ i ∈ l, fails i = false)
    (enough : Affords s.mem (l.countP (Unlocked s))) : (lock_loop fails l vpp s).1 = none := by
  induction l generalizing vpp s with
  | nil => rfl
  | cons i l ih =>
    obtain ⟨fresh, nodup⟩ := List.nodup_cons.mp nodup
    have unset' : ∀ j ∈ l, update vpp i true j = false := by
      intro j member
      have other : j ≠ i := fun same => fresh (same ▸ member)
      rw [update_of_ne other]
      exact unset j (List.mem_cons_of_mem _ member)
    have faults' : ∀ j ∈ l, fails j = false := fun j member => faults j (List.mem_cons_of_mem _ member)
    have same : ∀ mem, (∀ j, j ≠ i → (mem.pages j).p_lckcnt = lckcnt s j) →
        l.countP (Unlocked { segvn_fault s i with mem := mem }) = l.countP (Unlocked s) := by
      intro mem elsewhere
      apply List.countP_congr
      intro j member
      have other : j ≠ i := fun same => fresh (same ▸ member)
      unfold Unlocked
      rw [show lckcnt { segvn_fault s i with mem := mem } j = lckcnt s j from elsewhere j other]
    unfold lock_loop
    rw [if_neg (by simp [unset i]), if_neg (by simp [faults i])]
    dsimp only
    by_cases free : lckcnt s i = 0
    · rw [List.countP_cons_of_pos (by simp [Unlocked, free])] at enough
      have room_ : room s.mem = true := by simpa using enough 0 (by omega)
      rw [show page_pp_lock (segvn_fault s i).mem i false false = (true, setlck (take s.mem) i 1) from lock_room free room_]
      refine ih nodup unset' faults' ?_
      rw [same _ fun j other => by rw [setlck_elsewhere _ _ other]; rfl]
      exact enough.less
    · rw [List.countP_cons_of_neg (by simp [Unlocked, free])] at enough
      obtain ⟨k, locks, -⟩ := lock_over (show (s.mem.pages i).p_lckcnt ≠ 0 from free)
      rw [show page_pp_lock (segvn_fault s i).mem i false false = (true, setlck s.mem i k) from locks]
      refine ih nodup unset' faults' ?_
      rw [same _ fun j other => by rw [setlck_elsewhere _ _ other]; rfl]
      exact enough

theorem unlock_loop_unlocks (nodup : l.Nodup) (here : ∀ i ∈ l, vpp i = true → Here s i ∧ 0 < lckcnt s i ∧ lckcnt s i ≤ 65535) :
    (∀ i, lckcnt (unlock_loop l vpp s).2 i = lckcnt s i - if i ∈ l ∧ vpp i = true then 1 else 0) ∧
      (∀ i, (unlock_loop l vpp s).1 i = if i ∈ l then false else vpp i) ∧ ∀ i, Here (unlock_loop l vpp s).2 i ↔ Here s i := by
  induction l generalizing vpp s with
  | nil => simp [unlock_loop]
  | cons i l ih =>
    obtain ⟨fresh, nodup⟩ := List.nodup_cons.mp nodup
    unfold unlock_loop
    by_cases set : vpp i = true
    · obtain ⟨here_, some_, small⟩ := here i (List.mem_cons_self ..) set
      rw [if_pos set, if_pos (by simp [here_.1, here_.2])]
      have counted : ∀ j, lckcnt { s with mem := page_pp_unlock s.mem i false false } j = lckcnt s j - if j = i then 1 else 0 :=
        unlock_counts (by unfold lckcnt at some_; omega) small
      have rest : ∀ j ∈ l, update vpp i false j = true → Here { s with mem := page_pp_unlock s.mem i false false } j ∧
          0 < lckcnt { s with mem := page_pp_unlock s.mem i false false } j ∧
          lckcnt { s with mem := page_pp_unlock s.mem i false false } j ≤ 65535 := by
        intro j member set'
        have other : j ≠ i := fun same => fresh (same ▸ member)
        rw [update_of_ne other] at set'
        rw [counted, if_neg other]
        exact here j (List.mem_cons_of_mem _ member) set'
      obtain ⟨counts, cleared, kept⟩ := ih nodup rest
      refine ⟨?_, ?_, fun j => kept j⟩
      · intro j
        rw [counts, counted]
        by_cases same : j = i
        · subst same
          simp [set, fresh]
        · simp [same]
      · intro j
        rw [cleared]
        by_cases same : j = i
        · subst same
          simp
        · simp [same]
    · rw [if_neg set]
      obtain ⟨counts, cleared, kept⟩ := ih nodup fun j member => here j (List.mem_cons_of_mem _ member)
      refine ⟨?_, ?_, kept⟩
      · intro j
        rw [counts]
        by_cases same : j = i
        · subst same
          simp [set]
        · simp [same]
      · intro j
        rw [cleared]
        by_cases same : j = i
        · subst same
          simp [set]
        · simp [same]

theorem lock_again_locks (nodup : l.Nodup) (here : ∀ i ∈ l, Here s i ∧ 0 < lckcnt s i ∧ lckcnt s i < 65535) :
    ∃ s', lock_again l s = .ok s' ∧ (∀ i, lckcnt s' i = lckcnt s i + if i ∈ l then 1 else 0) ∧ ∀ i, Here s' i ↔ Here s i := by
  induction l generalizing s with
  | nil => exact ⟨s, rfl, by simp, fun _ => Iff.rfl⟩
  | cons i l ih =>
    obtain ⟨fresh, nodup⟩ := List.nodup_cons.mp nodup
    obtain ⟨here_, some_, small⟩ := here i (List.mem_cons_self ..)
    have counted : ∀ j, lckcnt { s with mem := (page_pp_lock s.mem i false false).2 } j = lckcnt s j + if j = i then 1 else 0 := by
      intro j
      have twice : (page_pp_lock s.mem i false false).1 = true := lock_twice (by unfold lckcnt at some_; omega)
      have counted := lock_counts small j
      rw [twice] at counted
      simpa [lckcnt] using counted
    have rest : ∀ j ∈ l, Here { s with mem := (page_pp_lock s.mem i false false).2 } j ∧
        0 < lckcnt { s with mem := (page_pp_lock s.mem i false false).2 } j ∧
        lckcnt { s with mem := (page_pp_lock s.mem i false false).2 } j < 65535 := by
      intro j member
      have other : j ≠ i := fun same => fresh (same ▸ member)
      rw [counted, if_neg other]
      exact here j (List.mem_cons_of_mem _ member)
    obtain ⟨s', run, counts, kept⟩ := ih nodup rest
    refine ⟨s', ?_, ?_, kept⟩
    · unfold lock_again
      rw [if_pos (by simp [here_.1, here_.2])]
      exact run
    · intro j
      rw [counts, counted]
      by_cases same : j = i
      · subst same
        simp [fresh]
      · simp [same]

theorem unlock_again_unlocks {lck : Bool} (nodup : l.Nodup) (here : lck = true → ∀ i ∈ l, Here s i) (small : ∀ i ∈ l, lckcnt s i ≤ 65535) :
    ∃ s', unlock_again lck l s = .ok s' ∧ (∀ i, i ∈ l → Here s i → lckcnt s' i = lckcnt s i - 1) ∧
      (∀ i, ¬(i ∈ l ∧ Here s i) → lckcnt s' i = lckcnt s i) ∧ ∀ i, Here s' i ↔ Here s i := by
  induction l generalizing s with
  | nil => exact ⟨s, rfl, by simp, fun _ _ => rfl, fun _ => Iff.rfl⟩
  | cons i l ih =>
    obtain ⟨fresh, nodup⟩ := List.nodup_cons.mp nodup
    have here' : lck = true → ∀ j ∈ l, Here s j := fun yes j member => here yes j (List.mem_cons_of_mem _ member)
    have small' : ∀ j ∈ l, lckcnt s j ≤ 65535 := fun j member => small j (List.mem_cons_of_mem _ member)
    unfold unlock_again
    by_cases here_ : Here s i
    · rw [if_pos (by simp [here_.1, here_.2])]
      obtain ⟨t, same_t, counted, kept_t⟩ : ∃ t, t = (if (s.mem.pages i).p_lckcnt ≠ 0 then { s with mem := page_pp_unlock s.mem i false false } else s) ∧
          (∀ j, lckcnt t j = lckcnt s j - if j = i then 1 else 0) ∧ ∀ j, Here t j ↔ Here s j := by
        refine ⟨_, rfl, ?_, ?_⟩
        · intro j
          by_cases some_ : (s.mem.pages i).p_lckcnt ≠ 0
          · rw [if_pos some_]
            exact unlock_counts some_ (small i (List.mem_cons_self ..)) j
          · rw [if_neg some_]
            by_cases same : j = i
            · subst same
              unfold lckcnt
              omega
            · rw [if_neg same, Nat.sub_zero]
        · intro j
          split_ifs <;> exact Iff.rfl
      rw [← same_t]
      obtain ⟨s', run, less, others, kept⟩ := ih nodup (fun yes j member => (kept_t j).mpr (here' yes j member))
        (fun j member => (counted j).trans_le ((Nat.sub_le ..).trans (small' j member)))
      refine ⟨s', run, ?_, ?_, fun j => (kept j).trans (kept_t j)⟩
      · intro j member shown
        rcases List.mem_cons.mp member with rfl | member
        · rw [others j fun both => fresh both.1, counted, if_pos rfl]
        · have other : j ≠ i := fun same => fresh (same ▸ member)
          rw [less j member ((kept_t j).mpr shown), counted, if_neg other, Nat.sub_zero]
      · intro j neither
        have other : j ≠ i := fun same => neither ⟨same ▸ List.mem_cons_self .., same ▸ here_⟩
        rw [others j fun both => neither ⟨List.mem_cons_of_mem _ both.1, (kept_t j).mp both.2⟩, counted, if_neg other, Nat.sub_zero]
    · have away : ¬(s.anon i && s.core i) = true := by simpa [Here] using here_
      rw [if_neg away, if_neg fun yes => here_ (here yes i (List.mem_cons_self ..))]
      obtain ⟨s', run, less, others, kept⟩ := ih nodup here' small'
      refine ⟨s', run, ?_, ?_, kept⟩
      · intro j member shown
        rcases List.mem_cons.mp member with rfl | member
        · exact absurd shown here_
        · exact less j member shown
      · intro j neither
        exact others j fun both => neither ⟨List.mem_cons_of_mem _ both.1, both.2⟩

theorem page_abort_counts {mem : PageLock.State (Fin n)} (none_ : (mem.pages i).p_lckcnt = 0) (j : Fin n) :
    ((page_abort mem i).pages j).p_lckcnt = (mem.pages j).p_lckcnt := by
  unfold page_abort
  obtain ⟨marked, begins, same⟩ : ∃ marked : PageLock.State (Fin n),
      marked = (if (mem.pages i).p_vnode then { mem with pages := update mem.pages i { mem.pages i with p_gone := true } } else mem) ∧
        ∀ j, (marked.pages j).p_lckcnt = (mem.pages j).p_lckcnt := by
    refine ⟨_, rfl, fun j => ?_⟩
    by_cases here : j = i
    · subst here
      split_ifs <;> simp
    · split_ifs <;> simp [here]
  rw [← begins]
  have none' : ¬(marked.pages i).p_lckcnt > 0 := by
    rw [same, none_]
    exact lt_irrefl 0
  dsimp only
  rw [if_neg none']
  split_ifs
  · by_cases here : j = i
    · subst here
      rw [setcow_lckcnt]
      exact same j
    · rw [setcow_elsewhere _ _ here]
      exact same j
  · exact same j
  · exact same j

theorem anon_free_counts (none_ : ∀ i, lckcnt s i = 0) : ∀ i, lckcnt (anon_free l s) i = 0 := by
  induction l generalizing s with
  | nil => exact none_
  | cons i l ih =>
    refine ih fun j => ?_
    by_cases found : (s.anon i && s.core i && !(s.mem.pages i).p_intrans) = true
    · simp only [found, if_true]
      exact (page_abort_counts (none_ i) j).trans (none_ j)
    · simp only [found]
      exact none_ j

end Svr4.Proofs.ShmPages

/-! The locks of a segment on its pages. A mapping's own locks are the holders' of the mapping; what a page has beyond
these is the excess, in which the segment's lock is one. -/

namespace Svr4.Proofs.ShmLocks
open Function PageLock ShmLock ShmPages

variable {n : Nat} {Proc : Type} {s : State n Proc} {m : seg n Proc} {a b : List (seg n Proc)} {excess : Fin n → Nat}

def pplock (i : Fin n) (m : seg n Proc) : Bool := (m.vpage.getD fun _ => false) i

def mapped (s : State n Proc) (i : Fin n) : Nat := s.segs.countP (pplock i)

structure Level (s : State n Proc) (excess : Fin n → Nat) : Prop where
  counts : ∀ i, lckcnt s.pages i = excess i + mapped s i
  here : ∀ i, lckcnt s.pages i ≠ 0 → Here s.pages i
  small : ∀ i, lckcnt s.pages i ≤ 65535

def Affordable (s : State n Proc) : Prop := Affords s.pages.mem ((List.finRange n).countP (Unlocked s.pages))

theorem mapped_split (at_ : s.segs = a ++ m :: b) (i : Fin n) :
    mapped s i = a.countP (pplock i) + (b.countP (pplock i) + if pplock i m = true then 1 else 0) := by
  rw [mapped, at_, List.countP_append, List.countP_cons]

theorem as_ctl_at (func : MC) (fails : Fin n → Bool) (at_ : s.segs = a ++ m :: b) :
    as_ctl s a.length func fails = ((segvn_lockop fails m.vpage s.pages func).1,
      { s with pages := (segvn_lockop fails m.vpage s.pages func).2.2,
               segs := a ++ { m with vpage := (segvn_lockop fails m.vpage s.pages func).2.1 } :: b }) := by
  unfold as_ctl
  simp [at_]

theorem lockop_locks (fails : Fin n → Bool) (few : ∀ i, pplock i m = false → lckcnt s.pages i < 65535) :
    ∃ error vpp pages, segvn_lockop fails m.vpage s.pages .MC_LOCK = (error, some vpp, pages) ∧
      Locked (List.finRange n) (fun i => pplock i m) s.pages error vpp pages ∧
      ((∀ i, pplock i m = false) → (∀ i, fails i = false) → Affordable s → error = none) :=
  ⟨_, _, _, rfl, lock_loop_locks (fun i _ => few i) (List.nodup_finRange n),
    fun unset faults enough => lock_loop_succeeds (List.nodup_finRange n) (fun i _ => unset i) (fun i _ => faults i) enough⟩

theorem ctl_locks (fails : Fin n → Bool) (level : Level s excess) (at_ : s.segs = a ++ m :: b)
    (few : ∀ i, pplock i m = false → lckcnt s.pages i < 65535) :
    ∃ error vpp pages, as_ctl s a.length .MC_LOCK fails = (error, { s with pages := pages, segs := a ++ { m with vpage := some vpp } :: b }) ∧
      Level { s with pages := pages, segs := a ++ { m with vpage := some vpp } :: b } excess ∧
      (∀ i, lckcnt pages i ≤ lckcnt s.pages i + 1) ∧ (error = none → ∀ i, vpp i = true) ∧
      ((∀ i, pplock i m = false) → (∀ i, fails i = false) → Affordable s → error = none) := by
  obtain ⟨error, vpp, pages, run, locked, succeeds⟩ := lockop_locks fails few
  refine ⟨error, vpp, pages, by rw [as_ctl_at _ _ at_, run], ⟨?_, ?_, ?_⟩, ?_, fun none_ i => locked.done none_ i (List.mem_finRange i), succeeds⟩
  · intro i
    have before := level.counts i
    rw [mapped_split at_] at before
    rw [mapped_split rfl, locked.counts, before]
    have kept := locked.kept i
    have set : pplock i { m with vpage := some vpp } = vpp i := rfl
    rw [set]
    cases old : pplock i m with
    | false =>
      split_ifs <;> simp_all
      omega
    | true => simp [kept old]
  · intro i some_
    by_cases set : vpp i = true ∧ pplock i m = false
    · exact locked.found i set.1 set.2
    · refine locked.here i (level.here i ?_)
      rwa [show lckcnt pages i = _ from locked.counts i, if_neg set] at some_
  · intro i
    have := level.small i
    rw [show lckcnt pages i = _ from locked.counts i]
    split_ifs with set
    · exact few i set.2
    · exact this
  · intro i
    rw [locked.counts]
    split_ifs <;> omega

theorem Level.locked (level : Level s excess) (at_ : s.segs = a ++ m :: b) (i : Fin n) (set : pplock i m = true) :
    Here s.pages i ∧ 0 < lckcnt s.pages i ∧ lckcnt s.pages i ≤ 65535 := by
  have counts := level.counts i
  rw [mapped_split at_, if_pos set] at counts
  exact ⟨level.here i (by omega), by omega, level.small i⟩

theorem ctl_unlocks (fails : Fin n → Bool) (level : Level s excess) (at_ : s.segs = a ++ m :: b) :
    ∃ vpage pages, as_ctl s a.length .MC_UNLOCK fails = (none, { s with pages := pages, segs := a ++ { m with vpage := vpage } :: b }) ∧
      Level { s with pages := pages, segs := a ++ { m with vpage := vpage } :: b } excess ∧
      ∀ i, pplock i { m with vpage := vpage } = false := by
  have locked := level.locked at_
  cases none_ : m.vpage with
  | none =>
    obtain ⟨proc, vpage⟩ := m
    obtain rfl : vpage = none := none_
    refine ⟨none, s.pages, ?_, ?_, fun i => rfl⟩
    · rw [as_ctl_at _ _ at_]
      rfl
    · rw [← at_]
      exact level
  | some vpp =>
    have set : ∀ i, pplock i m = vpp i := fun i => by rw [pplock, none_, Option.getD_some]
    obtain ⟨counts, cleared, here⟩ := unlock_loop_unlocks (List.nodup_finRange n)
      fun i _ (locked_ : vpp i = true) => locked i ((set i).trans locked_)
    have run : segvn_lockop fails m.vpage s.pages .MC_UNLOCK =
        (none, some (unlock_loop (List.finRange n) vpp s.pages).1, (unlock_loop (List.finRange n) vpp s.pages).2) := by rw [none_]; rfl
    generalize unlock_loop (List.finRange n) vpp s.pages = r at counts cleared here run
    have unset : ∀ i, pplock i { m with vpage := some r.1 } = false := fun i => (cleared i).trans (if_pos (List.mem_finRange i))
    have fewer : ∀ i, lckcnt r.2 i ≤ lckcnt s.pages i := fun i => (counts i).trans_le (Nat.sub_le ..)
    refine ⟨some r.1, r.2, by rw [as_ctl_at _ _ at_, run], ⟨?_, ?_, ?_⟩, unset⟩
    · intro i
      have before := level.counts i
      rw [mapped_split at_, set] at before
      rw [mapped_split rfl, unset, counts, before]
      cases vpp i <;> simp
      omega
    · intro i some_
      exact (here i).mpr (level.here i fun zero => some_ (Nat.le_zero.mp (zero ▸ fewer i)))
    · exact fun i => (fewer i).trans (level.small i)

theorem unmap_levels (level : Level s excess) (at_ : s.segs = a ++ m :: b) :
    ∃ pages, as_unmap s a.length = { s with pages := pages, segs := a ++ b, refcnt := s.refcnt - 1 } ∧
      Level { s with pages := pages, segs := a ++ b, refcnt := s.refcnt - 1 } excess := by
  obtain ⟨vpage, pages, run, unlocked, unset⟩ := ctl_unlocks (fun _ => false) level at_
  refine ⟨pages, ?_, ?_, unlocked.here, unlocked.small⟩
  · unfold as_unmap
    rw [run]
    simp [List.eraseIdx_append_of_length_le]
  · intro i
    refine (unlocked.counts i).trans ?_
    rw [mapped_split rfl, unset]
    simp [mapped, List.countP_append]

theorem Level.of_segs {t : State n Proc} (level : Level s excess) (pages : t.pages = s.pages)
    (same : ∀ i, mapped t i = mapped s i) : Level t excess :=
  ⟨fun i => by rw [pages, same]; exact level.counts i, fun i => by rw [pages]; exact level.here i, fun i => by rw [pages]; exact level.small i⟩

theorem relock_levels (level : Level s excess) (locked : ∀ i, 0 < lckcnt s.pages i ∧ lckcnt s.pages i < 65535) :
    ∃ pages, relock s = .ok { s with pages := pages } ∧ Level { s with pages := pages } (fun i => excess i + 1) := by
  obtain ⟨pages, run, counts, here⟩ := lock_again_locks (List.nodup_finRange n)
    fun i _ => ⟨level.here i (locked i).1.ne', locked i⟩
  have one : ∀ i, lckcnt pages i = lckcnt s.pages i + 1 := fun i => (counts i).trans (by rw [if_pos (List.mem_finRange i)])
  refine ⟨pages, by rw [relock, run]; rfl, ?_, fun i _ => (here i).mpr (level.here i (locked i).1.ne'), ?_⟩
  · intro i
    rw [show lckcnt pages i = _ from one i, level.counts]
    show excess i + mapped s i + 1 = excess i + 1 + mapped s i
    omega
  · intro i
    rw [show lckcnt pages i = _ from one i]
    exact (locked i).2

theorem unlock_counted (lck : Bool) (level : Level s excess) (here : lck = true → ∀ i, Here s.pages i) :
    ∃ pages, shm_unlock s lck = .ok { s with pages := pages } ∧ (∀ i, lckcnt pages i = lckcnt s.pages i - 1) ∧
      ∀ i, Here pages i ↔ Here s.pages i := by
  obtain ⟨pages, run, less, others, kept⟩ := unlock_again_unlocks (List.nodup_finRange n) (fun yes i _ => here yes i) fun i _ => level.small i
  refine ⟨pages, by rw [shm_unlock, run]; rfl, ?_, kept⟩
  intro i
  by_cases found : Here s.pages i
  · exact less i (List.mem_finRange i) found
  · have none_ : lckcnt s.pages i = 0 := not_not.mp fun some_ => found (level.here i some_)
    rw [others i fun both => found both.2, none_]

theorem unlock_levels (lck : Bool) (level : Level s fun i => excess i + 1) :
    ∃ pages, shm_unlock s lck = .ok { s with pages := pages } ∧ Level { s with pages := pages } excess := by
  have some_ : ∀ i, 0 < lckcnt s.pages i := fun i => by rw [level.counts]; omega
  obtain ⟨pages, run, counts, here⟩ := unlock_counted lck level fun _ i => level.here i (some_ i).ne'
  refine ⟨pages, run, ?_, fun i _ => (here i).mpr (level.here i (some_ i).ne'), fun i => (counts i).trans_le ((Nat.sub_le ..).trans (level.small i))⟩
  intro i
  have := level.counts i
  rw [show lckcnt pages i = _ from counts i, this]
  show excess i + 1 + mapped s i - 1 = excess i + mapped s i
  omega

theorem unlock_nothing (level : Level s excess) (none_ : ∀ i, lckcnt s.pages i = 0) :
    ∃ pages, shm_unlock s false = .ok { s with pages := pages } ∧ Level { s with pages := pages } excess := by
  obtain ⟨pages, run, counts, -⟩ := unlock_counted false level nofun
  have zero : ∀ i, lckcnt pages i = 0 := fun i => by rw [counts, none_]
  refine ⟨pages, run, ?_, fun i some_ => absurd (zero i) some_, fun i => by rw [show lckcnt pages i = 0 from zero i]; omega⟩
  intro i
  have := level.counts i
  rw [none_] at this
  exact (zero i).trans this

structure Same (s t : State n Proc) : Prop where
  refcnt : t.refcnt = s.refcnt
  shm_amp : t.shm_amp = s.shm_amp
  shm_lkcnt : t.shm_lkcnt = s.shm_lkcnt
  length : t.segs.length = s.segs.length
  mapped : ∀ i, mapped t i = mapped s i

theorem split_at {k : Nat} (few : k < s.segs.length) : ∃ a m b, s.segs = a ++ m :: b ∧ a.length = k ∧ s.segs[k] = m := by
  refine ⟨s.segs.take k, s.segs[k], s.segs.drop (k + 1), ?_, ?_, rfl⟩
  · rw [List.getElem_cons_drop, List.take_append_drop]
  · rw [List.length_take]
    omega

theorem locked_all {vpp : Fin n → Bool} (level : Level s excess) (at_ : s.segs = a ++ { m with vpage := some vpp } :: b)
    (all : ∀ i, vpp i = true) (i : Fin n) :
    0 < lckcnt s.pages i := (level.locked at_ i (all i)).2.1

theorem lock_attached (fails : Fin n → Bool) (level : Level s excess) (at_ : s.segs = a ++ m :: b) (unset : m.vpage = none)
    (few : ∀ i, lckcnt s.pages i + 2 ≤ 65535) :
    ∃ error t, shm_lock_attached s a.length fails = .ok (error, t) ∧ Same s t ∧
      Level t (fun i => excess i + if error = none then 1 else 0) ∧ ((∀ i, fails i = false) → Affordable s → error = none) := by
  have none_ : ∀ i, pplock i m = false := fun i => by rw [pplock, unset]; rfl
  obtain ⟨error, vpp, pages, run, locked, most, all, succeeds⟩ := ctl_locks fails level at_ fun i _ => by have := few i; omega
  have same : ∀ t : State n Proc, ∀ vpage, t.segs = a ++ { m with vpage := vpage } :: b → (∀ i, pplock i { m with vpage := vpage } = false) →
      ∀ i, mapped t i = mapped s i := by
    intro t vpage at' unset' i
    rw [mapped_split at', mapped_split at_, unset', none_]
  have length : ∀ vpage, (a ++ { m with vpage := vpage } :: b).length = s.segs.length := by
    intro vpage
    rw [at_]
    simp
  unfold shm_lock_attached
  rw [show (s.segs[a.length]?.bind fun m => m.vpage) = none by simp [at_, unset]]
  simp only [run]
  cases error with
  | some error =>
    obtain ⟨vpage, pages', run', unlocked, unset'⟩ := ctl_unlocks fails locked rfl
    refine ⟨some error, { s with pages := pages', segs := a ++ { m with vpage := vpage } :: b }, ?_,
      ⟨rfl, rfl, rfl, length vpage, same _ vpage rfl unset'⟩, by simpa using unlocked, succeeds none_⟩
    rw [if_neg (by simp)]
    exact congrArg (fun r => Except.ok (some error, r.2)) run'
  | none =>
    have every := locked_all locked rfl (all rfl)
    obtain ⟨again, run_again, level_again⟩ := relock_levels locked fun i => ⟨every i, by
      have := most i
      have := few i
      show lckcnt pages i < 65535
      omega⟩
    obtain ⟨vpage, pages', run', unlocked, unset'⟩ := ctl_unlocks fails level_again rfl
    refine ⟨none, { s with pages := pages', segs := a ++ { m with vpage := vpage } :: b }, ?_,
      ⟨rfl, rfl, rfl, length vpage, same _ vpage rfl unset'⟩, by simpa using unlocked, fun _ _ => rfl⟩
    rw [if_pos rfl, run_again]
    exact congrArg (fun r => Except.ok (none, r.2)) run'

theorem lock_attached_locked {vpp : Fin n → Bool} (fails : Fin n → Bool) (level : Level s excess) (at_ : s.segs = a ++ m :: b) (set : m.vpage = some vpp)
    (all : ∀ i, vpp i = true) (few : ∀ i, lckcnt s.pages i + 1 ≤ 65535) :
    ∃ t, shm_lock_attached s a.length fails = .ok (none, t) ∧ Same s t ∧ Level t fun i => excess i + 1 := by
  obtain ⟨pages, run, locked⟩ := relock_levels level fun i =>
    ⟨(level.locked at_ i (by rw [pplock, set]; exact all i)).2.1, by have := few i; omega⟩
  refine ⟨{ s with pages := pages }, ?_, ⟨rfl, rfl, rfl, rfl, fun _ => rfl⟩, locked⟩
  unfold shm_lock_attached
  rw [show (s.segs[a.length]?.bind fun m => m.vpage) = some vpp by simp [at_, set]]
  simp only [run]
  rfl

variable {p : Proc} {e : Around n}

theorem map_levels (level : Level s excess) (few : s.a_paglck p = true → ∀ i, lckcnt s.pages i < 65535) :
    (∃ error pages, as_map s p e = (some error, { s with pages := pages }) ∧ Level { s with pages := pages } excess ∧
      ¬(e.no_map = none ∧ (∀ i, e.fails i = false) ∧ Affordable s)) ∨
    ∃ vpage pages, as_map s p e = (none, { s with pages := pages, refcnt := s.refcnt + 1, segs := s.segs.take e.place ++ ⟨p, vpage⟩ :: s.segs.drop e.place }) ∧
      Level { s with pages := pages, refcnt := s.refcnt + 1, segs := s.segs.take e.place ++ ⟨p, vpage⟩ :: s.segs.drop e.place } excess ∧
      (∀ i, lckcnt pages i ≤ lckcnt s.pages i + 1) ∧ (s.a_paglck p = true → ∀ i, pplock i (⟨p, vpage⟩ : seg n Proc) = true) := by
  unfold as_map
  cases no_map : e.no_map with
  | some error => exact .inl ⟨error, s.pages, rfl, level, by simp⟩
  | none =>
    dsimp only
    have begun : Level { s with segs := s.segs.take e.place ++ ⟨p, none⟩ :: s.segs.drop e.place, refcnt := s.refcnt + 1 } excess := by
      refine level.of_segs rfl fun i => ?_
      rw [mapped_split rfl, show pplock i (⟨p, none⟩ : seg n Proc) = false from rfl, mapped]
      conv_rhs => rw [← List.take_append_drop e.place s.segs, List.countP_append]
      rfl
    by_cases paglck : s.a_paglck p = true
    · rw [if_pos paglck]
      obtain ⟨error, vpp, pages, run, locked, most, all, succeeds⟩ := ctl_locks e.fails begun rfl fun i _ => few paglck i
      rw [run]
      cases error with
      | none => exact .inr ⟨some vpp, pages, rfl, locked, most, fun _ => all rfl⟩
      | some error =>
        obtain ⟨pages', run', unmapped⟩ := unmap_levels locked rfl
        refine .inl ⟨error, pages', ?_, ?_, fun good => absurd (succeeds (fun _ => rfl) good.2.1 good.2.2) (by simp)⟩
        · refine (congrArg (fun t => (some error, t)) run').trans ?_
          simp
        · simpa using unmapped
    · rw [if_neg paglck]
      exact .inr ⟨none, s.pages, rfl, begun, fun i => Nat.le_succ _, fun set => absurd set paglck⟩

theorem reset_levels {t : State n Proc} (flag : Bool) (paglck : Proc → Bool) (level : Level t excess) (same : Same s t) :
    Same s (if flag then { t with a_paglck := paglck } else t) ∧ Level (if flag then { t with a_paglck := paglck } else t) excess := by
  obtain ⟨refcnt, shm_amp, shm_lkcnt, length, mapped⟩ := same
  split_ifs
  · exact ⟨⟨refcnt, shm_amp, shm_lkcnt, length, mapped⟩, level.of_segs rfl fun _ => rfl⟩
  · exact ⟨⟨refcnt, shm_amp, shm_lkcnt, length, mapped⟩, level⟩

variable [DecidableEq Proc]

theorem lock_mapped (level : Level s excess) (few : ∀ i, lckcnt s.pages i + 2 ≤ 65535) :
    ∃ error t, shm_lock_mapped s p e = .ok (error, t) ∧ Same s t ∧ Level t (fun i => excess i + if error = none then 1 else 0) ∧
      (e.no_addr = false → e.no_map = none → (∀ i, e.fails i = false) → Affordable s → error = none) := by
  unfold shm_lock_mapped
  by_cases no_addr : e.no_addr = true
  · rw [if_pos no_addr]
    exact ⟨some .ENOMEM, s, rfl, ⟨rfl, rfl, rfl, rfl, fun _ => rfl⟩, by simpa using level, by simp [no_addr]⟩
  rw [if_neg no_addr]
  have flagged : Level { s with a_paglck := update s.a_paglck p true } excess := level.of_segs rfl fun _ => rfl
  dsimp only
  rcases map_levels (p := p) (e := e) flagged fun _ i => by have := few i; show lckcnt s.pages i < 65535; omega with
    ⟨error, pages, run, failed, why⟩ | ⟨vpage, pages, run, done, most, all⟩
  · obtain ⟨same, reset⟩ := reset_levels (s := s) (if s.a_paglck p then e.lckflag else true) (update (update s.a_paglck p true) p false)
      failed ⟨rfl, rfl, rfl, rfl, fun _ => rfl⟩
    rw [run]
    exact ⟨some error, _, rfl, same, by simpa using reset, fun _ no_map faults enough => absurd ⟨no_map, faults, enough⟩ why⟩
  · obtain ⟨again, run_again, level_again⟩ := relock_levels done fun i =>
      ⟨(done.locked rfl i (all (update_self ..) i)).2.1, by
        have one : lckcnt pages i ≤ lckcnt s.pages i + 1 := most i
        have := few i
        show lckcnt pages i < 65535
        omega⟩
    obtain ⟨pages', run', unmapped⟩ := unmap_levels level_again rfl
    have back : s.segs.take e.place ++ s.segs.drop e.place = s.segs := List.take_append_drop ..
    obtain ⟨same, reset⟩ := reset_levels (s := s) (if s.a_paglck p then e.lckflag else true) (update (update s.a_paglck p true) p false)
      unmapped ⟨rfl, rfl, rfl, congrArg List.length back, fun i => congrArg (List.countP (pplock i)) back⟩
    rw [run]
    refine ⟨none, _, ?_, same, by simpa using reset, fun _ _ _ _ => rfl⟩
    rw [if_pos rfl, run_again]
    exact congrArg (fun t => Except.ok (none, if (if s.a_paglck p then e.lckflag else true) then { t with a_paglck := update t.a_paglck p false } else t)) run'

end Svr4.Proofs.ShmLocks
