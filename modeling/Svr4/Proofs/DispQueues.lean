import Svr4.Proofs.BitmapHigh
import Svr4.Disp

/-! The lists of the dispatcher queues, and the counts, the map and the maximum
that are kept beside them. -/

namespace Svr4.Proofs.DispQueues
open Function Chain Bitmap BitmapHigh Disp

structure Lists (n : Nat) (queue : Nat → List Nat) (s : State) : Prop where
  linked : ∀ q, Linked s.pLink (s.dqFirst q) (queue q)
  last : ∀ q, s.dqLast q = (queue q).getLast?
  home : ∀ q, ∀ p ∈ queue q, s.pPri p = q ∧ q < n

structure Counted (n : Nat) (count : Nat → Nat) (s : State) : Prop where
  each : ∀ q, s.dqSruncnt q = count q
  total : s.srunprocs = (∑ q ∈ Finset.range n, count q : Nat)
  bits : ∀ q, btTest s.dqactmap q = true ↔ count q ≠ 0
  highest : (s.maxrunpri = -1 ∧ ∀ q, count q = 0) ∨
    ∃ m : Nat, s.maxrunpri = m ∧ count m ≠ 0 ∧ ∀ q, m < q → count q = 0
  beyond : ∀ q, n ≤ q → count q = 0

structure CountsOnly (s t : State) : Prop where
  pLink : t.pLink = s.pLink
  pFlag : t.pFlag = s.pFlag
  pPri : t.pPri = s.pPri
  pStat : t.pStat = s.pStat
  dqFirst : t.dqFirst = s.dqFirst
  dqLast : t.dqLast = s.dqLast
  curproc : t.curproc = s.curproc
  curpri : t.curpri = s.curpri

structure ListsOnly (s t : State) : Prop where
  pFlag : t.pFlag = s.pFlag
  pPri : t.pPri = s.pPri
  pStat : t.pStat = s.pStat
  dqSruncnt : t.dqSruncnt = s.dqSruncnt
  dqactmap : t.dqactmap = s.dqactmap
  srunprocs : t.srunprocs = s.srunprocs
  maxrunpri : t.maxrunpri = s.maxrunpri
  curproc : t.curproc = s.curproc
  curpri : t.curpri = s.curpri

theorem dqSruninc_frame (s : State) (pri : Nat) : CountsOnly s (dqSruninc s pri) := by
  unfold dqSruninc
  simp only
  split
  · split <;> exact ⟨rfl, rfl, rfl, rfl, rfl, rfl, rfl, rfl⟩
  · exact ⟨rfl, rfl, rfl, rfl, rfl, rfl, rfl, rfl⟩

theorem dqSrundec_frame (s : State) (pri : Nat) : CountsOnly s (dqSrundec s pri) := by
  unfold dqSrundec
  simp only
  split
  · split
    · exact ⟨rfl, rfl, rfl, rfl, rfl, rfl, rfl, rfl⟩
    · split <;> exact ⟨rfl, rfl, rfl, rfl, rfl, rfl, rfl, rfl⟩
  · exact ⟨rfl, rfl, rfl, rfl, rfl, rfl, rfl, rfl⟩

theorem Lists.congr {n : Nat} {queue : Nat → List Nat} {s t : State} (lists : Lists n queue s) (same : CountsOnly s t) :
    Lists n queue t := by
  obtain ⟨pLink, _, pPri, _, dqFirst, dqLast, _, _⟩ := same
  refine ⟨?_, ?_, ?_⟩
  · rw [pLink, dqFirst]
    exact lists.linked
  · rw [dqLast]
    exact lists.last
  · rw [pPri]
    exact lists.home

theorem Counted.congr {n : Nat} {count : Nat → Nat} {s t : State} (counted : Counted n count s) (same : ListsOnly s t) :
    Counted n count t := by
  obtain ⟨_, _, _, dqSruncnt, dqactmap, srunprocs, maxrunpri, _, _⟩ := same
  refine ⟨?_, ?_, ?_, ?_, counted.beyond⟩
  · rw [dqSruncnt]
    exact counted.each
  · rw [srunprocs]
    exact counted.total
  · rw [dqactmap]
    exact counted.bits
  · rw [maxrunpri]
    exact counted.highest

section counts
variable {n : Nat} {count : Nat → Nat} {s : State} {pri : Nat}

theorem sum_update (count : Nat → Nat) (bound : pri < n) (c : Nat) :
    (∑ q ∈ Finset.range n, update count pri c q) + count pri = (∑ q ∈ Finset.range n, count q) + c := by
  have member : pri ∈ Finset.range n := Finset.mem_range.mpr bound
  rw [← Finset.add_sum_erase _ _ member, ← Finset.add_sum_erase _ count member, update_self]
  have rest : ∑ q ∈ (Finset.range n).erase pri, update count pri c q = ∑ q ∈ (Finset.range n).erase pri, count q :=
    Finset.sum_congr rfl (fun q inside => update_of_ne (Finset.ne_of_mem_erase inside) _ _)
  omega

section
variable (counted : Counted n count s)
include counted

private theorem beyond_update (bound : pri < n) (c : Nat) :
    ∀ q, n ≤ q → update count pri c q = 0 := by
  intro q outside
  rw [update_of_ne (by omega)]
  exact counted.beyond q outside

private theorem each_update (c : Nat) :
    ∀ q, update s.dqSruncnt pri (c : Int) q = (update count pri c q : Nat) := by
  intro q
  by_cases here : q = pri
  · rw [here, update_self, update_self]
  · rw [update_of_ne here, update_of_ne here]
    exact counted.each q

private theorem total_update (bound : pri < n) (c : Nat) :
    ((∑ q ∈ Finset.range n, update count pri c q : Nat) : Int) = s.srunprocs + c - count pri := by
  have sums := sum_update count bound c
  have total := counted.total
  omega

private theorem recounted {t : State} (bound : pri < n) (c : Nat)
    (each : t.dqSruncnt = update s.dqSruncnt pri c) (total : t.srunprocs = s.srunprocs + c - count pri)
    (bits : ∀ q, btTest t.dqactmap q = true ↔ update count pri c q ≠ 0)
    (highest : (t.maxrunpri = -1 ∧ ∀ q, update count pri c q = 0) ∨
      ∃ m : Nat, t.maxrunpri = m ∧ update count pri c m ≠ 0 ∧ ∀ q, m < q → update count pri c q = 0) :
    Counted n (update count pri c) t := by
  refine ⟨?_, ?_, bits, highest, beyond_update counted bound c⟩
  · rw [each]
    exact each_update counted c
  · rw [total, total_update counted bound c]

private theorem bits_update {map : Nat → BitVec 32} {c : Nat}
    (here : btTest map pri = true ↔ c ≠ 0) (others : ∀ q, q ≠ pri → btTest map q = btTest s.dqactmap q) :
    ∀ q, btTest map q = true ↔ update count pri c q ≠ 0 := by
  intro q
  by_cases same : q = pri
  · subst same
    rwa [update_self]
  · rw [update_of_ne same, others q same]
    exact counted.bits q

theorem dqSruninc_counted (bound : pri < n) :
    Counted n (update count pri (count pri + 1)) (dqSruninc s pri) := by
  have old := counted.each pri
  have highest := counted.highest
  simp only [dqSruninc, update_self]
  split
  · next first =>
    have zero : count pri = 0 := by omega
    have bits : ∀ q, btTest (btSet s.dqactmap pri) q = true ↔ update count pri (count pri + 1) q ≠ 0 := by
      apply bits_update counted
      · simp [btTest_btSet]
      · intro q other
        simp [btTest_btSet, Ne.symm other]
    split
    · next above =>
      refine recounted counted bound _ (by simp [old]) (by simp only; omega) bits (.inr ⟨pri, rfl, by simp, ?_⟩)
      intro q past
      rw [update_of_ne (by omega)]
      rcases highest with ⟨_, none_⟩ | ⟨m, top, _, rest⟩
      · exact none_ q
      · exact rest q (by omega)
    · next below =>
      refine recounted counted bound _ (by simp [old]) (by simp only; omega) bits (.inr ?_)
      rcases highest with ⟨top, _⟩ | ⟨m, top, some_, rest⟩
      · omega
      · refine ⟨m, top, ?_, fun q past => ?_⟩
        · have other : m ≠ pri := by
            rintro rfl
            exact some_ zero
          rw [update_of_ne other]
          exact some_
        · rw [update_of_ne (by omega)]
          exact rest q past
  · next more =>
    have some_ : count pri ≠ 0 := by omega
    refine recounted counted bound _ (by simp [old]) (by simp only; omega) ?_ (.inr ?_)
    · apply bits_update counted
      · simpa using (counted.bits pri).mpr some_
      · exact fun q _ => rfl
    · rcases highest with ⟨_, none_⟩ | ⟨m, top, busy, rest⟩
      · exact absurd (none_ pri) some_
      · have order : pri ≤ m := not_lt.mp (fun past => some_ (rest pri past))
        refine ⟨m, top, ?_, fun q past => ?_⟩
        · by_cases same : m = pri
          · simp [same]
          · rw [update_of_ne same]
            exact busy
        · rw [update_of_ne (by omega)]
          exact rest q past

private theorem highest_below (bound : pri < n) (only : count pri = 1)
    (top : s.maxrunpri = pri) (left : s.srunprocs - 1 ≠ 0) :
    let map := btClear s.dqactmap pri
    ∃ m : Nat, btGethighbit map (pri >>> BT_ULSHIFT) = m ∧ update count pri 0 m ≠ 0 ∧ ∀ q, m < q → update count pri 0 q = 0 := by
  intro map
  have bits : ∀ q, btTest map q = true ↔ update count pri 0 q ≠ 0 := by
    apply bits_update counted
    · simp [map, btTest_btClear]
    · intro q other
      simp [map, btTest_btClear, Ne.symm other]
  have above : ∀ q, pri < q → update count pri 0 q = 0 := by
    intro q past
    rw [update_of_ne (by omega)]
    rcases counted.highest with ⟨_, none_⟩ | ⟨m, same, _, rest⟩
    · exact none_ q
    · exact rest q (by omega)
  have clear : ∀ q, btTest map q = false → update count pri 0 q = 0 := by
    intro q low
    by_contra some_
    rw [(bits q).mpr some_] at low
    cases low
  have word : pri < 32 * (pri >>> BT_ULSHIFT + 1) := by
    rw [shift_eq]
    omega
  rcases btGethighbit_spec map (pri >>> BT_ULSHIFT) with ⟨_, none_⟩ | ⟨k, found, set_, rest⟩
  · -- No bit is set at all, so nothing is counted.
    have all : ∀ q, update count pri 0 q = 0 := by
      intro q
      by_cases low : q < 32 * (pri >>> BT_ULSHIFT + 1)
      · exact clear q (none_ q low)
      · exact above q (by omega)
    have sum := total_update counted bound 0
    simp only [all, Finset.sum_const_zero] at sum
    omega
  · refine ⟨k, found, (bits k).mp set_, fun q past => ?_⟩
    by_cases low : q < 32 * (pri >>> BT_ULSHIFT + 1)
    · exact clear q (rest q past low)
    · exact above q (by omega)

theorem dqSrundec_counted {c : Nat} (bound : pri < n) (busy : count pri = c + 1) :
    Counted n (update count pri c) (dqSrundec s pri) := by
  have old := counted.each pri
  have highest := counted.highest
  have cells : update s.dqSruncnt pri (s.dqSruncnt pri - 1) = update s.dqSruncnt pri (c : Int) := by
    rw [old, busy]
    congr 1
    omega
  simp only [dqSrundec, update_self]
  split
  · next last =>
    have zero : c = 0 := by omega
    subst zero
    have bits : ∀ q, btTest (btClear s.dqactmap pri) q = true ↔ update count pri 0 q ≠ 0 := by
      apply bits_update counted
      · simp [btTest_btClear]
      · intro q other
        simp [btTest_btClear, Ne.symm other]
    split
    · next nobody =>
      refine recounted counted bound 0 cells (by simp only; omega) bits (.inl ⟨rfl, ?_⟩)
      have sum := total_update counted bound 0
      have none_ : ∑ q ∈ Finset.range n, update count pri 0 q = 0 := by omega
      intro q
      by_cases inside : q < n
      · exact Finset.sum_eq_zero_iff.mp none_ q (Finset.mem_range.mpr inside)
      · exact beyond_update counted bound 0 q (by omega)
    · next somebody =>
      split
      · next top =>
        have found := highest_below counted bound busy top.symm somebody
        refine recounted counted bound 0 cells (by simp only; omega) bits (.inr ?_)
        simp only [← top, Int.toNat_natCast]
        exact found
      · next lower =>
        refine recounted counted bound 0 cells (by simp only; omega) bits (.inr ?_)
        rcases highest with ⟨_, none_⟩ | ⟨m, top, some_, rest⟩
        · have := none_ pri
          omega
        · have other : m ≠ pri := fun same => lower (same ▸ top.symm)
          refine ⟨m, top, ?_, fun q past => ?_⟩
          · rw [update_of_ne other]
            exact some_
          · by_cases same : q = pri
            · simp [same]
            · rw [update_of_ne same]
              exact rest q past
  · next more =>
    have some_ : c ≠ 0 := by omega
    refine recounted counted bound c cells (by simp only; omega) ?_ (.inr ?_)
    · apply bits_update counted
      · simp only [ne_eq, some_, not_false_eq_true, iff_true]
        exact (counted.bits pri).mpr (by omega)
      · exact fun q _ => rfl
    · rcases highest with ⟨_, none_⟩ | ⟨m, top, busy', rest⟩
      · have := none_ pri
        omega
      · have order : pri ≤ m := not_lt.mp (fun past => by have := rest pri past; omega)
        refine ⟨m, top, ?_, fun q past => ?_⟩
        · by_cases same : m = pri
          · simp [same, some_]
          · rw [update_of_ne same]
            exact busy'
        · rw [update_of_ne (by omega)]
          exact rest q past

end

end counts

section lists
variable {n : Nat} {queue : Nat → List Nat} {s t : State} {pri : Nat}

theorem Lists.apart (lists : Lists n queue s) {q r p : Nat} (first : p ∈ queue q) (second : p ∈ queue r) : q = r :=
  (lists.home q p first).1.symm.trans (lists.home r p second).1

/-- A change of one queue: its header and chain are given anew, and no link of a
process on another queue changes. -/
private theorem relisted (lists : Lists n queue s) (l : List Nat) (pPri : t.pPri = s.pPri)
    (linked : Linked t.pLink (t.dqFirst pri) l) (last : t.dqLast pri = l.getLast?)
    (home : ∀ p ∈ l, s.pPri p = pri ∧ pri < n)
    (first : ∀ q, q ≠ pri → t.dqFirst q = s.dqFirst q ∧ t.dqLast q = s.dqLast q)
    (links : ∀ q, q ≠ pri → ∀ p ∈ queue q, t.pLink p = s.pLink p) : Lists n (update queue pri l) t := by
  refine ⟨?_, ?_, ?_⟩
  · intro q
    by_cases same : q = pri
    · subst same
      rwa [update_self]
    · rw [update_of_ne same, (first q same).1]
      exact (lists.linked q).congr (links q same)
  · intro q
    by_cases same : q = pri
    · subst same
      rwa [update_self]
    · rw [update_of_ne same, (first q same).2]
      exact lists.last q
  · intro q p member
    rw [pPri]
    by_cases same : q = pri
    · subst same
      rw [update_self] at member
      exact home p member
    · rw [update_of_ne same] at member
      exact lists.home q p member

private theorem header_other {v w : Option Nat} (q : Nat) (other : q ≠ pri) :
    update s.dqFirst pri v q = s.dqFirst q ∧ update s.dqLast pri w q = s.dqLast q :=
  ⟨update_of_ne other _ _, update_of_ne other _ _⟩

def linkBack (s : State) (pp : Nat) : State :=
  match s.dqLast (s.pPri pp) with
  | none =>
    { s with
      pLink := update s.pLink pp none
      dqFirst := update s.dqFirst (s.pPri pp) (some pp)
      dqLast := update s.dqLast (s.pPri pp) (some pp) }
  | some last =>
    { s with
      pLink := update (update s.pLink pp none) last (some pp)
      dqLast := update s.dqLast (s.pPri pp) (some pp) }

def linkFront (s : State) (pp : Nat) : State :=
  match s.dqFirst (s.pPri pp) with
  | none =>
    { s with
      pLink := update s.pLink pp none
      dqFirst := update s.dqFirst (s.pPri pp) (some pp)
      dqLast := update s.dqLast (s.pPri pp) (some pp) }
  | some first =>
    { s with
      pLink := update s.pLink pp (some first)
      dqFirst := update s.dqFirst (s.pPri pp) (some pp) }

theorem linkBack_only (s : State) (pp : Nat) : ListsOnly s (linkBack s pp) := by
  unfold linkBack
  split <;> exact ⟨rfl, rfl, rfl, rfl, rfl, rfl, rfl, rfl, rfl⟩

theorem linkFront_only (s : State) (pp : Nat) : ListsOnly s (linkFront s pp) := by
  unfold linkFront
  split <;> exact ⟨rfl, rfl, rfl, rfl, rfl, rfl, rfl, rfl, rfl⟩

theorem unlinkDq_only (s : State) (pri : Nat) (prp : Option Nat) (rp : Nat) : ListsOnly s (unlinkDq s pri prp rp) := by
  unfold unlinkDq
  split <;> exact ⟨rfl, rfl, rfl, rfl, rfl, rfl, rfl, rfl, rfl⟩

theorem linkBack_lists (lists : Lists n queue s) {pp : Nat} (bound : s.pPri pp < n) (fresh : ∀ q, pp ∉ queue q) :
    Lists n (update queue (s.pPri pp) (queue (s.pPri pp) ++ [pp])) (linkBack s pp) := by
  have linked := lists.linked (s.pPri pp)
  have last := lists.last (s.pPri pp)
  have home : ∀ p ∈ queue (s.pPri pp) ++ [pp], s.pPri p = s.pPri pp ∧ s.pPri pp < n := by
    intro p member
    rcases List.mem_append.mp member with old | new
    · exact lists.home _ p old
    · rw [List.mem_singleton.mp new]
      exact ⟨rfl, bound⟩
  have notNew : ∀ q, ∀ p ∈ queue q, p ≠ pp := by
    rintro q p member rfl
    exact fresh q member
  unfold linkBack
  cases tail : s.dqLast (s.pPri pp) with
  | none =>
    rw [tail] at last
    have empty : queue (s.pPri pp) = [] := List.getLast?_eq_none_iff.mp last.symm
    rw [empty] at home ⊢
    refine relisted lists _ rfl ?_ (by simp) home (fun q other => header_other q other) ?_
    · simp [Linked, seg_cons, seg_nil]
    · intro q other p member
      exact update_of_ne (notNew q p member) _ _
  | some l =>
    rw [tail] at last
    obtain ⟨before, split_⟩ := List.getLast?_eq_some_iff.mp last.symm
    rw [split_] at linked home ⊢
    have inside : l ∈ queue (s.pPri pp) := by simp [split_]
    refine relisted lists _ rfl (linked.push_back ?_) (by simp) home
      (fun q other => ⟨rfl, update_of_ne other _ _⟩) ?_
    · rw [← split_]
      exact fresh _
    · intro q other p member
      have apart : p ≠ l := by
        rintro rfl
        exact other (lists.apart member inside)
      simp only
      rw [update_of_ne apart, update_of_ne (notNew q p member)]

theorem linkFront_lists (lists : Lists n queue s) {pp : Nat} (bound : s.pPri pp < n) (fresh : ∀ q, pp ∉ queue q) :
    Lists n (update queue (s.pPri pp) (pp :: queue (s.pPri pp))) (linkFront s pp) := by
  have linked := lists.linked (s.pPri pp)
  have last := lists.last (s.pPri pp)
  have home : ∀ p ∈ pp :: queue (s.pPri pp), s.pPri p = s.pPri pp ∧ s.pPri pp < n := by
    intro p member
    rcases List.mem_cons.mp member with rfl | old
    · exact ⟨rfl, bound⟩
    · exact lists.home _ p old
  have links : ∀ v q, q ≠ s.pPri pp → ∀ p ∈ queue q, update s.pLink pp v p = s.pLink p := by
    intro v q _ p member
    have notNew : p ≠ pp := by
      rintro rfl
      exact fresh q member
    exact update_of_ne notNew _ _
  unfold linkFront
  cases head : s.dqFirst (s.pPri pp) with
  | none =>
    rw [head] at linked
    rw [linked.empty] at home ⊢
    refine relisted lists _ rfl ?_ (by simp) home (fun q other => header_other q other) (links none)
    simp [Linked, seg_cons, seg_nil]
  | some first =>
    have front := linked.push_front (fresh (s.pPri pp))
    rw [head] at front linked
    refine relisted lists _ rfl ?_ ?_ home (fun q other => ⟨update_of_ne other _ _, rfl⟩) (links (some first))
    · simpa using front
    · rw [last]
      cases here : queue (s.pPri pp) with
      | nil =>
        rw [here] at linked
        cases linked
      | cons a rest => simp [List.getLast?_cons]

theorem unlinkDq_lists (lists : Lists n queue s) {l l' : List Nat} {rp : Nat} (here : queue pri = l ++ rp :: l') :
    Lists n (update queue pri (l ++ l')) (unlinkDq s pri l.getLast? rp) := by
  have linked := lists.linked pri
  have last := lists.last pri
  have home := lists.home pri
  rw [here] at linked last home
  have next_ := linked.next_eq
  have home' : ∀ p ∈ l ++ l', s.pPri p = pri ∧ pri < n := by
    intro p member
    apply home p
    simp only [List.mem_append, List.mem_cons] at member ⊢
    tauto
  have tail : (if s.pLink rp = none then l.getLast? else s.dqLast pri) = (l ++ l').getLast? := by
    rw [next_, last]
    cases l' with
    | nil => simp
    | cons a rest => simp [List.getLast?_append, List.getLast?_cons]
  unfold unlinkDq
  rcases List.eq_nil_or_concat l with rfl | ⟨before, prp, rfl⟩
  · simp only [List.getLast?_nil, List.nil_append] at tail home' linked ⊢
    refine relisted lists _ rfl ?_ ?_ home' ?_ (fun _ _ _ _ => rfl)
    · simp only [update_self]
      exact linked.2
    · rw [← tail]
      simp only
      split <;> simp
    · intro q other
      refine ⟨update_of_ne other _ _, ?_⟩
      simp only
      split
      · exact update_of_ne other _ _
      · rfl
  · rw [List.concat_eq_append] at tail home' linked here ⊢
    simp only [List.getLast?_append, List.getLast?_singleton, Option.some_or] at tail ⊢
    rw [List.append_assoc, List.singleton_append] at linked
    have inside : prp ∈ queue pri := by simp [here]
    refine relisted lists _ rfl ?_ ?_ home' ?_ ?_
    · simpa using linked.unlink
    · rw [List.getLast?_append, List.getLast?_append, List.getLast?_singleton, Option.some_or, ← tail]
      simp only
      split <;> simp
    · intro q other
      refine ⟨rfl, ?_⟩
      simp only
      split
      · exact update_of_ne other _ _
      · rfl
    · intro q other p member
      have apart : p ≠ prp := by
        rintro rfl
        exact other (lists.apart member inside)
      exact update_of_ne apart _ _

end lists

end Svr4.Proofs.DispQueues
