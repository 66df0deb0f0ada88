import Svr4.Proofs.SortParts

/-! `msort` and `merge` write the first records of several sources in turn. -/

namespace Svr4.Proofs.SortHeads
open Function Shuffle Sorting SortParts

variable {compare : Compare} {uflg : Bool} {σ : Type} {read : σ → Option (Option (Record × σ))} {time : Nat}

def Ascending (compare : Compare) (l : List Record) : Prop := l.Pairwise fun x y => 0 ≤ compare x y

theorem search_done {rp : Nat → Record} {x : Record} {midp lop hip : Nat} (compares : Compares compare) (one : Proper x)
    (proper : ∀ k, lop ≤ k → k < hip → Proper (rp k)) (sorted : ∀ i j, lop ≤ i → i < j → j < hip → 0 ≤ compare (rp i) (rp j))
    (inside : lop ≤ hip) (start : midp = lop ∨ midp = hip ∨ lop < hip) :
    lop ≤ search compare rp x midp lop hip ∧ search compare rp x midp lop hip ≤ hip ∧
      (∀ k, lop ≤ k → k < search compare rp x midp lop hip → 0 ≤ compare (rp k) x) ∧
      ∀ k, search compare rp x midp lop hip ≤ k → k < hip → 0 ≤ compare x (rp k) := by
  fun_induction search compare rp x midp lop hip with
  | case1 midp lop hip more m c equal =>
    have here : lop ≤ m ∧ m < hip := by omega
    have three := proper m here.1 here.2
    have back : 0 ≤ compare (rp m) x := ((compares.zero_comm one three).mp equal).ge
    refine ⟨here.1, here.2.le, fun k low high => ?_, fun k low high => ?_⟩
    · exact compares.trans _ _ _ (proper k low (by omega)) three one (sorted k m low high here.2) back
    · rcases Nat.eq_or_lt_of_le low with rfl | later
      · exact equal.ge
      · exact compares.trans _ _ _ one three (proper k (by omega) high) equal.ge (sorted m k here.1 later high)
  | case2 midp lop hip more m c other later ih =>
    have here : lop ≤ m ∧ m < hip := by omega
    have three := proper m here.1 here.2
    have back : 0 < compare (rp m) x := (compares.neg_iff one three).mp later
    obtain ⟨low, high, left, right⟩ := ih (fun k low => proper k (by omega)) (fun i j low => sorted i j (by omega)) (by omega) (.inl rfl)
    refine ⟨by omega, high, fun k least most => ?_, right⟩
    by_cases beyond : m + 1 ≤ k
    · exact left k beyond most
    · rcases Nat.eq_or_lt_of_le (Nat.le_of_lt_succ (Nat.lt_of_not_le beyond)) with rfl | earlier
      · exact back.le
      · exact compares.trans _ _ _ (proper k least (by omega)) three one (sorted k m least earlier here.2) back.le
  | case3 midp lop hip more m c other earlier ih =>
    have here : lop ≤ m ∧ m < hip := by omega
    have three := proper m here.1 here.2
    obtain ⟨low, high, left, right⟩ := ih (fun k low high => proper k low (by omega)) (fun i j low between high => sorted i j low between (by omega))
      here.1 (.inr (.inl rfl))
    refine ⟨low, by omega, left, fun k least most => ?_⟩
    by_cases before : k < m
    · exact right k least before
    · rcases Nat.eq_or_lt_of_le (Nat.le_of_not_lt before) with rfl | later
      · omega
      · exact compares.trans _ _ _ one three (proper k (by omega) most) (by omega) (sorted m k here.1 later most)
  | case4 midp lop hip none_ =>
    have met : midp = lop := by omega
    exact ⟨by omega, by omega, fun k low high => by omega, fun k low high => by omega⟩

def Ordered (compare : Compare) (tree : List Btree) : Prop := tree.Pairwise fun x y => 0 ≤ compare x.rp y.rp

theorem ordered_middle {tp : Btree} {rest : List Btree} {k : Nat} (ordered : Ordered compare rest)
    (left : ∀ x ∈ rest.take k, 0 ≤ compare x.rp tp.rp) (right : ∀ x ∈ rest.drop k, 0 ≤ compare tp.rp x.rp) :
    Ordered compare (rest.take k ++ tp :: rest.drop k) := by
  have split := List.take_append_drop k rest
  have ordered : Ordered compare (rest.take k ++ rest.drop k) := split.symm ▸ ordered
  obtain ⟨first, second, across⟩ := List.pairwise_append.mp ordered
  refine List.pairwise_append.mpr ⟨first, List.pairwise_cons.mpr ⟨right, second⟩, fun x member y after => ?_⟩
  rcases List.mem_cons.mp after with rfl | after
  · exact left x member
  · exact across x member y after

theorem insert_done (compares : Compares compare) {h : Heads} {tp : Btree} {rest : List Btree} (shape : h.tree = tp :: rest)
    (proper : ∀ x ∈ tp :: rest, Proper x.rp) (ordered : Ordered compare rest) :
    (Sorting.insert compare h).tree.Perm (tp :: rest) ∧ Ordered compare (Sorting.insert compare h).tree := by
  have one : Proper tp.rp := proper tp (by simp)
  obtain ⟨tree, wasfirst, notfirst, bonus⟩ := h
  obtain rfl : tree = tp :: rest := shape
  unfold Sorting.insert
  dsimp only
  have at_ : ∀ k (inside : k < rest.length), (tp :: rest).getD (k + 1) tp = rest[k] := by
    intro k inside
    simp [inside]
  have within : ∀ k, 1 ≤ k → k < rest.length + 1 → ∃ i, ∃ inside : i < rest.length, k = i + 1 ∧ (tp :: rest).getD k tp = rest[i] := by
    intro k low high
    obtain ⟨i, rfl⟩ := Nat.exists_eq_add_of_le' low
    exact ⟨i, by omega, rfl, at_ i (by omega)⟩
  split
  case isTrue first =>
    refine ⟨.refl _, List.pairwise_cons.mpr ⟨fun x member => ?_, ordered⟩⟩
    obtain ⟨_, _, before⟩ := first
    cases rest with
    | nil => cases member
    | cons next rest =>
      rcases List.mem_cons.mp member with rfl | later
      · exact before
      · have two : Proper next.rp := proper next (by simp)
        exact compares.trans _ _ _ one two (proper x (by simp [later])) before ((List.pairwise_cons.mp ordered).1 x later)
  case isFalse =>
    have proper_ : ∀ k, 1 ≤ k → k < rest.length + 1 → Proper ((tp :: rest).getD k tp).rp := by
      intro k low high
      obtain ⟨i, inside, _, is⟩ := within k low high
      rw [is]
      exact proper _ (List.mem_cons_of_mem _ (List.getElem_mem inside))
    have sorted : ∀ i j, 1 ≤ i → i < j → j < rest.length + 1 → 0 ≤ compare ((tp :: rest).getD i tp).rp ((tp :: rest).getD j tp).rp := by
      intro i j low between high
      obtain ⟨i, inside, rfl, is⟩ := within i low (by omega)
      obtain ⟨j, inside', rfl, is'⟩ := within j (by omega) high
      rw [is, is']
      exact List.pairwise_iff_getElem.mp ordered i j inside inside' (by omega)
    cases rest with
    | nil =>
      rw [search]
      exact ⟨.refl _, List.pairwise_singleton _ _⟩
    | cons next rest =>
      have found := @search_done compare (fun k => ((tp :: next :: rest).getD k tp).rp) tp.rp 0 1 ((next :: rest).length + 1)
        compares one proper_ sorted (Nat.le_add_left _ _) (.inr (.inr (by simp)))
      have size : (next :: rest).length = rest.length + 1 := rfl
      rw [List.length_cons] at found ⊢
      generalize search compare (fun k => ((tp :: next :: rest).getD k tp).rp) tp.rp 0 1 ((next :: rest).length + 1) = midp at found ⊢
      obtain ⟨low, high, left, right⟩ := found
      have take : ∀ x ∈ (next :: rest).take (midp - 1), 0 ≤ compare x.rp tp.rp := by
        intro x member
        obtain ⟨i, inside, rfl⟩ := List.mem_take_iff_getElem.mp member
        have := left (i + 1) (by omega) (by omega)
        rwa [at_ i (by omega)] at this
      have drop : ∀ x ∈ (next :: rest).drop (midp - 1), 0 ≤ compare tp.rp x.rp := by
        intro x member
        obtain ⟨i, inside, rfl⟩ := List.mem_drop_iff_getElem.mp member
        have := right (midp - 1 + i + 1) (by omega) (by omega)
        rwa [at_ (midp - 1 + i) (by omega)] at this
      have middle := ordered_middle ordered take drop
      split
      · refine ⟨?_, middle⟩
        have split := List.take_append_drop (midp - 1) (next :: rest)
        conv_rhs => rw [← split]
        exact List.perm_middle
      · have zero : midp - 1 = 0 := by omega
        rw [zero] at middle
        exact ⟨.refl _, middle⟩

def Feeds (read : σ → Option (Option (Record × σ))) : List Record → σ → Prop
  | [], s => read s = some none
  | r :: more, s => ∃ s', read s = some (some (r, s')) ∧ Feeds read more s'

structure Streams (compare : Compare) (read : σ → Option (Option (Record × σ))) (tree : List Btree) (blk : Nat → σ)
    (more : Nat → List Record) : Prop where
  once : (tree.map Btree.rn).Nodup
  ordered : Ordered compare tree
  feeds : ∀ tp ∈ tree, Feeds read (more tp.rn) (blk tp.rn)
  ascending : ∀ tp ∈ tree, Ascending compare (tp.rp :: more tp.rn)
  proper : ∀ tp ∈ tree, ∀ r ∈ tp.rp :: more tp.rn, Proper r

def pending (tree : List Btree) (more : Nat → List Record) : List Record := tree.flatMap fun tp => tp.rp :: more tp.rn

section streams
variable {tree rest : List Btree} {tp : Btree} {blk : Nat → σ} {more : Nat → List Record}

theorem Streams.pending_proper (streams : Streams compare read tree blk more) : ∀ r ∈ pending tree more, Proper r := by
  intro r member
  obtain ⟨tp, inside, own⟩ := List.mem_flatMap.mp member
  exact streams.proper tp inside r own

theorem Streams.least (compares : Compares compare) (streams : Streams compare read (tp :: rest) blk more) :
    ∀ r ∈ pending (tp :: rest) more, 0 ≤ compare tp.rp r := by
  intro r member
  obtain ⟨x, inside, own⟩ := List.mem_flatMap.mp member
  have one : Proper tp.rp := streams.proper tp (by simp) _ (by simp)
  have two : Proper x.rp := streams.proper x inside _ (by simp)
  have three : Proper r := streams.proper x inside r own
  have first : 0 ≤ compare tp.rp x.rp := by
    rcases List.mem_cons.mp inside with rfl | later
    · exact (compares.self one).ge
    · exact (List.pairwise_cons.mp streams.ordered).1 x later
  have second : 0 ≤ compare x.rp r := by
    rcases List.mem_cons.mp own with rfl | later
    · exact (compares.self two).ge
    · exact (List.pairwise_cons.mp (streams.ascending x inside)).1 r later
  exact compares.trans _ _ _ one two three first second

theorem pending_cons : pending (tp :: rest) more = tp.rp :: (more tp.rn ++ pending rest more) := rfl

theorem pending_perm {tree' : List Btree} (perm : tree'.Perm tree) : (pending tree' more).Perm (pending tree more) :=
  perm.flatMap_right _

theorem pending_congr {more' : Nat → List Record} (same : ∀ tp ∈ tree, more' tp.rn = more tp.rn) : pending tree more' = pending tree more := by
  unfold pending
  rw [List.flatMap_def, List.flatMap_def]
  congr 1
  apply List.map_congr_left
  intro tp member
  rw [same tp member]

theorem Streams.leave (streams : Streams compare read (tp :: rest) blk more) (ended : more tp.rn = []) :
    read (blk tp.rn) = some none ∧ Streams compare read rest blk more ∧ pending (tp :: rest) more = tp.rp :: pending rest more := by
  have own := streams.feeds tp (by simp)
  rw [ended] at own
  refine ⟨own, ⟨(List.nodup_cons.mp streams.once).2, (List.pairwise_cons.mp streams.ordered).2, fun x member => ?_, fun x member => ?_,
    fun x member => ?_⟩, ?_⟩
  · exact streams.feeds x (List.mem_cons_of_mem _ member)
  · exact streams.ascending x (List.mem_cons_of_mem _ member)
  · exact streams.proper x (List.mem_cons_of_mem _ member)
  · rw [pending_cons, ended, List.nil_append]

theorem Streams.advance (compares : Compares compare) (streams : Streams compare read (tp :: rest) blk more) {r : Record}
    {left : List Record} (next : more tp.rn = r :: left) :
    ∃ s, read (blk tp.rn) = some (some (r, s)) ∧ ∀ h : Heads, h.tree = { tp with rp := r } :: rest →
      Streams compare read (Sorting.insert compare h).tree (update blk tp.rn s) (update more tp.rn left) ∧
      (tp.rp :: pending (Sorting.insert compare h).tree (update more tp.rn left)).Perm (pending (tp :: rest) more) := by
  have own := streams.feeds tp (by simp)
  rw [next] at own
  obtain ⟨s, given, feeds⟩ := own
  obtain ⟨absent, once⟩ := List.nodup_cons.mp streams.once
  have apart : ∀ x ∈ rest, x.rn ≠ tp.rn := fun x member same => absent (same ▸ List.mem_map_of_mem member)
  have along := streams.ascending tp (by simp)
  have lines := streams.proper tp (by simp)
  rw [next] at along lines
  refine ⟨s, given, fun h shape => ?_⟩
  have proper : ∀ x ∈ { tp with rp := r } :: rest, Proper x.rp := by
    intro x member
    rcases List.mem_cons.mp member with rfl | later
    · exact lines r (by simp)
    · exact streams.proper x (List.mem_cons_of_mem _ later) _ (by simp)
  obtain ⟨perm, ordered⟩ := insert_done compares shape proper (List.pairwise_cons.mp streams.ordered).2
  have cases_ : ∀ x ∈ (Sorting.insert compare h).tree, x = { tp with rp := r } ∨ x ∈ rest :=
    fun x member => List.mem_cons.mp (perm.mem_iff.mp member)
  refine ⟨⟨?_, ordered, fun x member => ?_, fun x member => ?_, fun x member => ?_⟩, ?_⟩
  · exact (perm.map Btree.rn).nodup_iff.mpr (List.nodup_cons.mpr ⟨absent, once⟩)
  · rcases cases_ x member with rfl | later
    · rw [update_self, update_self]
      exact feeds
    · rw [update_of_ne (apart x later), update_of_ne (apart x later)]
      exact streams.feeds x (List.mem_cons_of_mem _ later)
  · rcases cases_ x member with rfl | later
    · rw [update_self]
      exact (List.pairwise_cons.mp along).2
    · rw [update_of_ne (apart x later)]
      exact streams.ascending x (List.mem_cons_of_mem _ later)
  · rcases cases_ x member with rfl | later
    · rw [update_self]
      exact fun y own => lines y (List.mem_cons_of_mem _ own)
    · rw [update_of_ne (apart x later)]
      exact streams.proper x (List.mem_cons_of_mem _ later)
  · rw [pending_cons, next]
    refine List.Perm.cons _ ((pending_perm perm).trans ?_)
    have same : pending rest (update more tp.rn left) = pending rest more :=
      pending_congr fun x member => update_of_ne (apart x member) _ _
    rw [pending_cons, same, update_self]
    exact .refl _

end streams

structure Refilled (compare : Compare) (uflg : Bool) (save : Record) (before after : List Record) : Prop where
  fewer : after.length < before.length
  all : uflg = false → (save :: after).Perm before
  later : uflg = true → ∀ r ∈ after, r ∈ before ∧ 0 < compare save r
  covered : uflg = true → ∀ r ∈ before, r ∈ after ∨ compare save r = 0

theorem refill_done (compares : Compares compare) {save : Record} (saved : Proper save) {h : Heads} {tp : Btree} {rest : List Btree}
    {blk : Nat → σ} {more : Nat → List Record} (shape : h.tree = tp :: rest) (streams : Streams compare read (tp :: rest) blk more)
    (head : compare tp.rp save = 0) (is : uflg = false → tp.rp = save) (enough : (pending (tp :: rest) more).length ≤ time) :
    ∃ h' blk' more', refill compare read uflg save time h blk = some (h', blk') ∧ Streams compare read h'.tree blk' more' ∧
      Refilled compare uflg save (pending (tp :: rest) more) (pending h'.tree more') := by
  induction time generalizing h tp rest blk more with
  | zero => simp [pending_cons] at enough
  | succ time ih =>
    have one : Proper tp.rp := streams.proper tp (by simp) _ (by simp)
    have zero : compare save tp.rp = 0 := (compares.zero_comm one saved).mp head
    rw [refill, shape]
    dsimp only
    have least : ∀ r ∈ pending (tp :: rest) more, 0 ≤ compare save r := fun r member =>
      compares.trans _ _ _ saved one (streams.pending_proper r member) zero.ge (streams.least compares r member)
    -- what is left after one record of the class of `save` is gone
    have next : ∀ (h' : Heads) (blk' : Nat → σ) (more' : Nat → List Record), Streams compare read h'.tree blk' more' →
        (tp.rp :: pending h'.tree more').Perm (pending (tp :: rest) more) → ∀ first rest', h'.tree = first :: rest' →
        ∃ h'' blk'' more'', (if uflg ∧ compare first.rp save = 0 then refill compare read uflg save time h' blk'
          else some (h', blk')) = some (h'', blk'') ∧ Streams compare read h''.tree blk'' more'' ∧
          Refilled compare uflg save (pending (tp :: rest) more) (pending h''.tree more'') := by
      intro h' blk' more' streams' perm first rest' shape'
      have size := perm.length_eq
      rw [List.length_cons] at size
      have old : ∀ r ∈ pending h'.tree more', r ∈ pending (tp :: rest) more := fun r member =>
        perm.mem_iff.mp (List.mem_cons_of_mem _ member)
      have either : ∀ r ∈ pending (tp :: rest) more, r ∈ pending h'.tree more' ∨ compare save r = 0 := by
        intro r member
        rcases List.mem_cons.mp (perm.mem_iff.mpr member) with rfl | later
        · exact .inr zero
        · exact .inl later
      have two : Proper first.rp := streams'.proper first (by simp [shape']) _ (by simp)
      cases uflg with
      | false =>
        refine ⟨h', blk', more', by simp, streams', ⟨by omega, fun _ => ?_, (fun no => by cases no), (fun no => by cases no)⟩⟩
        rw [← is rfl]
        exact perm
      | true =>
        by_cases again : compare first.rp save = 0
        · rw [shape'] at streams'
          obtain ⟨h'', blk'', more'', done, streams'', refilled⟩ :=
            ih shape' streams' again (fun no => by cases no) (by rw [← shape']; omega)
          rw [← shape'] at refilled
          refine ⟨h'', blk'', more'', by simp [again, done], streams'', ⟨?_, (fun no => by cases no), fun _ r member => ?_, fun _ r member => ?_⟩⟩
          · have fewer := refilled.fewer
            omega
          · obtain ⟨inside, later⟩ := refilled.later rfl r member
            exact ⟨old r inside, later⟩
          · rcases either r member with inside | same
            · exact refilled.covered rfl r inside
            · exact .inr same
        · refine ⟨h', blk', more', by simp [again], streams', ⟨by omega, (fun no => by cases no), fun _ r member => ⟨old r member, ?_⟩,
            fun _ => either⟩⟩
          have three : Proper r := streams'.pending_proper r member
          have up : 0 ≤ compare save first.rp := least _ (old _ (by rw [shape', pending_cons]; simp))
          have beyond : 0 ≤ compare first.rp r := by
            rw [shape'] at streams' member
            exact streams'.least compares r member
          by_contra not_
          have back : compare save r = 0 := le_antisymm (Int.not_lt.mp not_) (least r (old r member))
          have down : 0 ≤ compare first.rp save := by
            obtain ⟨neg, _, _⟩ := compares.congr two saved three back
            by_contra less
            have := neg.mp (by omega)
            omega
          exact again ((compares.zero _ _ two saved).mpr ⟨down, up⟩)
    cases ahead : more tp.rn with
    | nil =>
      obtain ⟨ended, streams', left⟩ := streams.leave ahead
      rw [ended]
      cases rest with
      | nil =>
        refine ⟨_, _, more, rfl, ⟨by simp, List.Pairwise.nil, by simp, by simp, by simp⟩, ⟨?_, fun no => ?_, fun _ r member => ?_,
          fun _ r member => ?_⟩⟩
        · rw [pending_cons]
          simp [pending]
        · rw [left, is no]
        · simp [pending] at member
        · rw [left] at member
          rcases List.mem_cons.mp member with rfl | member
          · exact .inr zero
          · exact .inl member
      | cons first rest =>
        exact next { h with tree := first :: rest, bonus := cmpsave (first :: rest).length } blk more streams' (left ▸ .refl _) first rest rfl
    | cons r left =>
      obtain ⟨s, given, inserted⟩ := streams.advance compares ahead
      obtain ⟨streams', perm⟩ := inserted { h with tree := { tp with rp := r } :: rest } rfl
      rw [given]
      dsimp only [bind, Option.bind]
      cases shape' : (Sorting.insert compare { h with tree := { tp with rp := r } :: rest }).tree with
      | nil =>
        have size := perm.length_eq
        simp [shape', pending, ahead] at size
      | cons first rest' => exact next _ _ _ streams' perm first rest' shape'

/-- What is to be written of the records: all of them in order, or with `uflg` one of each
class, in strict order. -/
def Written (compare : Compare) (uflg : Bool) (all out : List Record) : Prop :=
  if uflg then
    out.Pairwise (fun x y => 0 < compare x y) ∧ (∀ x ∈ out, x ∈ all) ∧ ∀ r ∈ all, ∃ x ∈ out, compare x r = 0
  else out.Perm all ∧ Ascending compare out

theorem wline_proper {os : List UInt8} {r : Record} (proper : Proper r) : wline os r = os ++ r := by
  obtain ⟨body, rfl, _, clean⟩ := proper
  rw [wline, List.takeWhile_eq_self_iff.mpr]
  intro c member
  rcases List.mem_append.mp member with inside | last
  · simpa using fun zero : c = 0 => clean (zero ▸ inside)
  · obtain rfl := List.mem_singleton.mp last
    decide

theorem emit_done (compares : Compares compare) {h : Heads} {blk : Nat → σ} {more : Nat → List Record}
    (os : List UInt8) (streams : Streams compare read h.tree blk more) (enough : (pending h.tree more).length < time) :
    ∃ out, emit compare read uflg time h blk os = some (os ++ out.flatten) ∧ Written compare uflg (pending h.tree more) out := by
  induction time generalizing h blk more os with
  | zero => simp at enough
  | succ time ih =>
    rw [emit]
    cases shape : h.tree with
    | nil =>
      refine ⟨[], by simp, ?_⟩
      cases uflg <;> simp [Written, pending, Ascending]
    | cons tp rest =>
      rw [shape] at streams enough
      have one : Proper tp.rp := streams.proper tp (by simp) _ (by simp)
      obtain ⟨h', blk', more', done, streams', refilled⟩ :=
        @refill_done compare uflg σ read time compares tp.rp one h tp rest blk more shape streams (compares.self one) (fun _ => rfl)
          (Nat.le_of_lt_succ enough)
      have fewer := refilled.fewer
      obtain ⟨out, written, is⟩ := ih (os ++ tp.rp) streams' (by omega)
      refine ⟨tp.rp :: out, ?_, ?_⟩
      · dsimp only
        rw [wline_proper one]
        simp only [done, bind, Option.bind, written, List.flatten_cons, List.append_assoc]
      · have least := streams.least compares
        cases uflg with
        | false =>
          rw [Written, if_neg Bool.false_ne_true] at is ⊢
          obtain ⟨perm, ascending⟩ := is
          have whole := refilled.all rfl
          refine ⟨(perm.cons _).trans whole, List.pairwise_cons.mpr ⟨fun r member => ?_, ascending⟩⟩
          exact least r (whole.mem_iff.mp (List.mem_cons_of_mem _ (perm.mem_iff.mp member)))
        | true =>
          rw [Written, if_pos rfl] at is ⊢
          obtain ⟨strict, inside, covered⟩ := is
          refine ⟨List.pairwise_cons.mpr ⟨fun r member => (refilled.later rfl r (inside r member)).2, strict⟩, fun r member => ?_,
            fun r member => ?_⟩
          · rcases List.mem_cons.mp member with rfl | member
            · rw [pending_cons]
              simp
            · exact (refilled.later rfl r (inside r member)).1
          · rcases refilled.covered rfl r member with later | same
            · obtain ⟨x, found, same⟩ := covered r later
              exact ⟨x, List.mem_cons_of_mem _ found, same⟩
            · exact ⟨tp.rp, by simp, same⟩

end Svr4.Proofs.SortHeads
