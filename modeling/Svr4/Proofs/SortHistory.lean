import Svr4.Proofs.SortHeads

/-! `msort` sorts the records in memory, and `merge` those of sorted files. -/

namespace Svr4.Proofs.SortHistory
open Function Shuffle Sorting SortParts SortHeads

variable {maxrec : Nat} {r : Record}

variable {σ : Type} {compare : Compare} {uflg : Bool} {m m' : Nat → Record} {a b l i j n time : Nat}

def keep (uflg : Bool) (blk : List Record) : List Record := if uflg then blk.filter fun r => !marked r else blk

theorem mark_marked (proper : Proper r) : marked (mark r) = true := by
  obtain ⟨body, rfl, _, _⟩ := proper
  cases body <;> rfl

theorem unmarked (proper : Proper r) : marked r = false := by
  obtain ⟨body, rfl, _, clean⟩ := proper
  cases body with
  | nil => rfl
  | cons c body =>
    have some_ : c ≠ 0 := by
      rintro rfl
      exact clean (by simp)
    simp [marked, some_]

theorem keep_cons {more : List Record} (proper : Proper r) : keep uflg (r :: more) = r :: keep uflg more := by
  cases uflg with
  | false => rfl
  | true => simp [keep, unmarked proper]

theorem keep_reverse {blk : List Record} : keep uflg blk.reverse = (keep uflg blk).reverse := by
  cases uflg with
  | false => rfl
  | true => exact List.filter_reverse

theorem fetch_feeds (blk : List Record) : Feeds (fetch uflg) (keep uflg blk) blk := by
  cases uflg with
  | false =>
    induction blk with
    | nil => rfl
    | cons r more ih => exact ⟨more, rfl, ih⟩
  | true =>
    induction blk with
    | nil => rfl
    | cons r more ih =>
      cases is : marked r with
      | false =>
        have whole : keep true (r :: more) = r :: keep true more := by simp [keep, is]
        rw [whole]
        exact ⟨more, by simp [fetch, is], ih⟩
      | true =>
        have rest : keep true (r :: more) = keep true more := by simp [keep, is]
        have skip : fetch true (r :: more) = fetch true more := by simp [fetch, is]
        rw [rest]
        cases ahead : keep true more with
        | nil =>
          rw [ahead] at ih
          exact skip.trans ih
        | cons x others =>
          rw [ahead] at ih
          obtain ⟨s, given, feeds⟩ := ih
          exact ⟨s, skip.trans given, feeds⟩

theorem keep_dups (compares : Compares compare) {l : List Record} (proper : ∀ r ∈ l, Proper r) :
    (keep uflg (dups compare uflg l)).Sublist l ∧ (uflg = false → keep uflg (dups compare uflg l) = l) ∧
      (∀ r ∈ l, ∃ x ∈ keep uflg (dups compare uflg l), compare x r = 0) ∧ (dups compare uflg l).getLast? = l.getLast? := by
  induction l with
  | nil => cases uflg <;> simp [dups, keep]
  | cons x l ih =>
    have one : Proper x := proper x (by simp)
    obtain ⟨sub, off, covered, last⟩ := ih fun r member => proper r (by simp [member])
    have self := compares.self one
    cases l with
    | nil =>
      have whole : keep uflg (dups compare uflg [x]) = [x] := by cases uflg <;> simp [keep, dups, unmarked one]
      rw [whole]
      exact ⟨.refl _, fun _ => rfl, fun r member => ⟨x, by simp, by rw [List.mem_singleton.mp member]; exact self⟩, rfl⟩
    | cons y l =>
      have two : Proper y := proper y (by simp)
      have last' : (dups compare uflg (x :: y :: l)).getLast? = (x :: y :: l).getLast? := by
        rw [dups, List.getLast?_cons, last]
        simp [List.getLast?_cons]
      by_cases same : uflg ∧ compare x y = 0
      · have whole : keep uflg (dups compare uflg (x :: y :: l)) = keep uflg (dups compare uflg (y :: l)) := by
          obtain ⟨rfl, zero⟩ := same
          simp [dups, zero, keep, mark_marked one]
        rw [whole]
        refine ⟨sub.cons x, fun no => by simp [no] at same, fun r member => ?_, last'⟩
        rcases List.mem_cons.mp member with rfl | member
        · obtain ⟨z, inside, zero⟩ := covered y (by simp)
          have three : Proper z := proper z (List.mem_cons_of_mem _ (sub.mem inside))
          exact ⟨z, inside, ((compares.congr three one two same.2).2.1).mpr zero⟩
        · exact covered r member
      · have whole : keep uflg (dups compare uflg (x :: y :: l)) = x :: keep uflg (dups compare uflg (y :: l)) := by
          rw [dups, if_neg same, keep_cons one]
        rw [whole]
        refine ⟨sub.cons_cons x, fun no => by rw [off no], fun r member => ?_, last'⟩
        rcases List.mem_cons.mp member with rfl | member
        · exact ⟨r, by simp, self⟩
        · obtain ⟨z, inside, zero⟩ := covered r member
          exact ⟨z, by simp [inside], zero⟩

theorem blocks_done (compares : Compares compare) {blk : Nat → List Record} (proper : ∀ r ∈ slice m a (a + i), Proper r)
    (some_ : n ≤ i) (all : n = 0 → i = 0) : ∃ parts : List (List Record), parts.length = n ∧ parts.flatten.Perm (slice m a (a + i)) ∧
      (∀ part ∈ parts, part ≠ [] ∧ Descending compare part) ∧
      (∀ t (inside : t < parts.length), blocks compare uflg n j a i m blk (j + t) = (dups compare uflg parts[t]).reverse) ∧
      ∀ k, k < j → blocks compare uflg n j a i m blk k = blk k := by
  induction n generalizing j a i m blk with
  | zero =>
    obtain rfl := all rfl
    exact ⟨[], rfl, by rw [slice_nil (by omega)]; exact .refl _, by simp, by simp, fun _ _ => rfl⟩
  | succ n ih =>
    have few : i / (n + 1) ≤ i := Nat.div_le_self _ _
    have one : 1 ≤ i / (n + 1) := (Nat.one_le_div_iff (Nat.succ_pos n)).mpr some_
    have rest : n ≤ i - i / (n + 1) := by
      have back : i / (n + 1) * (n + 1) ≤ i := Nat.div_mul_le_self _ _
      have more : n ≤ i / (n + 1) * n := Nat.le_mul_of_pos_left n one
      rw [Nat.mul_succ] at back
      omega
    have none_ : n = 0 → i - i / (n + 1) = 0 := by
      rintro rfl
      simp
    have ends : a + i / (n + 1) + (i - i / (n + 1)) = a + i := by omega
    have whole : slice m a (a + i / (n + 1)) ++ slice m (a + i / (n + 1)) (a + i) = slice m a (a + i) :=
      slice_append (by omega) (by omega)
    rw [← whole] at proper ⊢
    obtain ⟨outside, part, perm, down, is⟩ : Sorted compare uflg a (a + i / (n + 1)) m (qksort compare uflg m a (a + i / (n + 1))) :=
      qksort_sorted compares fun r member => proper r (List.mem_append_left _ member)
    have same : slice (qksort compare uflg m a (a + i / (n + 1))) (a + i / (n + 1)) (a + i) = slice m (a + i / (n + 1)) (a + i) :=
      slice_congr fun k low high => outside k (by omega)
    obtain ⟨parts, count, perms, good, these, others⟩ := @ih
      (qksort compare uflg m a (a + i / (n + 1))) (a + i / (n + 1)) (i - i / (n + 1)) (j + 1)
      (update blk j (slice (qksort compare uflg m a (a + i / (n + 1))) a (a + i / (n + 1))).reverse)
      (fun r member => proper r (List.mem_append_right _ (by rwa [ends, same] at member))) rest none_
    rw [ends, same] at perms
    refine ⟨part :: parts, by simp [count], perm.append perms, ?_, ?_, ?_⟩
    · intro x member
      rcases List.mem_cons.mp member with rfl | later
      · refine ⟨?_, down⟩
        rintro rfl
        have size := perm.length_eq
        rw [length_slice, List.length_nil] at size
        omega
      · exact good x later
    · intro t inside
      rw [blocks]
      cases t with
      | zero =>
        have here := others j (Nat.lt_succ_self j)
        rw [update_self] at here
        exact here.trans (congrArg List.reverse is)
      | succ t =>
        have next := these t (Nat.lt_of_succ_lt_succ inside)
        rw [show j + 1 + t = j + (t + 1) by omega] at next
        exact next
    · intro k before
      rw [blocks, others k (by omega), update_of_ne (by omega)]

def Ready (compare : Compare) (uflg : Bool) (blk : List Record) : Prop :=
  ∃ r more, blk = r :: more ∧ Ascending compare (r :: keep uflg more) ∧ ∀ x ∈ r :: keep uflg more, Proper x

section
variable (compares : Compares compare)
include compares

theorem firsts_done {h : Heads} {blk more : Nat → List Record}
    (streams : Streams compare (fetch uflg) h.tree blk more) (beyond : ∀ tp ∈ h.tree, j ≤ tp.rn) (ready : ∀ t < j, Ready compare uflg (blk t)) :
    ∃ h' blk' more', firsts compare j h blk = some (h', blk') ∧ Streams compare (fetch uflg) h'.tree blk' more' ∧
      (pending h'.tree more').Perm (((List.range j).flatMap fun t => keep uflg (blk t)) ++ pending h.tree more) := by
  induction j generalizing h blk more with
  | zero => exact ⟨h, blk, more, rfl, streams, .refl _⟩
  | succ j ih =>
    obtain ⟨r, rest, is, along, lines⟩ := ready j (Nat.lt_succ_self j)
    have apart : ∀ x ∈ h.tree, x.rn ≠ j := fun x member => by have := beyond x member; omega
    have one : Proper r := lines r (by simp)
    have proper : ∀ x ∈ (⟨r, j⟩ : Btree) :: h.tree, Proper x.rp := by
      intro x member
      rcases List.mem_cons.mp member with rfl | later
      · exact one
      · exact streams.proper x later _ (by simp)
    obtain ⟨perm, ordered⟩ := @insert_done compare compares { h with tree := ⟨r, j⟩ :: h.tree } ⟨r, j⟩ h.tree rfl proper streams.ordered
    have either : ∀ x ∈ (Sorting.insert compare { h with tree := ⟨r, j⟩ :: h.tree }).tree, x = ⟨r, j⟩ ∨ x ∈ h.tree :=
      fun x member => List.mem_cons.mp (perm.mem_iff.mp member)
    have streams' : Streams compare (fetch uflg) (Sorting.insert compare { h with tree := ⟨r, j⟩ :: h.tree }).tree (update blk j rest)
        (update more j (keep uflg rest)) := by
      refine ⟨?_, ordered, fun x member => ?_, fun x member => ?_, fun x member => ?_⟩
      · refine (perm.map Btree.rn).nodup_iff.mpr (List.nodup_cons.mpr ⟨fun member => ?_, streams.once⟩)
        obtain ⟨x, inside, same⟩ := List.mem_map.mp member
        exact apart x inside same
      · rcases either x member with rfl | later
        · rw [update_self, update_self]
          exact fetch_feeds rest
        · rw [update_of_ne (apart x later), update_of_ne (apart x later)]
          exact streams.feeds x later
      · rcases either x member with rfl | later
        · rw [update_self]
          exact along
        · rw [update_of_ne (apart x later)]
          exact streams.ascending x later
      · rcases either x member with rfl | later
        · rw [update_self]
          exact lines
        · rw [update_of_ne (apart x later)]
          exact streams.proper x later
    have others : ∀ t < j, update blk j rest t = blk t := fun t before => update_of_ne (by omega) _ _
    obtain ⟨h', blk', more', done, streams'', perm'⟩ := ih streams' (fun x member => by
        rcases either x member with rfl | later
        · exact le_rfl
        · have := beyond x later
          omega) (fun t before => by rw [others t before]; exact ready t (by omega))
    refine ⟨h', blk', more', by rw [firsts, is]; exact done, streams'', perm'.trans ?_⟩
    have front : ((List.range j).flatMap fun t => keep uflg (update blk j rest t)) = (List.range j).flatMap fun t => keep uflg (blk t) := by
      rw [List.flatMap_def, List.flatMap_def]
      congr 1
      apply List.map_congr_left
      intro t member
      rw [others t (List.mem_range.mp member)]
    have same : pending h.tree (update more j (keep uflg rest)) = pending h.tree more :=
      pending_congr fun x member => update_of_ne (apart x member) _ _
    rw [front, List.range_succ, List.flatMap_append, List.append_assoc]
    refine List.Perm.append_left _ ((pending_perm perm).trans ?_)
    rw [pending_cons, same, update_self, List.flatMap_singleton, is, keep_cons one]
    exact .refl _

theorem Written.of_kept {kept all out : List Record} (proper : ∀ r ∈ all, Proper r)
    (written : Written compare uflg kept out) (inside : ∀ x ∈ kept, x ∈ all) (covered : ∀ r ∈ all, ∃ x ∈ kept, compare x r = 0)
    (off : uflg = false → kept.Perm all) : Written compare uflg all out := by
  cases uflg with
  | false =>
    rw [Written, if_neg Bool.false_ne_true] at written ⊢
    exact ⟨written.1.trans (off rfl), written.2⟩
  | true =>
    rw [Written, if_pos rfl] at written ⊢
    obtain ⟨strict, from_, each⟩ := written
    refine ⟨strict, fun x member => inside x (from_ x member), fun r member => ?_⟩
    obtain ⟨x, found, same⟩ := covered r member
    obtain ⟨y, found', same'⟩ := each x found
    have one := proper r member
    have two := proper x (inside x found)
    have three := proper y (inside y (from_ y found'))
    exact ⟨y, found', ((compares.congr three two one same).2.1).mp same'⟩

theorem ready_done {part : List Record} (proper : ∀ r ∈ part, Proper r) (some_ : part ≠ [])
    (down : Descending compare part) : Ready compare uflg (dups compare uflg part).reverse := by
  obtain ⟨sub, _, _, last⟩ := @keep_dups compare uflg compares part proper
  obtain ⟨front, r, rfl⟩ := (List.eq_nil_or_concat part).resolve_left some_
  rw [List.concat_eq_append] at *
  rw [List.getLast?_append_of_ne_nil _ (List.cons_ne_nil r []), List.getLast?_singleton] at last
  obtain ⟨others, is⟩ := List.getLast?_eq_some_iff.mp last
  have one : Proper r := proper r (by simp)
  have whole : (dups compare uflg (front ++ [r])).reverse = r :: others.reverse := by rw [is, List.reverse_append]; rfl
  have kept : r :: keep uflg others.reverse = (keep uflg (dups compare uflg (front ++ [r]))).reverse := by
    rw [← keep_cons one, ← whole, keep_reverse]
  refine ⟨r, others.reverse, whole, ?_, ?_⟩
  · rw [kept]
    apply List.pairwise_reverse.mpr
    apply (down.sublist sub).imp_of_mem
    intro x y first second below
    have two := proper x (sub.mem first)
    have three := proper y (sub.mem second)
    have neg := compares.neg_iff two three
    have zero := compares.zero_comm two three
    omega
  · intro x member
    rw [kept, List.mem_reverse] at member
    exact proper x (sub.mem member)

theorem kept_done {parts : List (List Record)} (proper : ∀ part ∈ parts, ∀ r ∈ part, Proper r) :
    (∀ x ∈ parts.flatMap fun part => keep uflg (dups compare uflg part).reverse, x ∈ parts.flatten) ∧
      (∀ r ∈ parts.flatten, ∃ x ∈ parts.flatMap fun part => keep uflg (dups compare uflg part).reverse, compare x r = 0) ∧
      (uflg = false → (parts.flatMap fun part => keep uflg (dups compare uflg part).reverse).Perm parts.flatten) := by
  refine ⟨fun x member => ?_, fun r member => ?_, fun no => ?_⟩
  · obtain ⟨part, inside, own⟩ := List.mem_flatMap.mp member
    rw [keep_reverse, List.mem_reverse] at own
    exact List.mem_flatten.mpr ⟨part, inside, (keep_dups compares (proper part inside)).1.mem own⟩
  · obtain ⟨part, inside, own⟩ := List.mem_flatten.mp member
    obtain ⟨x, kept, same⟩ := (@keep_dups compare uflg compares part (proper part inside)).2.2.1 r own
    refine ⟨x, List.mem_flatMap.mpr ⟨part, inside, ?_⟩, same⟩
    rw [keep_reverse, List.mem_reverse]
    exact kept
  · induction parts with
    | nil => exact .refl _
    | cons part parts ih =>
      rw [List.flatMap_cons, List.flatten_cons, keep_reverse, (keep_dups compares (proper part (by simp))).2.1 no]
      exact (List.reverse_perm part).append (ih fun x member => proper x (by simp [member]))

theorem msort_done (wasfirst notfirst bonus : Int) (proper : ∀ r ∈ slice m a b, Proper r)
    (enough : b - a < time) :
    ∃ out, msort time compare uflg wasfirst notfirst bonus m a b = some out.flatten ∧ Written compare uflg (slice m a b) out := by
  unfold msort
  split
  case isTrue few =>
    refine ⟨[], rfl, ?_⟩
    rw [slice_nil (by omega)]
    cases uflg <;> simp [Written, Ascending]
  split
  case isTrue many one =>
    have only : slice m a b = [m a] := by
      obtain rfl : b = a + 1 := by omega
      exact slice_one
    rw [only] at proper ⊢
    have line : Proper (m a) := proper (m a) (by simp)
    refine ⟨[m a], by rw [wline_proper line]; simp, ?_⟩
    cases uflg <;> simp [Written, Ascending, compares.self line]
  case isFalse many more =>
    have ends : a + (b - a) = b := by omega
    generalize count : (if b - a ≥ TREEZ then TREEZ else b - a) = n
    have fits : 1 ≤ n ∧ n ≤ b - a := by
      rw [← count]
      unfold TREEZ
      split <;> omega
    obtain ⟨parts, size, perm, good, these, _⟩ := @blocks_done compare uflg m a (b - a) 0 n compares (fun _ => [])
      (by rwa [ends]) fits.2 (by omega)
    rw [ends] at perm
    have lines : ∀ part ∈ parts, ∀ r ∈ part, Proper r := fun part inside r own =>
      proper r (perm.mem_iff.mp (List.mem_flatten.mpr ⟨part, inside, own⟩))
    dsimp only
    generalize blocks compare uflg n 0 a (b - a) m (fun _ => []) = blk at these ⊢
    have ready : ∀ t < n, Ready compare uflg (blk t) := by
      intro t before
      have inside : t < parts.length := by omega
      have own := these t inside
      rw [Nat.zero_add] at own
      rw [own]
      have member := List.getElem_mem inside
      exact ready_done compares (lines _ member) (good _ member).1 (good _ member).2
    have read : ((List.range n).flatMap fun t => keep uflg (blk t)) = parts.flatMap fun part => keep uflg (dups compare uflg part).reverse := by
      rw [List.flatMap_def, List.flatMap_def, ← size]
      congr 1
      apply List.ext_getElem
      · simp
      · intro t inside _
        rw [List.length_map, List.length_range] at inside
        have own := these t inside
        rw [Nat.zero_add] at own
        simp [own]
    obtain ⟨h, blk', more', done, streams, pend⟩ := @firsts_done compare uflg n compares ⟨[], wasfirst, notfirst, bonus⟩ blk (fun _ => [])
      ⟨by simp, List.Pairwise.nil, by simp, by simp, by simp⟩ (by simp) ready
    rw [read] at pend
    have pend : (pending h.tree more').Perm (parts.flatMap fun part => keep uflg (dups compare uflg part).reverse) := by
      rwa [show pending ([] : List Btree) (fun _ => []) = [] from rfl, List.append_nil] at pend
    obtain ⟨inside, covered, off⟩ := @kept_done compare uflg compares parts lines
    have shorter : (pending h.tree more').length ≤ b - a := by
      rw [pend.length_eq, ← @length_slice _ m a b, ← perm.length_eq, List.length_flatMap, List.length_flatten]
      apply List.sum_le_sum
      intro part member
      rw [keep_reverse, List.length_reverse]
      exact (keep_dups compares (lines part member)).1.length_le
    obtain ⟨out, written, is⟩ := @emit_done compare uflg _ (fetch uflg) time compares
      { h with wasfirst := 0, notfirst := 0, bonus := cmpsave n } blk' more' [] streams (shorter.trans_lt enough)
    refine ⟨out, ?_, ?_⟩
    · rw [done]
      exact written
    · apply Written.of_kept compares proper is
      · intro x member
        exact perm.mem_iff.mp (inside x (pend.mem_iff.mp member))
      · intro r member
        obtain ⟨x, found, same⟩ := covered r (perm.mem_iff.mpr member)
        exact ⟨x, pend.mem_iff.mpr found, same⟩
      · intro no
        exact pend.trans ((off no).trans perm)

end

theorem fgets_line {body more : List UInt8} (straight : newline ∉ body) (short : body.length < n) :
    fgets n (body ++ newline :: more) = (body ++ [newline], more) := by
  induction body generalizing n with
  | nil =>
    cases n with
    | zero => simp at short
    | succ n => simp [fgets]
  | cons c body ih =>
    cases n with
    | zero => simp at short
    | succ n =>
      have other : c ≠ newline := by
        rintro rfl
        simp at straight
      rw [List.cons_append, fgets, if_neg other, ih (by simp_all) (by simpa using short)]
      rfl

theorem rline_end : rline maxrec [] = some none := by
  cases size : maxrec - 1 <;> simp [rline, size, fgets]

theorem rline_line {more : List UInt8} (proper : Proper r) (short : r.length < maxrec) :
    rline maxrec (r ++ more) = some (some (r, more)) := by
  have clean : r.takeWhile (· ≠ 0) = r := @wline_proper [] r proper
  obtain ⟨body, rfl, straight, _⟩ := proper
  have read : fgets (maxrec - 1) (body ++ [newline] ++ more) = (body ++ [newline], more) := by
    rw [List.append_assoc]
    apply fgets_line straight
    rw [List.length_append, List.length_singleton] at short
    omega
  unfold rline
  rw [read]
  dsimp only
  rw [clean]
  simp

/-- The lines of a file that are in order and not too long. -/
structure Lines (compare : Compare) (maxrec : Nat) (lines : List Record) : Prop where
  proper : ∀ r ∈ lines, Proper r
  short : ∀ r ∈ lines, r.length < maxrec
  ascending : Ascending compare lines

theorem Lines.tail {more : List Record} (lines : Lines compare maxrec (r :: more)) : Lines compare maxrec more :=
  ⟨fun x member => lines.proper x (by simp [member]), fun x member => lines.short x (by simp [member]),
    (List.pairwise_cons.mp lines.ascending).2⟩

theorem Lines.feeds {file : List Record} (lines : Lines compare maxrec file) : Feeds (rline maxrec) file file.flatten := by
  induction file with
  | nil => exact rline_end
  | cons r more ih => exact ⟨more.flatten, rline_line (lines.proper r (by simp)) (lines.short r (by simp)), ih lines.tail⟩

structure Opened (compare : Compare) (read : σ → Option (Option (Record × σ))) (nf : Nat) (tree : List Btree) (tfile : Nat → σ)
    (more : Nat → List Record) : Prop where
  beyond : ∀ tp ∈ tree, nf ≤ tp.rn
  once : (tree.map Btree.rn).Nodup
  feeds : ∀ tp ∈ tree, Feeds read (more tp.rn) (tfile tp.rn)
  ascending : ∀ tp ∈ tree, Ascending compare (tp.rp :: more tp.rn)
  proper : ∀ tp ∈ tree, ∀ r ∈ tp.rp :: more tp.rn, Proper r

theorem opens_done {files : List (List Record)} (each : ∀ file ∈ files, Lines compare maxrec file)
    (nf : Nat) (tfile : Nat → List UInt8) :
    ∃ tree tfile' more, opens maxrec (files.map List.flatten) nf tfile = some (tree, tfile') ∧
      Opened compare (rline maxrec) nf tree tfile' more ∧ pending tree more = files.flatten ∧ ∀ k, k < nf → tfile' k = tfile k := by
  induction files generalizing nf tfile with
  | nil => exact ⟨[], tfile, fun _ => [], rfl, ⟨by simp, by simp, by simp, by simp, by simp⟩, rfl, fun _ _ => rfl⟩
  | cons file files ih =>
    have lines := each file (by simp)
    have others : ∀ file ∈ files, Lines compare maxrec file := fun x member => each x (by simp [member])
    rw [List.map_cons, opens]
    cases file with
    | nil =>
      obtain ⟨tree, tfile', more, done, opened, pend, kept⟩ := ih others nf tfile
      refine ⟨tree, tfile', more, ?_, opened, by simp [pend], kept⟩
      rw [List.flatten_nil, rline_end]
      exact done
    | cons r left =>
      obtain ⟨tree, tfile', more, done, opened, pend, kept⟩ := ih others (nf + 1) (update tfile nf left.flatten)
      have apart : ∀ tp ∈ tree, tp.rn ≠ nf := fun tp member => by have := opened.beyond tp member; omega
      have same : ∀ tp ∈ tree, update more nf left tp.rn = more tp.rn := fun tp member => update_of_ne (apart tp member) _ _
      refine ⟨⟨r, nf⟩ :: tree, tfile', update more nf left, ?_, ⟨?_, ?_, ?_, ?_, ?_⟩, ?_, fun k before => ?_⟩
      · rw [List.flatten_cons, rline_line (lines.proper r (by simp)) (lines.short r (by simp))]
        simp [done]
      · intro tp member
        rcases List.mem_cons.mp member with rfl | later
        · exact le_rfl
        · exact Nat.le_of_succ_le (opened.beyond tp later)
      · refine List.nodup_cons.mpr ⟨fun member => ?_, opened.once⟩
        obtain ⟨tp, inside, is⟩ := List.mem_map.mp member
        exact apart tp inside is
      · intro tp member
        rcases List.mem_cons.mp member with rfl | later
        · have own : tfile' nf = left.flatten := by rw [kept nf (Nat.lt_succ_self nf), update_self]
          change Feeds _ (update more nf left nf) (tfile' nf)
          rw [update_self, own]
          exact lines.tail.feeds
        · rw [same tp later]
          exact opened.feeds tp later
      · intro tp member
        rcases List.mem_cons.mp member with rfl | later
        · rw [update_self]
          exact lines.ascending
        · rw [same tp later]
          exact opened.ascending tp later
      · intro tp member
        rcases List.mem_cons.mp member with rfl | later
        · rw [update_self]
          exact lines.proper
        · rw [same tp later]
          exact opened.proper tp later
      · rw [pending_cons, pending_congr same, update_self, pend]
        rfl
      · rw [kept k (by omega), update_of_ne (by omega)]

theorem settle_done (compares : Compares compare) {tree : List Btree} {h : Heads} (proper : ∀ tp ∈ tree, Proper tp.rp) (empty : h.tree = []) :
    (settle compare tree h).tree.Perm tree ∧ Ordered compare (settle compare tree h).tree := by
  induction tree with
  | nil =>
    rw [settle, empty]
    exact ⟨.refl _, List.Pairwise.nil⟩
  | cons tp rest ih =>
    obtain ⟨perm, ordered⟩ := ih fun x member => proper x (by simp [member])
    rw [settle]
    split
    case isTrue none_ =>
      rw [none_] at perm
      obtain rfl : rest = [] := perm.symm.eq_nil
      exact ⟨.refl _, List.pairwise_singleton _ tp⟩
    case isFalse =>
      obtain ⟨perm', ordered'⟩ := @insert_done compare compares { settle compare rest h with tree := tp :: (settle compare rest h).tree } tp
        (settle compare rest h).tree rfl (fun x member => by
          rcases List.mem_cons.mp member with rfl | later
          · exact proper x (by simp)
          · exact proper x (List.mem_cons_of_mem _ (perm.mem_iff.mp later))) ordered
      exact ⟨perm'.trans (perm.cons tp), ordered'⟩

theorem merge_done (compares : Compares compare) (wasfirst notfirst bonus : Int) {files : List (List Record)}
    (each : ∀ file ∈ files, Lines compare maxrec file) (enough : files.flatten.length < time) :
    ∃ out, merge time maxrec compare uflg wasfirst notfirst bonus (files.map List.flatten) = some out.flatten ∧
      Written compare uflg files.flatten out := by
  obtain ⟨tree, tfile, more, done, opened, pend, _⟩ := opens_done each 0 fun _ => []
  obtain ⟨perm, ordered⟩ := @settle_done compare compares tree ⟨[], wasfirst, notfirst, bonus⟩
    (fun tp member => opened.proper tp member _ (by simp)) rfl
  have all : (pending (settle compare tree ⟨[], wasfirst, notfirst, bonus⟩).tree more).Perm files.flatten := by
    rw [← pend]
    exact pending_perm perm
  have streams : Streams compare (rline maxrec) (settle compare tree ⟨[], wasfirst, notfirst, bonus⟩).tree tfile more :=
    ⟨(perm.map Btree.rn).nodup_iff.mpr opened.once, ordered, fun tp member => opened.feeds tp (perm.mem_iff.mp member),
      fun tp member => opened.ascending tp (perm.mem_iff.mp member), fun tp member => opened.proper tp (perm.mem_iff.mp member)⟩
  obtain ⟨out, written, is⟩ := @emit_done compare uflg _ (rline maxrec) time compares
    { settle compare tree ⟨[], wasfirst, notfirst, bonus⟩ with bonus := cmpsave tree.length } tfile more [] streams
    (by rw [all.length_eq]; exact enough)
  have proper : ∀ r ∈ files.flatten, Proper r := by
    intro r member
    obtain ⟨file, inside, own⟩ := List.mem_flatten.mp member
    exact (each file inside).proper r own
  refine ⟨out, ?_, ?_⟩
  · unfold merge
    rw [done]
    exact written
  · apply Written.of_kept compares proper is
    · exact fun x member => all.mem_iff.mp member
    · exact fun r member => ⟨r, all.mem_iff.mpr member, compares.self (proper r member)⟩
    · exact fun _ => all

/-- Whatever the counters of `insert` are, `msort` and `merge` write all records in order, or
with `uflg` one of each class. -/
theorem written_in_order (compares : Compares compare) (wasfirst notfirst bonus : Int) :
    (∀ (m : Nat → Record) (a b time : Nat), (∀ r ∈ slice m a b, Proper r) → b - a < time →
      ∃ out, msort time compare uflg wasfirst notfirst bonus m a b = some out.flatten ∧ Written compare uflg (slice m a b) out) ∧
    ∀ (files : List (List Record)) (maxrec time : Nat), (∀ file ∈ files, Lines compare maxrec file) → files.flatten.length < time →
      ∃ out, merge time maxrec compare uflg wasfirst notfirst bonus (files.map List.flatten) = some out.flatten ∧
        Written compare uflg files.flatten out :=
  ⟨fun _ _ _ _ proper enough => msort_done compares wasfirst notfirst bonus proper enough,
    fun _ _ _ each enough => merge_done compares wasfirst notfirst bonus each enough⟩

def firstByte : Compare := fun x y => (y.headD 0).toNat - (x.headD 0).toNat

theorem firstByte_compares : Compares firstByte := by
  constructor
  all_goals unfold firstByte
  all_goals intros
  all_goals omega

/-- A record that fills the line buffer without its newline. -/
private def full : Record := List.replicate 1023 97 ++ [newline]

/-- `merge` dies of a single one. -/
theorem long_line : Proper full ∧ Ascending firstByte [full] ∧ ∀ time, merge time 1024 firstByte false 0 0 0 [full] = none := by
  refine ⟨⟨List.replicate 1023 97, rfl, ?_, ?_⟩, List.pairwise_singleton _ _, fun time => ?_⟩
  · exact fun member => absurd (List.eq_of_mem_replicate member) (by decide)
  · exact fun member => absurd (List.eq_of_mem_replicate member) (by decide)
  · have read : rline 1024 full = none := by decide +kernel
    simp [merge, opens, read]

theorem written_in_order_three :
    (∃ out, msort 4 firstByte true 0 0 0 (fun k => [[98, 10], [97, 10], [98, 99, 10]].getD k []) 0 3 = some out.flatten ∧
      Written firstByte true [[98, 10], [97, 10], [98, 99, 10]] out) ∧
    ∃ out, merge 3 1024 firstByte false 0 0 0 [[98, 10], [97, 10]] = some out.flatten ∧
      Written firstByte false [[98, 10], [97, 10]] out := by
  obtain ⟨sorts, _⟩ := @written_in_order firstByte true firstByte_compares 0 0 0
  obtain ⟨_, merges⟩ := @written_in_order firstByte false firstByte_compares 0 0 0
  constructor
  · refine sorts (fun k => [[98, 10], [97, 10], [98, 99, 10]].getD k []) 0 3 4 (fun r member => ?_) (by decide)
    rcases List.mem_cons.mp member with rfl | member
    · exact ⟨[98], rfl, by decide, by decide⟩
    rcases List.mem_cons.mp member with rfl | member
    · exact ⟨[97], rfl, by decide, by decide⟩
    rcases List.mem_cons.mp member with rfl | member
    · exact ⟨[98, 99], rfl, by decide, by decide⟩
    · cases member
  · refine merges [[[98, 10]], [[97, 10]]] 1024 3 (fun file member => ?_) (by decide)
    rcases List.mem_cons.mp member with rfl | member
    · exact ⟨fun r own => ⟨[98], List.mem_singleton.mp own, by decide, by decide⟩,
        fun r own => by rw [List.mem_singleton.mp own]; decide, List.pairwise_singleton _ _⟩
    · obtain rfl := List.mem_singleton.mp member
      exact ⟨fun r own => ⟨[97], List.mem_singleton.mp own, by decide, by decide⟩,
        fun r own => by rw [List.mem_singleton.mp own]; decide, List.pairwise_singleton _ _⟩

end Svr4.Proofs.SortHistory
