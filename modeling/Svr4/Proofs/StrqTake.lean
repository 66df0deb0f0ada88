import Svr4.Proofs.StrqPut

/-! `rmvq` and `getq`: a message leaves a queue, and the queue behind is told. `getq` does what `rmvq` does with the
first message. -/

namespace Svr4.Proofs.StrqTake
open Function Chain DoubleChain Strq StrqPlace StrqFlush StrqPut Library.Ranked

variable {m : Msgb} {q q' : Queue} {l before after : List Nat} {mp mem time n pri : Nat} {b : Qband} {floor : Nat → Nat}

def shortened (m : Msgb) (mp : Nat) (b : Qband) : Qband :=
  let same (b : Option Nat) : Bool := b.any fun b => m.b_band mp = m.b_band b
  { b with
    qb_first := if b.qb_first = some mp then (if same (m.b_next mp) then m.b_next mp else none) else b.qb_first
    qb_last := if b.qb_last = some mp then (if same (m.b_prev mp) then m.b_prev mp else none) else b.qb_last }

theorem unlink_eq (m : Msgb) (q : Queue) (mp : Nat) : unlink m q mp =
    ({ m with b_next := update (unlinkAfter m.b_next (m.b_prev mp) mp) mp none, b_prev := update (unlinkAfter m.b_prev (m.b_next mp) mp) mp none },
      { q with
        q_first := if m.b_prev mp = none then m.b_next mp else q.q_first
        q_last := if m.b_next mp = none then m.b_prev mp else q.q_last
        q_bandp := if m.b_band mp = 0 then q.q_bandp else q.q_bandp.modify (m.b_band mp - 1) (shortened m mp) }) := by
  unfold unlink unlinkAfter shortened
  cases m.b_prev mp <;> cases m.b_next mp <;> rfl

theorem band_follows (sorted : (mp :: after).Pairwise (Before m)) (ordinary : Ordinary m mp) :
    (band m (m.b_band mp) after).head? = if after.head?.any (fun b => m.b_band mp = m.b_band b) then after.head? else none := by
  cases after with
  | nil => rfl
  | cons e after =>
    obtain ⟨first, rest⟩ := List.pairwise_cons.mp sorted
    obtain ⟨plain, le⟩ := first e (List.mem_cons_self ..) ordinary
    by_cases same : m.b_band mp = m.b_band e
    · simp [band, same, plain]
    · have none_ : band m (m.b_band mp) (e :: after) = [] := by
        refine band_none fun a there is => ?_
        obtain ⟨-, equal⟩ := rank_eq_iff.mp is
        rcases List.mem_cons.mp there with rfl | later
        · exact same equal.symm
        · have := ((List.pairwise_cons.mp rest).1 a later plain).2
          omega
      simp [none_, same]

theorem band_precedes (sorted : (before ++ [mp]).Pairwise (Before m)) (high : ∀ b ∈ before, ¬Ordinary m b → m.b_band b = 0) (banded : m.b_band mp ≠ 0) :
    (band m (m.b_band mp) before).getLast? = if before.getLast?.any (fun b => m.b_band mp = m.b_band b) then before.getLast? else none := by
  rcases List.eq_nil_or_concat' before with rfl | ⟨front, z, rfl⟩
  · rfl
  obtain ⟨early, -, across⟩ := List.pairwise_append.mp sorted
  rw [List.getLast?_concat]
  by_cases same : m.b_band mp = m.b_band z
  · have plain : Ordinary m z := by
      by_contra loose
      exact banded (same.trans (high z (by simp) loose))
    simp [band, same, plain]
  · have none_ : band m (m.b_band mp) (front ++ [z]) = [] := by
      refine band_none fun a there is => ?_
      obtain ⟨plain, equal⟩ := rank_eq_iff.mp is
      rcases List.mem_append.mp there with first | last
      · obtain ⟨firm, le⟩ := (List.pairwise_append.mp early).2.2 a first z (by simp) plain
        have := (across z (by simp) mp (by simp) firm).2
        omega
      · rw [List.mem_singleton.mp last] at equal
        exact same equal.symm
    simp [none_, same]

theorem shortened_ends (queued : Queued m q (before ++ mp :: after)) (ordinary : Ordinary m mp) (banded : m.b_band mp ≠ 0)
    (ends : Ends m (m.b_band mp) (before ++ mp :: after) b) : Ends m (m.b_band mp) (before ++ after) (shortened m mp b) := by
  have next := queued.list.next_eq
  have prev := queued.list.prev_eq
  have once := queued.list.nodup
  obtain ⟨left, right, across⟩ := List.pairwise_append.mp queued.ordered
  have follows := band_follows right ordinary
  have precedes : (band m (m.b_band mp) before).getLast? = _ :=
    band_precedes (List.pairwise_append.mpr ⟨left, List.pairwise_singleton .., fun a first c last => by
    rw [List.mem_singleton.mp last]
    exact across a first mp (by simp)⟩) (fun b there => queued.high b (by simp [there])) banded
  have apart : mp ∉ before ∧ mp ∉ after := by
    rw [List.nodup_append, List.nodup_cons] at once
    exact ⟨fun there => once.2.2 mp there mp (by simp) rfl, once.2.1.1⟩
  have joined : band m (m.b_band mp) (before ++ after) = band m (m.b_band mp) before ++ band m (m.b_band mp) after := List.filter_append ..
  obtain ⟨first, last⟩ := ends
  rw [band_split, if_pos ⟨ordinary, rfl⟩] at first last
  rw [Ends, joined]
  simp only [shortened, next, prev, ← follows, ← precedes]
  refine ⟨?_, ?_⟩
  · rcases shape : band m (m.b_band mp) before with _ | ⟨x, others⟩
    · rw [first, shape]
      simp
    · have other : x ≠ mp := fun is => apart.1 (is ▸ (mem_band.mp (shape ▸ List.mem_cons_self ..)).1)
      rw [first, shape]
      simp [other]
  · rcases List.eq_nil_or_concat' (band m (m.b_band mp) after) with shape | ⟨others, x, shape⟩
    · rw [last, shape]
      simp
    · have there : x ∈ band m (m.b_band mp) after := by simp [shape]
      have other : x ≠ mp := fun is => apart.2 (is ▸ (mem_band.mp there).1)
      rw [last, shape]
      simp [other, List.getLast?_append, List.getLast?_cons]

theorem sum_without (f : Nat → Nat) (l l' : List Nat) (mp : Nat) : ((l ++ mp :: l').map f).sum - f mp = ((l ++ l').map f).sum := by
  simp only [List.map_append, List.map_cons, List.sum_append, List.sum_cons]
  omega

structure Unlinked (m : Msgb) (q : Queue) (mp : Nat) (r : Msgb × Queue) : Prop where
  msgb : r.1 = (unlink m q mp).1
  first : r.2.q_first = (unlink m q mp).2.q_first
  last : r.2.q_last = (unlink m q mp).2.q_last
  bandp : r.2.q_bandp = (unlink m q mp).2.q_bandp
  others : ∃ qwantr, r.2 = { q with q_first := r.2.q_first, q_last := r.2.q_last, q_bandp := r.2.q_bandp, qwantr := qwantr }

theorem relieve_fields (q : Queue) (pri n : Nat) : (relieve q pri n).q_first = q.q_first ∧ (relieve q pri n).q_last = q.q_last ∧
    (relieve q pri n).q_nband = q.q_nband ∧ (relieve q pri n).q_count = (if pri = 0 then q.q_count - n else q.q_count) := by
  unfold relieve Queue.q_nband
  split_ifs <;> simp

theorem relieve_band (q : Queue) (pri n i : Nat) : (relieve q pri n).q_bandp[i]? = (q.q_bandp[i]?).map fun b => if pri = i + 1 then b.relieve n else b := by
  unfold relieve
  by_cases zero : pri = 0
  · simp [zero]
  · rw [if_neg zero, List.getElem?_modify]
    refine congrArg (Option.map · _) (funext fun b => ?_)
    exact if_congr (by omega) rfl rfl

theorem Unlinked.queued {r : Msgb × Queue} (gone : Unlinked m q mp r) (queued : Queued m q (before ++ mp :: after)) :
    Queued r.1 (relieve r.2 (m.b_band mp) (size m mp)) (before ++ after) := by
  obtain ⟨msgb, first, last, bandp, qwantr, others⟩ := gone
  have count : r.2.q_count = q.q_count := by rw [others]
  obtain ⟨first', last', nband, count'⟩ := relieve_fields r.2 (m.b_band mp) (size m mp)
  have each := relieve_band r.2 (m.b_band mp) (size m mp)
  rw [unlink_eq] at msgb first last bandp
  dsimp only at msgb first last bandp
  have next := queued.list.next_eq
  have prev := queued.list.prev_eq
  have once := queued.list.nodup
  have apart : mp ∉ before ++ after := (List.nodup_middle.mp once).notMem
  have fields : r.1.db_type = m.db_type ∧ r.1.b_band = m.b_band ∧ r.1.b_cont = m.b_cont := by
    rw [msgb]
    exact ⟨rfl, rfl, rfl⟩
  have bands : ∀ pri l, band r.1 pri l = band m pri l := fun pri l =>
    band_congr (fun b _ => congrFun fields.1 b) (fun b _ => congrFun fields.2.1 b) pri
  have sizes : size r.1 = size m := by
    funext b
    rw [size, size, fields.2.2]
  have length : r.2.q_nband = q.q_nband := by
    rw [Queue.q_nband, Queue.q_nband, bandp]
    split_ifs <;> simp
  have inside : ∀ b ∈ before ++ after, b ∈ before ++ mp :: after := fun b there => by
    rcases List.mem_append.mp there with early | late <;> simp [*]
  -- the bands of the queue, each with the change of its ends and of its count
  have band_is : ∀ i b, (relieve r.2 (m.b_band mp) (size m mp)).q_bandp[i]? = some b → ∃ old, q.q_bandp[i]? = some old ∧
      b = if m.b_band mp = i + 1 then (shortened m mp old).relieve (size m mp) else old := by
    intro i b is
    rw [each, bandp] at is
    obtain ⟨new, found, rfl⟩ := Option.map_eq_some_iff.mp is
    split_ifs at found with zero
    · exact ⟨new, found, by simp [show ¬m.b_band mp = i + 1 by omega]⟩
    · rw [List.getElem?_modify] at found
      obtain ⟨old, was, rfl⟩ := Option.map_eq_some_iff.mp found
      refine ⟨old, was, ?_⟩
      by_cases here : m.b_band mp = i + 1
      · rw [if_pos here, if_pos here, if_pos (by omega)]
      · rw [if_neg here, if_neg here, if_neg (by omega)]
  have ordinary : m.b_band mp ≠ 0 → Ordinary m mp := fun banded => by
    by_contra loose
    exact banded (queued.high mp (by simp) loose)
  refine ⟨?_, ?_, ?_, fun b there loose => ?_, fun b there => ?_, fun i b is => ?_, ?_, fun i b is => ?_⟩
  · rw [first', first, msgb, next, prev]
    have removed := queued.list.remove
    rw [firstWithout, next] at removed
    refine removed.congr fun b there => ?_
    have other : b ≠ mp := fun is => apart (is ▸ there)
    exact ⟨update_of_ne other .., update_of_ne other ..⟩
  · rw [last', last, next, prev, queued.last]
    cases after <;> simp [List.getLast?_append, List.getLast?_cons]
  · have sorted := queued.ordered.sublist (List.Sublist.append_left (List.sublist_cons_self mp after) before)
    refine sorted.imp fun order => ?_
    rw [Before, Ordinary, Ordinary, fields.1, fields.2.1]
    exact order
  · rw [Ordinary, fields.1] at loose
    rw [fields.2.1]
    exact queued.high b (inside b there) loose
  · rw [fields.2.1, nband, length]
    exact queued.within b (inside b there)
  · obtain ⟨old, was, rfl⟩ := band_is i b is
    rw [bands]
    have known := queued.banded i old was
    split_ifs with here
    · have ends := shortened_ends queued (ordinary (by omega)) (by omega) (by rw [here]; exact known)
      rw [here] at ends
      exact ends
    · rwa [band_split, if_neg fun both => here both.2] at known
  · rw [count', count, sizes, plain_congr fun b _ => congrFun fields.2.1 b, queued.counted.queue, plain_split]
    split_ifs with zero
    · rw [sum_without]
      simp [plain]
    · rfl
  · obtain ⟨old, was, rfl⟩ := band_is i b is
    rw [bands, sizes]
    have known := queued.counted.bands i old was
    split_ifs with here
    · rw [band_split, if_pos ⟨ordinary (by omega), here⟩] at known
      show old.qb_count - size m mp = _
      rw [known, sum_without]
      simp [band]
    · rwa [band_split, if_neg fun both => here both.2] at known

theorem unlinked (m : Msgb) (q : Queue) (mp : Nat) : Unlinked m q mp (unlink m q mp) := by
  refine ⟨rfl, rfl, rfl, rfl, q.qwantr, ?_⟩
  rw [unlink_eq]

theorem modify_congr {α : Type*} {f g : α → α} {l : List α} {i : Nat} (same : ∀ a, l[i]? = some a → f a = g a) : l.modify i f = l.modify i g := by
  refine List.ext_getElem? fun j => ?_
  rw [List.getElem?_modify, List.getElem?_modify]
  cases found : l[j]? with
  | none => rfl
  | some a =>
    by_cases here : i = j
    · subst here
      simp [same a found]
    · simp [here]

theorem takeFirst_eq (queued : Queued m q (mp :: after)) :
    takeFirst m q mp = ((unlink m q mp).1, { (unlink m q mp).2 with qwantr := false }) := by
  have whole : Queued m q ([] ++ mp :: after) := queued
  have next := whole.list.next_eq
  have prev := whole.list.prev_eq
  have once := whole.list.nodup
  rw [List.getLast?_nil] at prev
  rw [unlink_eq, prev]
  have bandp : (if m.b_band mp = 0 then q.q_bandp else q.q_bandp.modify (m.b_band mp - 1) fun b =>
      if b.qb_first = b.qb_last then { b with qb_first := none, qb_last := none } else { b with qb_first := m.b_next mp }) =
      if m.b_band mp = 0 then q.q_bandp else q.q_bandp.modify (m.b_band mp - 1) (shortened m mp) := by
    split_ifs with zero
    · rfl
    refine modify_congr fun b is => ?_
    have ordinary : Ordinary m mp := by
      by_contra loose
      exact zero (queued.high mp (List.mem_cons_self ..) loose)
    obtain ⟨first, last⟩ := queued.banded _ b is
    rw [show m.b_band mp - 1 + 1 = m.b_band mp by omega] at first last
    have members : band m (m.b_band mp) (mp :: after) = mp :: band m (m.b_band mp) after := by simp [band, ordinary]
    have follows := band_follows queued.ordered ordinary
    rw [members] at first last
    simp only [shortened, prev, next, Option.any_none, Bool.false_eq_true, if_false, ← follows]
    rcases List.eq_nil_or_concat' (band m (m.b_band mp) after) with empty | ⟨others, z, shape⟩
    · rw [empty] at last ⊢
      simp [first, last]
    · have there : z ∈ band m (m.b_band mp) after := by simp [shape]
      have other : z ≠ mp := fun is => (List.nodup_cons.mp once).1 (is ▸ (mem_band.mp there).1)
      have head : after.head? = (band m (m.b_band mp) after).head? := by
        split_ifs at follows with same
        · exact follows.symm
        · rw [List.head?_eq_none_iff.mp follows] at there
          exact absurd there List.not_mem_nil
      have final : b.qb_last = some z := by rw [last, shape, ← List.cons_append, List.getLast?_concat]
      simp [first, final, other, other.symm, head]
  unfold takeFirst
  dsimp only at bandp ⊢
  rw [bandp, next]
  cases after <;> simp [unlinkAfter, queued.last, prev]

theorem first_unlinked (queued : Queued m q (mp :: after)) : Unlinked m q mp (takeFirst m q mp) := by
  rw [takeFirst_eq queued]
  refine ⟨rfl, rfl, rfl, rfl, false, ?_⟩
  rw [unlink_eq]

theorem unlink_local (queued : Queued m q l) (there : mp ∈ l) : Local m (unlink m q mp).1 l := by
  obtain ⟨before, after, rfl⟩ := List.append_of_mem there
  have next := queued.list.next_eq
  have prev := queued.list.prev_eq
  rw [unlink_eq]
  refine ⟨rfl, rfl, rfl, fun b outside => ?_⟩
  have other : b ≠ mp := fun is => outside (is ▸ there)
  have first : ∀ x, before.getLast? = some x → b ≠ x := by
    rintro x last rfl
    exact outside (List.mem_append_left _ (List.mem_of_getLast? last))
  have last : ∀ y, after.head? = some y → b ≠ y := by
    rintro y head rfl
    exact outside (List.mem_append_right _ (List.mem_cons_of_mem _ (List.mem_of_head? head)))
  dsimp only
  rw [next, prev, update_of_ne other, update_of_ne other]
  cases head : after.head? <;> cases final : before.getLast? <;> simp [unlinkAfter, first _, last _, head, final]

theorem Unlinked.flows {r : Msgb × Queue} (gone : Unlinked m q mp r) (flows : Flows floor q) (pri n : Nat) : Flows floor (relieve r.2 pri n) := by
  obtain ⟨-, -, -, bandp, qwantr, others⟩ := gone
  rw [unlink_eq] at bandp
  refine Flows.relieve ?_ pri n
  rw [others, bandp]
  dsimp only
  have same : Flows floor { q with q_first := r.2.q_first, q_last := r.2.q_last, qwantr := qwantr } := ⟨flows.queue, flows.bands⟩
  split_ifs
  · exact same
  · refine same.modify ?_
    exact fun _ _ level => level

theorem Unlinked.onward {r : Msgb × Queue} (gone : Unlinked m q mp r) : Onward q r.2 := by
  obtain ⟨-, -, -, bandp, qwantr, others⟩ := gone
  rw [unlink_eq] at bandp
  rw [others, bandp]
  dsimp only
  split_ifs
  · exact ⟨rfl, id, le_rfl, fun _ => id⟩
  · refine ⟨rfl, id, by simp [Queue.q_nband], fun pri waits => (wantw_modify ?_ _ pri).trans waits⟩
    exact fun _ _ => rfl

theorem wantw_relieve (q : Queue) {pri n other : Nat} (apart : other ≠ pri) : wantw (relieve q pri n) other = wantw q other := by
  unfold wantw
  by_cases zero : other = 0
  · rw [if_pos zero, if_pos zero, relieve, if_neg (by omega)]
  · rw [if_neg zero, if_neg zero, relieve_band]
    cases q.q_bandp[other - 1]? with
    | none => rfl
    | some b => simp [show ¬pri = other - 1 + 1 by omega]

end Svr4.Proofs.StrqTake
