import Svr4.Strq

/-! The messages of a queue: links, order, and what the queue and its bands say of them. -/

namespace Svr4.Proofs.StrqPlace
open Function Chain DoubleChain Strq

variable {change : Msgb → Qband → Qband} {r : Queue}

variable {m m' : Msgb} {q : Queue} {l before after : List Nat} {mp pri mem : Nat}

def Ordinary (m : Msgb) (b : Nat) : Prop := m.db_type b < QPCTL

instance : DecidablePred (Ordinary m) := fun _ => Nat.decLt _ _

def Before (m : Msgb) (a b : Nat) : Prop := Ordinary m a → Ordinary m b ∧ m.b_band b ≤ m.b_band a

def band (m : Msgb) (pri : Nat) (l : List Nat) : List Nat := l.filter fun b => Ordinary m b ∧ m.b_band b = pri

def plain (m : Msgb) (l : List Nat) : List Nat := l.filter fun b => m.b_band b = 0

def Banded (m : Msgb) (q : Queue) (l : List Nat) : Prop :=
  ∀ i b, q.q_bandp[i]? = some b → b.qb_first = (band m (i + 1) l).head? ∧ b.qb_last = (band m (i + 1) l).getLast?

structure Counted (m : Msgb) (q : Queue) (l : List Nat) : Prop where
  queue : q.q_count = ((plain m l).map (size m)).sum
  bands : ∀ i b, q.q_bandp[i]? = some b → b.qb_count = ((band m (i + 1) l).map (size m)).sum

structure Queued (m : Msgb) (q : Queue) (l : List Nat) : Prop where
  list : Doubly m.b_next m.b_prev q.q_first l
  last : q.q_last = l.getLast?
  ordered : l.Pairwise (Before m)
  high : ∀ b ∈ l, ¬ Ordinary m b → m.b_band b = 0
  within : ∀ b ∈ l, m.b_band b ≤ q.q_nband
  banded : Banded m q l
  counted : Counted m q l

theorem queclass_high : queclass m mp = QPCTL ↔ ¬ Ordinary m mp := by
  unfold queclass Ordinary
  split
  · next high => simp [high]
  · next low => simpa [QNORM, QPCTL] using low

theorem queclass_normal : queclass m mp = QNORM ↔ Ordinary m mp := by
  unfold queclass Ordinary
  split
  · next high => simpa [QNORM, QPCTL] using high
  · next low => simpa using low

theorem band_congr (type : ∀ b ∈ l, m'.db_type b = m.db_type b) (bands : ∀ b ∈ l, m'.b_band b = m.b_band b) (pri : Nat) :
    band m' pri l = band m pri l := by
  apply List.filter_congr
  intro b member
  exact decide_eq_decide.mpr (by rw [Ordinary, Ordinary, type b member, bands b member])

theorem plain_congr (bands : ∀ b ∈ l, m'.b_band b = m.b_band b) : plain m' l = plain m l := by
  apply List.filter_congr
  intro b member
  simp [bands b member]

theorem Queued.congr (queued : Queued m q l) (next : m'.b_next = m.b_next) (prev : m'.b_prev = m.b_prev)
    (type : m'.db_type = m.db_type) (cont : m'.b_cont = m.b_cont) (bands : ∀ b ∈ l, m'.b_band b = m.b_band b) : Queued m' q l := by
  have normal : Ordinary m' = Ordinary m := by
    funext b
    rw [Ordinary, Ordinary, type]
  have sizes : size m' = size m := by
    funext b
    rw [size, size, cont]
  have same : ∀ pri, band m' pri l = band m pri l := fun pri => band_congr (fun b _ => congrFun type b) bands pri
  refine ⟨?_, queued.last, ?_, fun b member loose => ?_, fun b member => ?_, fun i b is => ?_, ?_, fun i b is => ?_⟩
  · rw [next, prev]
    exact queued.list
  · apply queued.ordered.imp_of_mem
    intro a b here there order
    rw [Before, normal, bands a here, bands b there]
    exact order
  · rw [normal] at loose
    rw [bands b member]
    exact queued.high b member loose
  · rw [bands b member]
    exact queued.within b member
  · rw [same]
    exact queued.banded i b is
  · rw [plain_congr bands, sizes]
    exact queued.counted.queue
  · rw [same, sizes]
    exact queued.counted.bands i b is

theorem force_normal : Ordinary (force m mp) = Ordinary m := by
  unfold force
  split <;> rfl

theorem Queued.force (queued : Queued m q l) (fresh : mp ∉ l) : Queued (force m mp) q l := by
  unfold Strq.force
  split
  · refine queued.congr rfl rfl rfl rfl fun b member => update_of_ne ?_ ..
    rintro rfl
    exact fresh member
  · exact queued

theorem bands_eq (mem : Nat) (q : Queue) (pri : Nat) :
    bands mem q pri = (decide (pri ≤ q.q_nband + mem),
      { q with q_bandp := q.q_bandp ++ List.replicate (min mem (pri - q.q_nband)) (allocband q) }) := by
  induction mem generalizing q with
  | zero => simp [bands]
  | succ mem ih =>
    unfold bands
    by_cases more : pri > q.q_nband
    · have size : q.q_nband = q.q_bandp.length := rfl
      rw [if_pos more, ih]
      simp only [Queue.q_nband, List.length_append, List.length_cons, List.length_nil, zero_add, List.append_assoc] at *
      have enough : min (mem + 1) (pri - q.q_bandp.length) = min mem (pri - (q.q_bandp.length + 1)) + 1 := by omega
      rw [enough, List.replicate_succ]
      refine Prod.ext ?_ rfl
      exact decide_eq_decide.mpr (by omega)
    · have none : min (mem + 1) (pri - q.q_nband) = 0 := by omega
      rw [if_neg more, none]
      simp only [List.replicate_zero, List.append_nil]
      refine Prod.ext ?_ rfl
      exact (decide_eq_true (by omega)).symm

theorem Queued.bands (queued : Queued m q l) (mem pri : Nat) : Queued m (bands mem q pri).2 l := by
  rw [bands_eq]
  have found : ∀ i b, (q.q_bandp ++ List.replicate (min mem (pri - q.q_nband)) (allocband q))[i]? = some b →
      q.q_bandp[i]? = some b ∨ q.q_nband ≤ i ∧ b = allocband q := by
    intro i b is
    by_cases old : i < q.q_bandp.length
    · rw [List.getElem?_append_left old] at is
      exact .inl is
    · rw [List.getElem?_append_right (by omega)] at is
      have member := List.mem_of_getElem? is
      exact .inr ⟨Nat.le_of_not_lt old, List.eq_of_mem_replicate member⟩
  have vacant : ∀ i, q.q_nband ≤ i → band m (i + 1) l = [] := by
    intro i above
    rw [band, List.filter_eq_nil_iff]
    intro b member
    have := queued.within b member
    simp only [decide_eq_true_eq, not_and]
    intro _
    omega
  refine ⟨queued.list, queued.last, queued.ordered, queued.high, fun b member => ?_, fun i b is => ?_, queued.counted.queue,
    fun i b is => ?_⟩
  · have := queued.within b member
    simp only [Queue.q_nband, List.length_append] at *
    omega
  · rcases found i b is with old | ⟨above, rfl⟩
    · exact queued.banded i b old
    · rw [vacant i above]
      exact ⟨rfl, rfl⟩
  · rcases found i b is with old | ⟨above, rfl⟩
    · exact queued.counted.bands i b old
    · rw [vacant i above]
      rfl

theorem link_fields (m : Msgb) (q : Queue) (x y : Option Nat) (mp : Nat) :
    (link m q x y mp).1.b_band = m.b_band ∧ (link m q x y mp).1.db_type = m.db_type ∧ (link m q x y mp).1.b_cont = m.b_cont ∧
      (link m q x y mp).2.q_bandp = q.q_bandp ∧ (link m q x y mp).2.q_count = q.q_count ∧
      (link m q x y mp).2.q_hiwat = q.q_hiwat ∧ (link m q x y mp).2.qfull = q.qfull := by
  cases x <;> cases y <;> exact ⟨rfl, rfl, rfl, rfl, rfl, rfl, rfl⟩

theorem Queued.link (queued : Queued m q (before ++ after)) (fresh : mp ∉ before ++ after) :
    Doubly (link m q before.getLast? after.head? mp).1.b_next (link m q before.getLast? after.head? mp).1.b_prev
        (link m q before.getLast? after.head? mp).2.q_first (before ++ mp :: after) ∧
      (link m q before.getLast? after.head? mp).2.q_last = (before ++ mp :: after).getLast? := by
  have list := queued.list.insert fresh
  have start : before.getLast? = none → q.q_first = after.head? := by
    intro none
    have head := Linked.head queued.list.forward
    rwa [List.getLast?_eq_none_iff.mp none, List.nil_append] at head
  have next : (Strq.link m q before.getLast? after.head? mp).1.b_next = linkAfter m.b_next q.q_first before.getLast? mp := by
    rcases List.eq_nil_or_concat' before with rfl | ⟨front, b, rfl⟩
    · have head : q.q_first = after.head? := start rfl
      rw [head]
      cases after <;> rfl
    · have shape := queued.list
      rw [List.append_assoc, List.singleton_append] at shape
      have head := shape.next_eq
      rw [List.getLast?_concat, linkAfter, head]
      cases after <;> rfl
  have prev : (Strq.link m q before.getLast? after.head? mp).1.b_prev = linkAfter m.b_prev before.getLast? after.head? mp := by
    cases after with
    | nil => cases before.getLast? <;> rfl
    | cons a rest =>
      rw [List.head?_cons, linkAfter, queued.list.prev_eq]
      cases before.getLast? <;> rfl
  have first : (Strq.link m q before.getLast? after.head? mp).2.q_first = firstAfter q.q_first before.getLast? mp := rfl
  rw [next, prev, first]
  refine ⟨list, ?_⟩
  show (if after.head? = none then some mp else q.q_last) = _
  cases after with
  | nil => simp
  | cons a rest => simp [queued.last, List.getLast?_append, List.getLast?_cons]

theorem band_split (m : Msgb) (pri : Nat) : band m pri (before ++ mp :: after) =
    if Ordinary m mp ∧ m.b_band mp = pri then band m pri before ++ mp :: band m pri after else band m pri (before ++ after) := by
  split
  · next inside => simp [band, inside]
  · next outside =>
    rw [band, List.filter_append, List.filter_cons, if_neg (by simpa using outside), ← List.filter_append]
    rfl

theorem plain_split (m : Msgb) : plain m (before ++ mp :: after) =
    if m.b_band mp = 0 then plain m before ++ mp :: plain m after else plain m (before ++ after) := by
  split
  · next inside => simp [plain, inside]
  · next outside => simp [plain, outside]

end Svr4.Proofs.StrqPlace

/-! A message that is placed between two others: what the queue and its bands say afterwards. -/

namespace Svr4.Proofs.StrqPlace
open Function Chain DoubleChain Strq

variable {m : Msgb} {q q' : Queue} {l before after : List Nat} {mp pri : Nat}

/-- The message is in its place, and the queue and its bands know of it. -/
structure Right (m : Msgb) (q q' : Queue) (before after : List Nat) (mp : Nat) : Prop where
  list : Doubly m.b_next m.b_prev q'.q_first (before ++ mp :: after)
  last : q'.q_last = (before ++ mp :: after).getLast?
  ordered : ((before ++ mp :: after).filter (Ordinary m)).Pairwise fun a b => m.b_band b ≤ m.b_band a
  within : m.b_band mp ≤ q'.q_nband
  banded : Banded m q' (before ++ mp :: after)
  counted : Counted m q' (before ++ mp :: after)
  full : q'.qfull = (q.qfull || decide (m.b_band mp = 0 ∧ q'.q_hiwat ≤ q'.q_count))
  bandFull : ∀ i b, q'.q_bandp[i]? = some b →
    b.qb_full = ((q.q_bandp[i]?).any (fun b => b.qb_full) || decide (m.b_band mp = i + 1 ∧ b.qb_hiwat ≤ b.qb_count))

def Keeps (change : Msgb → Qband → Qband) : Prop := ∀ m b, (change m b).qb_count = b.qb_count ∧
  (change m b).qb_full = b.qb_full ∧ (change m b).qb_hiwat = b.qb_hiwat

theorem place_zero {x y : Option Nat} (zero : m.b_band mp = 0) : place m q x y mp change =
    ((link m q x y mp).1, charge (link m q x y mp).2 0 (size m mp)) := by
  unfold place
  dsimp only
  rw [zero, if_pos rfl]

theorem place_some {x y : Option Nat} (some : m.b_band mp ≠ 0) : place m q x y mp change =
    ((link m q x y mp).1, charge { (link m q x y mp).2 with
      q_bandp := q.q_bandp.modify (m.b_band mp - 1) (change (link m q x y mp).1) } (m.b_band mp) (size m mp)) := by
  unfold place
  dsimp only
  rw [if_neg some, (link_fields ..).2.2.2.1]

theorem charge_zero (n : Nat) : charge q 0 n =
    { q with q_count := q.q_count + n, qfull := q.qfull || decide (q.q_count + n ≥ q.q_hiwat) } := rfl

theorem charge_some (some : pri ≠ 0) (n : Nat) : charge q pri n = { q with q_bandp := q.q_bandp.modify (pri - 1) fun b => b.charge n } :=
  if_neg some

theorem place_band (m : Msgb) (q : Queue) (x y : Option Nat) (mp : Nat) (change : Msgb → Qband → Qband) (i : Nat) :
    (place m q x y mp change).2.q_bandp[i]? = (q.q_bandp[i]?).map fun b =>
      if m.b_band mp = i + 1 then (change (place m q x y mp change).1 b).charge (size m mp) else b := by
  by_cases zero : m.b_band mp = 0
  · rw [place_zero zero, charge_zero]
    simp only [zero, show (0 = i + 1) = False by simp, if_false, Option.map_id']
    rw [(link_fields ..).2.2.2.1]
  · rw [place_some zero, charge_some zero]
    simp only [List.getElem?_modify, Option.map_eq_map, Option.map_map]
    congr 1
    funext b
    by_cases this : m.b_band mp = i + 1
    · rw [comp_apply, if_pos this, if_pos (by omega), if_pos (by omega)]
    · rw [comp_apply, if_neg this, if_neg (by omega), if_neg (by omega)]

theorem place_queue (m : Msgb) (q : Queue) (x y : Option Nat) (mp : Nat) (change : Msgb → Qband → Qband) :
    (place m q x y mp change).1 = (link m q x y mp).1 ∧
      (place m q x y mp change).2.q_first = (link m q x y mp).2.q_first ∧
      (place m q x y mp change).2.q_last = (link m q x y mp).2.q_last ∧
      (place m q x y mp change).2.q_nband = q.q_nband ∧ (place m q x y mp change).2.q_hiwat = q.q_hiwat ∧
      (place m q x y mp change).2.q_count = (if m.b_band mp = 0 then q.q_count + size m mp else q.q_count) ∧
      (place m q x y mp change).2.qfull =
        (q.qfull || decide (m.b_band mp = 0 ∧ (place m q x y mp change).2.q_hiwat ≤ (place m q x y mp change).2.q_count)) := by
  obtain ⟨_, _, _, bandp, count, hiwat, full⟩ := link_fields m q x y mp
  by_cases zero : m.b_band mp = 0
  · rw [place_zero zero, charge_zero]
    refine ⟨rfl, rfl, rfl, ?_, hiwat, ?_, ?_⟩
    · rw [Queue.q_nband, Queue.q_nband, bandp]
    · rw [if_pos zero, count]
    · simp only [zero, full, true_and]
  · rw [place_some zero, charge_some zero]
    refine ⟨rfl, rfl, rfl, ?_, hiwat, ?_, ?_⟩
    · simp only [Queue.q_nband, List.length_modify]
    · rw [if_neg zero, count]
    · simp only [zero, full, false_and, decide_false, Bool.or_false]

def Ends (m : Msgb) (pri : Nat) (l : List Nat) (b : Qband) : Prop :=
  b.qb_first = (band m pri l).head? ∧ b.qb_last = (band m pri l).getLast?

theorem mem_band {b : Nat} : b ∈ band m pri l ↔ b ∈ l ∧ Ordinary m b ∧ m.b_band b = pri := by simp [band]

theorem ordinary_sorted (sorted : l.Pairwise (Before m)) : (l.filter (Ordinary m)).Pairwise fun a b => m.b_band b ≤ m.b_band a := by
  apply (sorted.filter _).imp_of_mem
  intro a b here _ order
  exact (order (by simpa using (List.mem_filter.mp here).2)).2

theorem ordered_split (normal : Ordinary m mp) (sorted : (before ++ after).Pairwise (Before m)) :
    (((before ++ mp :: after).filter (Ordinary m)).Pairwise fun a b => m.b_band b ≤ m.b_band a) ↔
      (∀ a ∈ before, Ordinary m a → m.b_band mp ≤ m.b_band a) ∧ ∀ b ∈ after, Ordinary m b → m.b_band b ≤ m.b_band mp := by
  have old := ordinary_sorted sorted
  rw [List.filter_append, List.pairwise_append] at old
  have shape : (before ++ mp :: after).filter (Ordinary m) = before.filter (Ordinary m) ++ mp :: after.filter (Ordinary m) := by simp [normal]
  rw [shape, List.pairwise_append, List.pairwise_cons]
  constructor
  · rintro ⟨_, ⟨later, _⟩, earlier⟩
    refine ⟨fun a member ordinary => ?_, fun b member ordinary => ?_⟩
    · exact earlier a (List.mem_filter.mpr ⟨member, by simpa using ordinary⟩) mp (by simp)
    · exact later b (List.mem_filter.mpr ⟨member, by simpa using ordinary⟩)
  · rintro ⟨earlier, later⟩
    refine ⟨old.1, ⟨fun b member => ?_, old.2.1⟩, fun a here b there => ?_⟩
    · obtain ⟨place, ordinary⟩ := List.mem_filter.mp member
      exact later b place (by simpa using ordinary)
    · rcases List.mem_cons.mp there with rfl | there
      · obtain ⟨place, ordinary⟩ := List.mem_filter.mp here
        exact earlier a place (by simpa using ordinary)
      · exact old.2.2 a here b there

theorem place_parts (keeps : Keeps change) (queued : Queued m q (before ++ after))
    (fresh : mp ∉ before ++ after) (within : m.b_band mp ≤ q.q_nband) (high : ¬ Ordinary m mp → m.b_band mp = 0) :
    Right (place m q before.getLast? after.head? mp change).1 q (place m q before.getLast? after.head? mp change).2 before after mp ↔
      (((before ++ mp :: after).filter (Ordinary m)).Pairwise fun a b => m.b_band b ≤ m.b_band a) ∧
      (m.b_band mp ≠ 0 → ∀ b, q.q_bandp[m.b_band mp - 1]? = some b →
        Ends m (m.b_band mp) (before ++ mp :: after) (change (place m q before.getLast? after.head? mp change).1 b)) := by
  have each := place_band m q before.getLast? after.head? mp change
  obtain ⟨same, first, last, nband, hiwat, count, full⟩ := place_queue m q before.getLast? after.head? mp change
  obtain ⟨bands, type, cont, _⟩ := link_fields m q before.getLast? after.head? mp
  rw [← same] at bands type cont
  obtain ⟨list, tail⟩ := queued.link fresh
  rw [← same, ← first] at list
  rw [← last] at tail
  generalize place m q before.getLast? after.head? mp change = r at *
  have normal : Ordinary r.1 = Ordinary m := by
    funext b
    rw [Ordinary, Ordinary, type]
  have sizes : size r.1 = size m := by
    funext b
    rw [size, size, cont]
  have members : ∀ pri l, band r.1 pri l = band m pri l := fun pri l =>
    band_congr (fun b _ => congrFun type b) (fun b _ => congrFun bands b) pri
  have others : ∀ i, m.b_band mp ≠ i + 1 → band m (i + 1) (before ++ mp :: after) = band m (i + 1) (before ++ after) := by
    intro i other
    rw [band_split, if_neg (fun both => other both.2)]
  constructor
  · intro right
    have ordered := right.ordered
    simp only [normal, bands] at ordered
    refine ⟨ordered, fun some b is => ?_⟩
    have here := right.banded (m.b_band mp - 1) _ ((each _).trans (by rw [is]; rfl))
    beta_reduce at here
    rw [if_pos (by omega), members, show m.b_band mp - 1 + 1 = m.b_band mp by omega] at here
    exact here
  · rintro ⟨ordered, ends⟩
    refine ⟨list, tail, ?_, ?_, fun i b is => ?_, ⟨?_, fun i b is => ?_⟩, ?_, fun i b is => ?_⟩
    · simpa only [normal, bands] using ordered
    · rw [bands, nband]
      exact within
    · rw [each] at is
      obtain ⟨b, found, rfl⟩ := Option.map_eq_some_iff.mp is
      rw [members]
      by_cases here : m.b_band mp = i + 1
      · have right := ends (by omega) b (by rw [show m.b_band mp - 1 = i by omega, found])
        rw [Ends, here] at right
        rw [if_pos here]
        exact right
      · rw [if_neg here, others i here]
        exact queued.banded i b found
    · rw [count, sizes, plain_congr (fun b _ => congrFun bands b), plain_split, queued.counted.queue]
      split
      · simp [plain]
        omega
      · rfl
    · rw [each] at is
      obtain ⟨b, found, rfl⟩ := Option.map_eq_some_iff.mp is
      have known := queued.counted.bands i b found
      rw [members, sizes]
      by_cases here : m.b_band mp = i + 1
      · have normal : Ordinary m mp := by
          by_contra loose
          have := high loose
          omega
        rw [if_pos here, band_split, if_pos ⟨normal, here⟩]
        show (change _ b).qb_count + size m mp = _
        rw [(keeps ..).1, known]
        simp [band]
        omega
      · rw [if_neg here, others i here]
        exact known
    · rw [full, bands]
    · rw [each] at is
      obtain ⟨b, found, rfl⟩ := Option.map_eq_some_iff.mp is
      rw [found, bands]
      by_cases here : m.b_band mp = i + 1
      · rw [if_pos here]
        simp only [Qband.charge, (keeps _ b).1, (keeps _ b).2.1, (keeps _ b).2.2, Option.any_some, here, true_and]
      · rw [if_neg here]
        simp [here]

theorem grown_full (q : Queue) (n i : Nat) : ((q.q_bandp ++ List.replicate n (allocband q))[i]?).any (fun b => b.qb_full) =
    (q.q_bandp[i]?).any (fun b => b.qb_full) := by
  by_cases old : i < q.q_bandp.length
  · rw [List.getElem?_append_left old]
  · rw [List.getElem?_append_right (Nat.le_of_not_lt old), List.getElem?_eq_none (Nat.le_of_not_lt old), List.getElem?_replicate]
    split <;> rfl

theorem right_grown (n : Nat) : Right m { q with q_bandp := q.q_bandp ++ List.replicate n (allocband q) } r before after mp ↔
    Right m q r before after mp := by
  constructor
  · intro right
    exact ⟨right.list, right.last, right.ordered, right.within, right.banded, right.counted, right.full,
      fun i b is => (right.bandFull i b is).trans (by rw [grown_full])⟩
  · intro right
    exact ⟨right.list, right.last, right.ordered, right.within, right.banded, right.counted, right.full,
      fun i b is => (right.bandFull i b is).trans (by rw [grown_full])⟩

theorem Right.congr {r' : Queue} (first : r'.q_first = r.q_first) (last : r'.q_last = r.q_last) (bandp : r'.q_bandp = r.q_bandp)
    (count : r'.q_count = r.q_count) (hiwat : r'.q_hiwat = r.q_hiwat) (full : r'.qfull = r.qfull)
    (right : Right m q r before after mp) : Right m q r' before after mp := by
  refine ⟨first ▸ right.list, last ▸ right.last, right.ordered, ?_, ?_, ⟨count ▸ right.counted.queue, ?_⟩, ?_, ?_⟩
  · rw [Queue.q_nband, bandp]
    exact right.within
  · rw [Banded, bandp]
    exact right.banded
  · rw [bandp]
    exact right.counted.bands
  · rw [full, hiwat, count]
    exact right.full
  · rw [bandp]
    exact right.bandFull

theorem right_enabled {c : Bool} : Right m q (if c then qenable r else r) before after mp ↔ Right m q r before after mp := by
  unfold qenable
  cases c with
  | false => exact Iff.rfl
  | true =>
    rw [if_pos rfl]
    split
    · exact ⟨Right.congr rfl rfl rfl rfl rfl rfl, Right.congr rfl rfl rfl rfl rfl rfl⟩
    · exact Iff.rfl

end Svr4.Proofs.StrqPlace
