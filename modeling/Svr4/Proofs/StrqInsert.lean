import Svr4.Proofs.StrqPlace

/-! `insq` and the bands. -/

namespace Svr4.Proofs.StrqInsert
open Function Chain DoubleChain Strq StrqPlace

variable {m m' : Msgb} {q : Queue} {l before after : List Nat} {emp : Option Nat} {mp mem : Nat}

theorem enter_place (list : Doubly m.b_next m.b_prev q.q_first (before ++ after)) (last : q.q_last = (before ++ after).getLast?)
    (head : after.head? = emp) :
    enter m q emp mp = place m q before.getLast? after.head? mp fun m b => adjust m emp mp b := by
  subst head
  unfold enter
  cases after with
  | nil =>
    rw [List.append_nil] at last
    simp only [List.head?_nil, last]
  | cons a rest => simp only [List.head?_cons, list.prev_eq]

theorem adjust_keeps (emp : Option Nat) (mp : Nat) : Keeps fun m b => adjust m emp mp b := by
  intro m b
  beta_reduce
  unfold adjust
  split
  · exact ⟨rfl, rfl, rfl⟩
  split
  · exact ⟨rfl, rfl, rfl⟩
  split <;> exact ⟨rfl, rfl, rfl⟩

section ends
variable {b : Qband} {e : Nat} {rest : List Nat}

theorem adjust_end (fresh : mp ∉ before) (normal : Ordinary m mp) (ends : Ends m (m.b_band mp) before b) (next : m'.b_next mp = none) :
    Ends m (m.b_band mp) (before ++ [mp]) (adjust m' none mp b) ↔ band m (m.b_band mp) before = [] := by
  obtain ⟨first, last⟩ := ends
  rw [Ends, band_split, if_pos ⟨normal, rfl⟩, show band m (m.b_band mp) [] = [] from rfl]
  unfold adjust
  rcases members : band m (m.b_band mp) before with _ | ⟨x, others⟩
  · rw [members] at first
    simp [first]
  · rw [members] at first last
    rw [List.head?_cons] at first
    simp only [first, reduceCtorEq, if_false, next, Option.any_none, Bool.false_eq_true, iff_false, not_and]
    intro _ same
    rw [last, List.getLast?_concat] at same
    have inside : mp ∈ band m (m.b_band mp) before := by
      rw [members]
      exact List.mem_of_getLast? same
    exact fresh (mem_band.mp inside).1

theorem adjust_before (queued : Queued m q (before ++ e :: rest)) (normal : Ordinary m mp) (ordinary : Ordinary m e)
    (order : m.b_band e ≤ m.b_band mp) (ends : Ends m (m.b_band mp) (before ++ e :: rest) b) (next : m'.b_next mp = some e)
    (bands : m'.b_band = m.b_band) : Ends m (m.b_band mp) (before ++ mp :: e :: rest) (adjust m' (some e) mp b) := by
  obtain ⟨first, last⟩ := ends
  have once := queued.list.forward.nodup
  have apart : e ∉ before := by
    rw [List.nodup_append] at once
    exact fun member => once.2.2 e member e (by simp) rfl
  have sorted := (List.pairwise_cons.mp (List.pairwise_append.mp queued.ordered).2.1).1
  have early : ∀ x others, band m (m.b_band mp) before = x :: others → some x ≠ some e := by
    intro x others members same
    have inside : x ∈ band m (m.b_band mp) before := by simp [members]
    cases same
    exact apart (mem_band.mp inside).1
  rw [Ends, band_split, if_pos ⟨normal, rfl⟩]
  rw [show band m (m.b_band mp) (before ++ e :: rest) = band m (m.b_band mp) before ++ band m (m.b_band mp) (e :: rest) from
    List.filter_append ..] at first last
  unfold adjust
  rw [next, Option.any_some, bands]
  by_cases same : m.b_band e = m.b_band mp
  · have here : band m (m.b_band mp) (e :: rest) = e :: band m (m.b_band mp) rest := by simp [band, ordinary, same]
    rw [here] at first last ⊢
    rcases members : band m (m.b_band mp) before with _ | ⟨x, others⟩
    · rw [members] at first last
      simp only [List.nil_append, List.head?_cons] at first
      simp only [first, reduceCtorEq, if_false, if_true, List.nil_append, List.head?_cons, true_and]
      rw [last]
      simp
    · have other := early x others members
      rw [members] at first last
      simp only [List.cons_append, List.head?_cons] at first
      simp only [first, reduceCtorEq, if_false, if_neg other, same, ne_eq, not_true_eq_false, decide_false, Bool.false_eq_true, last]
      simp [List.getLast?_append, List.getLast?_cons]
  · have none : band m (m.b_band mp) (e :: rest) = [] := by
      rw [band, List.filter_eq_nil_iff]
      intro x member
      have lower : m.b_band x ≤ m.b_band e := by
        rcases List.mem_cons.mp member with rfl | later
        · exact le_rfl
        · exact (sorted x later ordinary).2
      simp only [decide_eq_true_eq, not_and]
      intro _
      omega
    rw [none, List.append_nil] at first last
    rw [none]
    rcases members : band m (m.b_band mp) before with _ | ⟨x, others⟩
    · rw [members] at first
      simp [first]
    · have other := early x others members
      rw [members] at first
      simp only [List.head?_cons] at first
      simp only [first, reduceCtorEq, if_false, if_neg other, ne_eq, same, not_false_eq_true, decide_true, if_true]
      exact ⟨rfl, List.getLast?_concat.symm⟩

theorem adjust_high (queued : Queued m q (before ++ e :: rest)) (fresh : mp ∉ before ++ e :: rest) (normal : Ordinary m mp)
    (banded : m.b_band mp ≠ 0) (high : ¬ Ordinary m e) (ends : Ends m (m.b_band mp) (before ++ e :: rest) b)
    (next : m'.b_next mp = some e) (bands : m'.b_band = m.b_band) :
    Ends m (m.b_band mp) (before ++ mp :: e :: rest) (adjust m' (some e) mp b) ↔ band m (m.b_band mp) (before ++ e :: rest) = [] := by
  obtain ⟨first, last⟩ := ends
  have none : band m (m.b_band mp) before = [] := by
    rw [band, List.filter_eq_nil_iff]
    intro x member
    simp only [decide_eq_true_eq, not_and]
    intro ordinary
    exact absurd ((List.pairwise_append.mp queued.ordered).2.2 x member e (by simp) ordinary).1 high
  have other : m.b_band e ≠ m.b_band mp := by
    rw [queued.high e (by simp) high]
    exact Ne.symm banded
  rw [show band m (m.b_band mp) (before ++ e :: rest) = band m (m.b_band mp) before ++ band m (m.b_band mp) (e :: rest) from
    List.filter_append .., none, List.nil_append] at first last ⊢
  rw [Ends, band_split, if_pos ⟨normal, rfl⟩, none, List.nil_append, List.head?_cons]
  unfold adjust
  rw [next, Option.any_some, bands]
  rcases members : band m (m.b_band mp) (e :: rest) with _ | ⟨x, others⟩
  · rw [members] at first
    simp [first]
  · have inside : x ∈ band m (m.b_band mp) (e :: rest) := by simp [members]
    obtain ⟨place, ordinary, _⟩ := mem_band.mp inside
    have apart : some x ≠ some e := by
      intro same
      cases same
      exact high ordinary
    rw [members, List.head?_cons] at first
    simp only [first, reduceCtorEq, if_false, if_neg apart, ne_eq, other, not_false_eq_true, decide_true, if_true, iff_false, not_and]
    intro same
    cases same
    exact absurd (List.mem_append_right before place) fresh

end ends

/-- A message at the end of a queue whose last message is of its band, or before one of high priority while a message
that should be before it, or one of its own band, is on the queue. -/
def Misplaced (m : Msgb) (q : Queue) (l : List Nat) (emp : Option Nat) (mp : Nat) : Prop :=
  Ordinary m mp ∧
    ((emp = none ∧ m.b_band mp ≠ 0 ∧ ∃ b, q.q_last = some b ∧ m.b_band b = m.b_band mp) ∨
      ∃ e, emp = some e ∧ ¬ Ordinary m e ∧
        ∃ b ∈ l, Ordinary m b ∧ (m.b_band mp < m.b_band b ∨ m.b_band mp ≠ 0 ∧ m.b_band b = m.b_band mp))

theorem badord_end : badord m q none mp = false ↔ (Ordinary m mp → ∀ b, q.q_last = some b → m.b_band mp ≤ m.b_band b) := by
  unfold badord
  cases q.q_last with
  | none => simp
  | some b => simp [queclass_normal]

theorem badord_before {e : Nat} : badord m q (some e) mp = false ↔
    (¬ Ordinary m mp → ∀ b, m.b_prev e = some b → ¬ Ordinary m b) ∧ (Ordinary m mp → m.b_band e ≤ m.b_band mp) ∧
      ∀ b, m.b_prev e = some b → Ordinary m b → m.b_band mp ≤ m.b_band b := by
  unfold badord
  cases known : m.b_prev e with
  | none => simp [queclass_normal, known]
  | some b => simp [queclass_normal, queclass_high, Ordinary, and_assoc, known]

theorem enter_end (queued : Queued m q before) (accepted : ∀ b, q.q_last = some b → m.b_band mp ≤ m.b_band b) :
    (∀ a ∈ before, Ordinary m a → m.b_band mp ≤ m.b_band a) ∧
      (m.b_band mp ≠ 0 → (band m (m.b_band mp) before ≠ [] ↔ ∃ b, q.q_last = some b ∧ m.b_band b = m.b_band mp)) := by
  have sorted : ∀ a ∈ before, Ordinary m a → ∃ b, q.q_last = some b ∧ Ordinary m b ∧ m.b_band b ≤ m.b_band a := by
    intro a member plain
    rcases List.eq_nil_or_concat' before with rfl | ⟨front, b, rfl⟩
    · simp at member
    · refine ⟨b, by rw [queued.last, List.getLast?_concat], ?_⟩
      rcases List.mem_append.mp member with early | last
      · exact (List.pairwise_append.mp queued.ordered).2.2 a early b (by simp) plain
      · obtain rfl := List.mem_singleton.mp last
        exact ⟨plain, le_rfl⟩
  refine ⟨fun a member plain => ?_, fun banded => ⟨fun some => ?_, ?_⟩⟩
  · obtain ⟨b, last, _, lower⟩ := sorted a member plain
    exact (accepted b last).trans lower
  · obtain ⟨a, member⟩ := List.exists_mem_of_ne_nil _ some
    obtain ⟨member, plain, is⟩ := mem_band.mp member
    obtain ⟨b, last, _, lower⟩ := sorted a member plain
    exact ⟨b, last, le_antisymm (lower.trans is.le) (accepted b last)⟩
  · rintro ⟨b, last, is⟩
    rw [queued.last] at last
    have member := List.mem_of_getLast? last
    have plain : Ordinary m b := by
      by_contra loose
      have zero := queued.high b member loose
      omega
    exact List.ne_nil_of_mem (mem_band.mpr ⟨member, plain, is⟩)

theorem enter_right (queued : Queued m q (before ++ after)) (fresh : mp ∉ before ++ after) (head : after.head? = emp)
    (accepted : badord m q emp mp = false) (within : m.b_band mp ≤ q.q_nband) (high : ¬ Ordinary m mp → m.b_band mp = 0) :
    Right (enter m q emp mp).1 q (enter m q emp mp).2 before after mp ↔ ¬ Misplaced m q (before ++ after) emp mp := by
  rw [enter_place queued.list queued.last head, place_parts (adjust_keeps emp mp) queued fresh within high]
  by_cases ordinary : Ordinary m mp
  swap
  · have same : (before ++ mp :: after).filter (Ordinary m) = (before ++ after).filter (Ordinary m) := by simp [ordinary]
    refine iff_of_true ⟨?_, fun some => absurd (high ordinary) some⟩ (fun wrong => ordinary wrong.1)
    rw [same]
    exact ordinary_sorted queued.ordered
  obtain ⟨same, _⟩ := place_queue m q before.getLast? after.head? mp fun m b => adjust m emp mp b
  have next : (place m q before.getLast? after.head? mp fun m b => adjust m emp mp b).1.b_next mp = after.head? := by
    rw [same]
    exact (queued.link fresh).1.next_eq
  have bands : (place m q before.getLast? after.head? mp fun m b => adjust m emp mp b).1.b_band = m.b_band := by
    rw [same]
    exact (link_fields ..).1
  have ends : m.b_band mp ≠ 0 → ∀ b, q.q_bandp[m.b_band mp - 1]? = some b → Ends m (m.b_band mp) (before ++ after) b := by
    intro banded b is
    have known := queued.banded _ b is
    rwa [show m.b_band mp - 1 + 1 = m.b_band mp by omega] at known
  have there : m.b_band mp ≠ 0 → ∃ b, q.q_bandp[m.b_band mp - 1]? = some b := by
    intro banded
    rw [Queue.q_nband] at within
    exact ⟨_, List.getElem?_eq_getElem (by omega)⟩
  rw [ordered_split ordinary queued.ordered]
  cases after with
  | nil =>
    obtain rfl : none = emp := head
    rw [List.append_nil] at queued fresh ends
    obtain ⟨sorted, last⟩ := enter_end queued (badord_end.mp accepted ordinary)
    rw [List.append_nil]
    constructor
    · rintro ⟨_, right⟩ ⟨_, ⟨_, banded, final⟩ | ⟨e, is, _⟩⟩
      · obtain ⟨b, is⟩ := there banded
        have empty := (adjust_end fresh ordinary (ends banded b is) next).mp (right banded b is)
        exact (last banded).mpr final empty
      · cases is
    · intro placed
      refine ⟨⟨sorted, by simp⟩, fun banded b is => ?_⟩
      apply (adjust_end fresh ordinary (ends banded b is) next).mpr
      by_contra some
      exact placed ⟨ordinary, .inl ⟨rfl, banded, (last banded).mp some⟩⟩
  | cons e rest =>
    obtain rfl : some e = emp := head
    obtain ⟨_, lower, upper⟩ := badord_before.mp accepted
    have tail := (List.pairwise_append.mp queued.ordered).2
    by_cases plain : Ordinary m e
    · refine iff_of_true ⟨⟨fun a member loose => ?_, fun b member loose => ?_⟩, fun banded b is => ?_⟩ ?_
      · rcases List.eq_nil_or_concat' before with rfl | ⟨front, b, rfl⟩
        · simp at member
        · have prev : m.b_prev e = some b := by rw [queued.list.prev_eq, List.getLast?_concat]
          rcases List.mem_append.mp member with early | last
          · obtain ⟨firm, below⟩ := (List.pairwise_append.mp (List.pairwise_append.mp queued.ordered).1).2.2 a early b (by simp) loose
            exact (upper b prev firm).trans below
          · obtain rfl := List.mem_singleton.mp last
            exact upper a prev loose
      · rcases List.mem_cons.mp member with rfl | later
        · exact lower ordinary
        · exact ((List.pairwise_cons.mp tail.1).1 b later plain).2.trans (lower ordinary)
      · exact adjust_before queued ordinary plain (lower ordinary) (ends banded b is) next bands
      · rintro ⟨_, ⟨is, _⟩ | ⟨e', is, loose, _⟩⟩
        · cases is
        · cases is
          exact loose plain
    · have front : ∀ a ∈ before, ¬ Ordinary m a := fun a member loose => plain (tail.2 a member e (by simp) loose).1
      constructor
      · rintro ⟨⟨_, order⟩, right⟩ ⟨_, ⟨is, _⟩ | ⟨e', is, _, b, member, loose, above⟩⟩
        · cases is
        · have later : b ∈ e :: rest := (List.mem_append.mp member).resolve_left fun early => front b early loose
          rcases above with above | ⟨banded, same⟩
          · exact absurd (order b later loose) (Nat.not_le.mpr above)
          · obtain ⟨d, found⟩ := there banded
            have empty := (adjust_high queued fresh ordinary banded plain (ends banded d found) next bands).mp (right banded d found)
            exact List.ne_nil_of_mem (mem_band.mpr ⟨member, loose, same⟩) empty
      · intro placed
        have none : ∀ b ∈ before ++ e :: rest, Ordinary m b → ¬ (m.b_band mp < m.b_band b ∨ m.b_band mp ≠ 0 ∧ m.b_band b = m.b_band mp) :=
          fun b member loose above => placed ⟨ordinary, .inr ⟨e, rfl, plain, b, member, loose, above⟩⟩
        refine ⟨⟨fun a member loose => absurd loose (front a member), fun b member loose => ?_⟩, fun banded b is => ?_⟩
        · have := none b (List.mem_append_right before member) loose
          omega
        · apply (adjust_high queued fresh ordinary banded plain (ends banded b is) next bands).mpr
          rw [band, List.filter_eq_nil_iff]
          intro x member
          simp only [decide_eq_true_eq, not_and]
          intro loose same
          exact none x member loose (.inr ⟨banded, same⟩)

/-- Memory is found for some of the missing bands, and not for all of them. -/
def Short (mem : Nat) (m : Msgb) (q : Queue) (emp : Option Nat) (mp : Nat) : Prop :=
  badord (force m mp) q emp mp = false ∧ 0 < mem ∧ q.q_nband + mem < (force m mp).b_band mp

/-- A message is in its place after a success, and nothing has changed after a failure. -/
def Inserts (m : Msgb) (q : Queue) (l : List Nat) (emp : Option Nat) (mp : Nat) (r : Bool × Msgb × Queue) : Prop :=
  (r.1 = true → ∃ before after, l = before ++ after ∧ after.head? = emp ∧ Right r.2.1 q r.2.2 before after mp) ∧
    (r.1 = false → r.2.2 = q ∧ r.2.1.b_next = m.b_next ∧ r.2.1.b_prev = m.b_prev)

theorem force_ordinary (ordinary : Ordinary m mp) : force m mp = m := by
  unfold force
  rw [if_neg (fun high => queclass_high.mp high ordinary)]

theorem force_high (high : ¬ Ordinary (force m mp) mp) : (force m mp).b_band mp = 0 := by
  rw [force_normal] at high
  unfold force
  rw [if_pos (queclass_high.mpr high)]
  exact update_self ..

theorem misplaced_force : Misplaced (force m mp) q l emp mp ↔ Misplaced m q l emp mp := by
  by_cases ordinary : Ordinary m mp
  · rw [force_ordinary ordinary]
  · refine iff_of_false (fun wrong => ordinary ?_) (fun wrong => ordinary wrong.1)
    have this := wrong.1
    rwa [force_normal] at this

theorem Misplaced.accepted (queued : Queued m q l) (place : ∀ e, emp = some e → e ∈ l) (wrong : Misplaced m q l emp mp) :
    badord m q emp mp = false ∧ m.b_band mp ≤ q.q_nband := by
  obtain ⟨ordinary, ⟨rfl, _, b, last, same⟩ | ⟨e, rfl, high, b, member, plain, above⟩⟩ := wrong
  · have member : b ∈ l := by
      rw [queued.last] at last
      exact List.mem_of_getLast? last
    refine ⟨badord_end.mpr fun _ c is => ?_, same ▸ queued.within b member⟩
    obtain rfl : b = c := Option.some.inj (last.symm.trans is)
    exact same.ge
  · obtain ⟨before, rest, rfl⟩ := List.append_of_mem (place e rfl)
    have zero := queued.high e (by simp) high
    have front : ∀ b, m.b_prev e = some b → ¬ Ordinary m b := by
      intro b prev plain
      rw [queued.list.prev_eq] at prev
      exact high ((List.pairwise_append.mp queued.ordered).2.2 b (List.mem_of_getLast? prev) e (by simp) plain).1
    refine ⟨badord_before.mpr ⟨fun _ => front, fun _ => by omega, fun b prev plain => absurd plain (front b prev)⟩, ?_⟩
    have within := queued.within b member
    omega

theorem exists_split (place : ∀ e, emp = some e → e ∈ l) : ∃ before after, l = before ++ after ∧ after.head? = emp := by
  cases emp with
  | none => exact ⟨l, [], by simp, rfl⟩
  | some e =>
    obtain ⟨before, rest, rfl⟩ := List.append_of_mem (place e rfl)
    exact ⟨before, e :: rest, rfl, rfl⟩

/-- `insq` keeps the bands right, unless the message is misplaced or memory runs out between two bands. -/
theorem insq_keeps_bands (queued : Queued m q l) (fresh : mp ∉ l) (place : ∀ e, emp = some e → e ∈ l) :
    Inserts m q l emp mp (insq mem m q emp mp) ↔ ¬ Misplaced m q l emp mp ∧ ¬ Short mem m q emp mp := by
  have forced := queued.force fresh
  have fields : (force m mp).b_next = m.b_next ∧ (force m mp).b_prev = m.b_prev := by
    unfold force
    split <;> exact ⟨rfl, rfl⟩
  rw [← misplaced_force]
  unfold insq
  dsimp only
  cases accepted : badord (force m mp) q emp mp with
  | true =>
    rw [if_pos rfl]
    refine iff_of_true ⟨fun is => Bool.noConfusion is, fun _ => ⟨rfl, fields⟩⟩ ⟨fun wrong => ?_, fun short => ?_⟩
    · rw [(Misplaced.accepted forced place wrong).1] at accepted
      cases accepted
    · rw [short.1] at accepted
      cases accepted
  | false =>
    rw [if_neg Bool.false_ne_true]
    have grown := forced.bands mem ((force m mp).b_band mp)
    rw [bands_eq] at grown ⊢
    dsimp only at grown ⊢
    by_cases enough : (force m mp).b_band mp ≤ q.q_nband + mem
    · rw [if_pos (decide_eq_true enough)]
      have within : (force m mp).b_band mp ≤ Queue.q_nband { q with
          q_bandp := q.q_bandp ++ List.replicate (min mem ((force m mp).b_band mp - q.q_nband)) (allocband q) } := by
        simp only [Queue.q_nband, List.length_append, List.length_replicate] at enough ⊢
        omega
      have short : ¬ Short mem m q emp mp := fun short => by
        have := short.2.2
        omega
      constructor
      · intro inserts
        obtain ⟨before, after, rfl, head, right⟩ := inserts.1 rfl
        refine ⟨?_, short⟩
        apply (enter_right grown fresh head accepted within force_high).mp
        exact (right_grown _).mpr (right_enabled.mp right)
      · intro placed
        refine ⟨fun _ => ?_, fun is => Bool.noConfusion is⟩
        obtain ⟨before, after, rfl, head⟩ := exists_split place
        refine ⟨before, after, rfl, head, right_enabled.mpr ?_⟩
        exact (right_grown _).mp ((enter_right grown fresh head accepted within force_high).mpr placed.1)
    · rw [if_neg (by simpa using enough)]
      have lacking : ¬ (force m mp).b_band mp ≤ q.q_nband := by omega
      have placed : ¬ Misplaced (force m mp) q l emp mp := fun wrong => lacking (Misplaced.accepted forced place wrong).2
      constructor
      · intro inserts
        refine ⟨placed, fun short => ?_⟩
        have same := congrArg (fun q => q.q_bandp.length) (inserts.2 rfl).1
        have := short.2.1
        simp only [List.length_append, List.length_replicate] at same
        omega
      · intro fits
        refine ⟨fun is => Bool.noConfusion is, fun _ => ⟨?_, fields⟩⟩
        have none : mem = 0 := by
          by_contra some
          exact fits.2 ⟨accepted, by omega, by omega⟩
        simp [none]

def single : Msgb where
  b_next _ := none
  b_prev _ := none
  b_band _ := 1
  db_type _ := M_DATA
  b_cont _ := [1]

def oneBand : Queue where
  q_first := some 0
  q_last := some 0
  q_count := 0
  q_hiwat := 9
  q_lowat := 3
  q_bandp := [⟨1, some 0, some 0, 9, 3, false, false, false⟩]
  qi_srvp := false
  qfull := false
  qenab := false
  qwantr := false
  qwantw := false
  qnoenb := false
  qback := false

theorem single_queued : Queued single oneBand [0] := by
  have ends : ∀ i b, oneBand.q_bandp[i]? = some b → i = 0 ∧ b = ⟨1, some 0, some 0, 9, 3, false, false, false⟩ := by
    intro i b is
    cases i with
    | zero =>
      cases is
      exact ⟨rfl, rfl⟩
    | succ i => cases is
  refine ⟨⟨⟨rfl, rfl⟩, ⟨rfl, rfl⟩⟩, rfl, List.pairwise_singleton .., ?_, ?_, fun i b is => ?_, rfl, fun i b is => ?_⟩
  · intro b _ high
    exact absurd (show M_DATA < QPCTL by decide) high
  · intro b _
    exact le_rfl
  · obtain ⟨rfl, rfl⟩ := ends i b is
    exact ⟨rfl, rfl⟩
  · obtain ⟨rfl, rfl⟩ := ends i b is
    rfl

theorem insq_keeps_bands_single : Inserts single oneBand [0] (some 0) 1 (insq 0 single oneBand (some 0) 1) := by
  apply (insq_keeps_bands single_queued (by decide) (by simp)).mpr
  refine ⟨?_, ?_⟩
  · rintro ⟨_, ⟨none, _⟩ | ⟨e, is, high, _⟩⟩
    · cases none
    · cases is
      exact high (by decide)
  · rintro ⟨_, some, _⟩
    cases some

/-- The second message at the end of the queue is not known to be the last of its band. -/
theorem insq_loses_last : Queued single oneBand [0] ∧ (insq 0 single oneBand none 1).1 = true ∧
    (insq 0 single oneBand none 1).2.2.q_last = some 1 ∧
    (insq 0 single oneBand none 1).2.2.q_bandp.map (fun b => b.qb_last) = [some 0] ∧
    ¬ Inserts single oneBand [0] none 1 (insq 0 single oneBand none 1) := by
  refine ⟨single_queued, by decide, by decide, by decide, fun inserts => ?_⟩
  obtain ⟨before, after, split, head, right⟩ := inserts.1 (by decide)
  obtain rfl := List.head?_eq_none_iff.mp head
  obtain rfl : before = [0] := by rw [split, List.append_nil]
  exact absurd (right.banded 0 _ rfl).2 (by decide)

end Svr4.Proofs.StrqInsert
