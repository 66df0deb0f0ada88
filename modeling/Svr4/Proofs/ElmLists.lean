import Svr4.Elm
import Svr4.Library.Faults

/-! The three levels of the event list: the notices in a row, cut into sublists with a key
each, and an index of the keys whose sublist ends with a dummy. -/

namespace Svr4.ElmLists
open Function Chain DoubleChain Faults Elm

variable {Event : Type} {s s' : State Event} {fuel : Nat} {first : Option Nat} {L before after : List Nat}

/-- A sublist: its key, the notices before the last one, and the last one. -/
structure Group where
  key : Nat
  body : List Nat
  last : Nat

def Group.notes (g : Group) : List Nat := g.body ++ [g.last]

def flat (groups : List Group) : List Nat := groups.flatMap Group.notes

@[simp] theorem flat_nil : flat [] = [] := rfl
@[simp] theorem flat_cons (g : Group) (groups : List Group) : flat (g :: groups) = g.body ++ g.last :: flat groups := by
  simp [flat, Group.notes]
@[simp] theorem flat_append (groups groups' : List Group) : flat (groups ++ groups') = flat groups ++ flat groups' := by
  simp [flat]

theorem mem_flat {n : Nat} {groups : List Group} : n ∈ flat groups ↔ ∃ g ∈ groups, n ∈ g.notes := by simp [flat]

structure Held (s : State Event) (g : Group) : Prop where
  notice : s.notice g.key = g.last
  ktime : s.ktime g.key = s.time g.last
  numnote : s.numnote g.key = g.body.length + 1
  key : s.key g.last = some g.key
  body : ∀ n ∈ g.body, s.key n = none ∧ s.isdummy n = false

def Before (s : State Event) (a b : Nat) : Prop :=
  s.time a ≤ s.time b ∧ (s.isdummy a = false → s.isdummy b = true → s.time a < s.time b)

structure Ordered (s : State Event) (L : List Nat) : Prop where
  sorted : L.Pairwise (Before s)
  front : ∃ n ∈ L.head?, s.isdummy n = true ∧ s.time n = s.LB
  final : ∃ n ∈ L.getLast?, s.isdummy n = true ∧ s.time n = INFINITY
  notices : ∀ n ∈ L, n ∈ s.notices

def dummyKeys (s : State Event) (groups : List Group) : List Nat := groups.flatMap (fun g => if s.isdummy g.last then [g.key] else [])

@[simp] theorem dummyKeys_nil : dummyKeys s [] = [] := rfl
@[simp] theorem dummyKeys_cons (g : Group) (groups : List Group) :
    dummyKeys s (g :: groups) = (if s.isdummy g.last then [g.key] else []) ++ dummyKeys s groups := rfl
@[simp] theorem dummyKeys_append (groups groups' : List Group) :
    dummyKeys s (groups ++ groups') = dummyKeys s groups ++ dummyKeys s groups' := List.flatMap_append

theorem mem_dummyKeys {k : Nat} {groups : List Group} : k ∈ dummyKeys s groups ↔ ∃ g ∈ groups, s.isdummy g.last = true ∧ g.key = k := by
  rw [dummyKeys, List.mem_flatMap]
  constructor
  · rintro ⟨g, inside, member⟩
    split at member
    · next dummy => exact ⟨g, inside, dummy, (List.mem_singleton.mp member).symm⟩
    · cases member
  · rintro ⟨g, inside, dummy, same⟩
    exact ⟨g, inside, by simp [dummy, same]⟩

theorem dummyKeys_congr {groups : List Group} (same : ∀ g ∈ groups, s'.isdummy g.last = s.isdummy g.last) :
    dummyKeys s' groups = dummyKeys s groups := by
  induction groups with
  | nil => rfl
  | cons g groups ih =>
    rw [dummyKeys_cons, dummyKeys_cons, same g (by simp), ih (fun h member => same h (by simp [member]))]

theorem dummyKeys_all {groups : List Group} (all : ∀ g ∈ groups, s.isdummy g.last = true) :
    dummyKeys s groups = groups.map Group.key := by
  induction groups with
  | nil => rfl
  | cons g groups ih =>
    rw [dummyKeys_cons, all g (by simp), ih (fun h member => all h (by simp [member]))]
    rfl

structure Grouped (s : State Event) (groups : List Group) (marks : List Nat) : Prop where
  keys : Doubly s.kright s.kleft (groups.map Group.key).head? (groups.map Group.key)
  held : ∀ g ∈ groups, Held s g
  once : (flat groups).Nodup
  index : Linked s.iright s.index marks
  marked : (dummyKeys s groups).tail = marks.map s.ikey
  given : ∀ g ∈ groups, g.key ∈ s.keys
  du : s.DU = marks.length
  many : 3 ≤ marks.length
  dt : 1 ≤ s.DT
  nlim : 2 ≤ s.NLIM

def real (s : State Event) (n : Nat) : Bool := !s.isdummy n

structure Rep (s : State Event) (groups : List Group) (marks : List Nat) : Prop where
  notes : Doubly s.right s.left (flat groups).head? (flat groups)
  ordered : Ordered s (flat groups)
  grouped : Grouped s groups marks
  current : s.current = (flat groups).find? (real s)

section walks
variable {condition : Nat → Bool} {next : Nat → Option Nat} {p : Option Nat} {l l' : List Nat} {a : Nat}

theorem seek_found (linked : Linked next p (l ++ a :: l')) (passes : ∀ b ∈ l, condition b = true) (stops : condition a = false)
    (enough : l.length < fuel) : seek condition next fuel p = .ok a := by
  unfold seek
  rw [walk_found _ fuel linked (by simpa using passes) (by simpa using stops) enough]

theorem seek_null (linked : Linked next p l) (passes : ∀ b ∈ l, condition b = true) (enough : l.length ≤ fuel) :
    seek condition next fuel p = .error .null := by
  unfold seek
  rw [walk_none _ fuel linked (by simpa using passes) enough]

theorem skip_find (linked : Linked next p l) (enough : l.length ≤ fuel) :
    skip condition next fuel p = .ok (l.find? (fun a => !condition a)) := by
  obtain ⟨prev, found⟩ := walk_find (fun a => !condition a) fuel linked enough
  unfold skip
  rw [found]

end walks

section links
variable {n k : Nat}

theorem unlinkNotice_done (notes : Doubly s.right s.left first (before ++ n :: after)) (front : before ≠ []) (behind : after ≠ []) :
    ∃ right left, unlinkNotice n s = .ok { s with right := right, left := left } ∧
      Doubly right left first (before ++ after) ∧ Linked right (some n) (n :: after) := by
  obtain ⟨b, c, prev, next, other, list, ahead⟩ := notes.unlink front behind
  refine ⟨_, _, ?_, list, ahead⟩
  simp only [unlinkNotice, prev, deref, ok_bind, update_of_ne other.symm, next]

theorem unlinkKey_done (keys : Doubly s.kright s.kleft first (before ++ k :: after)) (front : before ≠ []) (behind : after ≠ []) :
    ∃ right left, unlinkKey k s = .ok { s with kright := right, kleft := left } ∧ Doubly right left first (before ++ after) := by
  obtain ⟨b, c, prev, next, other, list, _⟩ := keys.unlink front behind
  refine ⟨_, _, ?_, list⟩
  simp only [unlinkKey, prev, deref, ok_bind, update_of_ne other.symm, next]

theorem linkKey_done {k2 b : Nat} (keys : Doubly s.kright s.kleft first (before ++ b :: k :: after))
    (fresh : k2 ∉ before ++ b :: k :: after) :
    ∃ right left, linkKey k2 k s = .ok { s with kright := right, kleft := left } ∧
      Doubly right left first (before ++ b :: k2 :: k :: after) := by
  obtain ⟨_, prev, list⟩ := keys.link fresh
  refine ⟨_, _, ?_, list⟩
  simp only [linkKey, prev, deref, ok_bind]

theorem linkNotice_done {b c : Nat} (notes : Doubly s.right s.left first (before ++ b :: c :: after))
    (fresh : n ∉ before ++ b :: c :: after) :
    ∃ right left, linkNotice n b s = .ok { s with right := right, left := left } ∧
      Doubly right left first (before ++ b :: n :: c :: after) := by
  obtain ⟨next, _, list⟩ := notes.link fresh
  refine ⟨_, _, ?_, list⟩
  simp only [linkNotice, next, deref, ok_bind]

theorem linkBefore_done {b c : Nat} (notes : Doubly s.right s.left first (before ++ b :: c :: after))
    (fresh : n ∉ before ++ b :: c :: after) :
    ∃ right left, linkBefore n c s = .ok { s with right := right, left := left } ∧
      Doubly right left first (before ++ b :: n :: c :: after) := by
  obtain ⟨_, prev, list⟩ := notes.link fresh
  refine ⟨_, _, ?_, list⟩
  simp only [linkBefore, prev, deref, ok_bind]

end links

section parts
variable {g h : Group} {groups groups' : List Group} {marks : List Nat}

theorem Held.congr (held : Held s g) (notice : s'.notice g.key = s.notice g.key) (ktime : s'.ktime g.key = s.ktime g.key)
    (numnote : s'.numnote g.key = s.numnote g.key)
    (same : ∀ n ∈ g.notes, s'.time n = s.time n ∧ s'.key n = s.key n ∧ s'.isdummy n = s.isdummy n) : Held s' g where
  notice := notice.trans held.notice
  ktime := by rw [ktime, held.ktime, (same g.last (by simp [Group.notes])).1]
  numnote := numnote.trans held.numnote
  key := by rw [(same g.last (by simp [Group.notes])).2.1, held.key]
  body := by
    intro n member
    obtain ⟨_, key, dummy⟩ := same n (by simp [Group.notes, member])
    rw [key, dummy]
    exact held.body n member

theorem Before.congr {a b : Nat} (earlier : Before s a b) (first : s'.time a = s.time a ∧ s'.isdummy a = s.isdummy a)
    (second : s'.time b = s.time b ∧ s'.isdummy b = s.isdummy b) : Before s' a b := by
  unfold Before
  rw [first.1, first.2, second.1, second.2]
  exact earlier

theorem Grouped.apart (grouped : Grouped s (groups ++ g :: groups') marks) (member : h ∈ groups ∨ h ∈ groups') :
    h.key ≠ g.key ∧ ∀ n ∈ h.notes, n ∉ g.notes := by
  have keys := grouped.keys.nodup
  have notes := grouped.once
  rw [List.map_append, List.map_cons, List.nodup_append, List.nodup_cons] at keys
  rw [flat, List.flatMap_append, List.flatMap_cons, List.nodup_append, List.nodup_append] at notes
  rcases member with member | member
  · refine ⟨keys.2.2 h.key (List.mem_map_of_mem member) g.key (by simp), fun n inside same => ?_⟩
    exact notes.2.2 n (List.mem_flatMap.mpr ⟨h, member, inside⟩) n (by simp [same]) rfl
  · refine ⟨fun same => keys.2.1.1 (same ▸ List.mem_map_of_mem member), fun n inside same => ?_⟩
    exact notes.2.1.2.2 n same n (List.mem_flatMap.mpr ⟨h, member, inside⟩) rfl

theorem Grouped.front_dummy (grouped : Grouped s groups marks) (ordered : Ordered s (flat groups)) :
    ∃ head rest, groups = head :: rest ∧ head.body = [] ∧ s.isdummy head.last = true ∧ s.time head.last = s.LB := by
  obtain ⟨n, start, dummy, time⟩ := ordered.front
  cases groups with
  | nil => simp at start
  | cons head rest =>
    refine ⟨head, rest, rfl, ?_⟩
    cases bodyEq : head.body with
    | nil =>
      simp only [flat_cons, bodyEq, List.nil_append, List.head?_cons, Option.mem_def, Option.some.injEq] at start
      exact ⟨rfl, start ▸ dummy, start ▸ time⟩
    | cons m body =>
      simp only [flat_cons, bodyEq, List.cons_append, List.head?_cons, Option.mem_def, Option.some.injEq] at start
      have isReal := ((grouped.held head (by simp)).body m (by simp [bodyEq])).2
      rw [start, dummy] at isReal
      cases isReal

theorem Ordered.last_dummy (ordered : Ordered s (flat groups)) :
    ∃ front z, groups = front ++ [z] ∧ s.isdummy z.last = true ∧ s.time z.last = INFINITY := by
  obtain ⟨n, finish, dummy, time⟩ := ordered.final
  rcases List.eq_nil_or_concat groups with rfl | ⟨front, z, rfl⟩
  · simp at finish
  · rw [List.concat_eq_append] at finish ⊢
    have same : (flat (front ++ [z])).getLast? = some z.last := by simp [← List.append_assoc]
    rw [same] at finish
    cases finish
    exact ⟨front, z, rfl, dummy, time⟩

theorem Grouped.marks_of {head : Group} {rest : List Group} (grouped : Grouped s (head :: rest) marks) (dummy : s.isdummy head.last = true) :
    dummyKeys s rest = marks.map s.ikey := by
  simpa [dummy] using grouped.marked

theorem Ordered.le (ordered : Ordered s (before ++ after)) {a b : Nat} (first : a ∈ before) (second : b ∈ after) : Before s a b :=
  (List.pairwise_append.mp ordered.sorted).2.2 a first b second

end parts

end Svr4.ElmLists

/-! A notice leaves the list: what it does to the order and to its sublist. -/

namespace Svr4.ElmLists
open Function Chain DoubleChain Elm

variable {Event : Type} {s : State Event} {fuel c : Nat} {groups A B : List Group} {g : Group} {marks P S b1 b2 : List Nat}

theorem Ordered.inside (ordered : Ordered s (P ++ c :: S)) (isReal : s.isdummy c = false) : P ≠ [] ∧ S ≠ [] := by
  constructor
  · rintro rfl
    obtain ⟨n, first, dummy, _⟩ := ordered.front
    simp only [List.nil_append, List.head?_cons, Option.mem_def, Option.some.injEq] at first
    rw [← first, isReal] at dummy
    cases dummy
  · rintro rfl
    obtain ⟨n, last, dummy, _⟩ := ordered.final
    simp only [List.getLast?_append, List.getLast?_singleton, Option.some_or, Option.mem_def, Option.some.injEq] at last
    rw [← last, isReal] at dummy
    cases dummy

theorem Ordered.without (ordered : Ordered s (P ++ c :: S)) (isReal : s.isdummy c = false) (once : (P ++ c :: S).Nodup) :
    Ordered (freeNotice c s) (P ++ S) := by
  obtain ⟨front, back⟩ := Ordered.inside ordered isReal
  have sublist : (P ++ S).Sublist (P ++ c :: S) := (List.Sublist.refl P).append (List.sublist_cons_self c S)
  refine ⟨ordered.sorted.sublist sublist, ?_, ?_, fun m member => ?_⟩
  · have same : (P ++ S).head? = (P ++ c :: S).head? := by
      obtain ⟨a, P, rfl⟩ := List.exists_cons_of_ne_nil front
      rfl
    rw [same]
    exact ordered.front
  · have same : (P ++ S).getLast? = (P ++ c :: S).getLast? := by
      obtain ⟨a, S, rfl⟩ := List.exists_cons_of_ne_nil back
      simp [List.getLast?_append, List.getLast?_cons]
    rw [same]
    exact ordered.final
  · have other : m ≠ c := by
      rintro rfl
      exact (List.nodup_cons.mp (List.nodup_middle.mp once)).1 member
    exact (List.mem_erase_of_ne other).mpr (ordered.notices m (sublist.subset member))

theorem Grouped.lose (b1 : List Nat) (grouped : Grouped s (A ++ g :: B) marks) (body : g.body = b1 ++ c :: b2) :
    Grouped { s with numnote := update s.numnote g.key (s.numnote g.key - 1) } (A ++ ⟨g.key, b1 ++ b2, g.last⟩ :: B) marks := by
  have held := grouped.held g (by simp)
  have sublist : (flat (A ++ ⟨g.key, b1 ++ b2, g.last⟩ :: B)).Sublist (flat (A ++ g :: B)) := by
    simp only [flat_append, flat_cons, body]
    exact (List.Sublist.refl _).append (((List.Sublist.refl b1).append (List.sublist_cons_self c b2)).append (List.Sublist.refl _))
  refine { grouped with keys := ?_, held := ?_, once := grouped.once.sublist sublist, marked := ?_, given := ?_ }
  · simpa using grouped.keys
  · intro h member
    have cases_ : (h ∈ A ∨ h ∈ B) ∨ h = ⟨g.key, b1 ++ b2, g.last⟩ := by
      simp only [List.mem_append, List.mem_cons] at member
      tauto
    rcases cases_ with others | rfl
    · obtain ⟨otherKey, _⟩ := grouped.apart others
      have member' : h ∈ A ++ g :: B := by
        simp only [List.mem_append, List.mem_cons]
        tauto
      exact (grouped.held h member').congr rfl rfl (update_of_ne otherKey _ _) (fun _ _ => ⟨rfl, rfl, rfl⟩)
    · refine ⟨held.notice, held.ktime, ?_, held.key, fun m member => held.body m ?_⟩
      · show update s.numnote g.key _ g.key = _
        rw [update_self, held.numnote, body]
        simp only [List.length_append, List.length_cons]
        push_cast
        omega
      · rw [body]
        simp only [List.mem_append, List.mem_cons] at member ⊢
        tauto
  · rw [← grouped.marked]
    simp [dummyKeys]
  · intro h member
    simp only [List.mem_append, List.mem_cons] at member
    rcases member with member | rfl | member
    · exact grouped.given h (by simp [member])
    · exact grouped.given g (by simp)
    · exact grouped.given h (by simp [member])

theorem Grouped.lose_all (grouped : Grouped s (A ++ g :: B) marks) (ordered : Ordered s (flat (A ++ g :: B))) (body : g.body = [])
    (isReal : s.isdummy g.last = false) (numnote : Nat → Int) (same : ∀ k, k ≠ g.key → numnote k = s.numnote k) :
    ∃ kright kleft, unlinkKey g.key { s with numnote := numnote } = .ok { s with numnote := numnote, kright := kright, kleft := kleft } ∧
      Grouped (freeKey g.key { s with numnote := numnote, kright := kright, kleft := kleft }) (A ++ B) marks := by
  have lists : flat (A ++ g :: B) = flat A ++ g.last :: flat B := by simp [body]
  obtain ⟨front, back⟩ := Ordered.inside (lists ▸ ordered) isReal
  have keys := grouped.keys
  rw [List.map_append, List.map_cons] at keys
  have frontKeys : A.map Group.key ≠ [] := by
    rintro nothing
    rw [List.map_eq_nil_iff.mp nothing] at front
    exact front rfl
  have backKeys : B.map Group.key ≠ [] := by
    rintro nothing
    rw [List.map_eq_nil_iff.mp nothing] at back
    exact back rfl
  obtain ⟨kright, kleft, run, list⟩ := unlinkKey_done (s := { s with numnote := numnote }) keys frontKeys backKeys
  refine ⟨kright, kleft, run, ?_⟩
  refine { grouped with keys := ?_, held := ?_, once := ?_, marked := ?_, given := ?_ }
  · rw [List.map_append]
    obtain ⟨a, rest, shape⟩ := List.exists_cons_of_ne_nil frontKeys
    rw [shape] at list ⊢
    exact list
  · intro h member
    have others : h ∈ A ∨ h ∈ B := List.mem_append.mp member
    obtain ⟨otherKey, _⟩ := grouped.apart others
    have member' : h ∈ A ++ g :: B := by
      simp only [List.mem_append, List.mem_cons]
      tauto
    exact (grouped.held h member').congr rfl rfl (same h.key otherKey) (fun _ _ => ⟨rfl, rfl, rfl⟩)
  · have sublist : (flat (A ++ B)).Sublist (flat (A ++ g :: B)) := by
      simp only [flat_append, flat_cons, body, List.nil_append]
      exact (List.Sublist.refl _).append (List.sublist_cons_self ..)
    exact grouped.once.sublist sublist
  · show (dummyKeys s (A ++ B)).tail = marks.map s.ikey
    rw [← grouped.marked]
    simp [isReal]
  · intro h member
    have others : h ∈ A ∨ h ∈ B := List.mem_append.mp member
    have member' : h ∈ A ++ g :: B := by
      simp only [List.mem_append, List.mem_cons]
      tauto
    exact (List.mem_erase_of_ne (grouped.apart others).1).mpr (grouped.given h member')

theorem key_ahead {right : Nat → Option Nat} {rest : List Nat} (b1 b2 : List Nat) (held : Held s g) (body : g.body = b1 ++ b2)
    (linked : Linked right (some c) (b2 ++ g.last :: rest)) (enough : b2.length < fuel) :
    seek (fun n2 => (s.key n2).isNone) right fuel (some c) = .ok g.last := by
  refine seek_found linked (fun m member => ?_) (by simp [held.key]) enough
  rw [(held.body m (by simp [body, member])).1]
  rfl

end Svr4.ElmLists

/-! `el_init` builds a list of dummies. -/

namespace Svr4.ElmInit
open Function Chain DoubleChain Elm ElmLists

variable {Event : Type} {s : State Event} {note key ind : Nat → Nat}

structure Built (note key ind : Nat → Nat) (du lb dt nlim : Int) (i : Nat) (t : Int) (nprev kprev : Nat) (indprev : Option Nat)
    (groups : List Group) (marks : List Nat) (s : State Event) : Prop where
  last : ∃ front, groups = front ++ [⟨kprev, [], nprev⟩]
  notes : Doubly (update s.right nprev none) s.left (flat groups).head? (flat groups)
  keys : Doubly (update s.kright kprev none) s.kleft (groups.map Group.key).head? (groups.map Group.key)
  newest : indprev = marks.getLast?
  index : ∀ m ∈ indprev, Linked (update s.iright m none) s.index marks
  held : ∀ g ∈ groups, g.body = [] ∧ Held s g ∧ s.isdummy g.last = true ∧ g.key ∈ s.keys ∧ g.last ∈ s.notices
  marked : (groups.map Group.key).tail = marks.map s.ikey
  sorted : (flat groups).Pairwise (fun a b => s.time a ≤ s.time b)
  latest : ∀ n ∈ flat groups, s.time n ≤ t
  final : s.time nprev = t
  front : ∃ n ∈ (flat groups).head?, s.time n = lb
  old : ∀ g ∈ groups, ∃ j < i, g.key = key j ∧ g.last = note j
  oldMarks : ∀ m ∈ marks, ∃ j < i, m = ind j
  sizes : s.DU = du ∧ s.LB = lb ∧ s.DT = dt ∧ s.NLIM = nlim

variable {du lb dt nlim t t' : Int} {i nprev kprev : Nat} {indprev : Option Nat} {groups : List Group} {marks : List Nat}

theorem chainIndex_done (k : Nat) {m : Nat} (newest : indprev = marks.getLast?)
    (index : ∀ m ∈ indprev, Linked (update s.iright m none) s.index marks) (fresh : m ∉ marks) :
    ∃ iright index, chainIndex indprev m k s = { s with ikey := update s.ikey m k, iright := iright, index := index } ∧
      Linked (update iright m none) index (marks ++ [m]) := by
  rcases List.eq_nil_or_concat marks with rfl | ⟨front, last, rfl⟩
  · subst newest
    exact ⟨_, _, rfl, rfl, by simp [Seg]⟩
  · rw [List.concat_eq_append] at *
    rw [List.getLast?_concat] at newest
    subst newest
    have other : m ≠ last := fun same => fresh (by simp [same])
    have pushed := (index last rfl).push_back fresh
    refine ⟨_, _, rfl, ?_⟩
    rw [update_comm other, update_idem] at pushed
    exact pushed

theorem flat_single (groups : List Group) (k n : Nat) : flat (groups ++ [⟨k, [], n⟩]) = flat groups ++ [n] := by simp

theorem Built.grow (built : Built note key ind du lb dt nlim i t nprev kprev indprev groups marks s)
    (notesOnce : Injective note) (keysOnce : Injective key) (indOnce : Injective ind) (later : t ≤ t') :
    Built note key ind du lb dt nlim (i + 1) t' (note i) (key i) (some (ind i)) (groups ++ [⟨key i, [], note i⟩]) (marks ++ [ind i])
      (chainIndex indprev (ind i) (key i) (chain nprev kprev (note i) (key i) (dummy (note i) (key i) t' (some nprev) (some kprev) s))) := by
  obtain ⟨front, shape⟩ := built.last
  have bodies : ∀ g ∈ groups, g.notes = [g.last] := fun g member => by simp [Group.notes, (built.held g member).1]
  have freshNote : ∀ g ∈ groups, g.last ≠ note i := by
    intro g member same
    obtain ⟨j, less, _, last⟩ := built.old g member
    have := notesOnce (last.symm.trans same)
    omega
  have freshKey : ∀ g ∈ groups, g.key ≠ key i := by
    intro g member same
    obtain ⟨j, less, first, _⟩ := built.old g member
    have := keysOnce (first.symm.trans same)
    omega
  have freshMark : ∀ m ∈ marks, m ≠ ind i := by
    intro m member same
    obtain ⟨j, less, old⟩ := built.oldMarks m member
    have := indOnce (old.symm.trans same)
    omega
  have newNote : note i ∉ flat groups := by
    intro member
    obtain ⟨g, inside, member⟩ := mem_flat.mp member
    rw [bodies g inside, List.mem_singleton] at member
    exact freshNote g inside member.symm
  have newKey : key i ∉ groups.map Group.key := by
    intro member
    obtain ⟨g, inside, same⟩ := List.mem_map.mp member
    exact freshKey g inside same
  have newMark : ind i ∉ marks := fun member => freshMark _ member rfl
  obtain ⟨iright, index, chained, linked⟩ := chainIndex_done (key i) (s := chain nprev kprev (note i) (key i)
    (dummy (note i) (key i) t' (some nprev) (some kprev) s)) built.newest built.index newMark
  rw [chained]
  have other : ∀ n ∈ flat groups, n ≠ note i := fun n member same => newNote (same ▸ member)
  have flatLast : flat groups = flat front ++ [nprev] := by rw [shape, flat_single]
  have keysLast : groups.map Group.key = front.map Group.key ++ [kprev] := by simp [shape]
  have notes := built.notes
  have keys := built.keys
  rw [flatLast] at notes newNote
  rw [keysLast] at keys newKey
  have notesMore := notes.push_back newNote
  have keysMore := keys.push_back newKey
  refine
    { last := ⟨groups, rfl⟩
      notes := ?_
      keys := ?_
      newest := by simp
      index := by simpa using linked
      held := ?_
      marked := ?_
      sorted := ?_
      latest := ?_
      final := update_self ..
      front := ?_
      old := ?_
      oldMarks := ?_
      sizes := built.sizes }
  · rw [flat_single, flatLast]
    simpa [chain, dummy] using notesMore
  · rw [List.map_append, keysLast]
    simpa [chain, dummy] using keysMore
  · intro g member
    rw [List.mem_append, List.mem_singleton] at member
    rcases member with member | rfl
    · obtain ⟨body, held, isdummy, given, used⟩ := built.held g member
      have apart := freshNote g member
      have away := freshKey g member
      refine ⟨body, held.congr (update_of_ne away _ _) (update_of_ne away _ _) (update_of_ne away _ _) ?_, ?_, ?_, ?_⟩
      · rw [bodies g member]
        intro n inside
        rw [List.mem_singleton] at inside
        subst inside
        exact ⟨update_of_ne apart _ _, update_of_ne apart _ _, update_of_ne apart _ _⟩
      · exact (update_of_ne apart _ _).trans isdummy
      · exact List.mem_cons_of_mem _ given
      · exact List.mem_cons_of_mem _ used
    · refine ⟨rfl, ⟨update_self .., ?_, by simp [chain, dummy], update_self .., by simp⟩, update_self .., by simp [chain, dummy], by simp [chain, dummy]⟩
      simp [chain, dummy]
  · have ikey : marks.map (update s.ikey (ind i) (key i)) = marks.map s.ikey :=
      List.map_congr_left (fun m member => update_of_ne (freshMark m member) _ _)
    have more : (groups.map Group.key).tail ++ [key i] = (groups.map Group.key ++ [key i]).tail := by
      rw [keysLast]
      cases front.map Group.key <;> rfl
    rw [List.map_append, List.map_singleton, ← more, built.marked, List.map_append, List.map_singleton]
    simp [chain, dummy, ikey]
  · rw [flat_single, List.pairwise_append]
    refine ⟨built.sorted.imp_of_mem fun {a b} first second le => ?_, List.pairwise_singleton _ _, fun a first b second => ?_⟩
    · show update s.time (note i) t' a ≤ update s.time (note i) t' b
      rwa [update_of_ne (other a first), update_of_ne (other b second)]
    · rw [List.mem_singleton] at second
      subst second
      show update s.time (note i) t' a ≤ update s.time (note i) t' (note i)
      rw [update_of_ne (other a first), update_self]
      exact (built.latest a first).trans later
  · intro n member
    rw [flat_single, List.mem_append, List.mem_singleton] at member
    rcases member with member | rfl
    · show update s.time (note i) t' n ≤ t'
      rw [update_of_ne (other n member)]
      exact (built.latest n member).trans later
    · exact (update_self ..).le
  · obtain ⟨n, first, time⟩ := built.front
    have member := List.mem_of_mem_head? first
    refine ⟨n, ?_, (update_of_ne (other n member) _ _).trans time⟩
    rw [flat_single, List.head?_append]
    simp [Option.mem_def.mp first]
  · intro g member
    rw [List.mem_append, List.mem_singleton] at member
    rcases member with member | rfl
    · obtain ⟨j, less, same⟩ := built.old g member
      exact ⟨j, by omega, same⟩
    · exact ⟨i, by omega, rfl, rfl⟩
  · intro m member
    rw [List.mem_append, List.mem_singleton] at member
    rcases member with member | rfl
    · obtain ⟨j, less, same⟩ := built.oldMarks m member
      exact ⟨j, by omega, same⟩
    · exact ⟨i, by omega, rfl⟩

structure Fresh (du lb dt nlim : Int) (s : State Event) (groups : List Group) (marks : List Nat) : Prop where
  rep : Rep s groups marks
  dummies : ∀ n ∈ flat groups, s.isdummy n = true
  lb : s.LB = lb

theorem rep_of_built {right kright iright : Nat → Option Nat} {m : Nat}
    (built : Built note key ind du lb dt nlim i INFINITY nprev kprev (some m) groups marks s)
    (rightEq : right = update s.right nprev none) (krightEq : kright = update s.kright kprev none)
    (irightEq : iright = update s.iright m none)
    (dtPos : 1 ≤ dt) (nlimTwo : 2 ≤ nlim) (many : 3 ≤ marks.length) (count : du = marks.length) :
    Fresh du lb dt nlim { s with right := right, kright := kright, iright := iright, current := none } groups marks := by
  subst rightEq krightEq irightEq
  have dummies : ∀ n ∈ flat groups, s.isdummy n = true ∧ n ∈ s.notices := by
    intro n member
    obtain ⟨g, inside, member⟩ := mem_flat.mp member
    obtain ⟨body, _, isdummy, _, used⟩ := built.held g inside
    rw [Group.notes, body, List.nil_append, List.mem_singleton] at member
    exact ⟨member ▸ isdummy, member ▸ used⟩
  obtain ⟨front, shape⟩ := built.last
  obtain ⟨duEq, lbEq, dtEq, nlimEq⟩ := built.sizes
  have allDummy : dummyKeys s groups = groups.map Group.key := dummyKeys_all (fun g member => (built.held g member).2.2.1)
  refine ⟨⟨built.notes, ⟨?_, ?_, ?_, fun n member => (dummies n member).2⟩, ?_, ?_⟩, fun n member => (dummies n member).1, lbEq⟩
  · refine built.sorted.imp_of_mem fun {a b} first second le => ⟨le, fun isReal => ?_⟩
    rw [show s.isdummy a = true from (dummies a first).1] at isReal
    cases isReal
  · obtain ⟨n, first, time⟩ := built.front
    exact ⟨n, first, (dummies n (List.mem_of_mem_head? first)).1, time.trans lbEq.symm⟩
  · have last : (flat groups).getLast? = some nprev := by simp [shape]
    exact ⟨nprev, last, (dummies nprev (List.mem_of_mem_getLast? last)).1, built.final⟩
  · exact
      { keys := built.keys
        held := fun g member => (built.held g member).2.1.congr rfl rfl rfl (fun _ _ => ⟨rfl, rfl, rfl⟩)
        once := built.notes.nodup
        index := built.index m rfl
        marked := by
          show (dummyKeys s groups).tail = _
          rw [allDummy]
          exact built.marked
        given := fun g member => (built.held g member).2.2.2.1
        du := duEq.trans count
        many := many
        dt := by rw [← dtEq] at dtPos; exact dtPos
        nlim := by rw [← nlimEq] at nlimTwo; exact nlimTwo }
  · have nothing : (flat groups).find? (real s) = none :=
      List.find?_eq_none.mpr (fun n member => by simp [real, (dummies n member).1])
    exact nothing.symm

theorem intervals_done (notesOnce : Injective note) (keysOnce : Injective key) (indOnce : Injective ind) (dtPos : 1 ≤ dt)
    (nlimTwo : 2 ≤ nlim) (count : Nat)
    (built : Built note key ind du lb dt nlim i t nprev kprev indprev groups marks s) (below : t ≤ INFINITY)
    (some_ : 0 < marks.length + count) (many : 2 ≤ marks.length + count) (total : du = marks.length + count + 1) :
    intervals note key ind count i t nprev kprev indprev s = .error .overflow ∨
      ∃ s' groups marks, intervals note key ind count i t nprev kprev indprev s = .ok s' ∧ Fresh du lb dt nlim s' groups marks := by
  induction count generalizing i t nprev kprev indprev groups marks s with
  | zero =>
    right
    have grown := built.grow notesOnce keysOnce indOnce below
    obtain ⟨front, m, rfl⟩ : ∃ front m, marks = front ++ [m] := by
      rcases List.eq_nil_or_concat marks with rfl | ⟨front, m, rfl⟩
      · simp at some_
      · exact ⟨front, m, List.concat_eq_append⟩
    have newest : indprev = some m := built.newest.trans (by simp)
    subst newest
    simp only [List.length_append, List.length_singleton] at many total
    have fresh := rep_of_built grown rfl rfl rfl dtPos nlimTwo
      (by simp only [List.length_append, List.length_singleton]; omega)
      (by simp only [List.length_append, List.length_singleton]; omega)
    exact ⟨_, _, _, rfl, fresh⟩
  | succ count ih =>
    unfold intervals
    by_cases beyond : INFINITY < t + s.DT
    · left
      simp only [beyond, if_true]
    · have dtEq : s.DT = dt := built.sizes.2.2.1
      simp only [beyond, if_false]
      have grown := built.grow notesOnce keysOnce indOnce (show t ≤ t + s.DT by omega)
      refine ih grown (by omega) ?_ ?_ ?_
      · simp only [List.length_append, List.length_singleton]
        omega
      · simp only [List.length_append, List.length_singleton]
        omega
      · simp only [List.length_append, List.length_singleton]
        push_cast at total ⊢
        omega

theorem built_first (s : State Event) (du lb dt nlim : Int) :
    Built note key ind du lb dt nlim 1 lb (note 0) (key 0) none [⟨key 0, [], note 0⟩] []
      (dummy (note 0) (key 0) lb none none { s with DU := du, LB := lb, DT := dt, NLIM := nlim }) where
  last := ⟨[], rfl⟩
  notes := by
    constructor
    · exact ⟨rfl, update_self ..⟩
    · exact ⟨rfl, update_self ..⟩
  keys := by
    constructor
    · exact ⟨rfl, update_self ..⟩
    · exact ⟨rfl, update_self ..⟩
  newest := rfl
  index := by simp
  held := by
    intro g member
    rw [List.mem_singleton] at member
    subst member
    exact ⟨rfl, ⟨update_self .., by simp [dummy], by simp [dummy], update_self .., by simp⟩, update_self .., by simp [dummy], by simp [dummy]⟩
  marked := rfl
  sorted := by simp
  latest := by simp [dummy]
  final := update_self ..
  front := ⟨note 0, rfl, update_self ..⟩
  old := by
    intro g member
    rw [List.mem_singleton] at member
    subst member
    exact ⟨0, by omega, rfl, rfl⟩
  oldMarks := by simp
  sizes := ⟨rfl, rfl, rfl, rfl⟩

theorem elInit_done (lb : Int) (s : State Event) (notesOnce : Injective note) (keysOnce : Injective key) (indOnce : Injective ind)
    (duTwo : 2 ≤ du) (dtPos : 1 ≤ dt) (nlimTwo : 2 ≤ nlim) :
    elInit du lb dt nlim note key ind s = .error .overflow ∨
      ∃ s' groups marks, elInit du lb dt nlim note key ind s = .ok s' ∧ Fresh (du + 1) lb dt nlim s' groups marks := by
  unfold elInit
  rw [if_neg (by omega)]
  by_cases early : lb ≤ INFINITY
  case neg =>
    left
    obtain ⟨count, more⟩ := Nat.exists_eq_add_of_le' (show 1 ≤ du.toNat by omega)
    simp only [more, intervals]
    rw [if_pos]
    show INFINITY < lb + dt
    omega
  refine intervals_done notesOnce keysOnce indOnce dtPos nlimTwo du.toNat (built_first s (du + 1) lb dt nlim) early ?_ ?_ ?_
  · simp only [List.length_nil]
    omega
  · simp only [List.length_nil]
    omega
  · simp only [List.length_nil]
    omega

end Svr4.ElmInit
