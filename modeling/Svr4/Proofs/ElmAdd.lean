import Svr4.Proofs.ElmLists

/-! `el_add` puts a notice behind those that are not later. -/

namespace Svr4.ElmAdd
open Function Chain DoubleChain Faults Elm ElmLists

variable {Event : Type} {s : State Event} {fuel n k2 : Nat} {t : Int} {groups A B : List Group} {p g : Group} {marks L : List Nat}

theorem sorted_parts {α : Type} (f : α → Int) (t : Int) (l : List α) (sorted : l.Pairwise (fun a b => f a ≤ f b)) :
    ∃ before after, l = before ++ after ∧ (∀ a ∈ before, f a ≤ t) ∧ ∀ a ∈ after, t < f a := by
  induction l with
  | nil => exact ⟨[], [], rfl, by simp, by simp⟩
  | cons a l ih =>
    obtain ⟨least, rest⟩ := List.pairwise_cons.mp sorted
    by_cases early : f a ≤ t
    · obtain ⟨before, after, rfl, first, second⟩ := ih rest
      exact ⟨a :: before, after, rfl, by simpa [early] using first, second⟩
    · refine ⟨[], a :: l, rfl, by simp, fun b member => ?_⟩
      rcases List.mem_cons.mp member with rfl | member
      · omega
      · have := least b member
        omega

theorem Ordered.times (ordered : Ordered s L) : L.Pairwise (fun a b => s.time a ≤ s.time b) := ordered.sorted.imp And.left

theorem lasts_sublist (groups : List Group) : (groups.map Group.last).Sublist (flat groups) := by
  induction groups with
  | nil => simp
  | cons g groups ih =>
    rw [List.map_cons, flat_cons]
    exact (ih.cons_cons g.last).trans (List.sublist_append_right ..)

theorem lasts_sorted (ordered : Ordered s (flat groups)) : groups.Pairwise (fun g h => s.time g.last ≤ s.time h.last) := by
  have sorted : (groups.map Group.last).Pairwise (fun a b => s.time a ≤ s.time b) :=
    (Ordered.times ordered).sublist (lasts_sublist groups)
  rwa [List.pairwise_map] at sorted

theorem length_keys (groups : List Group) : groups.length ≤ (flat groups).length := by
  simpa using (lasts_sublist groups).length_le

theorem key_found (grouped : Grouped s groups marks) (ordered : Ordered s (flat groups)) (early : s.LB ≤ t) (late : t < INFINITY)
    (enough : (flat groups).length + marks.length < fuel) :
    ∃ A p g B i, groups = A ++ p :: g :: B ∧ s.time p.last ≤ t ∧ t < s.time g.last ∧
      seek (fun ind => s.ktime (s.ikey ind) ≤ t) s.iright fuel s.index = .ok i ∧
      seek (fun k => s.ktime k > t) s.kleft fuel (s.kleft (s.ikey i)) = .ok p.key ∧ s.kright p.key = some g.key := by
  obtain ⟨before, after, rfl, first, second⟩ := sorted_parts (fun g : Group => s.time g.last) t groups (lasts_sorted ordered)
  obtain ⟨head, rest, shape, _, headDummy, headTime⟩ := grouped.front_dummy ordered
  obtain ⟨front, z, shape', zDummy, zTime⟩ := ordered.last_dummy
  have keyTime : ∀ h ∈ before ++ after, s.ktime h.key = s.time h.last := fun h member => (grouped.held h member).ktime
  have zMember : z ∈ after := by
    have member : z ∈ before ++ after := by simp [shape']
    rcases List.mem_append.mp member with member | member
    · have := first z member
      omega
    · exact member
  have headMember : head ∈ before := by
    have member : head ∈ before ++ after := by simp [shape]
    rcases List.mem_append.mp member with member | member
    · exact member
    · have := second head member
      omega
  obtain ⟨A, p, rfl⟩ : ∃ A p, before = A ++ [p] := by
    rcases List.eq_nil_or_concat before with rfl | ⟨A, p, rfl⟩
    · simp at headMember
    · exact ⟨A, p, List.concat_eq_append⟩
  obtain ⟨g, B, rfl⟩ := List.exists_cons_of_ne_nil (List.ne_nil_of_mem zMember)
  -- every mark is the key of a dummy, and the last dummy is among them
  have marked := (shape ▸ grouped).marks_of headDummy
  have zRest : z ∈ rest := by
    have member : z ∈ head :: rest := by simp [← shape, zMember]
    rcases List.mem_cons.mp member with rfl | member
    · have := first z headMember
      omega
    · exact member
  have marksKeys : ∀ m ∈ marks, ∃ h ∈ (A ++ [p]) ++ g :: B, s.ikey m = h.key := by
    intro m member
    have inside : s.ikey m ∈ dummyKeys s rest := marked ▸ List.mem_map_of_mem member
    obtain ⟨h, member, _, same⟩ := mem_dummyKeys.mp inside
    exact ⟨h, by rw [shape]; simp [member], same.symm⟩
  obtain ⟨zMark, zMarked, zSame⟩ : ∃ m ∈ marks, s.ikey m = z.key := by
    have inside : z.key ∈ marks.map s.ikey := marked ▸ mem_dummyKeys.mpr ⟨z, zRest, zDummy, rfl⟩
    exact List.mem_map.mp inside
  have zLate : t < s.ktime (s.ikey zMark) := by
    rw [zSame, keyTime z (by simp [zMember])]
    omega
  -- the index stops at an interval that ends later
  obtain ⟨i, found⟩ : ∃ i, marks.find? (fun m => !decide (s.ktime (s.ikey m) ≤ t)) = some i := by
    cases result : marks.find? (fun m => !decide (s.ktime (s.ikey m) ≤ t)) with
    | none =>
      have nothing := List.find?_eq_none.mp result zMark zMarked
      simp only [Bool.not_eq_true', decide_eq_false_iff_not, not_le, not_lt] at nothing
      omega
    | some i => exact ⟨i, rfl⟩
  obtain ⟨stops, M, M', rfl, passes⟩ := List.find?_eq_some_iff_append.mp found
  obtain ⟨h, hMember, hKey⟩ := marksKeys i (by simp)
  have hLate : t < s.time h.last := by
    rw [← keyTime h hMember, ← hKey]
    simpa using stops
  have hAfter : h ∈ g :: B := by
    rcases List.mem_append.mp hMember with member | member
    · have := first h member
      omega
    · exact member
  obtain ⟨B1, B2, split⟩ := List.append_of_mem hAfter
  have keys := grouped.keys
  have keysShape : ((A ++ [p]) ++ g :: B).map Group.key = (A.map Group.key ++ p.key :: B1.map Group.key) ++ h.key :: B2.map Group.key := by
    rw [split]
    simp
  have lengths := length_keys ((A ++ [p]) ++ g :: B)
  refine ⟨A, p, g, B, i, by simp, first p (by simp), second g (by simp), ?_, ?_, ?_⟩
  · refine seek_found grouped.index ?_ (by simpa using stops) ?_
    · intro m member
      simpa using passes m member
    · simp only [List.length_append, List.length_cons] at enough
      omega
  · rw [keysShape] at keys
    have backward := keys.backward_from.2
    rw [hKey]
    refine seek_found (show Linked _ _ ((B1.map Group.key).reverse ++ p.key :: (A.map Group.key).reverse) by simpa [Linked] using backward) ?_ ?_ ?_
    · intro k member
      obtain ⟨h', member', rfl⟩ := List.mem_map.mp (List.mem_reverse.mp member)
      have inside : h' ∈ g :: B := by simp [split, member']
      have := second h' inside
      rw [keyTime h' (List.mem_append_right _ inside)]
      simpa using this
    · have := first p (by simp)
      rw [keyTime p (by simp)]
      simpa using this
    · have count := congrArg List.length split
      simp only [List.length_append, List.length_cons, List.length_reverse, List.length_map] at count lengths enough ⊢
      omega
  · have shape : ((A ++ [p]) ++ g :: B).map Group.key = A.map Group.key ++ p.key :: (g.key :: B.map Group.key) := by simp
    rw [shape] at keys
    exact keys.next_eq

theorem back_found {left : Nat → Option Nat} {a m : Nat} {l l' : List Nat} (linked : Linked left (some a) (l ++ m :: l')) :
    back left l.length a = .ok m := by
  induction l generalizing a with
  | nil =>
    obtain ⟨same, _⟩ := linked
    cases same
    rfl
  | cons b l ih =>
    obtain ⟨same, rest⟩ := linked
    cases same
    have ahead : left b = (l ++ m :: l').head? := Linked.head rest
    obtain ⟨c, cEq⟩ : ∃ c, (l ++ m :: l').head? = some c := by cases l <;> simp
    rw [cEq] at ahead
    change Linked left (left b) _ at rest
    rw [ahead] at rest
    simp only [List.length_cons, back, ahead, deref, ok_bind]
    exact ih rest

theorem splitKey_done (grouped : Grouped s (A ++ p :: g :: B) marks) (notes : Doubly s.right s.left first (flat (A ++ p :: g :: B)))
    (full : s.numnote g.key = s.NLIM) (fresh : k2 ∉ s.keys) :
    ∃ b1 m b2 kright kleft, g.body = b1 ++ m :: b2 ∧
      splitKey g.key k2 t s = .ok ({ s with
        keys := k2 :: s.keys, ktime := update s.ktime k2 (s.time m)
        numnote := update (update s.numnote g.key (b2.length + 1)) k2 (b1.length + 1)
        notice := update s.notice k2 m, kright := kright, kleft := kleft, key := update s.key m (some k2) },
        if t < s.time m then k2 else g.key) ∧
      Doubly kright kleft ((A ++ p :: g :: B).map Group.key).head?
        ((A ++ p :: ⟨k2, b1, m⟩ :: ⟨g.key, b2, g.last⟩ :: B).map Group.key) := by
  have nlim := grouped.nlim
  have held := grouped.held g (by simp)
  have size : (g.body.length : Int) + 1 = s.NLIM := held.numnote.symm.trans full
  -- the notice that many places to the left of the last one
  obtain ⟨b1, m, b2, shape, count⟩ : ∃ b1 m b2, g.body = b1 ++ m :: b2 ∧ b2.length + 1 = (s.NLIM / 2).toNat := by
    have inside : g.body.length - (s.NLIM / 2).toNat < g.body.length := by omega
    refine ⟨g.body.take (g.body.length - (s.NLIM / 2).toNat), g.body[g.body.length - (s.NLIM / 2).toNat],
      g.body.drop (g.body.length - (s.NLIM / 2).toNat + 1), ?_, ?_⟩
    · rw [← List.drop_eq_getElem_cons, List.take_append_drop]
    · rw [List.length_drop]
      omega
  have keys := grouped.keys
  have keysShape : (A ++ p :: g :: B).map Group.key = A.map Group.key ++ p.key :: g.key :: B.map Group.key := by simp
  have newKey : k2 ∉ (A ++ p :: g :: B).map Group.key := by
    intro member
    obtain ⟨h, inside, same⟩ := List.mem_map.mp member
    exact fresh (same ▸ grouped.given h inside)
  have found : back s.left (s.NLIM / 2).toNat g.last = .ok m := by
    have flatShape : flat (A ++ p :: g :: B) = (flat A ++ p.body ++ p.last :: b1 ++ m :: b2) ++ g.last :: flat B := by simp [shape]
    rw [flatShape] at notes
    have backward := notes.backward_from
    rw [← count]
    have length : b2.length + 1 = (g.last :: b2.reverse).length := by simp
    rw [length]
    exact back_found (show Linked _ _ ((g.last :: b2.reverse) ++ m :: (flat A ++ p.body ++ p.last :: b1).reverse) by simpa using backward)
  have half : s.NLIM / 2 = (b2.length : Int) + 1 := by omega
  have rest : s.NLIM - s.NLIM / 2 = (b1.length : Int) + 1 := by
    rw [shape, List.length_append, List.length_cons] at size
    push_cast at size
    omega
  rw [keysShape] at keys newKey
  obtain ⟨kright, kleft, linked, list⟩ := linkKey_done (s := { s with
    keys := k2 :: s.keys, ktime := update s.ktime k2 (s.time m)
    numnote := update (update s.numnote g.key (b2.length + 1)) k2 (b1.length + 1)
    notice := update s.notice k2 m }) keys newKey
  refine ⟨b1, m, b2, kright, kleft, shape, ?_, ?_⟩
  · unfold splitKey
    simp only [held.notice, found, ok_bind, rest]
    simp only [half, linked, ok_bind, update_self]
  · rw [keysShape]
    simpa using list

theorem target_found (grouped : Grouped s (A ++ p :: g :: B) marks) (notes : Doubly s.right s.left first (flat (A ++ p :: g :: B)))
    (ordered : Ordered s (flat (A ++ p :: g :: B)))
    (fresh : k2 ∉ s.keys) (early : s.time p.last ≤ t) (late : t < s.time g.last) :
    ∃ keys ktime numnote notice kright kleft key A' p' h B',
      makeRoom g.key k2 t s =
        .ok ({ s with keys := keys, ktime := ktime, numnote := numnote, notice := notice, kright := kright, kleft := kleft, key := key }, h.key) ∧
      Grouped { s with keys := keys, ktime := ktime, numnote := numnote, notice := notice, kright := kright, kleft := kleft, key := key }
        (A' ++ p' :: h :: B') marks ∧
      flat (A' ++ p' :: h :: B') = flat (A ++ p :: g :: B) ∧ s.time p'.last ≤ t ∧ t < s.time h.last ∧
      ∀ n, n ∉ flat (A ++ p :: g :: B) → key n = s.key n := by
  unfold makeRoom
  by_cases full : s.numnote g.key = s.NLIM
  case neg =>
    rw [if_neg full]
    exact ⟨_, _, _, _, _, _, _, A, p, g, B, rfl, grouped, rfl, early, late, fun _ _ => rfl⟩
  rw [if_pos full]
  obtain ⟨b1, m, b2, kright, kleft, shape, run, list⟩ := splitKey_done (t := t) grouped notes full fresh
  have held := grouped.held g (by simp)
  have mInside : m ∈ g.body := by simp [shape]
  have flatSame : flat (A ++ p :: ⟨k2, b1, m⟩ :: ⟨g.key, b2, g.last⟩ :: B) = flat (A ++ p :: g :: B) := by simp [shape]
  have once := grouped.once
  have newKey : ∀ h ∈ A ++ p :: g :: B, h.key ≠ k2 := fun h member same => fresh (same ▸ grouped.given h member)
  have lastOther : g.last ≠ m ∧ ∀ n ∈ b1 ++ b2, n ≠ m := by
    rw [← flatSame, flat_append, flat_cons, flat_cons, flat_cons] at once
    have inner := (List.nodup_append.mp (List.nodup_cons.mp (List.nodup_append.mp (List.nodup_append.mp once).2.1).2.1).2)
    have outer := List.nodup_cons.mp inner.2.1
    refine ⟨fun same => outer.1 (by simp [same]), fun n member same => ?_⟩
    rcases List.mem_append.mp member with member | member
    · exact inner.2.2 n member m (by simp) same
    · exact outer.1 (by simp [← same, member])
  have split : Grouped { s with
      keys := k2 :: s.keys, ktime := update s.ktime k2 (s.time m)
      numnote := update (update s.numnote g.key (b2.length + 1)) k2 (b1.length + 1)
      notice := update s.notice k2 m, kright := kright, kleft := kleft, key := update s.key m (some k2) }
      (A ++ p :: ⟨k2, b1, m⟩ :: ⟨g.key, b2, g.last⟩ :: B) marks := by
    refine { grouped with keys := ?_, held := ?_, once := flatSame ▸ once, marked := ?_, given := ?_ }
    · convert list using 1
      cases A <;> simp
    · intro h member
      have cases_ : (h ∈ A ++ [p] ∨ h ∈ B) ∨ h = ⟨k2, b1, m⟩ ∨ h = ⟨g.key, b2, g.last⟩ := by
        simp only [List.mem_append, List.mem_cons, List.not_mem_nil, or_false] at member ⊢
        tauto
      rcases cases_ with others | rfl | rfl
      · have member' : h ∈ A ++ p :: g :: B := by
          simp only [List.mem_append, List.mem_cons, List.not_mem_nil, or_false] at others ⊢
          tauto
        have shape' : A ++ p :: g :: B = (A ++ [p]) ++ g :: B := by simp
        obtain ⟨otherKey, otherNotes⟩ := (shape' ▸ grouped).apart others
        refine (grouped.held h member').congr (update_of_ne (newKey h member') _ _) (update_of_ne (newKey h member') _ _) ?_ ?_
        · show update (update s.numnote g.key _) k2 _ h.key = s.numnote h.key
          rw [update_of_ne (newKey h member'), update_of_ne otherKey]
        · intro n inside
          have other : n ≠ m := fun same => otherNotes n inside (by simp [same, Group.notes, mInside])
          exact ⟨rfl, update_of_ne other _ _, rfl⟩
      · refine ⟨update_self .., update_self .., update_self .., update_self .., fun n inside => ?_⟩
        have other := lastOther.2 n (by simp [inside])
        exact ⟨(update_of_ne other _ _).trans (held.body n (by simp [shape, inside])).1, (held.body n (by simp [shape, inside])).2⟩
      · have other := newKey g (by simp)
        refine ⟨(update_of_ne other _ _).trans held.notice, (update_of_ne other _ _).trans held.ktime, ?_, ?_, fun n inside => ?_⟩
        · show update (update s.numnote g.key _) k2 _ g.key = _
          rw [update_of_ne other, update_self]
        · exact (update_of_ne lastOther.1 _ _).trans held.key
        · have other := lastOther.2 n (by simp [inside])
          exact ⟨(update_of_ne other _ _).trans (held.body n (by simp [shape, inside])).1, (held.body n (by simp [shape, inside])).2⟩
    · have mReal := (held.body m mInside).2
      rw [← grouped.marked]
      simp [dummyKeys, mReal]
    · intro h member
      simp only [List.mem_append, List.mem_cons] at member
      rcases member with member | rfl | rfl | rfl | member
      · exact List.mem_cons_of_mem _ (grouped.given h (by simp [member]))
      · exact List.mem_cons_of_mem _ (grouped.given h (by simp))
      · exact List.mem_cons_self ..
      · exact List.mem_cons_of_mem _ (grouped.given g (by simp))
      · exact List.mem_cons_of_mem _ (grouped.given h (by simp [member]))
  have pFirst : s.time p.last ≤ s.time m := by
    have lists : flat (A ++ p :: g :: B) = (flat A ++ p.notes) ++ (g.notes ++ flat B) := by simp [Group.notes]
    rw [lists] at ordered
    exact (ordered.le (by simp [Group.notes]) (by simp [Group.notes, mInside])).1
  have outside : ∀ n, n ∉ flat (A ++ p :: g :: B) → update s.key m (some k2) n = s.key n := by
    intro n out
    exact update_of_ne (fun same => out (mem_flat.mpr ⟨g, by simp, by simp [Group.notes, same, mInside]⟩)) _ _
  rw [run]
  by_cases left : t < s.time m
  · rw [if_pos left]
    exact ⟨_, _, _, _, _, _, _, A, p, _, _, rfl, split, flatSame, early, left, outside⟩
  · rw [if_neg left]
    have shape' : A ++ p :: ⟨k2, b1, m⟩ :: ⟨g.key, b2, g.last⟩ :: B = (A ++ [p]) ++ ⟨k2, b1, m⟩ :: ⟨g.key, b2, g.last⟩ :: B := by simp
    rw [shape'] at split flatSame
    exact ⟨_, _, _, _, _, _, _, A ++ [p], _, ⟨g.key, b2, g.last⟩, _, rfl, split, flatSame, not_lt.mp left, late, outside⟩

theorem place_found {h : Group} (times : (flat (A ++ p :: h :: B)).Pairwise (fun a b => s.time a ≤ s.time b))
    (early : s.time p.last ≤ t) (late : t < s.time h.last) :
    ∃ b1 b2 X n2, h.body = b1 ++ b2 ∧ flat A ++ p.body ++ [p.last] ++ b1 = X ++ [n2] ∧
      (∀ a ∈ X ++ [n2], s.time a ≤ t) ∧ ∀ b ∈ b2 ++ h.last :: flat B, t < s.time b := by
  have shape : flat (A ++ p :: h :: B) = (flat A ++ p.body ++ [p.last]) ++ h.body ++ h.last :: flat B := by simp
  rw [shape] at times
  obtain ⟨b1, b2, split, first, second⟩ := sorted_parts s.time t h.body (List.pairwise_append.mp (List.pairwise_append.mp times).1).2.1
  -- the last notice that is not later
  obtain ⟨X, n2, front⟩ : ∃ X n2, flat A ++ p.body ++ [p.last] ++ b1 = X ++ [n2] := by
    rcases List.eq_nil_or_concat b1 with rfl | ⟨b, m, rfl⟩
    · exact ⟨flat A ++ p.body, p.last, by simp⟩
    · exact ⟨flat A ++ p.body ++ [p.last] ++ b, m, by simp [List.concat_eq_append]⟩
  refine ⟨b1, b2, X, n2, split, front, fun a member => ?_, fun b member => ?_⟩
  · rw [← front, List.mem_append] at member
    rcases member with member | member
    · rcases List.mem_append.mp member with member | member
      · have lists : flat A ++ p.body ++ [p.last] ++ h.body ++ h.last :: flat B = (flat A ++ p.body) ++ p.last :: (h.body ++ h.last :: flat B) := by simp
        rw [lists] at times
        exact ((List.pairwise_append.mp times).2.2 a member p.last (by simp)).trans early
      · rw [List.mem_singleton] at member
        exact member ▸ early
    · exact first a member
  · rcases List.mem_append.mp member with member | member
    · exact second b member
    · rcases List.mem_cons.mp member with rfl | member
      · exact late
      · have := ((List.pairwise_cons.mp (List.pairwise_append.mp times).2.1).1 b member)
        omega

theorem place_done {h : Group} (fuel n : Nat) (t : Int) (first : Option Nat) (grouped : Grouped s (A ++ p :: h :: B) marks)
    (notes : Doubly s.right s.left first (flat (A ++ p :: h :: B)))
    (ordered : Ordered s (flat (A ++ p :: h :: B))) (nTime : s.time n = t) (nReal : s.isdummy n = false) (nKey : s.key n = none)
    (nGiven : n ∈ s.notices) (fresh : n ∉ flat (A ++ p :: h :: B)) (early : s.time p.last ≤ t) (late : t < s.time h.last)
    (enough : (flat (A ++ p :: h :: B)).length < fuel) :
    ∃ n2 right left L1 L2 groups',
      seek (fun n2 => s.time n2 > t) s.left fuel (some (s.notice h.key)) = .ok n2 ∧
      linkNotice n n2 { s with numnote := update s.numnote h.key (s.numnote h.key + 1) } =
        .ok { s with numnote := update s.numnote h.key (s.numnote h.key + 1), right := right, left := left } ∧
      Doubly right left first (flat groups') ∧ Ordered s (flat groups') ∧
      Grouped { s with numnote := update s.numnote h.key (s.numnote h.key + 1), right := right, left := left } groups' marks ∧
      flat (A ++ p :: h :: B) = L1 ++ L2 ∧ flat groups' = L1 ++ n :: L2 ∧ (∀ a ∈ L1, s.time a ≤ t) ∧ ∀ b ∈ L2, t < s.time b := by
  obtain ⟨b1, b2, X, n2, split, front, frontEarly, backLate⟩ := place_found (Ordered.times ordered) early late
  have lists : flat (A ++ p :: h :: B) = (X ++ [n2]) ++ (b2 ++ h.last :: flat B) := by
    rw [← front]
    simp [split]
  obtain ⟨c, rest, next⟩ := List.exists_cons_of_ne_nil (show b2 ++ h.last :: flat B ≠ [] by simp)
  have held := grouped.held h (by simp)
  have flatNew : flat (A ++ p :: ⟨h.key, b1 ++ n :: b2, h.last⟩ :: B) = (X ++ [n2]) ++ n :: (b2 ++ h.last :: flat B) := by
    rw [← front]
    simp
  have chained := notes
  rw [lists, next, List.append_assoc, List.singleton_append] at chained
  obtain ⟨right, left, linked, list⟩ := linkNotice_done
    (s := { s with numnote := update s.numnote h.key (s.numnote h.key + 1) }) chained (by
      rw [lists, next] at fresh
      simpa using fresh)
  refine ⟨n2, right, left, X ++ [n2], b2 ++ h.last :: flat B, A ++ p :: ⟨h.key, b1 ++ n :: b2, h.last⟩ :: B, ?_, linked, ?_, ?_, ?_,
    lists, flatNew, frontEarly, backLate⟩
  · rw [held.notice]
    have chained := notes
    rw [lists, ← List.append_assoc] at chained
    have backward := chained.backward_from
    refine seek_found (show Linked _ _ ((h.last :: b2.reverse) ++ n2 :: X.reverse) by simpa using backward) ?_ ?_ ?_
    · intro b member
      have inside : b ∈ b2 ++ h.last :: flat B := by
        simp only [List.mem_cons, List.mem_reverse] at member
        simp only [List.mem_append, List.mem_cons]
        tauto
      simpa using backLate b inside
    · simpa using frontEarly n2 (by simp)
    · rw [lists] at enough
      simp only [List.length_append, List.length_cons, List.length_reverse, List.length_nil] at enough ⊢
      omega
  · rw [flatNew, next]
    simpa using list
  · rw [flatNew]
    rw [lists] at ordered
    refine ⟨?_, ?_, ?_, ?_⟩
    · obtain ⟨sorted1, sorted2, across⟩ := List.pairwise_append.mp ordered.sorted
      refine List.pairwise_append.mpr ⟨sorted1, List.pairwise_cons.mpr ⟨fun b member => ?_, sorted2⟩, fun a member b member' => ?_⟩
      · have := backLate b member
        exact ⟨by omega, fun _ _ => by omega⟩
      · rcases List.mem_cons.mp member' with rfl | member'
        · refine ⟨nTime ▸ frontEarly a member, fun _ isDummy => ?_⟩
          rw [nReal] at isDummy
          cases isDummy
        · exact across a member b member'
    · simpa [List.head?_append] using ordered.front
    · have last : ∀ l : List Nat, ((X ++ [n2]) ++ n :: (b2 ++ h.last :: l)).getLast? = ((X ++ [n2]) ++ (b2 ++ h.last :: l)).getLast? := by
        intro l
        simp [List.getLast?_append, List.getLast?_cons]
      rw [last]
      exact ordered.final
    · intro m member
      simp only [List.mem_append, List.mem_cons] at member
      rcases member with member | rfl | member
      · exact ordered.notices m (by simp only [List.mem_append, List.mem_cons]; tauto)
      · exact nGiven
      · exact ordered.notices m (by simp only [List.mem_append, List.mem_cons]; tauto)
  · have once := grouped.once
    have shape' : A ++ p :: h :: B = (A ++ [p]) ++ h :: B := by simp
    refine { grouped with keys := ?_, held := ?_, once := ?_, marked := ?_, given := ?_ }
    · simpa using grouped.keys
    · intro g member
      have cases_ : (g ∈ A ++ [p] ∨ g ∈ B) ∨ g = ⟨h.key, b1 ++ n :: b2, h.last⟩ := by
        simp only [List.mem_append, List.mem_cons, List.not_mem_nil, or_false] at member ⊢
        tauto
      rcases cases_ with others | rfl
      · have member' : g ∈ A ++ p :: h :: B := by
          simp only [List.mem_append, List.mem_cons, List.not_mem_nil, or_false] at others ⊢
          tauto
        obtain ⟨otherKey, _⟩ := (shape' ▸ grouped).apart others
        exact (grouped.held g member').congr rfl rfl (update_of_ne otherKey _ _) (fun _ _ => ⟨rfl, rfl, rfl⟩)
      · refine ⟨held.notice, held.ktime, ?_, held.key, ?_⟩
        · show update s.numnote h.key _ h.key = _
          rw [update_self, held.numnote, split]
          simp only [List.length_append, List.length_cons]
          push_cast
          omega
        · intro m member
          rcases List.mem_append.mp member with member | member
          · exact held.body m (by simp [split, member])
          · rcases List.mem_cons.mp member with rfl | member
            · exact ⟨nKey, nReal⟩
            · exact held.body m (by simp [split, member])
    · rw [flatNew]
      rw [lists] at once fresh
      exact (List.nodup_middle.mpr (List.nodup_cons.mpr ⟨fresh, once⟩))
    · rw [← grouped.marked]
      simp [dummyKeys]
    · intro g member
      simp only [List.mem_append, List.mem_cons] at member
      rcases member with member | rfl | rfl | member
      · exact grouped.given g (by simp [member])
      · exact grouped.given g (by simp)
      · exact grouped.given h (by simp)
      · exact grouped.given g (by simp [member])

section fresh
variable {event : Event} {id : Int}

theorem Grouped.newNotice (event : Event) (t id : Int) (grouped : Grouped s groups marks) (fresh : n ∉ flat groups) :
    Grouped (newNotice n event t id s) groups marks := by
  have other : ∀ g ∈ groups, ∀ m ∈ g.notes, m ≠ n := fun g inside m member same => fresh (mem_flat.mpr ⟨g, inside, same ▸ member⟩)
  refine { grouped with held := fun g member => ?_, marked := ?_ }
  · refine (grouped.held g member).congr rfl rfl rfl (fun m inside => ?_)
    have apart := other g member m inside
    exact ⟨update_of_ne apart _ _, update_of_ne apart _ _, update_of_ne apart _ _⟩
  · have same : dummyKeys (Elm.newNotice n event t id s) groups = dummyKeys s groups :=
      dummyKeys_congr (fun g member => update_of_ne (other g member g.last (by simp [Group.notes])) _ _)
    rw [same]
    exact grouped.marked

theorem Ordered.newNotice (event : Event) (t id : Int) (ordered : Ordered s L) (fresh : n ∉ L) : Ordered (newNotice n event t id s) L := by
  have other : ∀ m ∈ L, update s.time n t m = s.time m ∧ update s.isdummy n false m = s.isdummy m := by
    intro m member
    have apart : m ≠ n := fun same => fresh (same ▸ member)
    exact ⟨update_of_ne apart _ _, update_of_ne apart _ _⟩
  refine ⟨ordered.sorted.imp_of_mem fun {a b} first second before => before.congr (other a first) (other b second), ?_, ?_,
    fun m member => List.mem_cons_of_mem _ (ordered.notices m member)⟩
  · obtain ⟨m, first, dummy, time⟩ := ordered.front
    have same := other m (List.mem_of_mem_head? first)
    exact ⟨m, first, same.2.trans dummy, same.1.trans time⟩
  · obtain ⟨m, last, dummy, time⟩ := ordered.final
    have same := other m (List.mem_of_mem_getLast? last)
    exact ⟨m, last, same.2.trans dummy, same.1.trans time⟩

theorem current_found {L1 L2 : List Nat} (current : s.current = (L1 ++ L2).find? (real s)) (nReal : s.isdummy n = false)
    (first : ∀ a ∈ L1, s.time a ≤ t) (second : ∀ b ∈ L2, t < s.time b) :
    (if s.current.all (fun c => t < s.time c) then { s with current := some n } else s) =
      { s with current := (L1 ++ n :: L2).find? (real s) } := by
  rw [List.find?_append, List.find?_cons_of_pos (by simp [real, nReal])]
  rw [List.find?_append] at current
  cases found : L1.find? (real s) with
  | some c =>
    have early := first c (List.mem_of_find?_eq_some found)
    rw [found, Option.some_or] at current
    rw [Option.some_or, current, if_neg (by simp [early]), ← current]
  | none =>
    rw [found, Option.none_or] at current
    rw [Option.none_or, if_pos]
    rw [current]
    cases later : L2.find? (real s) with
    | none => rfl
    | some c =>
      have := second c (List.mem_of_find?_eq_some later)
      simpa using this

structure Added (n : Nat) (event : Event) (t id : Int) (s s' : State Event) (L L' : List Nat) : Prop where
  place : ∃ L1 L2, L = L1 ++ L2 ∧ L' = L1 ++ n :: L2 ∧ (∀ a ∈ L1, s.time a ≤ t) ∧ ∀ b ∈ L2, t < s.time b
  fresh : n ∉ L
  time : s'.time = update s.time n t
  id : s'.id = update s.id n id
  event : s'.event = update s.event n (some event)
  isdummy : s'.isdummy = update s.isdummy n false
  lb : s'.LB = s.LB

theorem elAdd_done (event : Event) (id : Int) (rep : Rep s groups marks) (freshNote : n ∉ s.notices) (freshKey : k2 ∉ s.keys)
    (early : s.LB ≤ t) (late : t < INFINITY)
    (enough : (flat groups).length + marks.length < fuel) :
    ∃ s' groups', elAdd n k2 event t id fuel s = .ok s' ∧ Rep s' groups' marks ∧ Added n event t id s s' (flat groups) (flat groups') := by
  have fresh : n ∉ flat groups := fun member => freshNote (rep.ordered.notices n member)
  have indexed : s.index ≠ none := by
    intro nothing
    have linked := rep.grouped.index
    rw [nothing] at linked
    have many := rep.grouped.many
    rw [linked.empty] at many
    simp at many
  have grouped := Grouped.newNotice event t id rep.grouped fresh
  have ordered := Ordered.newNotice event t id rep.ordered fresh
  obtain ⟨A, p, g, B, i, shape, pEarly, gLate, seekIndex, seekKey, next⟩ := key_found grouped ordered early late enough
  subst shape
  obtain ⟨keys, ktime, numnote, notice, kright, kleft, key, A', p', h, B', target, grouped', flatSame, pEarly', hLate, outside⟩ :=
    target_found grouped rep.notes ordered freshKey pEarly gLate
  have ordered' : Ordered { newNotice n event t id s with keys := keys, ktime := ktime, numnote := numnote, notice := notice, kright := kright, kleft := kleft, key := key }
      (flat (A' ++ p' :: h :: B')) := by
    rw [flatSame]
    exact ⟨ordered.sorted, ordered.front, ordered.final, ordered.notices⟩
  obtain ⟨n2, right, left, L1, L2, groups', seekPlace, linked, list, ordered'', grouped'', parts, parts', first_, second⟩ :=
    place_done fuel n t (flat (A ++ p :: g :: B)).head? grouped'
      (by rw [flatSame]; exact rep.notes) ordered' (update_self ..) (update_self ..)
      ((outside n fresh).trans (update_self ..)) (List.mem_cons_self ..) (by rwa [flatSame]) pEarly' hLate (by rw [flatSame]; omega)
  have timeEq : ∀ m ∈ L1 ++ L2, update s.time n t m = s.time m := by
    intro m member
    rw [← parts, flatSame] at member
    have apart : m ≠ n := fun same => fresh (same ▸ member)
    exact update_of_ne apart _ _
  have partsOld : flat (A ++ p :: g :: B) = L1 ++ L2 := flatSame.symm.trans parts
  have current : s.current = (L1 ++ L2).find? (real (newNotice n event t id s)) := by
    rw [rep.current, partsOld]
    refine List.find?_congr (fun m member => ?_)
    have apart : m ≠ n := fun same => fresh (by rw [partsOld]; exact same ▸ member)
    show (!s.isdummy m) = !(update s.isdummy n false m)
    rw [update_of_ne apart]
  have head : (flat (A ++ p :: g :: B)).head? = (flat groups').head? := by
    obtain ⟨start, rest, shape, _, _, startTime⟩ := grouped.front_dummy ordered
    have startLies : start.last ∈ flat (A ++ p :: g :: B) := mem_flat.mpr ⟨start, by simp [shape], by simp [Group.notes]⟩
    change (newNotice n event t id s).time start.last = s.LB at startTime
    rw [partsOld, parts']
    cases L1 with
    | cons => rfl
    | nil =>
      -- the first notice of all is not later
      rw [partsOld] at startLies
      have later : t < (newNotice n event t id s).time start.last := second start.last startLies
      omega
  refine ⟨{ newNotice n event t id s with
      keys := keys, ktime := ktime, numnote := update numnote h.key (numnote h.key + 1), notice := notice
      kright := kright, kleft := kleft, key := key, right := right, left := left
      current := (flat groups').find? (real (newNotice n event t id s)) }, groups', ?_, ?_, ⟨L1, L2, ?_, parts', ?_, ?_⟩, fresh, rfl, rfl, rfl, rfl, rfl⟩
  · unfold elAdd
    rw [if_neg (by simp only [not_or, not_lt]; exact ⟨indexed, early⟩)]
    simp only [seekIndex, seekKey, ok_bind, next, deref, target, seekPlace, linked]
    rw [parts']
    exact congrArg Except.ok (current_found (s := { newNotice n event t id s with
      keys := keys, ktime := ktime, numnote := update numnote h.key (numnote h.key + 1), notice := notice
      kright := kright, kleft := kleft, key := key, right := right, left := left }) current (update_self ..) first_ second)
  · exact ⟨head ▸ list, ⟨ordered''.sorted, ordered''.front, ordered''.final, ordered''.notices⟩,
      { grouped'' with held := fun g member => (grouped''.held g member).congr rfl rfl rfl (fun _ _ => ⟨rfl, rfl, rfl⟩) }, rfl⟩
  · exact partsOld
  · intro a member
    rw [← timeEq a (by simp [member])]
    exact first_ a member
  · intro b member
    rw [← timeEq b (by simp [member])]
    exact second b member

end fresh

end Svr4.ElmAdd
