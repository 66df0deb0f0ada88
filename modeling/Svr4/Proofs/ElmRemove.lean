import Svr4.Proofs.ElmLists
import Svr4.Proofs.ElmHistory

/-! `el_remove`: which notices go out, and what becomes of their sublists. -/

namespace Svr4.ElmRemove
open Function Chain DoubleChain Faults Elm ElmLists ElmInit ElmAdd ElmFirst ElmHistory Timed

variable {Event : Type} {s s' : State Event} {du lb dt nlim : Int} {fuel x : Nat} {groups A B : List Group} {g l r : Group} {marks P S : List Nat}

theorem absorb_done (grouped : Grouped s (A ++ l :: r :: B) marks) (front : A ≠ []) (isReal : s.isdummy l.last = false) :
    ∃ key numnote kright kleft keys, absorb l.key r.key s =
        .ok { s with key := key, numnote := numnote, kright := kright, kleft := kleft, keys := keys } ∧
      Grouped { s with key := key, numnote := numnote, kright := kright, kleft := kleft, keys := keys }
        (A ++ ⟨r.key, l.notes ++ r.body, r.last⟩ :: B) marks := by
  have lHeld := grouped.held l (by simp)
  have rHeld := grouped.held r (by simp)
  have keys := grouped.keys
  rw [List.map_append, List.map_cons, List.map_cons] at keys
  obtain ⟨m, c, prev, next, _, list, _⟩ := keys.unlink (by simpa using front) (by simp)
  have same : c = r.key := by
    rw [keys.next_eq] at next
    exact (Option.some.inj next).symm
  subst same
  have flatSame : flat (A ++ ⟨r.key, l.notes ++ r.body, r.last⟩ :: B) = flat (A ++ l :: r :: B) := by simp [Group.notes]
  have once := grouped.once
  have shapeR : A ++ l :: r :: B = (A ++ [l]) ++ r :: B := by simp
  obtain ⟨lKey, lNotes⟩ := (shapeR ▸ grouped).apart (.inl (show l ∈ A ++ [l] by simp))
  refine ⟨update s.key l.last none, update s.numnote r.key (s.numnote r.key + s.numnote l.key),
    update s.kright m (some r.key), update s.kleft r.key (s.kleft l.key), s.keys.erase l.key, ?_, ?_⟩
  · simp only [absorb, lHeld.notice, prev, deref, ok_bind]
    rfl
  · refine { grouped with keys := ?_, held := ?_, once := flatSame ▸ once, marked := ?_, given := ?_ }
    · rw [next] at list
      have start : ((A ++ ⟨r.key, l.notes ++ r.body, r.last⟩ :: B).map Group.key).head? = (A.map Group.key ++ l.key :: r.key :: B.map Group.key).head? := by
        obtain ⟨a, A', rfl⟩ := List.exists_cons_of_ne_nil front
        rfl
      rw [start]
      simpa using list
    · intro h member
      have cases_ : (h ∈ A ∨ h ∈ B) ∨ h = ⟨r.key, l.notes ++ r.body, r.last⟩ := by
        simp only [List.mem_append, List.mem_cons] at member
        tauto
      rcases cases_ with others | rfl
      · have inside : h ∈ A ++ l :: r :: B := by
          simp only [List.mem_append, List.mem_cons]
          tauto
        have otherR := (shapeR ▸ grouped).apart (h := h) (others.imp (fun member => List.mem_append_left _ member) id)
        have otherL := grouped.apart (h := h) (others.imp id (fun member => List.mem_cons_of_mem _ member))
        refine (grouped.held h inside).congr rfl rfl (update_of_ne otherR.1 _ _) (fun n member => ⟨rfl, update_of_ne ?_ _ _, rfl⟩)
        exact fun same => otherL.2 n member (by simp [same, Group.notes])
      · have apart : ∀ n ∈ r.notes, n ≠ l.last := fun n member same => lNotes l.last (by simp [Group.notes]) (same ▸ member)
        refine ⟨rHeld.notice, rHeld.ktime, ?_, ?_, fun n member => ?_⟩
        · show update s.numnote r.key _ r.key = _
          rw [update_self, rHeld.numnote, lHeld.numnote]
          simp only [Group.notes, List.length_append, List.length_cons, List.length_nil]
          push_cast
          omega
        · exact (update_of_ne (apart r.last (by simp [Group.notes])) _ _).trans rHeld.key
        · show update s.key l.last none n = none ∧ s.isdummy n = false
          simp only [Group.notes, List.mem_append, List.mem_singleton] at member
          rcases member with (member | rfl) | member
          · have body := lHeld.body n member
            refine ⟨?_, body.2⟩
            by_cases same : n = l.last
            · rw [same, update_self]
            · rw [update_of_ne same]
              exact body.1
          · exact ⟨update_self .., isReal⟩
          · exact ⟨(update_of_ne (apart n (by simp [Group.notes, member])) _ _).trans (rHeld.body n member).1, (rHeld.body n member).2⟩
    · show (dummyKeys s (A ++ ⟨r.key, l.notes ++ r.body, r.last⟩ :: B)).tail = marks.map s.ikey
      rw [← grouped.marked]
      simp [isReal]
    · intro h member
      have others : h.key ≠ l.key ∧ h.key ∈ s.keys := by
        have cases_ : (h ∈ A ∨ h ∈ B) ∨ h = ⟨r.key, l.notes ++ r.body, r.last⟩ := by
          simp only [List.mem_append, List.mem_cons] at member
          tauto
        rcases cases_ with others | rfl
        · exact ⟨(grouped.apart (others.imp id (fun member => List.mem_cons_of_mem _ member))).1, grouped.given h (by
            simp only [List.mem_append, List.mem_cons]
            tauto)⟩
        · exact ⟨lKey.symm, grouped.given r (by simp)⟩
      exact (List.mem_erase_of_ne others.1).mpr others.2

theorem before_real (grouped : Grouped s (A ++ g :: B) marks) (ordered : Ordered s (flat (A ++ g :: B))) (isReal : s.isdummy g.last = false) :
    A ≠ [] ∧ B ≠ [] := by
  constructor
  · rintro rfl
    obtain ⟨head, rest, shape, _, dummy, _⟩ := grouped.front_dummy ordered
    rw [List.nil_append, List.cons.injEq] at shape
    rw [← shape.1, isReal] at dummy
    cases dummy
  · rintro rfl
    obtain ⟨front, z, shape, dummy, _⟩ := ordered.last_dummy
    have same := (List.append_inj' shape rfl).2
    rw [List.cons.injEq] at same
    rw [← same.1, isReal] at dummy
    cases dummy

theorem mergeSublists_done (grouped : Grouped s (A ++ g :: B) marks) (ordered : Ordered s (flat (A ++ g :: B))) (front : A ≠ []) :
    ∃ key numnote kright kleft keys groups', mergeSublists g.key s =
        .ok { s with key := key, numnote := numnote, kright := kright, kleft := kleft, keys := keys } ∧
      Grouped { s with key := key, numnote := numnote, kright := kright, kleft := kleft, keys := keys } groups' marks ∧
      flat groups' = flat (A ++ g :: B) := by
  have unchanged : ∃ key numnote kright kleft keys groups', Except.ok (ε := Fault) s =
        .ok { s with key := key, numnote := numnote, kright := kright, kleft := kleft, keys := keys } ∧
      Grouped { s with key := key, numnote := numnote, kright := kright, kleft := kleft, keys := keys } groups' marks ∧
      flat groups' = flat (A ++ g :: B) := ⟨_, _, _, _, _, _, rfl, grouped, rfl⟩
  obtain ⟨A', l, rfl⟩ : ∃ A' l, A = A' ++ [l] := by
    rcases List.eq_nil_or_concat A with rfl | ⟨A', l, rfl⟩
    · exact absurd rfl front
    · exact ⟨A', l, List.concat_eq_append⟩
  have shape : A' ++ [l] ++ g :: B = A' ++ l :: g :: B := by simp
  rw [shape] at grouped ordered unchanged ⊢
  have lHeld := grouped.held l (by simp)
  have gHeld := grouped.held g (by simp)
  have keys := grouped.keys
  have keysShape : (A' ++ l :: g :: B).map Group.key = (A'.map Group.key ++ [l.key]) ++ g.key :: B.map Group.key := by simp
  rw [keysShape] at keys
  have prev : s.kleft g.key = some l.key := by simpa using keys.prev_eq
  unfold mergeSublists
  simp only [prev, deref, ok_bind, lHeld.notice, gHeld.notice]
  by_cases mergeLeft : (!s.isdummy l.last && decide (s.numnote l.key + s.numnote g.key ≤ s.NLIM)) = true
  · rw [if_pos mergeLeft]
    simp only [Bool.and_eq_true, Bool.not_eq_true'] at mergeLeft
    obtain ⟨key, numnote, kright, kleft, keys, run, grouped'⟩ := absorb_done grouped (before_real grouped ordered mergeLeft.1).1 mergeLeft.1
    exact ⟨key, numnote, kright, kleft, keys, _, run, grouped', by simp [Group.notes]⟩
  rw [if_neg mergeLeft]
  cases isReal : s.isdummy g.last with
  | true => simpa using unchanged
  | false =>
    simp only [Bool.not_false, if_true]
    have shape' : A' ++ l :: g :: B = (A' ++ [l]) ++ g :: B := by simp
    obtain ⟨r, B, rfl⟩ := List.exists_cons_of_ne_nil (before_real (shape' ▸ grouped) (shape' ▸ ordered) isReal).2
    have next : s.kright g.key = some r.key := by simpa using keys.next_eq
    simp only [next, ok_bind]
    split
    · obtain ⟨key, numnote, kright, kleft, keys, run, grouped'⟩ := absorb_done (shape' ▸ grouped) (by simp) isReal
      exact ⟨key, numnote, kright, kleft, keys, _, run, grouped', by simp [Group.notes]⟩
    · exact unchanged

theorem leave_last {b : List Nat} {y : Nat} {first : Option Nat} (grouped : Grouped s (A ++ g :: B) marks)
    (notes : Doubly s.right s.left first (flat (A ++ g :: B))) (isReal : s.isdummy g.last = false) (body : g.body = b ++ [y]) (enough : 0 < fuel) :
    ∃ key ktime numnote notice, leaveSublist g.last fuel s =
        .ok ({ s with key := key, ktime := ktime, numnote := numnote, notice := notice }, g.key) ∧
      Grouped { s with key := key, ktime := ktime, numnote := numnote, notice := notice } (A ++ ⟨g.key, b, y⟩ :: B) marks := by
  have held := grouped.held g (by simp)
  have once := grouped.once
  have lists : flat (A ++ g :: B) = (flat A ++ b ++ [y]) ++ g.last :: flat B := by simp [body]
  rw [lists] at notes
  have other : y ≠ g.last := by
    intro same
    rw [lists] at once
    exact (List.nodup_append.mp once).2.2 y (by simp) g.last (by simp) same
  have yBody := held.body y (by simp [body])
  have left : s.left g.last = some y := by simpa using notes.prev_eq
  have found : seek (fun n2 => (update s.key y (some g.key) n2).isNone) s.right fuel (some g.last) = .ok g.last := by
    refine seek_found (l := []) notes.onward (by simp) ?_ enough
    rw [update_of_ne other.symm, held.key]
    rfl
  refine ⟨update s.key y (some g.key), update s.ktime g.key (s.time y), update s.numnote g.key (s.numnote g.key - 1),
    update s.notice g.key y, ?_, ?_⟩
  · simp only [leaveSublist, passKey, held.key, left, deref, ok_bind, found, update_of_ne other.symm]
  · have sublist : (flat (A ++ ⟨g.key, b, y⟩ :: B)).Sublist (flat (A ++ g :: B)) := by
      rw [lists]
      have shape : flat (A ++ ⟨g.key, b, y⟩ :: B) = (flat A ++ b ++ [y]) ++ flat B := by simp
      rw [shape]
      exact (List.Sublist.refl _).append (List.sublist_cons_self ..)
    refine { grouped with keys := ?_, held := ?_, once := once.sublist sublist, marked := ?_, given := ?_ }
    · simpa using grouped.keys
    · intro h member
      have cases_ : (h ∈ A ∨ h ∈ B) ∨ h = ⟨g.key, b, y⟩ := by
        simp only [List.mem_append, List.mem_cons] at member
        tauto
      rcases cases_ with others | rfl
      · obtain ⟨otherKey, otherNotes⟩ := grouped.apart others
        have inside : h ∈ A ++ g :: B := by
          simp only [List.mem_append, List.mem_cons]
          tauto
        refine (grouped.held h inside).congr (update_of_ne otherKey _ _) (update_of_ne otherKey _ _) (update_of_ne otherKey _ _)
          (fun n inside => ⟨rfl, update_of_ne (fun same => otherNotes n inside (by simp [Group.notes, body, same])) _ _, rfl⟩)
      · refine ⟨update_self .., update_self .., ?_, update_self .., fun n member => ?_⟩
        · show update s.numnote g.key _ g.key = _
          rw [update_self, held.numnote, body]
          simp only [List.length_append, List.length_cons, List.length_nil]
          push_cast
          omega
        · have apart : n ≠ y := by
            rintro rfl
            rw [lists] at once
            have inner := (List.nodup_append.mp (List.nodup_append.mp once).1)
            exact inner.2.2 n (List.mem_append_right _ member) n (by simp) rfl
          have own := held.body n (by simp [body, member])
          exact ⟨(update_of_ne apart _ _).trans own.1, own.2⟩
    · show (dummyKeys s (A ++ ⟨g.key, b, y⟩ :: B)).tail = marks.map s.ikey
      rw [← grouped.marked]
      simp [isReal, yBody.2]
    · intro h member
      simp only [List.mem_append, List.mem_cons] at member
      rcases member with member | rfl | member
      · exact grouped.given h (by simp [member])
      · exact grouped.given g (by simp)
      · exact grouped.given h (by simp [member])

theorem leave_body {b1 b2 : List Nat} {first : Option Nat} (grouped : Grouped s (A ++ g :: B) marks)
    (notes : Doubly s.right s.left first (flat (A ++ g :: B))) (body : g.body = b1 ++ x :: b2) (enough : (flat (A ++ g :: B)).length < fuel) :
    leaveSublist x fuel s = .ok ({ s with numnote := update s.numnote g.key (s.numnote g.key - 1) }, g.key) := by
  have held := grouped.held g (by simp)
  have lists : flat (A ++ g :: B) = (flat A ++ b1) ++ x :: (b2 ++ g.last :: flat B) := by simp [body]
  rw [lists] at notes enough
  have found : seek (fun n2 => (s.key n2).isNone) s.right fuel (some x) = .ok g.last := by
    refine key_ahead b1 (x :: b2) held body (by simpa using notes.onward) ?_
    simp only [List.length_append, List.length_cons] at enough ⊢
    omega
  have noKey := (held.body x (by simp [body])).1
  simp only [leaveSublist, passKey, noKey, ok_bind, found, held.key, deref]

theorem regroup_done {first : Option Nat} (grouped : Grouped s groups marks) (ordered : Ordered s (flat groups))
    (notes : Doubly s.right s.left first (flat groups)) (shape : flat groups = P ++ x :: S) (isReal : s.isdummy x = false)
    (enough : (flat groups).length < fuel) :
    ∃ key ktime numnote notice kright kleft keys groups', regroup x fuel s =
        .ok { s with key := key, ktime := ktime, numnote := numnote, notice := notice, kright := kright, kleft := kleft, keys := keys } ∧
      Grouped { s with key := key, ktime := ktime, numnote := numnote, notice := notice, kright := kright, kleft := kleft, keys := keys } groups' marks ∧
      flat groups' = P ++ S := by
  obtain ⟨g, member, own⟩ := mem_flat.mp (show x ∈ flat groups by simp [shape])
  obtain ⟨A, B, rfl⟩ := List.append_of_mem member
  have once := grouped.once
  have held := grouped.held g (by simp)
  -- the notice is where it is in the whole list
  have place : ∀ X Y : List Nat, flat (A ++ g :: B) = X ++ x :: Y → X ++ Y = P ++ S := by
    intro X Y lists
    have erased : ∀ Z W : List Nat, flat (A ++ g :: B) = Z ++ x :: W → (flat (A ++ g :: B)).erase x = Z ++ W := by
      intro Z W lists
      have early : x ∉ Z := by
        rw [lists] at once
        exact fun inside => (List.nodup_append.mp once).2.2 x inside x (by simp) rfl
      rw [lists, List.erase_append_right _ early, List.erase_cons_head]
    rw [← erased X Y lists, erased P S shape]
  have kept : ∀ {t : State Event}, t.time = s.time → t.isdummy = s.isdummy → t.LB = s.LB → t.notices = s.notices → Ordered t (P ++ S) := by
    intro t time dummy lb notices
    have without := Ordered.without (shape ▸ ordered) isReal (shape ▸ once)
    refine ⟨?_, ?_, ?_, fun m inside => ?_⟩
    · refine without.sorted.imp fun {a b} before => before.congr ?_ ?_
      · rw [time, dummy]
        exact ⟨rfl, rfl⟩
      · rw [time, dummy]
        exact ⟨rfl, rfl⟩
    · rw [time, dummy, lb]
      exact without.front
    · rw [time, dummy]
      exact without.final
    · rw [notices]
      exact List.mem_of_mem_erase (without.notices m inside)
  have front : A ≠ [] := by
    rintro rfl
    obtain ⟨head, rest, shape', body, dummy, _⟩ := grouped.front_dummy ordered
    rw [List.nil_append, List.cons.injEq] at shape'
    obtain ⟨rfl, _⟩ := shape'
    rw [Group.notes, body, List.nil_append, List.mem_singleton] at own
    rw [own, dummy] at isReal
    cases isReal
  unfold regroup
  rcases List.mem_append.mp own with inside | inside
  · obtain ⟨b1, b2, body⟩ := List.append_of_mem inside
    have flatSame : flat (A ++ ⟨g.key, b1 ++ b2, g.last⟩ :: B) = P ++ S := by
      rw [← place (flat A ++ b1) (b2 ++ g.last :: flat B) (by simp [body])]
      simp
    have grouped1 := Grouped.lose b1 grouped body
    obtain ⟨key, numnote, kright, kleft, keys, groups', run, grouped', flat'⟩ :=
      mergeSublists_done (g := ⟨g.key, b1 ++ b2, g.last⟩) grouped1 (by rw [flatSame]; exact kept rfl rfl rfl rfl) front
    refine ⟨_, _, _, _, _, _, _, groups', ?_, grouped', flat'.trans flatSame⟩
    simp only [(held.body x inside).1, leave_body grouped notes body enough, ok_bind]
    exact run
  · rw [List.mem_singleton] at inside
    subst inside
    rcases List.eq_nil_or_concat g.body with body | ⟨b, y, body⟩
    · have sole : s.numnote g.key = 1 := by
        rw [held.numnote, body]
        rfl
      obtain ⟨kright, kleft, run, grouped'⟩ := Grouped.lose_all grouped ordered body isReal s.numnote (fun _ _ => rfl)
      refine ⟨_, _, _, _, kright, kleft, _, _, ?_, grouped', ?_⟩
      · simp only [held.key, if_pos sole]
        have run' : unlinkKey g.key s = .ok { s with kright := kright, kleft := kleft } := run
        rw [run']
        rfl
      · rw [← place (flat A) (flat B) (by simp [body])]
        simp
    · rw [List.concat_eq_append] at body
      have several : s.numnote g.key ≠ 1 := by
        rw [held.numnote, body, List.length_append, List.length_singleton]
        push_cast
        omega
      have flatSame : flat (A ++ ⟨g.key, b, y⟩ :: B) = P ++ S := by
        rw [← place (flat A ++ b ++ [y]) (flat B) (by simp [body])]
        simp
      obtain ⟨key, ktime, numnote, notice, left, grouped1⟩ := leave_last grouped notes isReal body (show 0 < fuel by omega)
      obtain ⟨key', numnote', kright, kleft, keys, groups', run, grouped', flat'⟩ :=
        mergeSublists_done (g := ⟨g.key, b, y⟩) grouped1 (by rw [flatSame]; exact kept rfl rfl rfl rfl) front
      refine ⟨_, _, _, _, _, _, _, groups', ?_, grouped', flat'.trans flatSame⟩
      simp only [held.key, if_neg several, left, ok_bind]
      exact run

structure Chained (s : State Event) (groups : List Group) (marks : List Nat) : Prop where
  notes : Doubly s.right s.left (flat groups).head? (flat groups)
  ordered : Ordered s (flat groups)
  grouped : Grouped s groups marks

structure Same (s s' : State Event) : Prop where
  time : s'.time = s.time
  id : s'.id = s.id
  event : s'.event = s.event
  isdummy : s'.isdummy = s.isdummy
  lb : s'.LB = s.LB

theorem removeNotice_done (chained : Chained s groups marks) (shape : flat groups = P ++ x :: S) (isReal : s.isdummy x = false)
    (enough : (flat groups).length < fuel) :
    ∃ s' groups', removeNotice x fuel s = .ok (s', S.head?) ∧ Chained s' groups' marks ∧ flat groups' = P ++ S ∧ Same s s' := by
  obtain ⟨key, ktime, numnote, notice, kright, kleft, keys, groups', run, grouped', flat'⟩ :=
    regroup_done chained.grouped chained.ordered chained.notes shape isReal enough
  have notes := chained.notes
  have ordered := chained.ordered
  have once := chained.grouped.once
  rw [shape] at notes ordered once
  obtain ⟨front, behind⟩ := Ordered.inside ordered isReal
  obtain ⟨right, left, unlinked, list, ahead⟩ := unlinkNotice_done
    (s := { s with key := key, ktime := ktime, numnote := numnote, notice := notice, kright := kright, kleft := kleft, keys := keys })
    notes front behind
  have without := Ordered.without ordered isReal once
  have next : right x = S.head? := Linked.head ahead.2
  refine ⟨{ freeNotice x s with
      key := key, ktime := ktime, numnote := numnote, notice := notice, kright := kright, kleft := kleft, keys := keys
      right := right, left := left }, groups', ?_, ⟨?_, ?_, ?_⟩, flat', ⟨rfl, rfl, rfl, rfl, rfl⟩⟩
  · simp only [removeNotice, run, ok_bind, unlinked, ← next]
    rfl
  · have start : (P ++ S).head? = (P ++ x :: S).head? := by
      obtain ⟨a, P', rfl⟩ := List.exists_cons_of_ne_nil front
      rfl
    rw [flat', start]
    exact list
  · rw [flat']
    exact ⟨without.sorted, without.front, without.final, without.notices⟩
  · exact { grouped' with held := fun g member => (grouped'.held g member).congr rfl rfl rfl (fun _ _ => ⟨rfl, rfl, rfl⟩) }

def remaining {α : Type} (flag : Bool) (hit : α → Bool) (l : List α) : List α :=
  if flag then l.eraseP hit else l.filter (fun a => !hit a)

theorem remaining_none {α : Type} {flag : Bool} {hit : α → Bool} {l : List α} (none_ : ∀ a ∈ l, hit a = false) : remaining flag hit l = l := by
  unfold remaining
  split
  · exact List.eraseP_of_forall_not (fun a member => by simp [none_ a member])
  · exact List.filter_eq_self.mpr (fun a member => by simp [none_ a member])

theorem remaining_append {α : Type} {flag : Bool} {hit : α → Bool} {l l' : List α} (none_ : ∀ a ∈ l, hit a = false) :
    remaining flag hit (l ++ l') = l ++ remaining flag hit l' := by
  unfold remaining
  split
  · exact List.eraseP_append_right _ (fun a member => by simp [none_ a member])
  · rw [List.filter_append, List.filter_eq_self.mpr (fun a member => by simp [none_ a member])]

def hit (s : State Event) (id : Int) (n : Nat) : Bool := real s n && s.id n == id

theorem scan_done (id : Int) (flag : Bool) (turns : Nat) (chained : Chained s groups marks) (shape : flat groups = P ++ S)
    (passed : ∀ n ∈ P, hit s id n = false) (enough : (flat groups).length < fuel) (turnsEnough : S.length ≤ turns) :
    ∃ s' groups', scan id flag fuel turns S.head? s = .ok s' ∧ Chained s' groups' marks ∧
    flat groups' = P ++ remaining flag (hit s id) S ∧ Same s s' := by
  induction turns generalizing s groups P S with
  | zero =>
    obtain rfl := List.eq_nil_of_length_eq_zero (show S.length = 0 by omega)
    exact ⟨s, groups, rfl, chained, by rw [shape, remaining_none (by simp)], ⟨rfl, rfl, rfl, rfl, rfl⟩⟩
  | succ turns ih =>
    cases S with
    | nil => exact ⟨s, groups, rfl, chained, by rw [shape, remaining_none (by simp)], ⟨rfl, rfl, rfl, rfl, rfl⟩⟩
    | cons n S =>
      have notes := chained.notes
      rw [shape] at notes enough
      have same : (fun a => !(s.isdummy a || s.id a != id)) = hit s id := by
        funext a
        simp [hit, real, bne]
      have skipped : skip (fun n => s.isdummy n || s.id n != id) s.right fuel (some n) = .ok ((n :: S).find? (hit s id)) := by
        rw [← same]
        refine skip_find notes.onward ?_
        simp only [List.length_append, List.length_cons] at enough ⊢
        omega
      simp only [List.head?_cons, scan, skipped, ok_bind]
      cases found : (n :: S).find? (hit s id) with
      | none =>
        have none_ : ∀ a ∈ n :: S, hit s id a = false := by simpa using List.find?_eq_none.mp found
        exact ⟨s, groups, rfl, chained, by rw [shape, remaining_none none_], ⟨rfl, rfl, rfl, rfl, rfl⟩⟩
      | some x =>
        obtain ⟨isHit, S1, S2, split, passed1⟩ := List.find?_eq_some_iff_append.mp found
        have isReal : s.isdummy x = false := by
          simp only [hit, real, Bool.and_eq_true, Bool.not_eq_true'] at isHit
          exact isHit.1
        have shape' : flat groups = (P ++ S1) ++ x :: S2 := by rw [shape, split, List.append_assoc]
        have passed' : ∀ a ∈ P ++ S1, hit s id a = false := by
          intro a member
          rcases List.mem_append.mp member with member | member
          · exact passed a member
          · simpa using passed1 a member
        obtain ⟨s1, groups1, run, chained1, flat1, same1⟩ := removeNotice_done chained shape' isReal (by rw [shape]; exact enough)
        have hitSame : hit s1 id = hit s id := by
          funext a
          simp [hit, real, same1.isdummy, same1.id]
        simp only [run, ok_bind]
        rw [split, remaining_append (by simpa using passed1)]
        cases flag with
        | true =>
          refine ⟨s1, groups1, rfl, chained1, ?_, same1⟩
          rw [flat1, remaining, if_pos rfl, List.eraseP_cons_of_pos isHit, List.append_assoc]
        | false =>
          have lengths := congrArg List.length split
          simp only [List.length_append, List.length_cons] at lengths turnsEnough enough
          obtain ⟨s', groups', run', chained', flat', same'⟩ := ih chained1 flat1 (by rw [hitSame]; exact passed')
            (by rw [flat1]; simp only [List.length_append]; omega) (by omega)
          refine ⟨s', groups', run', chained', ?_, ?_⟩
          · rw [flat', hitSame]
            simp [remaining, isHit]
          · exact ⟨same'.time.trans same1.time, same'.id.trans same1.id, same'.event.trans same1.event,
              same'.isdummy.trans same1.isdummy, same'.lb.trans same1.lb⟩

theorem first_found (chained : Chained s groups marks) (enough : (flat groups).length < fuel) :
    ∃ i head rest, s.index = some i ∧ groups = head :: rest ∧ head.body = [] ∧ s.isdummy head.last = true ∧ s.notice head.key = head.last ∧
      seek (fun k => (s.kleft k).isSome) s.kleft fuel (s.kleft (s.ikey i)) = .ok head.key := by
  obtain ⟨head, rest, rfl, body, dummy, _⟩ := chained.grouped.front_dummy chained.ordered
  obtain ⟨i, M, rfl⟩ := List.exists_cons_of_ne_nil (show marks ≠ [] from fun nothing => by
    have many := chained.grouped.many
    simp [nothing] at many)
  have index : s.index = some i := chained.grouped.index.1
  have marked := chained.grouped.marks_of dummy
  obtain ⟨e, inside, _, eKey⟩ : ∃ e ∈ rest, s.isdummy e.last = true ∧ e.key = s.ikey i := mem_dummyKeys.mp (by rw [marked]; simp)
  obtain ⟨U, V, rfl⟩ := List.append_of_mem inside
  have keys := chained.grouped.keys
  have keysShape : (head :: (U ++ e :: V)).map Group.key = (head.key :: U.map Group.key) ++ e.key :: V.map Group.key := by simp
  rw [keysShape] at keys
  refine ⟨i, head, U ++ e :: V, index, rfl, body, dummy, (chained.grouped.held head (by simp)).notice, ?_⟩
  rw [← eKey]
  have backward := keys.backward_from.2
  have noLeft : s.kleft head.key = none := by
    have start : (head.key :: U.map Group.key) ++ e.key :: V.map Group.key = [] ++ head.key :: (U.map Group.key ++ e.key :: V.map Group.key) := by simp
    rw [start] at keys
    exact keys.prev_eq
  refine seek_found (show Linked _ _ ((U.map Group.key).reverse ++ head.key :: []) by simpa [Linked] using backward)
    (fun k member => ?_) (by simp [noLeft]) ?_
  · obtain ⟨U1, U2, split⟩ := List.append_of_mem (List.mem_reverse.mp member)
    have shape : (head.key :: U.map Group.key) ++ e.key :: V.map Group.key = (head.key :: U1) ++ k :: (U2 ++ e.key :: V.map Group.key) := by simp [split]
    rw [shape] at keys
    rw [keys.prev_eq]
    cases U1 using List.reverseRecOn <;> simp [List.getLast?_cons]
  · have count := ElmAdd.length_keys (head :: (U ++ e :: V))
    simp only [List.length_cons, List.length_append, List.length_reverse, List.length_map] at count ⊢
    omega

theorem elRemove_done {c : Nat} (id : Int) (flag : Bool) (rep : Rep s groups marks) (current : s.current = some c)
    (enough : (flat groups).length < fuel) :
    ∃ s1 groups', Chained s1 groups' marks ∧ flat groups' = remaining flag (hit s id) (flat groups) ∧ Same s s1 ∧
      ((flat groups').find? (real s) = none → elRemove id flag fuel s = .error .null) ∧
      ∀ c', (flat groups').find? (real s) = some c' → elRemove id flag fuel s = .ok { s1 with current := some c' } := by
  have found := rep.current.symm.trans current
  obtain ⟨isReal, P, S, shape, passed⟩ := List.find?_eq_some_iff_append.mp found
  have passed' : ∀ n ∈ P, hit s id n = false := by
    intro n member
    have hidden := passed n member
    simp only [Bool.not_eq_true'] at hidden
    simp [hit, hidden]
  have lengths := congrArg List.length shape
  simp only [List.length_append, List.length_cons] at lengths
  obtain ⟨s1, groups', run, chained, flat', same⟩ := scan_done id flag fuel
    ⟨rep.notes, rep.ordered, rep.grouped⟩ shape passed' enough (by rw [List.length_cons]; omega)
  have flat'' : flat groups' = remaining flag (hit s id) (flat groups) := by rw [flat', shape, remaining_append passed']
  have shorter : (flat groups').length ≤ (flat groups).length := by
    rw [flat'', remaining]
    split
    · exact List.length_eraseP_le
    · exact List.length_filter_le ..
  obtain ⟨i, head, rest, index, rfl, body, dummy, notice, seekKey⟩ := first_found chained (show (flat groups').length < fuel by omega)
  have linked : Linked s1.right (s1.right head.last) (flat rest) := by
    have notes := chained.notes
    have lists : flat (head :: rest) = [] ++ head.last :: flat rest := by simp [body]
    rw [lists] at notes
    exact notes.onward.2
  have restLength : (flat rest).length < fuel := by
    simp only [flat_cons, List.length_append, List.length_cons] at shorter
    omega
  have realSame : real s1 = real s := by
    funext n
    simp [real, same.isdummy]
  have findRest : (flat (head :: rest)).find? (real s) = (flat rest).find? (real s) := by
    rw [flat_cons, body, List.nil_append, List.find?_cons_of_neg (by rw [← realSame]; simp [real, dummy])]
  have indexed : ∃ fi, s.index = some fi := by
    obtain ⟨fi, M, shape⟩ := List.exists_cons_of_ne_nil (show marks ≠ [] from fun nothing => by
      have many := rep.grouped.many
      simp [nothing] at many)
    have linked := rep.grouped.index
    rw [shape] at linked
    exact ⟨fi, linked.1⟩
  obtain ⟨fi, oldIndex⟩ := indexed
  have start : elRemove id flag fuel s = (do
      let n ← seek s1.isdummy s1.right fuel (s1.right head.last)
      .ok { s1 with current := some n }) := by
    have run' : scan id flag fuel fuel (some c) s = .ok s1 := run
    simp only [elRemove, oldIndex, current, run', ok_bind, index, deref, seekKey, notice]
  refine ⟨s1, head :: rest, chained, flat'', same, fun nothing => ?_, fun c' first => ?_⟩
  · rw [findRest] at nothing
    have allDummy : ∀ n ∈ flat rest, s1.isdummy n = true := by
      intro n member
      have hidden := List.find?_eq_none.mp nothing n member
      rw [← realSame] at hidden
      simpa [real] using hidden
    rw [start, seek_null linked allDummy (by omega)]
    rfl
  · rw [findRest] at first
    obtain ⟨isReal', R1, R2, split, dummies⟩ := List.find?_eq_some_iff_append.mp first
    rw [← realSame] at isReal' dummies
    rw [split] at linked restLength
    have stops : s1.isdummy c' = false := by simpa [real] using isReal'
    have passes : ∀ b ∈ R1, s1.isdummy b = true := fun b member => by simpa [real] using dummies b member
    rw [start, seek_found linked passes stops (by rw [List.length_append] at restLength; omega), ok_bind]

def kept (id : Int) (flag : Bool) (events : List (Int × Int × Option Event)) : List (Int × Int × Option Event) :=
  remaining flag (fun e => e.2.1 == id) events

theorem events_kept {s1 : State Event} {groups' : List Group} {id : Int} {flag : Bool} (same : Same s s1)
    (flat' : flat groups' = remaining flag (hit s id) (flat groups)) : events s1 groups' = kept id flag (events s groups) := by
  have realSame : real s1 = real s := by
    funext n
    simp [real, same.isdummy]
  unfold events kept
  rw [flat', realSame, same.time, same.id, same.event]
  generalize flat groups = L
  unfold remaining
  cases flag with
  | true =>
    simp only [if_true]
    induction L with
    | nil => rfl
    | cons n L ih =>
      by_cases isReal : real s n = true
      · by_cases isHit : s.id n = id
        · rw [List.eraseP_cons_of_pos (by simp [hit, isReal, isHit]), List.filter_cons_of_pos isReal, List.map_cons,
            List.eraseP_cons_of_pos (by simp [isHit])]
        · rw [List.eraseP_cons_of_neg (by simp [hit, isHit]), List.filter_cons_of_pos isReal, List.filter_cons_of_pos isReal,
            List.map_cons, List.map_cons, List.eraseP_cons_of_neg (by simp [isHit]), ih]
      · rw [List.eraseP_cons_of_neg (by simp [hit, isReal]), List.filter_cons_of_neg isReal, List.filter_cons_of_neg isReal, ih]
  | false =>
    simp only [Bool.false_eq_true, if_false]
    rw [List.filter_map, List.filter_filter, List.filter_filter]
    congr 1
    refine List.filter_congr (fun n _ => ?_)
    cases isReal : real s n <;> simp [hit, isReal]

/-- The runs of all four calls. A call that follows a null link or computes an index time beyond the last one has no state behind it. -/
inductive Runs (du lb dt nlim : Int) : State Event → Prop
  | init {s₀ s : State Event} {note key ind : Nat → Nat} (noIndex : s₀.index = none) (noCurrent : s₀.current = none)
      (notesOnce : Injective note) (keysOnce : Injective key) (indOnce : Injective ind)
      (run : elInit du lb dt nlim note key ind s₀ = .ok s) : Runs du lb dt nlim s
  | add {s s' : State Event} {n k2 : Nat} {event : Event} {time id : Int} (runs : Runs du lb dt nlim s) (freshNotice : n ∉ s.notices)
      (freshKey : k2 ∉ s.keys) (run : Settles (fun fuel => elAdd n k2 event time id fuel s) (.ok s')) : Runs du lb dt nlim s'
  | first {s s' : State Event} {event : Option Event} (runs : Runs du lb dt nlim s)
      (run : Settles (fun fuel => elFirst fuel s) (.ok (s', event))) : Runs du lb dt nlim s'
  | remove {s s' : State Event} {id : Int} {flag : Bool} (runs : Runs du lb dt nlim s)
      (run : Settles (fun fuel => elRemove id flag fuel s) (.ok s')) : Runs du lb dt nlim s'

/-- `el_remove` has done what it should: the events with the identifier, or the first of them, are gone, all others are
where they were, and the list stands at the earliest one. -/
structure Removed (id : Int) (flag : Bool) (s s' : State Event) (groups groups' : List Group) : Prop where
  listed : Listed s' groups'
  events : events s' groups' = kept id flag (events s groups)
  current : s'.current = (flat groups').find? (real s')

def Sound (s : State Event) : Prop := s.index = none ∧ s.current = none ∨ ∃ groups marks, Rep s groups marks

theorem Chained.rep {groups' : List Group} {c : Nat} (chained : Chained s groups' marks) (first : (flat groups').find? (real s) = some c) :
    Rep { s with current := some c } groups' marks :=
  ⟨chained.notes, ⟨chained.ordered.sorted, chained.ordered.front, chained.ordered.final, chained.ordered.notices⟩,
    { chained.grouped with held := fun g member => (chained.grouped.held g member).congr rfl rfl rfl (fun _ _ => ⟨rfl, rfl, rfl⟩) },
    first.symm⟩

section calls
variable {id : Int} {flag : Bool}

theorem remove_ends (id : Int) (flag : Bool) (rep : Rep s groups marks) :
    (s.current = none ∧ Settles (fun fuel => elRemove id flag fuel s) (.ok s)) ∨
    (kept id flag (events s groups) = [] ∧ s.current ≠ none ∧ Settles (fun fuel => elRemove id flag fuel s) (.error .null)) ∨
    (kept id flag (events s groups) ≠ [] ∧ ∃ s' groups', Settles (fun fuel => elRemove id flag fuel s) (.ok s') ∧
      Rep s' groups' marks ∧ Removed id flag s s' groups groups') := by
  cases current : s.current with
  | none =>
    refine .inl ⟨rfl, 0, fun fuel _ => ?_⟩
    show elRemove id flag fuel s = _
    unfold elRemove
    rw [current]
    cases s.index <;> rfl
  | some c =>
    right
    obtain ⟨s1, groups', chained, flat', same, stops, goes⟩ := elRemove_done id flag rep current (Nat.lt_succ_self _)
    have eventsEq := events_kept same flat'
    have realSame : real s1 = real s := by
      funext n
      simp [real, same.isdummy]
    cases first : (flat groups').find? (real s) with
    | none =>
      refine .inl ⟨?_, by simp, (elRemove_steady id flag).settles (stops first) (by rintro ⟨⟩)⟩
      rw [← eventsEq, events, realSame, List.filter_eq_nil_iff.mpr (fun n member => by simpa using List.find?_eq_none.mp first n member)]
      rfl
    | some c' =>
      have rep' := chained.rep (by rw [realSame]; exact first)
      refine .inr ⟨?_, _, groups', (elRemove_steady id flag).settles (goes c' first) (by rintro ⟨⟩), rep', listed_of_rep rep', eventsEq, rep'.current⟩
      rw [← eventsEq, events, realSame]
      intro nothing
      have inside : c' ∈ (flat groups').filter (real s) :=
        List.mem_filter.mpr ⟨List.mem_of_find?_eq_some first, List.find?_some first⟩
      rw [List.map_eq_nil_iff.mp nothing] at inside
      cases inside

theorem add_late (n k2 : Nat) (event : Event) (id : Int) {time : Int} (rep : Rep s groups marks) (late : INFINITY ≤ time)
    (enough : marks.length ≤ fuel) (early : s.LB ≤ time) : elAdd n k2 event time id fuel s = .error .null := by
  have indexed : s.index ≠ none := by
    intro nothing
    have linked := rep.grouped.index
    rw [nothing] at linked
    have many := rep.grouped.many
    rw [linked.empty] at many
    simp at many
  obtain ⟨head, rest, rfl, _, dummy, _⟩ := rep.grouped.front_dummy rep.ordered
  have marked := rep.grouped.marks_of dummy
  have passes : ∀ m ∈ marks, s.ktime (s.ikey m) ≤ time := by
    intro m member
    obtain ⟨g, inside, _, same⟩ : ∃ g ∈ rest, s.isdummy g.last = true ∧ g.key = s.ikey m :=
      mem_dummyKeys.mp (by rw [marked]; exact List.mem_map_of_mem member)
    rw [← same, (rep.grouped.held g (by simp [inside])).ktime]
    obtain ⟨z, last, _, zTime⟩ := rep.ordered.final
    have inFlat : g.last ∈ flat (head :: rest) := mem_flat.mpr ⟨g, by simp [inside], by simp [Group.notes]⟩
    obtain ⟨P, shape⟩ := List.getLast?_eq_some_iff.mp last
    have sorted := rep.ordered.sorted
    rw [shape] at sorted inFlat
    rcases List.mem_append.mp inFlat with member | member
    · have before := ((List.pairwise_append.mp sorted).2.2 g.last member z (by simp)).1
      omega
    · rw [List.mem_singleton.mp member]
      omega
  have stopped : seek (fun ind => s.ktime (s.ikey ind) ≤ time) s.iright fuel s.index = .error .null :=
    seek_null rep.grouped.index (by simpa using passes) enough
  unfold elAdd
  rw [if_neg (by simp only [not_or, not_lt]; exact ⟨indexed, early⟩)]
  have stopped' : seek (fun ind => (newNotice n event time id s).ktime ((newNotice n event time id s).ikey ind) ≤ time)
      (newNotice n event time id s).iright fuel (newNotice n event time id s).index = .error .null := stopped
  simp only [stopped']
  rfl

end calls

theorem runs_sound (duTwo : 2 ≤ du) (nlimTwo : 2 ≤ nlim) (runs : Runs du lb dt nlim s) : Sound s := by
  induction runs with
  | @init s₀ s note key ind noIndex noCurrent notesOnce keysOnce indOnce run =>
    by_cases dtOne : 1 ≤ dt
    · rcases elInit_done lb s₀ notesOnce keysOnce indOnce duTwo dtOne nlimTwo with stopped | ⟨s', groups, marks, run', fresh⟩
      · rw [run] at stopped
        cases stopped
      · obtain rfl : s = s' := Except.ok.inj (run.symm.trans run')
        exact .inr ⟨groups, marks, fresh.rep⟩
    · unfold elInit at run
      rw [if_pos (by omega)] at run
      obtain rfl : s₀ = s := Except.ok.inj run
      exact .inl ⟨noIndex, noCurrent⟩
  | @add s s' n k2 event time id runs freshNotice freshKey run ih =>
    have unchanged : s.index = none ∨ time < s.LB → s' = s := by
      intro skipped
      have run' : Settles (fun fuel => elAdd n k2 event time id fuel s) (.ok s) := ⟨0, fun fuel _ => by
        show elAdd n k2 event time id fuel s = _
        unfold elAdd
        rw [if_pos skipped]⟩
      exact Except.ok.inj (run.unique run')
    rcases ih with ⟨noIndex, noCurrent⟩ | ⟨groups, marks, rep⟩
    · rw [unchanged (.inl noIndex)]
      exact .inl ⟨noIndex, noCurrent⟩
    · by_cases early : time < s.LB
      · rw [unchanged (.inr early)]
        exact .inr ⟨groups, marks, rep⟩
      by_cases late : time < INFINITY
      · obtain ⟨s'', groups', run', rep', _⟩ := elAdd_done event id rep freshNotice freshKey (by omega) late
          (show (flat groups).length + marks.length < (flat groups).length + marks.length + 1 by omega)
        have settled := (elAdd_steady n k2 event time id).settles run' (by rintro ⟨⟩)
        rw [Except.ok.inj (run.unique settled)]
        exact .inr ⟨groups', marks, rep'⟩
      · have stopped := (elAdd_steady n k2 event time id).settles (add_late n k2 event id rep (not_lt.mp late) (le_refl _)
          (not_lt.mp early)) (by rintro ⟨⟩)
        cases run.unique stopped
  | @first s s' event runs run ih =>
    have unchanged : s.current = none → s' = s := by
      intro noCurrent
      have run' : Settles (fun fuel => elFirst fuel s) (.ok (s, none)) := ⟨0, fun fuel _ => by
        show elFirst fuel s = _
        unfold elFirst
        rw [noCurrent]
        cases s.index <;> rfl⟩
      have same := Except.ok.inj (run.unique run')
      exact (Prod.mk.inj same).1
    rcases ih with ⟨noIndex, noCurrent⟩ | ⟨groups, marks, rep⟩
    · rw [unchanged noCurrent]
      exact .inl ⟨noIndex, noCurrent⟩
    · cases current : s.current with
      | none =>
        rw [unchanged current]
        exact .inr ⟨groups, marks, rep⟩
      | some c =>
        rcases elFirst_done rep current (Nat.lt_succ_self _) with stopped | ⟨s'', groups', marks', run', rep', _⟩
        · cases run.unique (elFirst_steady.settles stopped (by rintro ⟨⟩))
        · have same := Except.ok.inj (run.unique (elFirst_steady.settles run' (by rintro ⟨⟩)))
          rw [(Prod.mk.inj same).1]
          exact .inr ⟨groups', marks', rep'⟩
  | @remove s s' id flag runs run ih =>
    rcases ih with ⟨noIndex, noCurrent⟩ | ⟨groups, marks, rep⟩
    · have run' : Settles (fun fuel => elRemove id flag fuel s) (.ok s) := ⟨0, fun fuel _ => by
        show elRemove id flag fuel s = _
        unfold elRemove
        rw [noIndex]⟩
      rw [Except.ok.inj (run.unique run')]
      exact .inl ⟨noIndex, noCurrent⟩
    · rcases remove_ends id flag rep with ⟨_, run'⟩ | ⟨_, _, stopped⟩ | ⟨_, s'', groups', run', rep', _⟩
      · rw [Except.ok.inj (run.unique run')]
        exact .inr ⟨groups, marks, rep⟩
      · cases run.unique stopped
      · rw [Except.ok.inj (run.unique run')]
        exact .inr ⟨groups', marks, rep'⟩

theorem kept_some {id : Int} {flag : Bool} (E : List (Int × Int × Option Event)) :
    kept id flag E ≠ [] ↔ (∃ e ∈ E, e.2.1 ≠ id) ∨ flag = true ∧ 2 ≤ E.length := by
  unfold kept remaining
  cases flag with
  | false => simp [List.filter_eq_nil_iff]
  | true =>
    simp only [if_true, true_and]
    cases E with
    | nil => simp
    | cons e E =>
      by_cases isHit : e.2.1 = id
      · rw [List.eraseP_cons_of_pos (by simp [isHit])]
        constructor
        · intro some_
          exact .inr (by rw [List.length_cons]; have := List.length_pos_iff.mpr some_; omega)
        · rintro (⟨e', inside, other⟩ | two) rfl
          · rw [List.mem_singleton.mp inside] at other
            exact other isHit
          · simp at two
      · rw [List.eraseP_cons_of_neg (by simp [isHit])]
        exact ⟨fun _ => .inl ⟨e, by simp, isHit⟩, fun _ => by simp⟩

/-- In every state that is reached, a call of `el_remove` does what it should just if the list is empty or an event stays. -/
theorem removes_what_it_should (duTwo : 2 ≤ du) (nlimTwo : 2 ≤ nlim) (runs : Runs du lb dt nlim s) :
    (s.index = none ∧ ∀ id flag, Settles (fun fuel => elRemove id flag fuel s) (.ok s)) ∨
    ∃ groups, Listed s groups ∧ s.current = (flat groups).find? (real s) ∧ ∀ id flag,
      (∃ s' groups', Settles (fun fuel => elRemove id flag fuel s) (.ok s') ∧ Removed id flag s s' groups groups') ↔
        events s groups = [] ∨ (∃ e ∈ events s groups, e.2.1 ≠ id) ∨ flag = true ∧ 2 ≤ (events s groups).length := by
  rcases runs_sound duTwo nlimTwo runs with ⟨noIndex, _⟩ | ⟨groups, marks, rep⟩
  · refine .inl ⟨noIndex, fun id flag => ⟨0, fun fuel _ => ?_⟩⟩
    show elRemove id flag fuel s = _
    unfold elRemove
    rw [noIndex]
  · refine .inr ⟨groups, listed_of_rep rep, rep.current, fun id flag => ?_⟩
    have empty : events s groups = [] ↔ s.current = none := (elEmpty_iff rep).symm.trans Option.isNone_iff_eq_none
    rw [← kept_some]
    rcases remove_ends id flag rep with ⟨noCurrent, run⟩ | ⟨nothing, some_, stopped⟩ | ⟨some_, s', groups', run, _, removed⟩
    · have nothing := empty.mpr noCurrent
      refine ⟨fun _ => .inl nothing, fun _ => ⟨s, groups, run, listed_of_rep rep, ?_, rep.current⟩⟩
      rw [nothing]
      unfold kept
      exact (remaining_none (by simp)).symm
    · constructor
      · rintro ⟨s', groups', run, _⟩
        cases run.unique stopped
      · rintro (none_ | more)
        · exact absurd (empty.mp none_) some_
        · exact absurd nothing more
    · exact ⟨fun _ => .inr some_, fun _ => ⟨s', groups', run, removed⟩⟩

private def story : List (Nat × Int × Int) → State Nat → Option (State Nat)
  | [], s => some s
  | (n, time, id) :: rest, s =>
    if n ∈ s.notices ∨ n ∈ s.keys then none
    else
      match elAdd n n n time id 30 s with
      | .ok s => story rest s
      | .error _ => none

private theorem story_runs {l : List (Nat × Int × Int)} {s s' : State Nat} (runs : Runs du lb dt nlim s) (done : story l s = some s') :
    Runs du lb dt nlim s' := by
  induction l generalizing s with
  | nil =>
    cases done
    exact runs
  | cons note rest ih =>
    obtain ⟨n, time, id⟩ := note
    rw [story] at done
    split at done
    · cases done
    · next fresh =>
      rw [not_or] at fresh
      split at done
      · next s₁ added => exact ih (runs.add fresh.1 fresh.2 ((elAdd_steady n n n time id).settles added (by rintro ⟨⟩))) done
      · cases done

private theorem story_ends : ((elInit 2 0 10 4 id id id memory).toOption.bind fun s =>
    (story [(100, 1, 1), (101, 2, 2), (102, 3, 1), (103, 4, 2), (104, 5, 1)] s).bind fun s => (elRemove 2 false 30 s).toOption.map fun s' =>
      (s.keys, s'.keys, s.current, s.id 100, s.index.isSome)) = some ([103, 3, 2, 1, 0], [3, 2, 1, 0], some 100, 1, true) := by
  decide +kernel

theorem removes_what_it_should_merged : ∃ (s s' : State Nat) (groups groups' : List Group), Runs 2 0 10 4 s ∧
    Settles (fun fuel => elRemove 2 false fuel s) (.ok s') ∧ Removed 2 false s s' groups groups' ∧
    s.keys = [103, 3, 2, 1, 0] ∧ s'.keys = [3, 2, 1, 0] := by
  obtain ⟨s₀, start, rest⟩ := Option.bind_eq_some_iff.mp story_ends
  obtain ⟨s, done, rest⟩ := Option.bind_eq_some_iff.mp rest
  obtain ⟨t, run, facts⟩ := Option.map_eq_some_iff.mp rest
  simp only [Prod.mk.injEq] at facts
  obtain ⟨before, after, current, other, index⟩ := facts
  have runs := story_runs (@Runs.init Nat 2 0 10 4 memory _ id id id rfl rfl injective_id injective_id injective_id (ok_of_toOption start)) done
  rcases removes_what_it_should (by decide) (by decide) runs with ⟨none_, _⟩ | ⟨groups, listed, first, removes⟩
  · simp [none_] at index
  · -- the first notice has another identifier and stays
    have inside : 100 ∈ (flat groups).filter (real s) := by
      have found := first.symm.trans current
      exact List.mem_filter.mpr ⟨List.mem_of_find?_eq_some found, List.find?_some found⟩
    obtain ⟨s', groups', settles, removed⟩ := (removes 2 false).mpr (.inr (.inl ⟨_, List.mem_map.mpr ⟨100, inside, rfl⟩, by simp [other]⟩))
    have same := settles.unique ((elRemove_steady 2 false).settles (ok_of_toOption run) (by rintro ⟨⟩))
    rw [Except.ok.inj same] at settles removed
    exact ⟨s, t, groups, groups', runs, settles, removed, before, after⟩

theorem null_link_followed : ∃ s : State Nat, Runs 2 0 10 2 s ∧ Settles (fun fuel => elRemove 1 false fuel s) (.error .null) ∧
    ¬ ∃ s', Settles (fun fuel => elRemove 1 false fuel s) (.ok s') := by
  have start : ∃ s s' : State Nat, Runs 2 0 10 2 s ∧ 100 ∉ s.notices ∧ 100 ∉ s.keys ∧ elAdd 100 100 7 5 1 20 s = .ok s' ∧
      elRemove 1 false 20 s' = .error .null :=
    ⟨_, _, @Runs.init Nat 2 0 10 2 memory _ id id id rfl rfl injective_id injective_id injective_id rfl, by decide, by decide, rfl, rfl⟩
  obtain ⟨s, s', runs, freshNotice, freshKey, added, failed⟩ := start
  have stopped := (elRemove_steady 1 false).settles failed (by rintro ⟨⟩)
  refine ⟨s', runs.add freshNotice freshKey ((elAdd_steady 100 100 7 5 1).settles added (by rintro ⟨⟩)), stopped, ?_⟩
  rintro ⟨s'', returned⟩
  cases returned.unique stopped

end Svr4.ElmRemove
