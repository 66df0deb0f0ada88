import Svr4.Proofs.ElmAdd
import Svr4.Proofs.ElmLists

/-! `el_first`: the intervals that are over go behind the others, and the first real notice
goes out. -/

namespace Svr4.ElmFirst
open Function Chain DoubleChain Faults Elm ElmLists ElmAdd

variable {Event : Type} {s s' : State Event} {fuel : Nat} {groups rest A B : List Group} {head g : Group} {marks : List Nat}

section walks
variable {next : Nat → Option Nat} {p : Option Nat} {a z : Nat} {J l l' : List Nat}

theorem last_but_one (linked : Linked next p (J ++ [a, z])) (enough : J.length < fuel) :
    seek (fun i => (next i).all (fun r => (next r).isSome)) next fuel p = .ok a := by
  have nextA : next a = some z := linked.next_eq
  have nextZ : next z = none := by
    have shape : J ++ [a, z] = (J ++ [a]) ++ z :: [] := by simp
    rw [shape] at linked
    exact linked.next_eq
  refine seek_found (show Linked next p (J ++ a :: [z]) from linked) (fun m member => ?_) (by simp [nextA, nextZ]) enough
  obtain ⟨J1, J2, rfl⟩ := List.append_of_mem member
  have nextM : next m = (J2 ++ [a, z]).head? := by
    have shape : J1 ++ m :: J2 ++ [a, z] = J1 ++ m :: (J2 ++ [a, z]) := by simp
    rw [shape] at linked
    exact linked.next_eq
  cases J2 with
  | nil =>
    rw [show next m = some a from nextM]
    simp [nextA]
  | cons r J2 =>
    have nextR : next r = (J2 ++ [a, z]).head? := by
      have shape : J1 ++ m :: r :: J2 ++ [a, z] = (J1 ++ [m]) ++ r :: (J2 ++ [a, z]) := by simp
      rw [shape] at linked
      exact linked.next_eq
    rw [show next m = some r from nextM]
    cases J2 <;> simp [nextR]

theorem countBack_found {nextInt ctr : Int} (linked : Linked s.left p (l ++ a :: l')) (passes : ∀ b ∈ l, nextInt ≤ s.time b)
    (stops : s.time a < nextInt) (enough : l.length < fuel) : countBack s nextInt fuel ctr p = .ok (ctr + l.length, a) := by
  induction l generalizing p fuel ctr with
  | nil =>
    obtain ⟨rfl, _⟩ := linked
    obtain ⟨fuel, rfl⟩ := Nat.exists_eq_add_of_le' (Nat.lt_of_le_of_lt (Nat.zero_le _) enough)
    rw [countBack, if_neg (by omega)]
    simp
  | cons b l ih =>
    obtain ⟨rfl, rest⟩ := linked
    obtain ⟨fuel, rfl⟩ := Nat.exists_eq_add_of_le' (Nat.lt_of_le_of_lt (Nat.zero_le _) enough)
    rw [List.length_cons] at enough
    rw [countBack, if_pos (passes b (by simp)), ih rest (fun c member => passes c (by simp [member])) (by omega)]
    simp only [List.length_cons]
    push_cast
    rw [show ctr + 1 + (l.length : Int) = ctr + (l.length + 1) by omega]

end walks

theorem filter_without {P S : List Nat} {a : Nat} {keep : Nat → Bool} (hidden : keep a = false) :
    (P ++ a :: S).filter keep = (P ++ S).filter keep := by
  rw [List.filter_append, List.filter_append, List.filter_cons_of_neg (by simp [hidden])]

structure Shifted (s s' : State Event) (groups groups' : List Group) : Prop where
  isdummy : s'.isdummy = s.isdummy
  id : s'.id = s.id
  event : s'.event = s.event
  current : s'.current = s.current
  lb : s'.LB = s.LB
  time : ∀ n, s.isdummy n = false → s'.time n = s.time n
  reals : (flat groups').filter (real s) = (flat groups).filter (real s)
  size : (flat groups').length = (flat groups).length

def slack (s : State Event) (marks : List Nat) : Nat := (marks.map (fun m => (INFINITY - s.ktime (s.ikey m)).toNat)).sum

theorem bound_found {fk fn fi ind zi : Nat} {J : List Nat} (grouped : Grouped s (head :: ⟨fk, [], fn⟩ :: rest) (fi :: J ++ [ind, zi]))
    (ordered : Ordered s (flat (head :: ⟨fk, [], fn⟩ :: rest))) (headDummy : s.isdummy head.last = true) (fnDummy : s.isdummy fn = true)
    (fits : s.ktime (s.ikey ind) + s.DT ≤ INFINITY) :
    ∃ X q g Y, head :: rest = X ++ q :: g :: Y ∧ (∀ h ∈ X ++ [q], s.time h.last < s.ktime (s.ikey ind) + s.DT) ∧
      s.ktime (s.ikey ind) + s.DT ≤ s.time g.last ∧ s.ikey fi = fk ∧ (∃ d U V, X ++ [q] = U ++ d :: V ∧ d.key = s.ikey ind) ∧
      (dummyKeys s (X ++ [q])).tail = (J ++ [ind]).map s.ikey ∧ dummyKeys s (g :: Y) = [s.ikey zi] ∧
      s.time fn ≤ s.ktime (s.ikey ind) := by
  have lasts := lasts_sorted ordered
  have restLasts : (head :: rest).Pairwise (fun g h => s.time g.last ≤ s.time h.last) :=
    lasts.sublist ((List.sublist_cons_self _ rest).cons_cons head)
  obtain ⟨front, z, shape, zDummy, zTime⟩ := ordered.last_dummy
  have marked := grouped.marks_of headDummy
  simp only [dummyKeys_cons, fnDummy, if_true, List.cons_append, List.map_cons, List.cons.injEq] at marked
  obtain ⟨fkEq, marked⟩ := marked
  -- the last one of the others is the end of time
  obtain ⟨R, rfl⟩ : ∃ R, rest = R ++ [z] := by
    rcases List.eq_nil_or_concat rest with rfl | ⟨R, y, rfl⟩
    · simp at marked
    · rw [List.concat_eq_append] at shape ⊢
      have ends : (head :: ⟨fk, [], fn⟩ :: R) ++ [y] = front ++ [z] := shape
      exact ⟨R, by rw [(List.append_inj' ends rfl).2]⟩
  have keyTime : ∀ h ∈ head :: (R ++ [z]), s.ktime h.key = s.time h.last := by
    intro h member
    refine (grouped.held h ?_).ktime
    simp only [List.mem_cons] at member ⊢
    tauto
  have listed : dummyKeys s R ++ [z.key] = (J ++ [ind]).map s.ikey ++ [s.ikey zi] := by simpa [zDummy] using marked
  obtain ⟨dummiesR, zKey⟩ := List.append_inj' listed rfl
  rw [List.cons.injEq] at zKey
  obtain ⟨d, dInside, _, dKey⟩ : ∃ d ∈ R, s.isdummy d.last = true ∧ d.key = s.ikey ind :=
    mem_dummyKeys.mp (by rw [dummiesR]; simp)
  have dTime : s.ktime (s.ikey ind) = s.time d.last := by rw [← dKey, keyTime d (by simp [dInside])]
  have dt := grouped.dt
  obtain ⟨before, after, split, first, second⟩ := sorted_parts (fun g : Group => s.time g.last) (s.ktime (s.ikey ind) + s.DT - 1) _ restLasts
  have zAfter : z ∈ after := by
    have member : z ∈ before ++ after := by simp [← split]
    rcases List.mem_append.mp member with member | member
    · have := first z member
      omega
    · exact member
  have dBefore : d ∈ before := by
    have member : d ∈ before ++ after := by simp [← split, dInside]
    rcases List.mem_append.mp member with member | member
    · exact member
    · have := second d member
      omega
  obtain ⟨X, q, rfl⟩ : ∃ X q, before = X ++ [q] := by
    rcases List.eq_nil_or_concat before with rfl | ⟨X, q, rfl⟩
    · cases dBefore
    · exact ⟨X, q, List.concat_eq_append⟩
  obtain ⟨Y', rfl⟩ : ∃ Y', after = Y' ++ [z] := by
    rcases List.eq_nil_or_concat after with rfl | ⟨Y', y, rfl⟩
    · cases zAfter
    · rw [List.concat_eq_append] at split ⊢
      have ends : (head :: R) ++ [z] = (X ++ [q] ++ Y') ++ [y] := by simpa using split
      exact ⟨Y', by rw [(List.append_inj' ends rfl).2]⟩
  have parts : head :: R = (X ++ [q]) ++ Y' := by
    have ends : (head :: R) ++ [z] = (X ++ [q] ++ Y') ++ [z] := by simpa using split
    exact (List.append_inj' ends rfl).1
  have dummies : dummyKeys s (X ++ [q]) ++ dummyKeys s Y' = head.key :: (J ++ [ind]).map s.ikey := by
    rw [← dummyKeys_append, ← parts, dummyKeys_cons, headDummy, dummiesR]
    rfl
  -- no other dummy lies behind the one before the end of time
  have none_ : dummyKeys s Y' = [] := by
    rcases List.eq_nil_or_concat (dummyKeys s Y') with nothing | ⟨W, k, more⟩
    · exact nothing
    · rw [List.concat_eq_append] at more
      have ends : (dummyKeys s (X ++ [q]) ++ W) ++ [k] = (head.key :: J.map s.ikey) ++ [s.ikey ind] := by
        rw [List.append_assoc, ← more, dummies]
        simp
      have same := (List.append_inj' ends rfl).2
      rw [List.cons.injEq] at same
      obtain ⟨e, inside, _, eKey⟩ : ∃ e ∈ Y', s.isdummy e.last = true ∧ e.key = k := mem_dummyKeys.mp (by rw [more]; simp)
      have late := second e (by simp [inside])
      have eMember : e ∈ head :: (R ++ [z]) := by
        rw [split]
        simp [inside]
      have eTime := keyTime e eMember
      rw [eKey, same.1] at eTime
      omega
  rw [none_, List.append_nil] at dummies
  obtain ⟨g, Y, shapeG⟩ := List.exists_cons_of_ne_nil (show Y' ++ [z] ≠ [] by simp)
  obtain ⟨U, V, splitD⟩ := List.append_of_mem dBefore
  refine ⟨X, q, g, Y, ?_, ?_, ?_, fkEq.symm, ⟨d, U, V, splitD, dKey⟩, ?_, ?_, ?_⟩
  · rw [split, shapeG]
    simp
  · intro h member
    have := first h member
    omega
  · have := second g (by rw [shapeG]; simp)
    omega
  · rw [dummies]
    rfl
  · rw [← shapeG, dummyKeys_append, none_]
    simp [zDummy, zKey.1]
  · rw [dTime]
    exact (List.pairwise_cons.mp (List.pairwise_cons.mp lasts).2).1 d (by simp [dInside])

def bumped (fi ind fk fn gk : Nat) (bound first second : Int) (s : State Event) : State Event :=
  { s with
    index := s.iright fi
    iright := update (update s.iright fi (s.iright ind)) ind (some fi)
    ktime := update s.ktime fk bound
    numnote := update (update s.numnote fk first) gk second
    time := update s.time fn bound }

section bump
variable {fk fn fi ind zi gk : Nat} {J L1 L2 R b1 b2 : List Nat} {X Y : List Group} {q : Group} {bound first second : Int}

theorem bumped_ordered {d0 : Nat} (ordered : Ordered s (d0 :: fn :: R)) (once : (d0 :: fn :: R).Nodup) (parts : d0 :: R = L1 ++ L2)
    (early : ∀ a ∈ L1, s.time a < bound) (late : ∀ b ∈ L2, bound ≤ s.time b) (some1 : L1 ≠ []) (some2 : L2 ≠ []) (some3 : R ≠ [])
    (fnDummy : s.isdummy fn = true) : Ordered (bumped fi ind fk fn gk bound first second s) (L1 ++ fn :: L2) := by
  have fresh : fn ∉ L1 ++ L2 := by
    rw [← parts]
    exact (List.nodup_cons.mp (List.nodup_middle.mp (show ([d0] ++ fn :: R).Nodup from once))).1
  have sorted : (L1 ++ L2).Pairwise (Before s) := by
    rw [← parts]
    exact ordered.sorted.sublist ((List.sublist_cons_self fn R).cons_cons d0)
  have same : ∀ m ∈ L1 ++ L2, update s.time fn bound m = s.time m := by
    intro m member
    have other : m ≠ fn := fun same => fresh (same ▸ member)
    exact update_of_ne other _ _
  have kept : ∀ a ∈ L1 ++ L2, ∀ b ∈ L1 ++ L2, Before s a b → Before (bumped fi ind fk fn gk bound first second s) a b :=
    fun a first b second before => before.congr ⟨same a first, rfl⟩ ⟨same b second, rfl⟩
  obtain ⟨sorted1, sorted2, across⟩ := List.pairwise_append.mp sorted
  refine ⟨?_, ?_, ?_, ?_⟩
  · refine List.pairwise_append.mpr ⟨?_, List.pairwise_cons.mpr ⟨fun b member => ?_, ?_⟩, fun x first y second => ?_⟩
    · exact sorted1.imp_of_mem fun {x y} first second => kept x (by simp [first]) y (by simp [second])
    · refine ⟨?_, fun isReal => ?_⟩
      · show update s.time fn bound fn ≤ update s.time fn bound b
        rw [update_self, same b (by simp [member])]
        exact late b member
      · change s.isdummy fn = false at isReal
        rw [fnDummy] at isReal
        cases isReal
    · exact sorted2.imp_of_mem fun {x y} first second => kept x (by simp [first]) y (by simp [second])
    · rcases List.mem_cons.mp second with rfl | second
      · have before : update s.time y bound x < update s.time y bound y := by
          rw [update_self, same x (by simp [first])]
          exact early x first
        exact ⟨before.le, fun _ _ => before⟩
      · exact kept x (by simp [first]) y (by simp [second]) (across x first y second)
  · obtain ⟨n, start, dummy, time⟩ := ordered.front
    have moved : (L1 ++ fn :: L2).head? = (d0 :: R).head? := by
      obtain ⟨a, L1', rfl⟩ := List.exists_cons_of_ne_nil some1
      rw [parts]
      rfl
    have member := List.mem_of_mem_head? (show n ∈ (d0 :: R).head? from start)
    refine ⟨n, moved ▸ start, dummy, ?_⟩
    show update s.time fn bound n = s.LB
    rw [same n (parts ▸ member), time]
  · obtain ⟨n, finish, dummy, time⟩ := ordered.final
    have moved : (L1 ++ fn :: L2).getLast? = (d0 :: R).getLast? := by
      obtain ⟨c, L2', rfl⟩ := List.exists_cons_of_ne_nil some2
      rw [parts]
      simp [List.getLast?_append, List.getLast?_cons]
    have moved' : (d0 :: R).getLast? = (d0 :: fn :: R).getLast? := by
      obtain ⟨c, R', rfl⟩ := List.exists_cons_of_ne_nil some3
      simp [List.getLast?_cons]
    rw [← moved'] at finish
    have member := List.mem_of_mem_getLast? finish
    refine ⟨n, moved ▸ finish, dummy, ?_⟩
    show update s.time fn bound n = INFINITY
    rw [same n (parts ▸ member), time]
  · intro m member
    refine ordered.notices m ?_
    have inside : m = fn ∨ m ∈ d0 :: R := by
      rw [parts]
      simp only [List.mem_append, List.mem_cons] at member ⊢
      tauto
    simp only [List.mem_cons] at inside ⊢
    tauto

theorem marks_apart (grouped : Grouped s (head :: ⟨fk, [], fn⟩ :: rest) (fi :: J ++ [ind, zi])) (headDummy : s.isdummy head.last = true)
    (fnDummy : s.isdummy fn = true) : s.ikey fi = fk ∧ ∀ m ∈ J ++ [ind, zi], s.ikey m ≠ fk := by
  have marked := grouped.marks_of headDummy
  simp only [dummyKeys_cons, fnDummy, if_true, List.cons_append, List.map_cons, List.cons.injEq] at marked
  refine ⟨marked.1.symm, fun m member same => ?_⟩
  have keys : (head.key :: fk :: rest.map Group.key).Nodup := grouped.keys.nodup
  obtain ⟨h, inside, _, hKey⟩ : ∃ h ∈ rest, s.isdummy h.last = true ∧ h.key = s.ikey m :=
    mem_dummyKeys.mp (by
      have listed : dummyKeys s rest = (J ++ [ind, zi]).map s.ikey := marked.2
      rw [listed]
      exact List.mem_map_of_mem member)
  exact (List.nodup_cons.mp (List.nodup_cons.mp keys).2).1 (by rw [← same, ← hKey]; exact List.mem_map_of_mem inside)

theorem bumped_slack (grouped : Grouped s (head :: ⟨fk, [], fn⟩ :: rest) (fi :: J ++ [ind, zi])) (headDummy : s.isdummy head.last = true)
    (fnDummy : s.isdummy fn = true) (more : s.time fn < bound) (fits : bound ≤ INFINITY) :
    slack (bumped fi ind fk fn gk bound first second s) (J ++ [ind, fi, zi]) < slack s (fi :: J ++ [ind, zi]) := by
  obtain ⟨fkEq, apart⟩ := marks_apart grouped headDummy fnDummy
  have same : ∀ m ∈ J ++ [ind, zi], update s.ktime fk bound (s.ikey m) = s.ktime (s.ikey m) :=
    fun m member => update_of_ne (apart m member) _ _
  have fnTime : s.ktime (s.ikey fi) = s.time fn := by
    rw [fkEq]
    exact (grouped.held ⟨fk, [], fn⟩ (by simp)).ktime
  have front : J.map (fun m => (INFINITY - update s.ktime fk bound (s.ikey m)).toNat) = J.map (fun m => (INFINITY - s.ktime (s.ikey m)).toNat) :=
    List.map_congr_left (fun m member => by rw [same m (by simp [member])])
  show ((J ++ [ind, fi, zi]).map (fun m => (INFINITY - update s.ktime fk bound (s.ikey m)).toNat)).sum < _
  unfold slack
  simp only [List.map_append, List.map_cons, List.map_nil, List.sum_append, List.sum_cons, List.sum_nil, List.cons_append, front]
  rw [same ind (by simp), same zi (by simp), fnTime, fkEq, update_self]
  omega

theorem bumped_grouped {kright kleft : Nat → Option Nat} (grouped : Grouped s (head :: ⟨fk, [], fn⟩ :: rest) (fi :: J ++ [ind, zi]))
    (headDummy : s.isdummy head.last = true) (fnDummy : s.isdummy fn = true)
    (split : head :: rest = X ++ q :: g :: Y) (body : g.body = b1 ++ b2) (dummiesX : (dummyKeys s (X ++ [q])).tail = (J ++ [ind]).map s.ikey)
    (dummiesY : dummyKeys s (g :: Y) = [s.ikey zi])
    (keys : Doubly kright kleft (some head.key) ((X ++ q :: ⟨fk, b1, fn⟩ :: ⟨g.key, b2, g.last⟩ :: Y).map Group.key)) :
    Grouped { bumped fi ind fk fn g.key bound (b1.length + 1) (b2.length + 1) s with kright := kright, kleft := kleft }
      (X ++ q :: ⟨fk, b1, fn⟩ :: ⟨g.key, b2, g.last⟩ :: Y) (J ++ [ind, fi, zi]) := by
  obtain ⟨fkEq, _⟩ := marks_apart grouped headDummy fnDummy
  have keysOnce : (head.key :: fk :: rest.map Group.key).Nodup := grouped.keys.nodup
  have once := grouped.once
  have moved : (flat (X ++ q :: ⟨fk, b1, fn⟩ :: ⟨g.key, b2, g.last⟩ :: Y)).Perm (flat (head :: ⟨fk, [], fn⟩ :: rest)) := by
    have new : (flat (X ++ q :: ⟨fk, b1, fn⟩ :: ⟨g.key, b2, g.last⟩ :: Y)).Perm (fn :: flat (X ++ q :: g :: Y)) := by
      have lists : flat (X ++ q :: ⟨fk, b1, fn⟩ :: ⟨g.key, b2, g.last⟩ :: Y) = (flat X ++ q.body ++ [q.last] ++ b1) ++ fn ::
        (b2 ++ g.last :: flat Y) := by simp
      have lists' : flat (X ++ q :: g :: Y) = (flat X ++ q.body ++ [q.last] ++ b1) ++ (b2 ++ g.last :: flat Y) := by simp [body]
      rw [lists, lists']
      exact List.perm_middle
    have old : (flat (head :: ⟨fk, [], fn⟩ :: rest)).Perm (fn :: flat (head :: rest)) := by
      have lists : flat (head :: ⟨fk, [], fn⟩ :: rest) = (head.body ++ [head.last]) ++ fn :: flat rest := by simp
      have lists' : flat (head :: rest) = (head.body ++ [head.last]) ++ flat rest := by simp
      rw [lists, lists']
      exact List.perm_middle
    rw [split] at old
    exact new.trans old.symm
  have apart : ∀ h ∈ head :: rest, h.key ≠ fk ∧ ∀ n ∈ h.notes, n ≠ fn := by
    intro h member
    have others : h ∈ [head] ∨ h ∈ rest := by
      simp only [List.mem_cons, List.not_mem_nil, or_false] at member ⊢
      exact member
    obtain ⟨key, notes⟩ := (show Grouped s ([head] ++ ⟨fk, [], fn⟩ :: rest) _ from grouped).apart others
    exact ⟨key, fun n inside same => notes n inside (by simp [same, Group.notes])⟩
  have heldOf : ∀ h ∈ head :: rest, Held s h := by
    intro h member
    refine grouped.held h ?_
    simp only [List.mem_cons] at member ⊢
    tauto
  have gHeld := heldOf g (by simp [split])
  obtain ⟨gKey, gNotes⟩ := apart g (by simp [split])
  have keysSplit : (X.map Group.key ++ [q.key] ++ g.key :: Y.map Group.key).Nodup := by
    have shape : X.map Group.key ++ [q.key] ++ g.key :: Y.map Group.key = head.key :: rest.map Group.key := by
      have mapped := congrArg (List.map Group.key) split
      simpa using mapped.symm
    rw [shape]
    exact (List.nodup_cons.mpr ⟨fun member => (List.nodup_cons.mp keysOnce).1 (List.mem_cons_of_mem _ member),
      (List.nodup_cons.mp (List.nodup_cons.mp keysOnce).2).2⟩)
  refine { grouped with keys := ?_, held := ?_, once := moved.nodup_iff.mpr once, index := ?_, marked := ?_, given := ?_, du := ?_, many := ?_ }
  · have start : ((X ++ q :: ⟨fk, b1, fn⟩ :: ⟨g.key, b2, g.last⟩ :: Y).map Group.key).head? = some head.key := by
      cases X with
      | nil =>
        rw [List.nil_append, List.cons.injEq] at split
        rw [split.1]
        rfl
      | cons x X =>
        rw [List.cons_append, List.cons.injEq] at split
        rw [split.1]
        rfl
    rw [start]
    exact keys
  · intro h member
    have cases_ : (h ∈ X ++ [q] ∨ h ∈ Y) ∨ h = ⟨fk, b1, fn⟩ ∨ h = ⟨g.key, b2, g.last⟩ := by
      simp only [List.mem_append, List.mem_cons, List.not_mem_nil, or_false] at member ⊢
      tauto
    rcases cases_ with others | rfl | rfl
    · have inside : h ∈ head :: rest := by
        rw [split]
        simp only [List.mem_append, List.mem_cons, List.not_mem_nil, or_false] at others ⊢
        tauto
      obtain ⟨key, notes⟩ := apart h inside
      have other : h.key ≠ g.key := by
        obtain ⟨_, back, across⟩ := List.nodup_append.mp keysSplit
        rcases others with member | member
        · exact across h.key (by
            rw [show X.map Group.key ++ [q.key] = (X ++ [q]).map Group.key by simp]
            exact List.mem_map_of_mem member) g.key (by simp)
        · exact fun same => (List.nodup_cons.mp back).1 (same ▸ List.mem_map_of_mem member)
      refine (heldOf h inside).congr rfl (update_of_ne key _ _) ?_ (fun n member => ⟨update_of_ne (notes n member) _ _, rfl, rfl⟩)
      show update (update s.numnote fk _) g.key _ h.key = _
      rw [update_of_ne other, update_of_ne key]
    · have fkHeld := grouped.held ⟨fk, [], fn⟩ (by simp)
      refine ⟨fkHeld.notice, ?_, ?_, fkHeld.key, fun n member => gHeld.body n (by simp [body, member])⟩
      · show update s.ktime fk bound fk = update s.time fn bound fn
        rw [update_self, update_self]
      · show update (update s.numnote fk _) g.key _ fk = _
        rw [update_of_ne gKey.symm, update_self]
    · refine ⟨gHeld.notice, ?_, update_self .., gHeld.key, fun n member => gHeld.body n (by simp [body, member])⟩
      show update s.ktime fk bound g.key = update s.time fn bound g.last
      rw [update_of_ne gKey, update_of_ne (gNotes g.last (by simp [Group.notes])), gHeld.ktime]
  · obtain ⟨_, indexed⟩ := grouped.index
    have fresh : fi ∉ J ++ [ind] ++ [zi] := by
      have marksOnce := grouped.index.nodup
      rw [List.cons_append, List.nodup_cons] at marksOnce
      simpa using marksOnce.1
    have chain : Linked s.iright (s.iright fi) (J ++ [ind] ++ [zi]) := by simpa [Linked] using indexed
    have linked := DoubleChain.Linked.link chain fresh
    simp only [List.getLast?_concat, linkAfter, firstAfter, reduceCtorEq, if_false] at linked
    have order : J ++ [ind, fi, zi] = J ++ [ind] ++ fi :: [zi] := by simp
    rw [order]
    exact linked
  · show (dummyKeys s (X ++ q :: ⟨fk, b1, fn⟩ :: ⟨g.key, b2, g.last⟩ :: Y)).tail = (J ++ [ind, fi, zi]).map s.ikey
    have order : X ++ q :: ⟨fk, b1, fn⟩ :: ⟨g.key, b2, g.last⟩ :: Y = (X ++ [q]) ++ (⟨fk, b1, fn⟩ :: ⟨g.key, b2, g.last⟩ :: Y) := by simp
    have back : dummyKeys s (⟨fk, b1, fn⟩ :: ⟨g.key, b2, g.last⟩ :: Y) = [s.ikey fi, s.ikey zi] := by
      have same : dummyKeys s (⟨g.key, b2, g.last⟩ :: Y) = [s.ikey zi] := dummiesY
      rw [dummyKeys_cons, same, fkEq, fnDummy]
      rfl
    rw [order, dummyKeys_append, back]
    cases first : dummyKeys s (X ++ [q]) with
    | nil =>
      rw [first] at dummiesX
      simp at dummiesX
    | cons k D =>
      rw [first, List.tail_cons] at dummiesX
      rw [List.cons_append, List.tail_cons, dummiesX]
      simp
  · intro h member
    have cases_ : h ∈ X ++ q :: g :: Y ∨ h = ⟨fk, b1, fn⟩ ∨ h = ⟨g.key, b2, g.last⟩ := by
      simp only [List.mem_append, List.mem_cons] at member ⊢
      tauto
    have givenOf : ∀ h ∈ X ++ q :: g :: Y, h.key ∈ s.keys := by
      intro h member
      rw [← split] at member
      refine grouped.given h ?_
      simp only [List.mem_cons] at member ⊢
      tauto
    rcases cases_ with member | rfl | rfl
    · exact givenOf h member
    · exact grouped.given ⟨fk, [], fn⟩ (by simp)
    · exact givenOf g (by simp)
  · rw [show (J ++ [ind, fi, zi]).length = (fi :: J ++ [ind, zi]).length by simp]
    exact grouped.du
  · rw [show (J ++ [ind, fi, zi]).length = (fi :: J ++ [ind, zi]).length by simp]
    exact grouped.many

end bump

theorem shift_done {fk fn fi ind zi : Nat} {J : List Nat}
    (notes : Doubly s.right s.left (some head.last) (flat (head :: ⟨fk, [], fn⟩ :: rest)))
    (grouped : Grouped s (head :: ⟨fk, [], fn⟩ :: rest) (fi :: J ++ [ind, zi]))
    (ordered : Ordered s (flat (head :: ⟨fk, [], fn⟩ :: rest))) (headBody : head.body = []) (headDummy : s.isdummy head.last = true)
    (fnDummy : s.isdummy fn = true)
    (enough : (flat (head :: ⟨fk, [], fn⟩ :: rest)).length + (fi :: J ++ [ind, zi]).length < fuel) :
    shift fi fuel s = .error .overflow ∨
      ∃ s' groups', shift fi fuel s = .ok s' ∧ Doubly s'.right s'.left (some head.last) (flat groups') ∧ Ordered s' (flat groups') ∧
        Grouped s' groups' (J ++ [ind, fi, zi]) ∧ Shifted s s' (head :: ⟨fk, [], fn⟩ :: rest) groups' ∧
        slack s' (J ++ [ind, fi, zi]) < slack s (fi :: J ++ [ind, zi]) := by
  have marked := grouped.marks_of headDummy
  simp only [dummyKeys_cons, fnDummy, if_true, List.cons_append, List.map_cons, List.cons.injEq] at marked
  obtain ⟨fkEq, marked⟩ := marked
  have restSome : rest ≠ [] := by
    rintro rfl
    simp at marked
  have fkHeld := grouped.held ⟨fk, [], fn⟩ (by simp)
  have once := grouped.once
  have keysOnce := grouped.keys.nodup
  have lists : flat (head :: ⟨fk, [], fn⟩ :: rest) = [head.last] ++ fn :: flat rest := by simp [headBody]
  have others : flat (head :: rest) = [head.last] ++ flat rest := by simp [headBody]
  -- the first interval goes out
  have behind : flat rest ≠ [] := by
    obtain ⟨g, rest, rfl⟩ := List.exists_cons_of_ne_nil restSome
    simp
  rw [lists] at notes once
  obtain ⟨right, left, unlinked, list, _⟩ := unlinkNotice_done notes (by simp) behind
  have keys : Doubly s.kright s.kleft (some head.key) ([head.key] ++ fk :: rest.map Group.key) := grouped.keys
  obtain ⟨kright, kleft, unlinkedKey, keyList⟩ :=
    unlinkKey_done (s := { s with right := right, left := left }) keys (by simp) (by simpa using restSome)
  obtain ⟨_, indexed⟩ := grouped.index
  have found : seek (fun i => (s.iright i).all (fun r => (s.iright r).isSome)) s.iright fuel (s.iright fi) = .ok ind := by
    refine last_but_one indexed ?_
    simp only [List.length_cons, List.length_append] at enough
    omega
  have start : shift fi fuel s = (do
      let s1 : State Event := { s with right := right, left := left, kright := kright, kleft := kleft, index := s.iright fi }
      let nextInt := s.ktime (s.ikey ind) + s.DT
      if INFINITY < nextInt then .error .overflow
      else do
        let k ← seek (fun k => s.ktime k < nextInt) kright fuel (some (s.ikey ind))
        let counted ← countBack s1 nextInt fuel 1 (left (s.notice k))
        let ctr := counted.1
        let n ← deref (right counted.2)
        let s2 := { s1 with
          iright := update (update s.iright fi (s.iright ind)) ind (some fi)
          ktime := update s.ktime fk nextInt
          numnote := update (update s.numnote fk (s.numnote k - ctr + 1)) k ctr
          time := update s.time fn nextInt }
        let s3 ← linkKey fk k s2
        linkBefore fn n s3) := by
    unfold shift
    simp only [← fkEq, fkHeld.notice, unlinked, ok_bind, unlinkedKey, found]
  rw [start]
  by_cases fits : s.ktime (s.ikey ind) + s.DT ≤ INFINITY
  case neg =>
    left
    simp only [not_le] at fits
    simp only [fits, if_true]
  right
  obtain ⟨X, q, g, Y, split, early, late, _, ⟨d, U, V, splitD, dKey⟩, dummiesX, dummiesY, fnEarly⟩ :=
    bound_found grouped ordered headDummy fnDummy fits
  have times : (flat (head :: rest)).Pairwise (fun a b => s.time a ≤ s.time b) := by
    have all := Ordered.times ordered
    rw [lists] at all
    rw [others]
    exact all.sublist ((List.Sublist.refl _).append (List.sublist_cons_self ..))
  rw [split] at times
  have earlyQ := early q (by simp)
  obtain ⟨b1, b2, X1, n2, body, front, frontEarly, backLate⟩ := place_found (t := s.ktime (s.ikey ind) + s.DT - 1) times (by omega) (by omega)
  obtain ⟨c, R2, next⟩ := List.exists_cons_of_ne_nil (show b2 ++ g.last :: flat Y ≠ [] by simp)
  have flatSplit : flat (head :: rest) = (X1 ++ [n2]) ++ (b2 ++ g.last :: flat Y) := by
    rw [split, ← front]
    simp [body]
  have keysSplit : (head :: rest).map Group.key = X.map Group.key ++ q.key :: g.key :: Y.map Group.key := by simp [split]
  have keyTime : ∀ h ∈ head :: rest, s.ktime h.key = s.time h.last := by
    intro h member
    refine (grouped.held h ?_).ktime
    simp only [List.mem_cons] at member ⊢
    tauto
  have gMember : g ∈ head :: rest := by simp [split]
  have gHeld : Held s g := grouped.held g (by
    simp only [List.mem_cons] at gMember ⊢
    tauto)
  have keyList' : Doubly kright kleft (some head.key) (X.map Group.key ++ q.key :: g.key :: Y.map Group.key) := keysSplit ▸ keyList
  have list' : Doubly right left (some head.last) ((X1 ++ [n2]) ++ (b2 ++ g.last :: flat Y)) := by
    rw [← flatSplit, others]
    exact list
  have sizes : (flat (head :: ⟨fk, [], fn⟩ :: rest)).length = (X1 ++ [n2]).length + (b2 ++ g.last :: flat Y).length + 1 := by
    rw [← List.length_append, ← flatSplit, lists, others]
    simp
  have seekKey : seek (fun k => s.ktime k < s.ktime (s.ikey ind) + s.DT) kright fuel (some (s.ikey ind)) = .ok g.key := by
    have shape : X.map Group.key ++ q.key :: g.key :: Y.map Group.key = U.map Group.key ++ d.key :: (V.map Group.key ++ g.key :: Y.map Group.key) := by
      have split' : X.map Group.key ++ [q.key] = U.map Group.key ++ d.key :: V.map Group.key := by
        have mapped := congrArg (List.map Group.key) splitD
        simpa using mapped
      rw [show X.map Group.key ++ q.key :: g.key :: Y.map Group.key = (X.map Group.key ++ [q.key]) ++ g.key :: Y.map Group.key by simp, split']
      simp
    have ahead := (shape ▸ keyList').onward
    rw [← dKey]
    refine seek_found (l := d.key :: V.map Group.key) (by simpa using ahead) ?_ ?_ ?_
    · intro k member
      rw [← List.map_cons] at member
      obtain ⟨h, inside, rfl⟩ := List.mem_map.mp member
      have hMember : h ∈ X ++ [q] := by
        rw [splitD]
        exact List.mem_append_right _ inside
      have hTime := keyTime h (by
        rw [split, show X ++ q :: g :: Y = (X ++ [q]) ++ g :: Y by simp]
        exact List.mem_append_left _ hMember)
      have := early h hMember
      rw [hTime, dKey]
      simpa using this
    · rw [keyTime g gMember, dKey]
      simpa using late
    · have count := length_keys (head :: ⟨fk, [], fn⟩ :: rest)
      have count' := congrArg List.length split
      have count'' := congrArg List.length splitD
      simp only [List.length_cons, List.length_append, List.length_map, List.length_nil] at count count' count'' enough ⊢
      omega
  have counted : ∀ s1 : State Event, s1.left = left → s1.time = s.time →
      countBack s1 (s.ktime (s.ikey ind) + s.DT) fuel 1 (left g.last) = .ok (1 + (b2.reverse.length : Int), n2) := by
    rintro s1 rfl sameTime
    have shape : (X1 ++ [n2]) ++ (b2 ++ g.last :: flat Y) = ((X1 ++ [n2]) ++ b2) ++ g.last :: flat Y := by simp
    have backward := (shape ▸ list').backward_from.2
    refine countBack_found (show Linked _ _ (b2.reverse ++ n2 :: X1.reverse) by simpa [Linked] using backward) ?_ ?_ ?_
    · intro b member
      have := backLate b (by simp [List.mem_reverse.mp member])
      rw [sameTime]
      omega
    · have := frontEarly n2 (by simp)
      rw [sameTime]
      omega
    · simp only [List.length_append, List.length_cons, List.length_nil] at sizes enough
      rw [List.length_reverse]
      omega
  have chained : Doubly right left (some head.last) (X1 ++ n2 :: c :: R2) := by
    rw [next] at list'
    simpa using list'
  have nextC : right n2 = some c := chained.next_eq
  -- the first interval comes back with the new bound
  have fkFresh : fk ∉ X.map Group.key ++ q.key :: g.key :: Y.map Group.key := by
    rw [← keysSplit]
    have apart : [head.key] ++ fk :: rest.map Group.key = (head :: ⟨fk, [], fn⟩ :: rest).map Group.key := rfl
    rw [← apart] at keysOnce
    exact (List.nodup_cons.mp (List.nodup_middle.mp keysOnce)).1
  have fnFresh : fn ∉ X1 ++ n2 :: c :: R2 := by
    have same : X1 ++ n2 :: c :: R2 = [head.last] ++ flat rest := by
      rw [← others, flatSplit, next]
      simp
    rw [same]
    exact (List.nodup_cons.mp (List.nodup_middle.mp once)).1
  have counts : s.numnote g.key - ((b2.length : Int) + 1) + 1 = b1.length + 1 ∧ 1 + (b2.reverse.length : Int) = b2.length + 1 := by
    rw [gHeld.numnote, body, List.length_reverse, List.length_append]
    push_cast
    omega
  obtain ⟨kright', kleft', linkedKey, keyList''⟩ := linkKey_done
    (s := { bumped fi ind fk fn g.key (s.ktime (s.ikey ind) + s.DT) (b1.length + 1) (b2.length + 1) s with
      right := right, left := left, kright := kright, kleft := kleft }) keyList' fkFresh
  obtain ⟨right', left', linkedNotice, list''⟩ := linkBefore_done
    (s := { bumped fi ind fk fn g.key (s.ktime (s.ikey ind) + s.DT) (b1.length + 1) (b2.length + 1) s with
      right := right, left := left, kright := kright', kleft := kleft' }) chained fnFresh
  have flatNew : flat (X ++ q :: ⟨fk, b1, fn⟩ :: ⟨g.key, b2, g.last⟩ :: Y) = (X1 ++ [n2]) ++ fn :: (b2 ++ g.last :: flat Y) := by
    rw [← front]
    simp
  have flatNew' : flat (X ++ q :: ⟨fk, b1, fn⟩ :: ⟨g.key, b2, g.last⟩ :: Y) = X1 ++ n2 :: fn :: c :: R2 := by
    rw [flatNew, next]
    simp
  have dt := grouped.dt
  have gains : s.time fn < s.ktime (s.ikey ind) + s.DT := by omega
  rw [lists] at ordered
  have ordered' : Ordered (bumped fi ind fk fn g.key (s.ktime (s.ikey ind) + s.DT) (b1.length + 1) (b2.length + 1) s)
      ((X1 ++ [n2]) ++ fn :: (b2 ++ g.last :: flat Y)) :=
    bumped_ordered ordered once (show head.last :: flat rest = (X1 ++ [n2]) ++ (b2 ++ g.last :: flat Y) by rw [← flatSplit, others]; rfl)
      (fun a member => by have := frontEarly a member; omega) (fun b member => by have := backLate b member; omega)
      (by simp) (by simp) behind fnDummy
  have grouped' : Grouped { bumped fi ind fk fn g.key (s.ktime (s.ikey ind) + s.DT) (b1.length + 1) (b2.length + 1) s with
      kright := kright', kleft := kleft' } (X ++ q :: ⟨fk, b1, fn⟩ :: ⟨g.key, b2, g.last⟩ :: Y) (J ++ [ind, fi, zi]) :=
    bumped_grouped grouped headDummy fnDummy split body dummiesX dummiesY (by simpa using keyList'')
  have counted1 := counted { s with right := right, left := left, kright := kright, kleft := kleft, index := s.iright fi } rfl rfl
  refine ⟨{ bumped fi ind fk fn g.key (s.ktime (s.ikey ind) + s.DT) (b1.length + 1) (b2.length + 1) s with
      right := right', left := left', kright := kright', kleft := kleft' },
    X ++ q :: ⟨fk, b1, fn⟩ :: ⟨g.key, b2, g.last⟩ :: Y, ?_, ?_, ?_, ?_, ⟨rfl, rfl, rfl, rfl, rfl, ?_, ?_, ?_⟩, ?_⟩
  · simp only [if_neg (not_lt.mpr fits), seekKey, ok_bind, gHeld.notice, counted1, nextC, deref, counts]
    exact (congrArg (fun r => r >>= fun s3 => linkBefore fn c s3) linkedKey).trans linkedNotice
  · rw [flatNew']
    exact list''
  · rw [flatNew]
    exact ⟨ordered'.sorted, ordered'.front, ordered'.final, ordered'.notices⟩
  · exact { grouped' with held := fun g member => (grouped'.held g member).congr rfl rfl rfl (fun _ _ => ⟨rfl, rfl, rfl⟩) }
  · intro n isReal
    have other : n ≠ fn := by
      rintro rfl
      rw [fnDummy] at isReal
      cases isReal
    exact update_of_ne other _ _
  · have hidden : real s fn = false := by simp [real, fnDummy]
    have same : X1 ++ [n2] ++ (b2 ++ g.last :: flat Y) = [head.last] ++ flat rest := by rw [← flatSplit, others]
    rw [flatNew, lists, filter_without hidden, filter_without hidden, same]
  · rw [flatNew, sizes]
    simp only [List.length_append, List.length_cons, List.length_nil]
    omega
  · have gained : slack (bumped fi ind fk fn g.key (s.ktime (s.ikey ind) + s.DT) (b1.length + 1) (b2.length + 1) s) (J ++ [ind, fi, zi]) <
        slack s (fi :: J ++ [ind, zi]) := bumped_slack grouped headDummy fnDummy gains fits
    exact gained

theorem current_least {c x : Nat} (rep : Rep s groups marks) (current : s.current = some c) (inside : x ∈ flat groups) (isReal : s.isdummy x = false) :
    s.time c ≤ s.time x := by
  obtain ⟨_, P, S, shape, passes⟩ := List.find?_eq_some_iff_append.mp (rep.current.symm.trans current)
  have sorted := rep.ordered.sorted
  rw [shape] at sorted inside
  rcases List.mem_append.mp inside with member | member
  · have hidden := passes x member
    simp [real, isReal] at hidden
  · rcases List.mem_cons.mp member with rfl | member
    · exact le_refl _
    · exact ((List.pairwise_cons.mp (List.pairwise_append.mp sorted).2.1).1 x member).1

theorem first_interval {c fi : Nat} {M : List Nat} (rep : Rep s groups (fi :: M)) (current : s.current = some c)
    (expired : s.ktime (s.ikey fi) < s.time c) :
    ∃ head fk fn rest, groups = head :: ⟨fk, [], fn⟩ :: rest ∧ head.body = [] ∧ s.isdummy head.last = true ∧ s.isdummy fn = true := by
  obtain ⟨head, rest0, rfl, headBody, headDummy, _⟩ := rep.grouped.front_dummy rep.ordered
  have marked := rep.grouped.marks_of headDummy
  cases rest0 with
  | nil => cases marked
  | cons g0 rest =>
    obtain ⟨e, eInside, eDummy, eKey⟩ : ∃ e ∈ g0 :: rest, s.isdummy e.last = true ∧ e.key = s.ikey fi :=
      mem_dummyKeys.mp (by rw [marked]; simp)
    have eTime : s.time e.last < s.time c := by
      rw [← (rep.grouped.held e (List.mem_cons_of_mem _ eInside)).ktime, eKey]
      exact expired
    have dummies : ∀ x ∈ g0.notes, s.isdummy x = true := by
      intro x member
      by_contra isReal
      simp only [Bool.not_eq_true] at isReal
      have inside : x ∈ flat (head :: g0 :: rest) := mem_flat.mpr ⟨g0, by simp, member⟩
      have least := current_least rep current inside isReal
      have sorted := rep.ordered.sorted
      have shape : flat (head :: g0 :: rest) = head.notes ++ (g0.body ++ g0.last :: flat rest) := by simp [Group.notes]
      rw [shape] at sorted
      have sorted' := (List.pairwise_append.mp sorted).2.1
      have before : s.time x ≤ s.time e.last := by
        rcases List.mem_cons.mp eInside with rfl | eInside
        · rcases List.mem_append.mp member with member | member
          · exact ((List.pairwise_append.mp sorted').2.2 x member e.last (by simp)).1
          · rw [List.mem_singleton.mp member]
        · have later : e.last ∈ flat rest := mem_flat.mpr ⟨e, eInside, by simp [Group.notes]⟩
          rcases List.mem_append.mp member with member | member
          · exact ((List.pairwise_append.mp sorted').2.2 x member e.last (List.mem_cons_of_mem _ later)).1
          · rw [List.mem_singleton.mp member]
            exact ((List.pairwise_cons.mp (List.pairwise_append.mp sorted').2.1).1 e.last later).1
      omega
    have body : g0.body = [] := by
      rcases List.eq_nil_or_concat g0.body with nothing | ⟨b, x, some_⟩
      · exact nothing
      · rw [List.concat_eq_append] at some_
        have isReal := ((rep.grouped.held g0 (by simp)).body x (by simp [some_])).2
        rw [dummies x (by simp [Group.notes, some_])] at isReal
        cases isReal
    refine ⟨head, g0.key, g0.last, rest, ?_, headBody, headDummy, dummies g0.last (by simp [Group.notes])⟩
    rw [← body]

theorem Shifted.trans {s1 s2 s3 : State Event} {groups1 groups2 groups3 : List Group} (first : Shifted s1 s2 groups1 groups2)
    (second : Shifted s2 s3 groups2 groups3) : Shifted s1 s3 groups1 groups3 where
  isdummy := second.isdummy.trans first.isdummy
  id := second.id.trans first.id
  event := second.event.trans first.event
  current := second.current.trans first.current
  lb := second.lb.trans first.lb
  time := fun n isReal => (second.time n (by rw [first.isdummy]; exact isReal)).trans (first.time n isReal)
  reals := by
    have same : real s2 = real s1 := by
      funext n
      simp [real, first.isdummy]
    rw [← first.reals, ← same]
    exact second.reals
  size := second.size.trans first.size

theorem before_end {L : List Nat} {x : Nat} (ordered : Ordered s L) (inside : x ∈ L) (isReal : s.isdummy x = false) : s.time x < INFINITY := by
  obtain ⟨n, last, dummy, time⟩ := ordered.final
  obtain ⟨P, rfl⟩ := List.getLast?_eq_some_iff.mp last
  rcases List.mem_append.mp inside with member | member
  · have before := ordered.le member (List.mem_singleton_self n)
    rw [← time]
    exact before.2 isReal dummy
  · rw [List.mem_singleton.mp member, dummy] at isReal
    cases isReal

theorem current_mem {c : Nat} (rep : Rep s groups marks) (current : s.current = some c) : c ∈ flat groups ∧ s.isdummy c = false := by
  have found := rep.current.symm.trans current
  have isReal := List.find?_some found
  simp only [real, Bool.not_eq_true'] at isReal
  exact ⟨List.mem_of_find?_eq_some found, isReal⟩

theorem turn_done {c fi : Nat} {M : List Nat} (rep : Rep s groups (fi :: M)) (current : s.current = some c)
    (expired : s.ktime (s.ikey fi) < s.time c) (enough : (flat groups).length + (fi :: M).length < fuel) :
    shift fi fuel s = .error .overflow ∨
      ∃ s' groups' marks', shift fi fuel s = .ok s' ∧ Rep s' groups' marks' ∧ Shifted s s' groups groups' ∧
        marks'.length = (fi :: M).length ∧ slack s' marks' < slack s (fi :: M) := by
  obtain ⟨head, fk, fn, rest, rfl, headBody, headDummy, fnDummy⟩ := first_interval rep current expired
  have many := rep.grouped.many
  obtain ⟨J, ind, zi, rfl⟩ : ∃ J ind zi, M = J ++ [ind, zi] := by
    rcases List.eq_nil_or_concat M with rfl | ⟨M, zi, rfl⟩
    · simp at many
    · rcases List.eq_nil_or_concat M with rfl | ⟨J, ind, rfl⟩
      · simp at many
      · exact ⟨J, ind, zi, by simp [List.concat_eq_append]⟩
  have start : (flat (head :: ⟨fk, [], fn⟩ :: rest)).head? = some head.last := by simp [headBody]
  have notes := rep.notes
  rw [start] at notes
  rcases shift_done notes rep.grouped rep.ordered headBody headDummy fnDummy enough with
    stopped | ⟨s', groups', run, list, ordered, grouped, shifted, less⟩
  · exact .inl stopped
  · refine .inr ⟨s', groups', _, run, ⟨?_, ordered, grouped, ?_⟩, shifted, by simp, less⟩
    · have same : (flat groups').head? = some head.last := by
        have first := list.forward.head
        exact first.symm
      rw [same]
      exact list
    · have sameReal : real s' = real s := by
        funext n
        simp [real, shifted.isdummy]
      rw [shifted.current, rep.current, sameReal, ← List.head?_filter, ← List.head?_filter, shifted.reals]

theorem shifts_done {c : Nat} (rep : Rep s groups marks) (current : s.current = some c)
    (enough : (flat groups).length + marks.length < fuel) (turns : Nat) (turnsEnough : slack s marks ≤ turns) :
    shifts c fuel turns s = .error .overflow ∨
      ∃ s' groups' marks', shifts c fuel turns s = .ok s' ∧ Rep s' groups' marks' ∧ Shifted s s' groups groups' := by
  induction turns generalizing s groups marks with
  | zero =>
    obtain ⟨fi, M, rfl⟩ := List.exists_cons_of_ne_nil (show marks ≠ [] from fun nothing => by
      have many := rep.grouped.many
      simp [nothing] at many)
    have index : s.index = some fi := rep.grouped.index.1
    obtain ⟨inside, isReal⟩ := current_mem rep current
    have bound := before_end rep.ordered inside isReal
    unfold slack at turnsEnough
    rw [List.map_cons, List.sum_cons] at turnsEnough
    have fine : ¬ s.ktime (s.ikey fi) < s.time c := by omega
    unfold shifts
    simp only [index, deref, ok_bind, if_neg fine]
    exact .inr ⟨s, groups, _, rfl, rep, ⟨rfl, rfl, rfl, rfl, rfl, fun _ _ => rfl, rfl, rfl⟩⟩
  | succ turns ih =>
    obtain ⟨fi, M, rfl⟩ := List.exists_cons_of_ne_nil (show marks ≠ [] from fun nothing => by
      have many := rep.grouped.many
      simp [nothing] at many)
    have index : s.index = some fi := rep.grouped.index.1
    unfold shifts
    by_cases expired : s.ktime (s.ikey fi) < s.time c
    case neg =>
      simp only [index, deref, ok_bind, if_neg expired]
      exact .inr ⟨s, groups, _, rfl, rep, ⟨rfl, rfl, rfl, rfl, rfl, fun _ _ => rfl, rfl, rfl⟩⟩
    have notTwo : s.DU ≠ 2 := by
      have many := rep.grouped.many
      have du := rep.grouped.du
      omega
    simp only [index, deref, ok_bind, if_pos expired, if_neg notTwo]
    rcases turn_done rep current expired enough with stopped | ⟨s1, groups1, marks1, run, rep1, shifted1, sizes, less⟩
    · rw [stopped]
      exact .inl rfl
    · rw [run, ok_bind]
      rcases ih rep1 (shifted1.current.trans current) (by rw [shifted1.size, sizes]; exact enough) (by omega) with
        stopped | ⟨s', groups', marks', run', rep', shifted'⟩
      · exact .inl stopped
      · exact .inr ⟨s', groups', marks', run', rep', shifted1.trans shifted'⟩

theorem current_group {c : Nat} (rep : Rep s groups marks) (current : s.current = some c) :
    ∃ A g B, groups = A ++ g :: B ∧ (∀ n ∈ flat A, s.isdummy n = true) ∧ s.isdummy c = false ∧
      ((∃ b2, g.body = c :: b2) ∨ g.body = [] ∧ g.last = c) := by
  obtain ⟨inside, isReal⟩ := current_mem rep current
  obtain ⟨g, member, own⟩ := mem_flat.mp inside
  obtain ⟨A, B, rfl⟩ := List.append_of_mem member
  have found := rep.current.symm.trans current
  have once := rep.grouped.once
  rw [flat_append, flat_cons] at found once
  rw [List.find?_append] at found
  have apart : c ∉ flat A := by
    intro early
    refine (List.nodup_append.mp once).2.2 c early c ?_ rfl
    simp only [Group.notes, List.mem_append, List.mem_cons, List.not_mem_nil, or_false] at own ⊢
    tauto
  have nothing : (flat A).find? (real s) = none := by
    cases early : (flat A).find? (real s) with
    | none => rfl
    | some y =>
      rw [early, Option.some_or, Option.some.injEq] at found
      exact absurd (found ▸ List.mem_of_find?_eq_some early) apart
  rw [nothing, Option.none_or] at found
  refine ⟨A, g, B, rfl, fun n member => ?_, isReal, ?_⟩
  · simpa [real] using List.find?_eq_none.mp nothing n member
  · cases body : g.body with
    | nil =>
      simp only [Group.notes, body, List.nil_append, List.mem_singleton] at own
      exact .inr ⟨rfl, own.symm⟩
    | cons x b2 =>
      have xReal := ((rep.grouped.held g (by simp)).body x (by simp [body])).2
      rw [body, List.cons_append, List.find?_cons_of_pos (by simp [real, xReal]), Option.some.injEq] at found
      exact .inl ⟨b2, by rw [found]⟩

structure Taken (c : Nat) (s s' : State Event) (groups groups' : List Group) : Prop where
  isdummy : s'.isdummy = s.isdummy
  id : s'.id = s.id
  event : s'.event = s.event
  lb : s'.LB = s.LB
  time : ∀ n, s.isdummy n = false → s'.time n = s.time n
  reals : (flat groups).filter (real s) = c :: (flat groups').filter (real s)

theorem takeFromKey_done {c : Nat} {b2 : List Nat} (grouped : Grouped s (A ++ g :: B) marks) (ordered : Ordered s (flat (A ++ g :: B)))
    (isReal : s.isdummy c = false) (place : g.body = c :: b2 ∨ g.body = [] ∧ g.last = c) :
    ∃ numnote kright kleft keys groups', takeFromKey g.key s = .ok { s with numnote := numnote, kright := kright, kleft := kleft, keys := keys } ∧
      Grouped { s with numnote := numnote, kright := kright, kleft := kleft, keys := keys } groups' marks ∧
      ∃ S, flat (A ++ g :: B) = flat A ++ c :: S ∧ flat groups' = flat A ++ S := by
  have held := grouped.held g (by simp)
  rcases place with body | ⟨body, rfl⟩
  · have some_ : s.numnote g.key - 1 ≠ 0 := by
      rw [held.numnote, body, List.length_cons]
      push_cast
      omega
    refine ⟨update s.numnote g.key (s.numnote g.key - 1), s.kright, s.kleft, s.keys, _, ?_, Grouped.lose [] grouped body, ?_⟩
    · simp only [takeFromKey, update_self, if_neg some_]
    · exact ⟨b2 ++ g.last :: flat B, by simp [body], by simp⟩
  · have none_ : s.numnote g.key - 1 = 0 := by
      rw [held.numnote, body]
      rfl
    obtain ⟨kright, kleft, run, grouped'⟩ := Grouped.lose_all grouped ordered body isReal
      (update s.numnote g.key (s.numnote g.key - 1)) (fun k other => update_of_ne other _ _)
    refine ⟨_, kright, kleft, _, _, ?_, grouped', ⟨flat B, by simp [body], by simp⟩⟩
    simp only [takeFromKey, update_self, if_pos none_, run, ok_bind]
    rfl

theorem elFirst_done {c : Nat} (rep : Rep s groups marks) (current : s.current = some c)
    (enough : (flat groups).length + marks.length + slack s marks < fuel) :
    elFirst fuel s = .error .overflow ∨
      ∃ s' groups' marks', elFirst fuel s = .ok (s', s.event c) ∧ Rep s' groups' marks' ∧ Taken c s s' groups groups' := by
  have indexed : ∃ fi, s.index = some fi := by
    obtain ⟨fi, M, shape⟩ := List.exists_cons_of_ne_nil (show marks ≠ [] from fun nothing => by
      have many := rep.grouped.many
      simp [nothing] at many)
    have linked := rep.grouped.index
    rw [shape] at linked
    exact ⟨fi, linked.1⟩
  obtain ⟨fi, index⟩ := indexed
  unfold elFirst
  simp only [index, current]
  rcases shifts_done rep current (show (flat groups).length + marks.length < fuel by omega) fuel (by omega) with
    stopped | ⟨s1, groups1, marks1, run, rep1, shifted⟩
  · rw [stopped]
    exact .inl rfl
  right
  rw [run, ok_bind]
  obtain ⟨A, g, B, rfl, dummies, isReal, place⟩ := current_group rep1 (shifted.current.trans current)
  obtain ⟨b2, place⟩ : ∃ b2, g.body = c :: b2 ∨ g.body = [] ∧ g.last = c := by
    rcases place with ⟨b2, body⟩ | place
    · exact ⟨b2, .inl body⟩
    · exact ⟨[], .inr place⟩
  obtain ⟨S, before⟩ : ∃ S, flat (A ++ g :: B) = flat A ++ c :: S := by
    rcases place with body | ⟨body, rfl⟩
    · exact ⟨b2 ++ g.last :: flat B, by simp [body]⟩
    · exact ⟨flat B, by simp [body]⟩
  have notes := rep1.notes
  have ordered := rep1.ordered
  have size := shifted.size
  rw [before] at notes ordered size
  obtain ⟨front, behind⟩ := Ordered.inside ordered isReal
  obtain ⟨right, left, unlinked, list, ahead⟩ := unlinkNotice_done notes front behind
  have grouped2 : Grouped { s1 with right := right, left := left } (A ++ g :: B) marks1 :=
    { rep1.grouped with held := fun h member => (rep1.grouped.held h member).congr rfl rfl rfl (fun _ _ => ⟨rfl, rfl, rfl⟩) }
  have ordered2 : Ordered { s1 with right := right, left := left } (flat (A ++ g :: B)) :=
    ⟨rep1.ordered.sorted, rep1.ordered.front, rep1.ordered.final, rep1.ordered.notices⟩
  obtain ⟨numnote, kright, kleft, keys, groups', taken, grouped', S', before', after'⟩ :=
    takeFromKey_done grouped2 ordered2 isReal place
  obtain rfl : S' = S := by
    rw [before] at before'
    exact (List.cons.inj (List.append_cancel_left before')).2.symm
  have gHeld := rep1.grouped.held g (by simp)
  have found : seek (fun n => (s1.key n).isNone) right fuel (some c) = .ok g.last := by
    simp only [List.length_append, List.length_cons] at size
    rcases place with body | ⟨body, rfl⟩
    · have shape : c :: S' = (c :: b2) ++ g.last :: flat B := by
        have lists : flat (A ++ g :: B) = flat A ++ (c :: b2 ++ g.last :: flat B) := by simp [body]
        exact List.append_cancel_left (before.symm.trans lists)
      have lengths := congrArg List.length shape
      simp only [List.length_append, List.length_cons] at lengths
      rw [shape] at ahead
      exact key_ahead [] (c :: b2) gHeld (by simpa using body) ahead (by rw [List.length_cons]; omega)
    · exact key_ahead [] [] gHeld (by simpa using body) ahead (by rw [List.length_nil]; omega)
  have skipped : skip s1.isdummy right fuel (right c) = .ok (S'.find? (fun n => !s1.isdummy n)) := by
    refine skip_find (show Linked right (right c) S' from ahead.2) ?_
    simp only [List.length_append, List.length_cons] at size
    omega
  refine ⟨{ freeNotice c s1 with
      right := right, left := left, numnote := numnote, kright := kright, kleft := kleft, keys := keys
      current := S'.find? (fun n => !s1.isdummy n) }, groups', marks1, ?_, ⟨?_, ?_, ?_, ?_⟩, ?_⟩
  · simp only [unlinked, ok_bind, found, gHeld.key, deref, taken, skipped]
    rw [← shifted.event]
    rfl
  · have start : (flat A ++ c :: S').head? = (flat groups').head? := by
      obtain ⟨a, rest, shape⟩ := List.exists_cons_of_ne_nil front
      rw [after', shape]
      rfl
    rw [← start, after']
    exact list
  · have kept := Ordered.without ordered isReal (before ▸ rep1.grouped.once)
    rw [after']
    exact ⟨kept.sorted, kept.front, kept.final, kept.notices⟩
  · exact { grouped' with held := fun h member => (grouped'.held h member).congr rfl rfl rfl (fun _ _ => ⟨rfl, rfl, rfl⟩) }
  · have nothing : (flat A).find? (real s1) = none := List.find?_eq_none.mpr (fun n member => by simp [real, dummies n member])
    show S'.find? (real s1) = (flat groups').find? (real s1)
    rw [after', List.find?_append, nothing, Option.none_or]
  · refine ⟨shifted.isdummy, shifted.id, shifted.event, shifted.lb, shifted.time, ?_⟩
    have same : real s = real s1 := by
      funext n
      simp [real, shifted.isdummy]
    have nothing : (flat A).filter (real s1) = [] := List.filter_eq_nil_iff.mpr (fun n member => by simp [real, dummies n member])
    rw [← shifted.reals, same, before, after', List.filter_append, List.filter_append, nothing,
      List.filter_cons_of_pos (by simp [real, isReal])]
    rfl

end Svr4.ElmFirst
