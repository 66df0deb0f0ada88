import Svr4.Tsort

/-! The search of `findloop` ends on a cycle when every live node has a live predecessor. -/

namespace Svr4.Proofs.TsortOrder
open Tsort Function Relation

variable {n : Nat} {inedges : Nat → List Nat} {alive : Nat → Prop}

def Edge (inedges : Nat → List Nat) (alive : Nat → Prop) (i j : Nat) : Prop := i ∈ inedges j ∧ alive i ∧ alive j

structure Searching (n : Nat) (inedges : Nat → List Nat) (alive : Nat → Prop) (s : State) : Prop where
  edges : s.inedges = inedges
  living : ∀ i, s.live i ≠ .dead ↔ alive i
  inside : ∀ i, alive i → i < n
  fed : ∀ j, alive j → ∃ i ∈ inedges j, alive i

def unvisited (n : Nat) (s : State) : Nat := ((Finset.range n).filter fun i => s.live i = .live).card

def visit (i : Nat) (s : State) : State := { s with live := update s.live i .visited }

theorem Searching.visit {s : State} {i : Nat} (searching : Searching n inedges alive s) (living : alive i) :
    Searching n inedges alive (visit i s) := by
  refine { searching with living := fun j => ?_ }
  by_cases same : j = i
  · subst same
    simp [TsortOrder.visit, living]
  · simpa [TsortOrder.visit, update_of_ne same] using searching.living j

theorem unvisited_visit {s : State} {i : Nat} (inside : i < n) (live : s.live i = .live) : unvisited n (visit i s) < unvisited n s := by
  have fewer : i ∉ (Finset.range n).filter fun j => (visit i s).live j = .live := by
    rw [Finset.mem_filter, visit]
    simp
  refine Finset.card_lt_card ((Finset.ssubset_iff_of_subset fun j member => ?_).mpr ⟨i, by simp [inside, live], fewer⟩)
  rw [Finset.mem_filter] at member ⊢
  refine ⟨member.1, ?_⟩
  have other : j ≠ i := by
    rintro rfl
    exact absurd member.2 (by simp [visit])
  simpa [visit, update_of_ne other] using member.2

structure Found (inedges : Nat → List Nat) (alive : Nat → Prop) (s s' : State) (j : Nat) : Prop where
  cycle : TransGen (Edge inedges alive) j j
  name : s'.name = s.name
  edges : s'.inedges = s.inedges
  marks : ∀ k, s'.live k = s.live k ∨ s.live k = .live ∧ s'.live k = .visited

theorem Found.visited {s s' : State} {i j : Nat} (found : Found inedges alive (visit i s) s' j) (live : s.live i = .live) :
    Found inedges alive s s' j := by
  refine { found with marks := fun k => ?_ }
  by_cases same : k = i
  · subst same
    right
    obtain kept | ⟨fresh, _⟩ := found.marks k
    · exact ⟨live, by simpa [visit] using kept⟩
    · simp [visit] at fresh
  · simpa [visit, update_of_ne same] using found.marks k

theorem markPreds_found {time : Nat} {s : State} {preds : List Nat} (living : ∃ p ∈ preds, alive p)
    (dead : ∀ p ∈ preds, ¬ alive p → mark time s p = .ok (s, none))
    (each : ∀ p ∈ preds, alive p → ∃ s' j, mark time s p = .ok (s', some j) ∧ Found inedges alive s s' j) :
    ∃ s' j, markPreds (mark time) preds s = .ok (s', some j) ∧ Found inedges alive s s' j := by
  induction preds with
  | nil => simp at living
  | cons p preds ih =>
    by_cases living_p : alive p
    · obtain ⟨s', j, run, found⟩ := each p (by simp) living_p
      exact ⟨s', j, by simp [markPreds, run, bind, Except.bind, pure, Except.pure], found⟩
    · have rest : ∃ q ∈ preds, alive q := by
        obtain ⟨q, member, living_q⟩ := living
        obtain rfl | later := List.mem_cons.mp member
        · exact absurd living_q living_p
        · exact ⟨q, later, living_q⟩
      obtain ⟨s', j, run, found⟩ := ih rest (fun q member => dead q (by simp [member])) (fun q member => each q (by simp [member]))
      exact ⟨s', j, by simp [markPreds, dead p (by simp) living_p, run, bind, Except.bind], found⟩

/-- A search that comes again to a node has found a cycle, as it has only gone from nodes to their predecessors. -/
theorem mark_found (time : Nat) {s : State} {i : Nat} (searching : Searching n inedges alive s) (living : alive i)
    (ahead : ∀ v, s.live v = .visited → TransGen (Edge inedges alive) i v) (enough : unvisited n s < time) :
    ∃ s' j, mark time s i = .ok (s', some j) ∧ Found inedges alive s s' j := by
  induction time generalizing s i with
  | zero => exact absurd enough (Nat.not_lt_zero _)
  | succ time ih =>
    have not_dead : s.live i ≠ .dead := (searching.living i).mpr living
    by_cases visited : s.live i = .visited
    · exact ⟨s, i, by simp [mark, visited], ahead i visited, rfl, rfl, fun k => .inl rfl⟩
    have live : s.live i = .live := by cases h : s.live i <;> simp_all
    have fewer := unvisited_visit (searching.inside i living) live
    have searching' := searching.visit living
    have step : mark (time + 1) s i = markPreds (mark time) (inedges i) (visit i s) := by
      simp [mark, live, visit, searching.edges]
    rw [step]
    obtain ⟨s', j, run, found⟩ := @markPreds_found inedges alive time (visit i s) (inedges i) (searching.fed i living)
      (fun p member dead_p => by
        obtain ⟨time, rfl⟩ : ∃ less, time = less + 1 := ⟨time - 1, by omega⟩
        have gone : (visit i s).live p = .dead := by
          by_contra other
          exact dead_p ((searching'.living p).mp other)
        simp [mark, gone])
      (fun p member living_p => by
        have edge : Edge inedges alive p i := ⟨member, living_p, living⟩
        refine ih searching' living_p (fun v seen => ?_) (by omega)
        by_cases same : v = i
        · exact same ▸ .single edge
        · exact .head edge (ahead v (by simpa [visit, update_of_ne same] using seen)))
    exact ⟨s', j, run, found.visited live⟩

theorem findloop_found {time : Nat} {s : State} (searching : Searching s.name.length s.inedges alive s) (unmarked : ∀ i, s.live i ≠ .visited)
    (living : ∃ i, alive i) (enough : s.name.length < time) :
    ∃ i, findloop time s = .ok (s, i) ∧ TransGen (Edge s.inedges alive) i i := by
  obtain ⟨i, first⟩ : ∃ i, (List.range s.name.length).find? (fun i => s.live i = .live) = some i := by
    rw [← Option.isSome_iff_exists, List.find?_isSome]
    obtain ⟨i, living⟩ := living
    refine ⟨i, List.mem_range.mpr (searching.inside i living), ?_⟩
    have not_dead := (searching.living i).mpr living
    cases state : s.live i <;> simp_all
  have live : s.live i = .live := by simpa using List.find?_some first
  obtain ⟨s', j, run, found⟩ := mark_found time searching ((searching.living i).mp (by simp [live])) (fun v seen => absurd seen (unmarked v))
    (lt_of_le_of_lt ((Finset.card_filter_le _ _).trans (Finset.card_range _).le) enough)
  refine ⟨j, ?_, found.cycle⟩
  have restored : (fun k => if k < s'.name.length ∧ s'.live k = .visited then Live.live else s'.live k) = s.live := by
    funext k
    obtain kept | ⟨old, new⟩ := found.marks k
    · simp [kept, unmarked k]
    · have inside := searching.inside k ((searching.living k).mp (by simp [old]))
      simp [found.name, inside, old, new]
  simp only [findloop, first, Option.getD_some, run, bind, Except.bind, pure, Except.pure]
  rw [restored, found.name, found.edges]

theorem sweep_cases (s : State) (nodes : List Nat) (x : Bool) :
    (∃ i ∈ nodes, s.live i = .live ∧ anypred s i = false ∧ sweep s nodes x = (true, some i)) ∨
      (∀ i ∈ nodes, s.live i = .live → anypred s i = true) ∧ sweep s nodes x = (x || nodes.any fun i => s.live i = .live, none) := by
  induction nodes generalizing x with
  | nil => simp [sweep]
  | cons i nodes ih =>
    by_cases live : s.live i = .live
    · by_cases pred : anypred s i = true
      · obtain ⟨j, member, rest⟩ | ⟨rest, swept⟩ := ih true
        · exact .inl ⟨j, by simp [member], rest.1, rest.2.1, by simpa [sweep, live, pred] using rest.2.2⟩
        · exact .inr ⟨by simpa [live, pred] using rest, by simp [sweep, live, pred, swept]⟩
      · exact .inl ⟨i, by simp, live, by simpa using pred, by simp [sweep, live, pred]⟩
    · obtain ⟨j, member, rest⟩ | ⟨rest, swept⟩ := ih x
      · exact .inl ⟨j, by simp [member], rest.1, rest.2.1, by simpa [sweep, live] using rest.2.2⟩
      · exact .inr ⟨by simpa [live] using rest, by simp [sweep, live, swept]⟩

end Svr4.Proofs.TsortOrder

/-! The output of `tsort` is a topological order wherever there is one. -/

namespace Svr4.Proofs.TsortOrder
open Tsort Function Relation

structure Graph (items : Set Str) (before : Str → Str → Prop) (s : State) : Prop where
  nodup : s.name.Nodup
  names : ∀ x, x ∈ s.name ↔ x ∈ items
  within : ∀ a b, before a b → a ∈ items ∧ b ∈ items
  edges : ∀ i j, i ∈ s.inedges j ↔ ∃ a b, s.name[i]? = some a ∧ s.name[j]? = some b ∧ before a b
  live : ∀ i, s.live i = if i < s.name.length then .live else .dead

variable {items : Set Str} {before : Str → Str → Prop} {s : State}

theorem Graph.congr {items' : Set Str} {before' : Str → Str → Prop} (graph : Graph items before s) (same : items = items')
    (same' : ∀ a b, before a b ↔ before' a b) : Graph items' before' s := by
  obtain rfl : before = before' := by
    funext a b
    exact propext (same' a b)
  exact same ▸ graph

theorem index_graph (graph : Graph items before s) (x : Str) :
    Graph (insert x items) before (index x s).1 ∧ (index x s).1.name[(index x s).2]? = some x ∧ s.name <+: (index x s).1.name := by
  by_cases known : x ∈ s.name
  · have same : items = insert x items := (Set.insert_eq_of_mem ((graph.names x).mp known)).symm
    simp only [index, List.contains_eq_mem, decide_eq_true_eq, known, if_true]
    refine ⟨graph.congr same fun _ _ => Iff.rfl, ?_, List.prefix_refl _⟩
    rw [List.getElem?_eq_getElem (List.idxOf_lt_length_iff.mpr known), List.getElem_idxOf]
  · have empty : s.inedges (s.name.length + 1) = [] := by
      refine List.eq_nil_iff_forall_not_mem.mpr fun i edge => ?_
      obtain ⟨a, b, _, absent, _⟩ := (graph.edges i _).mp edge
      simp at absent
    have kept : update s.inedges (s.name.length + 1) [] = s.inedges := by
      rw [← empty]
      exact update_eq_self _ _
    have old {k : Nat} {a : Str} (inside : a ∈ items) : (s.name ++ [x])[k]? = some a ↔ s.name[k]? = some a := by
      obtain less | more := lt_or_ge k s.name.length
      · rw [List.getElem?_append_left less]
      · rw [List.getElem?_append_right more, List.getElem?_eq_none more]
        refine ⟨fun found => ?_, by simp⟩
        obtain rfl : a = x := by simpa using List.mem_of_getElem? found
        exact absurd ((graph.names a).mpr inside) known
    simp only [index, List.contains_eq_mem, decide_eq_true_eq, known, if_false, kept]
    refine ⟨⟨?_, ?_, ?_, ?_, ?_⟩, by simp, List.prefix_append _ _⟩
    · exact List.nodup_append.mpr ⟨graph.nodup, by simp, by rintro a inside b only rfl; simp at only; exact known (only ▸ inside)⟩
    · intro y
      simp [graph.names y, or_comm]
    · exact fun a b ordered => ⟨.inr (graph.within a b ordered).1, .inr (graph.within a b ordered).2⟩
    · intro i j
      refine (graph.edges i j).trans ⟨?_, ?_⟩
      · rintro ⟨a, b, first, second, ordered⟩
        obtain ⟨inside, inside'⟩ := graph.within a b ordered
        exact ⟨a, b, (old inside).mpr first, (old inside').mpr second, ordered⟩
      · rintro ⟨a, b, first, second, ordered⟩
        obtain ⟨inside, inside'⟩ := graph.within a b ordered
        exact ⟨a, b, (old inside).mp first, (old inside').mp second, ordered⟩
    · intro i
      show update (update s.live s.name.length .live) (s.name.length + 1) .dead i = _
      rw [List.length_append, List.length_singleton]
      obtain rfl | other := eq_or_ne i (s.name.length + 1)
      · simp
      rw [update_of_ne other]
      obtain rfl | other' := eq_or_ne i s.name.length
      · simp
      · rw [update_of_ne other', graph.live]
        simp only [show i < s.name.length ↔ i < s.name.length + 1 by omega]

theorem unique {names : List Str} (nodup : names.Nodup) {i j : Nat} {a : Str} (first : names[i]? = some a) (second : names[j]? = some a) :
    i = j := (List.getElem?_inj (List.getElem?_eq_some_iff.mp first).1 nodup).mp (first.trans second.symm)

theorem addPair_graph (graph : Graph items before s) (p f : Str) :
    Graph (insert f (insert p items)) (fun a b => before a b ∨ a ≠ b ∧ a = p ∧ b = f) (addPair p f s) := by
  obtain ⟨graph₁, named, _⟩ := index_graph graph p
  obtain ⟨graph₂, named', grown⟩ := index_graph graph₁ f
  have named : (index f (index p s).1).1.name[(index p s).2]? = some p := by
    obtain ⟨t, more⟩ := grown
    rw [← more, List.getElem?_append_left (List.getElem?_eq_some_iff.mp named).1]
    exact named
  rcases first : index p s with ⟨s₁, i⟩
  rw [first] at named named' graph₂
  rcases second : index f s₁ with ⟨s', j⟩
  rw [second] at named named' graph₂
  have form : addPair p f s = if i = j ∨ present s' i j = true then s' else { s' with inedges := update s'.inedges j (i :: s'.inedges j) } := by
    simp only [addPair, first, second]
  rw [form]
  clear form graph₁ grown first second
  simp only at named named' graph₂
  have same_iff : i = j ↔ p = f := by
    constructor
    · rintro rfl
      exact Option.some.inj (named.symm.trans named')
    · rintro rfl
      exact unique graph₂.nodup named named'
  have known_iff : present s' i j = true ↔ before p f := by
    rw [present, decide_eq_true_iff, graph₂.edges]
    constructor
    · rintro ⟨a, b, first, second, ordered⟩
      obtain rfl := Option.some.inj (first.symm.trans named)
      obtain rfl := Option.some.inj (second.symm.trans named')
      exact ordered
    · exact fun ordered => ⟨p, f, named, named', ordered⟩
  by_cases skip : i = j ∨ present s' i j = true
  · rw [if_pos skip]
    refine graph₂.congr rfl fun a b => ⟨.inl, ?_⟩
    rintro (ordered | ⟨other, rfl, rfl⟩)
    · exact ordered
    · exact known_iff.mp (skip.resolve_left fun same => other (same_iff.mp same))
  · rw [if_neg skip]
    obtain ⟨other, absent⟩ := not_or.mp skip
    have distinct : p ≠ f := fun same => other (same_iff.mpr same)
    refine ⟨graph₂.nodup, graph₂.names, ?_, ?_, graph₂.live⟩
    · rintro a b (ordered | ⟨_, rfl, rfl⟩)
      · exact graph₂.within a b ordered
      · exact ⟨.inr (.inl rfl), .inl rfl⟩
    · intro k l
      show k ∈ update s'.inedges j (i :: s'.inedges j) l ↔ ∃ a b, s'.name[k]? = some a ∧ s'.name[l]? = some b ∧ _
      by_cases target : l = j
      · subst target
        rw [update_self, List.mem_cons]
        constructor
        · rintro (rfl | edge)
          · exact ⟨p, f, named, named', .inr ⟨distinct, rfl, rfl⟩⟩
          · obtain ⟨a, b, first, second, ordered⟩ := (graph₂.edges k l).mp edge
            exact ⟨a, b, first, second, .inl ordered⟩
        · rintro ⟨a, b, first, second, ordered | ⟨_, rfl, rfl⟩⟩
          · exact .inr ((graph₂.edges k l).mpr ⟨a, b, first, second, ordered⟩)
          · exact .inl (unique graph₂.nodup first named)
      · rw [update_of_ne target, graph₂.edges]
        constructor
        · rintro ⟨a, b, first, second, ordered⟩
          exact ⟨a, b, first, second, .inl ordered⟩
        · rintro ⟨a, b, first, second, ordered | ⟨_, rfl, rfl⟩⟩
          · exact ⟨a, b, first, second, ordered⟩
          · exact absurd (unique graph₂.nodup second named') target

def itemsOf (pairs : List (Str × Str)) : Set Str := { x | ∃ pair ∈ pairs, x = pair.1 ∨ x = pair.2 }

def Precedes (pairs : List (Str × Str)) (a b : Str) : Prop := a ≠ b ∧ (a, b) ∈ pairs

def words (pairs : List (Str × Str)) : List Str := pairs.flatMap fun pair => [pair.1, pair.2]

theorem readPairs_graph (done pairs : List (Str × Str)) {s : State} (graph : Graph (itemsOf done) (Precedes done) s) :
    ∃ s', readPairs (words pairs) s = .ok s' ∧ Graph (itemsOf (done ++ pairs)) (Precedes (done ++ pairs)) s' := by
  induction pairs generalizing done s with
  | nil => exact ⟨s, rfl, by simpa using graph⟩
  | cons pair pairs ih =>
    obtain ⟨p, f⟩ := pair
    have items : insert f (insert p (itemsOf done)) = itemsOf (done ++ [(p, f)]) := by
      ext x
      simp only [itemsOf, Set.mem_insert_iff, Set.mem_ofPred_eq, List.mem_append, List.mem_singleton]
      constructor
      · rintro (rfl | rfl | ⟨pair, member, is_end⟩)
        · exact ⟨_, .inr rfl, .inr rfl⟩
        · exact ⟨_, .inr rfl, .inl rfl⟩
        · exact ⟨pair, .inl member, is_end⟩
      · rintro ⟨pair, member | rfl, is_end⟩
        · exact .inr (.inr ⟨pair, member, is_end⟩)
        · exact is_end.elim (fun same => .inr (.inl same)) .inl
    have edges (a b : Str) : (Precedes done a b ∨ a ≠ b ∧ a = p ∧ b = f) ↔ Precedes (done ++ [(p, f)]) a b := by
      simp only [Precedes, List.mem_append, List.mem_singleton, Prod.mk.injEq]
      tauto
    obtain ⟨s', run, graph'⟩ := ih (done ++ [(p, f)]) ((addPair_graph graph p f).congr items edges)
    exact ⟨s', run, by simpa using graph'⟩

def after (g : State) (done : List Nat) : State :=
  { g with live := fun i => if i < g.name.length ∧ i ∉ done then .live else .dead }

def printed (events : List Event) : List Str := events.filterMap fun
  | .item x => some x
  | .cycle _ => none

structure Prints (before : Str → Str → Prop) (names : List Str) (done : List Str) (events : List Event) : Prop where
  once : (done ++ printed events).Nodup
  all : ∀ x, x ∈ names → x ∈ done ∨ x ∈ printed events
  only : ∀ x ∈ printed events, x ∈ names
  cycles : ∀ pre a post, events = pre ++ .cycle a :: post →
    TransGen (fun x y => before x y ∧ x ∉ done ++ printed pre ∧ y ∉ done ++ printed pre) a a
  ordered : ∀ pre b post, events = pre ++ .item b :: post → (∀ a, before a b → a ∈ done ++ printed pre) ∨ ∃ pre' c, pre = pre' ++ [.cycle c]

variable {names done : List Str} {events : List Event} {a : Str}

theorem Prints.item (prints : Prints before names (done ++ [a]) events) (fresh : a ∉ done) (member : a ∈ names)
    (ready : ∀ p, before p a → p ∈ done) : Prints before names done (.item a :: events) := by
  refine ⟨by simpa [printed] using prints.once, fun x inside => ?_, fun x inside => ?_, ?_, ?_⟩
  · simpa [printed, or_assoc] using prints.all x inside
  · obtain rfl | later := List.mem_cons.mp inside
    · exact member
    · exact prints.only x later
  · intro pre c post split
    cases pre with
    | nil => cases split
    | cons e pre =>
      obtain ⟨rfl, later⟩ := List.cons.inj split
      simpa [printed] using prints.cycles pre c post later
  · intro pre b post split
    cases pre with
    | nil =>
      cases split
      exact .inl (by simpa [printed] using ready)
    | cons e pre =>
      obtain ⟨rfl, later⟩ := List.cons.inj split
      obtain earlier | ⟨pre', c, rfl⟩ := prints.ordered pre b post later
      · exact .inl (by simpa [printed] using earlier)
      · exact .inr ⟨.item a :: pre', c, rfl⟩

theorem Prints.cycle (prints : Prints before names (done ++ [a]) events) (fresh : a ∉ done) (member : a ∈ names)
    (looped : TransGen (fun x y => before x y ∧ x ∉ done ∧ y ∉ done) a a) :
    Prints before names done (.cycle a :: .item a :: events) := by
  refine ⟨by simpa [printed] using prints.once, fun x inside => ?_, fun x inside => ?_, ?_, ?_⟩
  · simpa [printed, or_assoc] using prints.all x inside
  · obtain rfl | later := List.mem_cons.mp inside
    · exact member
    · exact prints.only x later
  · intro pre c post split
    match pre with
    | [] =>
      cases split
      simpa [printed] using looped
    | [e] =>
      cases split
    | e :: e' :: pre =>
      obtain ⟨rfl, rest⟩ := List.cons.inj split
      obtain ⟨rfl, later⟩ := List.cons.inj rest
      simpa [printed] using prints.cycles pre c post later
  · intro pre b post split
    match pre with
    | [] => cases split
    | [e] =>
      obtain ⟨rfl, _⟩ := List.cons.inj split
      exact .inr ⟨[], a, rfl⟩
    | e :: e' :: pre =>
      obtain ⟨rfl, rest⟩ := List.cons.inj split
      obtain ⟨rfl, later⟩ := List.cons.inj rest
      obtain earlier | ⟨pre', c, rfl⟩ := prints.ordered pre b post later
      · exact .inl (by simpa [printed] using earlier)
      · exact .inr ⟨.cycle a :: .item a :: pre', c, rfl⟩

theorem kill_after (g : State) (nodes : List Nat) (i : Nat) : kill i (after g nodes) = after g (nodes ++ [i]) := by
  simp only [kill, after, State.mk.injEq, true_and]
  funext j
  by_cases same : j = i
  · simp [same]
  · simp [same]

theorem nameOf_eq {g : State} {i : Nat} (inside : i < g.name.length) : g.name[i]? = some (nameOf g i) := by
  simp [nameOf, List.getD, List.getElem?_eq_getElem inside]

theorem printing_prints (time : Nat) {g : State} (graph : Graph items before g) (nodes : List Nat) (once : nodes.Nodup)
    (inside : ∀ i ∈ nodes, i < g.name.length) (enough : 2 * g.name.length + 1 < time + nodes.length) :
    ∃ events, printing time (after g nodes) = .ok events ∧ Prints before g.name (nodes.map (nameOf g)) events := by
  have room : nodes.length ≤ g.name.length := by
    have subset : nodes ⊆ List.range g.name.length := fun i member => List.mem_range.mpr (inside i member)
    simpa using (List.subperm_of_subset once subset).length_le
  induction time generalizing nodes with
  | zero => omega
  | succ time ih =>
    have live_iff (i : Nat) : (after g nodes).live i = .live ↔ i < g.name.length ∧ i ∉ nodes := by simp [after]
    have named {i : Nat} (inside : i < g.name.length) : nameOf g i ∈ g.name := List.mem_of_getElem? (nameOf_eq inside)
    have distinct {i j : Nat} (inside_i : i < g.name.length) (inside_j : j < g.name.length) (same : nameOf g i = nameOf g j) : i = j :=
      unique graph.nodup (nameOf_eq inside_i) (same ▸ nameOf_eq inside_j)
    have apart {i : Nat} (inside_i : i < g.name.length) (open_ : i ∉ nodes) : nameOf g i ∉ nodes.map (nameOf g) := by
      intro member
      obtain ⟨j, earlier, same⟩ := List.mem_map.mp member
      exact open_ (distinct (inside j earlier) inside_i same ▸ earlier)
    have next {i : Nat} (inside_i : i < g.name.length) (open_ : i ∉ nodes) :
        ∃ events, printing time (after g (nodes ++ [i])) = .ok events ∧
          Prints before g.name (nodes.map (nameOf g) ++ [nameOf g i]) events := by
      have once' : (nodes ++ [i]).Nodup := by
        refine List.nodup_append.mpr ⟨once, by simp, fun j earlier k only same => ?_⟩
        obtain rfl : k = i := by simpa using only
        exact open_ (same ▸ earlier)
      have inside' : ∀ j ∈ nodes ++ [i], j < g.name.length := by simpa [or_imp, forall_and, inside_i] using inside
      have room' : (nodes ++ [i]).length ≤ g.name.length := by
        have subset : nodes ++ [i] ⊆ List.range g.name.length := fun j member => List.mem_range.mpr (inside' j member)
        simpa using (List.subperm_of_subset once' subset).length_le
      simpa using ih (nodes ++ [i]) once' inside' (by simp; omega) room'
    have pred_iff (i : Nat) : anypred (after g nodes) i = true ↔ ∃ j ∈ g.inedges i, j < g.name.length ∧ j ∉ nodes := by
      simp [anypred, after]
    obtain ⟨i, member, live, ready, swept⟩ | ⟨fed, swept⟩ := sweep_cases (after g nodes) (List.range g.name.length) false
    · obtain ⟨inside_i, open_⟩ := (live_iff i).mp live
      obtain ⟨events, run, prints⟩ := next inside_i open_
      refine ⟨.item (nameOf g i) :: events, ?_, prints.item (apart inside_i open_) (named inside_i) fun p ordered => ?_⟩
      · simp only [printing, show (after g nodes).name = g.name from rfl, swept, kill_after, run, nameOf, Except.map]
      · have within := (graph.names p).mpr (graph.within _ _ ordered).1
        obtain ⟨j, less, rfl⟩ := List.mem_iff_getElem.mp within
        have edge : j ∈ g.inedges i := (graph.edges j i).mpr ⟨_, _, List.getElem?_eq_getElem less, nameOf_eq inside_i, ordered⟩
        have gone : j ∈ nodes := by
          by_contra open_j
          rw [(pred_iff i).mpr ⟨j, edge, less, open_j⟩] at ready
          cases ready
        refine List.mem_map.mpr ⟨j, gone, ?_⟩
        have same := nameOf_eq less
        rw [List.getElem?_eq_getElem less] at same
        exact (Option.some.inj same).symm
    · by_cases living : ∃ i, i < g.name.length ∧ i ∉ nodes
      · have searching : Searching g.name.length g.inedges (fun i => i < g.name.length ∧ i ∉ nodes) (after g nodes) := by
          refine ⟨rfl, fun i => by simp [after], fun i living => living.1, fun j living => ?_⟩
          exact (pred_iff j).mp (fed j (List.mem_range.mpr living.1) ((live_iff j).mpr living))
        have unmarked (i : Nat) : (after g nodes).live i ≠ .visited := by
          by_cases open_ : i < g.name.length ∧ i ∉ nodes <;> simp [after, open_]
        obtain ⟨i, found, looped⟩ := @findloop_found _ time (after g nodes) searching unmarked living
          (show g.name.length < time by omega)
        obtain ⟨inside_i, open_⟩ : i < g.name.length ∧ i ∉ nodes := by
          obtain ⟨_, edge, _⟩ := TransGen.head'_iff.mp looped
          exact edge.2.1
        obtain ⟨events, run, prints⟩ := next inside_i open_
        refine ⟨.cycle (nameOf g i) :: .item (nameOf g i) :: events, ?_,
          prints.cycle (apart inside_i open_) (named inside_i) (TransGen.lift (nameOf g) ?_ i i looped)⟩
        · have some_live : ((List.range g.name.length).any fun i => (after g nodes).live i = .live) = true := by
            obtain ⟨i, inside_i, open_⟩ := living
            exact List.any_eq_true.mpr ⟨i, List.mem_range.mpr inside_i, by simpa using (live_iff i).mpr ⟨inside_i, open_⟩⟩
          rw [some_live] at swept
          simp only [printing, show (after g nodes).name = g.name from rfl, swept, Bool.false_or, found, kill_after, run, nameOf, bind,
            Except.bind, pure, Except.pure]
        · rintro j k ⟨edge, ⟨inside_j, open_j⟩, inside_k, open_k⟩
          refine ⟨?_, apart inside_j open_j, apart inside_k open_k⟩
          obtain ⟨a, b, first, second, ordered⟩ := (graph.edges j k).mp edge
          rw [nameOf_eq inside_j] at first
          rw [nameOf_eq inside_k] at second
          cases first
          cases second
          exact ordered
      · have none_live : ((List.range g.name.length).any fun i => (after g nodes).live i = .live) = false := by
          refine List.any_eq_false.mpr fun i member => ?_
          rw [decide_eq_true_iff, live_iff]
          exact fun open_ => living ⟨i, open_⟩
        rw [none_live] at swept
        refine ⟨[], by simp only [printing, show (after g nodes).name = g.name from rfl, swept, Bool.false_or], ?_, ?_, ?_, ?_, ?_⟩
        · have injective : (nodes.map (nameOf g)).Nodup :=
            (List.nodup_map_iff_inj_on once).mpr fun i early j early' same => distinct (inside i early) (inside j early') same
          simpa [printed] using injective
        · intro x member
          obtain ⟨i, less, rfl⟩ := List.mem_iff_getElem.mp member
          have gone : i ∈ nodes := by
            by_contra open_
            exact living ⟨i, less, open_⟩
          have same := nameOf_eq less
          rw [List.getElem?_eq_getElem less] at same
          exact .inl (List.mem_map.mpr ⟨i, gone, (Option.some.inj same).symm⟩)
        · simp [printed]
        · simp
        · simp

/-- What makes the output a topological order: every item comes once, after those that precede it
when nothing precedes itself, and a cycle that is reported is one of items not yet printed. -/
structure Topological (pairs : List (Str × Str)) (events : List Event) : Prop where
  once : (printed events).Nodup
  items : ∀ x, x ∈ printed events ↔ ∃ pair ∈ pairs, x = pair.1 ∨ x = pair.2
  quiet : (∀ x, ¬ TransGen (Precedes pairs) x x) → ∀ x, .cycle x ∉ events
  ordered : (∀ x, ¬ TransGen (Precedes pairs) x x) → ∀ pre b post, events = pre ++ .item b :: post → ∀ a, Precedes pairs a b → a ∈ printed pre
  cycles : ∀ pre a post, events = pre ++ .cycle a :: post →
    TransGen (fun x y => Precedes pairs x y ∧ x ∉ printed pre ∧ y ∉ printed pre) a a

theorem Prints.topological {pairs : List (Str × Str)} (prints : Prints (Precedes pairs) names [] events)
    (all : ∀ x, x ∈ names ↔ x ∈ itemsOf pairs) : Topological pairs events := by
  have quiet : (∀ x, ¬ TransGen (Precedes pairs) x x) → ∀ x, .cycle x ∉ events := by
    intro acyclic x member
    obtain ⟨pre, post, split⟩ := List.append_of_mem member
    exact acyclic x (TransGen.mono (fun _ _ edge => edge.1) x x (prints.cycles pre x post split))
  refine ⟨by simpa using prints.once, fun x => ?_, quiet, fun acyclic pre b post split a precedes => ?_, ?_⟩
  · refine Iff.trans ?_ (all x)
    exact ⟨prints.only x, fun member => (prints.all x member).resolve_left (by simp)⟩
  · obtain earlier | ⟨pre', c, rfl⟩ := prints.ordered pre b post split
    · simpa using earlier a precedes
    · exact absurd (split ▸ by simp) (quiet acyclic c)
  · simpa using prints.cycles

theorem scan_short {words : List Str} (short : ∀ word ∈ words, 0 < word.length ∧ word.length ≤ 99) : scan words = words := by
  induction words with
  | nil => rfl
  | cons word words ih =>
    obtain ⟨some_bytes, few⟩ := short word (by simp)
    have single : pieces word = [word] := by
      have one : (word.length + 98) / 99 = 1 := by omega
      rw [pieces, one]
      simp [List.take_of_length_le few]
    have rest := ih fun w member => short w (by simp [member])
    rw [scan] at rest ⊢
    rw [List.flatMap_cons, single, rest]
    rfl

/-- Whatever the pairs, `tsort` ends and prints a topological order. -/
theorem tsort_sorts (pairs : List (Str × Str)) (short : ∀ word ∈ words pairs, 0 < word.length ∧ word.length ≤ 99) (time : Nat)
    (enough : 2 * (words pairs).length + 1 < time) : ∃ events, tsort time (words pairs) = .ok events ∧ Topological pairs events := by
  have empty : Graph (itemsOf []) (Precedes []) firstnode := by
    refine ⟨List.nodup_nil, by simp [firstnode, itemsOf], by simp [Precedes], by simp [firstnode], by simp [firstnode]⟩
  obtain ⟨g, read, graph⟩ := readPairs_graph [] pairs empty
  rw [List.nil_append] at graph
  have few : g.name.length ≤ (words pairs).length := by
    refine (List.subperm_of_subset graph.nodup fun x member => ?_).length_le
    obtain ⟨pair, inside, is_end⟩ := (graph.names x).mp member
    exact List.mem_flatMap.mpr ⟨pair, inside, by simpa using is_end⟩
  have fresh : after g [] = g := by
    have same : (fun i => if i < g.name.length ∧ i ∉ ([] : List Nat) then Live.live else .dead) = g.live := by
      funext i
      simp [graph.live]
    simp only [after, same]
  obtain ⟨events, run, prints⟩ := printing_prints time graph [] List.nodup_nil (by simp) (by simp; omega)
  rw [fresh] at run
  refine ⟨events, ?_, prints.topological graph.names⟩
  simp only [tsort, scan_short short, read, bind, Except.bind, run]

/-- Two cycles and an item that is after one of them. -/
theorem tsort_sorts_cycles : ∃ events, tsort 20 (words [([1], [2]), ([2], [1]), ([2], [3]), ([4], [4])]) = .ok events ∧
    Topological [([1], [2]), ([2], [1]), ([2], [3]), ([4], [4])] events :=
  tsort_sorts [([1], [2]), ([2], [1]), ([2], [3]), ([4], [4])] (by simp [words]) 20 (by simp [words])

end Svr4.Proofs.TsortOrder
