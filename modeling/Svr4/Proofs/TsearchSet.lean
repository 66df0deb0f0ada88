import Svr4.Tsearch

/-! The trees that the links make, and the place of a subtree in a tree. -/

namespace Svr4.Proofs.TsearchSet
open Function Tsearch

variable {α : Type}

inductive Shape where
  | nil
  | node (n : Nat) (l r : Shape)

def Shape.nodes : Shape → List Nat
  | .nil => []
  | .node n l r => l.nodes ++ n :: r.nodes

def Rep (node : Nat → Node α) : Option Nat → Shape → Prop
  | p, .nil => p = none
  | p, .node n l r => p = some n ∧ Rep node (node n).llink l ∧ Rep node (node n).rlink r

variable {node node' : Nat → Node α} {s s' : State α} {p : Option Nat} {pl : Place} {t l r : Shape} {n : Nat} {before after : List Nat}

theorem Rep.congr (rep : Rep node p t) (same : ∀ a ∈ t.nodes, (node' a).llink = (node a).llink ∧ (node' a).rlink = (node a).rlink) : Rep node' p t := by
  induction t generalizing p with
  | nil => exact rep
  | node n l r left right =>
    obtain ⟨is, first, second⟩ := rep
    obtain ⟨llink, rlink⟩ := same n (by simp [Shape.nodes])
    refine ⟨is, ?_, ?_⟩
    · rw [llink]
      exact left first fun a member => same a (by simp [Shape.nodes, member])
    · rw [rlink]
      exact right second fun a member => same a (by simp [Shape.nodes, member])

def owner : Place → Option Nat
  | .root => none
  | .llink n => some n
  | .rlink n => some n

theorem get_set (s : State α) (pl : Place) (q : Option Nat) (pl' : Place) : (s.set pl q).get pl' = if pl' = pl then q else s.get pl' := by
  cases pl <;> cases pl' <;> simp [State.set, State.get, update_apply] <;> split <;> simp_all

theorem key_set (s : State α) (pl : Place) (q : Option Nat) (a : Nat) : ((s.set pl q).node a).key = (s.node a).key := by
  cases pl with
  | root => rfl
  | llink n =>
    by_cases same : a = n
    · rw [same]
      simp [State.set]
    · simp [State.set, update_of_ne same]
  | rlink n =>
    by_cases same : a = n
    · rw [same]
      simp [State.set]
    · simp [State.set, update_of_ne same]

theorem node_set (s : State α) (pl : Place) (q : Option Nat) (a : Nat) (other : owner pl ≠ some a) : (s.set pl q).node a = s.node a := by
  cases pl with
  | root => rfl
  | llink n => exact update_of_ne (fun is => other (congrArg some is.symm)) ..
  | rlink n => exact update_of_ne (fun is => other (congrArg some is.symm)) ..

/-- A link with the nodes that are to the left and to the right of what is under it. Whatever
is put there takes its place between them. -/
structure Spot (s : State α) (pl : Place) (before after : List Nat) : Prop where
  inside : ∀ n, owner pl = some n → n ∈ before ∨ n ∈ after
  fill : ∀ (s' : State α) (t' : Shape), (∀ q, q ≠ pl → (∀ n, owner q = some n → n ∈ before ∨ n ∈ after) → s'.get q = s.get q) →
    Rep s'.node (s'.get pl) t' → ∃ whole, Rep s'.node s'.root whole ∧ whole.nodes = before ++ t'.nodes ++ after

theorem Spot.root (s : State α) : Spot s .root [] [] := by
  refine ⟨(fun n is => by cases is), fun s' t' _ rep => ⟨t', rep, ?_⟩⟩
  rw [List.nil_append, List.append_nil]

theorem rep_same (rep : Rep s.node p t) (same : ∀ q n, owner q = some n → n ∈ t.nodes → s'.get q = s.get q) : Rep s'.node p t :=
  rep.congr fun a member => ⟨same (.llink a) a rfl member, same (.rlink a) a rfl member⟩

theorem Spot.left (spot : Spot s pl before after) (there : s.get pl = some n) (right : Rep s.node (s.node n).rlink r)
    (unused : n ∉ before ∧ n ∉ after ∧ n ∉ r.nodes) : Spot s (.llink n) before (n :: r.nodes ++ after) := by
  obtain ⟨inside, fill⟩ := spot
  obtain ⟨first, last, beside⟩ := unused
  have apart : ∀ q, (∀ m, owner q = some m → m ∈ before ∨ m ∈ after) → q ≠ .llink n := by
    rintro q own rfl
    rcases own n rfl with member | member
    · exact first member
    · exact last member
  have wider : ∀ q, (∀ m, owner q = some m → m ∈ before ∨ m ∈ after) → ∀ m, owner q = some m → m ∈ before ∨ m ∈ n :: r.nodes ++ after := by
    intro q own m is
    rcases own m is with member | member
    · exact .inl member
    · exact .inr (by simp [member])
  refine ⟨fun m is => ?_, fun s' t' same rep => ?_⟩
  · cases is
    exact .inr (by simp)
  have up : s'.get pl = some n := (same pl (apart pl inside) (wider pl inside)).trans there
  have link : (s'.node n).rlink = (s.node n).rlink := by
    refine same (.rlink n) (fun is => by cases is) fun m is => ?_
    cases is
    exact .inr (by simp)
  have other : Rep s'.node (s'.node n).rlink r := by
    rw [link]
    refine rep_same right fun q m is member => same q ?_ fun m' is' => ?_
    · rintro rfl
      cases is
      exact beside member
    · rw [is] at is'
      cases is'
      exact .inr (by simp [member])
  obtain ⟨whole, rep', nodes⟩ := fill s' (.node n t' r) (fun q _ own => same q (apart q own) (wider q own)) (by rw [up]; exact ⟨rfl, rep, other⟩)
  refine ⟨whole, rep', nodes.trans ?_⟩
  simp [Shape.nodes]

theorem Spot.right (spot : Spot s pl before after) (there : s.get pl = some n) (left : Rep s.node (s.node n).llink l)
    (unused : n ∉ before ∧ n ∉ after ∧ n ∉ l.nodes) : Spot s (.rlink n) (before ++ l.nodes ++ [n]) after := by
  obtain ⟨inside, fill⟩ := spot
  obtain ⟨first, last, beside⟩ := unused
  have apart : ∀ q, (∀ m, owner q = some m → m ∈ before ∨ m ∈ after) → q ≠ .rlink n := by
    rintro q own rfl
    rcases own n rfl with member | member
    · exact first member
    · exact last member
  have wider : ∀ q, (∀ m, owner q = some m → m ∈ before ∨ m ∈ after) → ∀ m, owner q = some m → m ∈ before ++ l.nodes ++ [n] ∨ m ∈ after := by
    intro q own m is
    rcases own m is with member | member
    · exact .inl (by simp [member])
    · exact .inr member
  refine ⟨fun m is => ?_, fun s' t' same rep => ?_⟩
  · cases is
    exact .inl (by simp)
  have up : s'.get pl = some n := (same pl (apart pl inside) (wider pl inside)).trans there
  have link : (s'.node n).llink = (s.node n).llink := by
    refine same (.llink n) (fun is => by cases is) fun m is => ?_
    cases is
    exact .inl (by simp)
  have other : Rep s'.node (s'.node n).llink l := by
    rw [link]
    refine rep_same left fun q m is member => same q ?_ fun m' is' => ?_
    · rintro rfl
      cases is
      exact beside member
    · rw [is] at is'
      cases is'
      exact .inl (by simp [member])
  obtain ⟨whole, rep', nodes⟩ := fill s' (.node n l t') (fun q _ own => same q (apart q own) (wider q own)) (by rw [up]; exact ⟨rfl, other, rep⟩)
  refine ⟨whole, rep', nodes.trans ?_⟩
  simp [Shape.nodes]

end Svr4.Proofs.TsearchSet

/-! The keys of a tree in order, and what a search finds. -/

namespace Svr4.Proofs.TsearchSet
open Function Tsearch

variable {α : Type} {compar : α → α → Int} {s s' : State α} {key : α} {all before after : List Nat} {pl : Place} {t l r : Shape} {n time : Nat}

structure Order (compar : α → α → Int) : Prop where
  same : ∀ a b, compar a b = 0 ↔ a = b
  swap : ∀ a b, compar a b < 0 ↔ 0 < compar b a
  trans : ∀ a b c, compar a b < 0 → compar b c < 0 → compar a c < 0

def Less (compar : α → α → Int) (s : State α) (a b : Nat) : Prop := compar (s.node a).key (s.node b).key < 0

structure Kept (compar : α → α → Int) (s : State α) (t : Shape) : Prop where
  rep : Rep s.node s.root t
  once : t.nodes.Nodup
  sorted : t.nodes.Pairwise (Less compar s)
  used : s.used.Perm t.nodes

structure At (compar : α → α → Int) (s : State α) (key : α) (all : List Nat) (pl : Place) (t : Shape) (before after : List Nat) : Prop where
  spot : Spot s pl before after
  rep : Rep s.node (s.get pl) t
  parts : all = before ++ t.nodes ++ after
  less : ∀ a ∈ before, compar (s.node a).key key < 0
  greater : ∀ a ∈ after, compar key (s.node a).key < 0

theorem Kept.at (kept : Kept compar s t) (key : α) : At compar s key t.nodes .root t [] [] :=
  ⟨.root s, kept.rep, by simp, (fun a member => by cases member), (fun a member => by cases member)⟩

theorem At.left (order : Order compar) (once : all.Nodup) (sorted : all.Pairwise (Less compar s))
    (here : At compar s key all pl (.node n l r) before after)
    (less : compar key (s.node n).key < 0) : At compar s key all (.llink n) l before (n :: r.nodes ++ after) := by
  obtain ⟨spot, ⟨there, left, right⟩, parts, low, high⟩ := here
  subst parts
  simp only [Shape.nodes] at once sorted
  refine ⟨spot.left there right ?_, left, by simp [Shape.nodes], low, fun a member => ?_⟩
  · simp only [List.append_assoc, List.cons_append, List.nodup_append, List.nodup_cons, List.mem_append, List.mem_cons, not_or] at once
    refine ⟨fun member => ?_, once.2.1.2.1.1.2, once.2.1.2.1.1.1⟩
    exact once.2.2 n member n (.inr (.inl rfl)) rfl
  · simp only [List.append_assoc, List.cons_append, List.pairwise_append, List.pairwise_cons, List.mem_append, List.mem_cons] at sorted member
    rcases member with rfl | member | member
    · exact less
    · exact order.trans _ _ _ less (sorted.2.1.2.1.1 a (.inl member))
    · exact high a member

theorem At.right (order : Order compar) (once : all.Nodup) (sorted : all.Pairwise (Less compar s))
    (here : At compar s key all pl (.node n l r) before after)
    (greater : 0 < compar key (s.node n).key) : At compar s key all (.rlink n) r (before ++ l.nodes ++ [n]) after := by
  obtain ⟨spot, ⟨there, left, right⟩, parts, low, high⟩ := here
  subst parts
  simp only [Shape.nodes] at once sorted
  have above := (order.swap _ _).mpr greater
  refine ⟨spot.right there left ?_, right, by simp [Shape.nodes], fun a member => ?_, high⟩
  · simp only [List.append_assoc, List.cons_append, List.nodup_append, List.nodup_cons, List.mem_append, List.mem_cons, not_or] at once
    refine ⟨fun member => ?_, once.2.1.2.1.1.2, fun member => ?_⟩
    · exact once.2.2 n member n (.inr (.inl rfl)) rfl
    · exact once.2.1.2.2 n member n (.inl rfl) rfl
  · simp only [List.append_assoc, List.cons_append, List.pairwise_append, List.pairwise_cons, List.mem_append, List.mem_cons,
      List.not_mem_nil, or_false] at sorted member
    rcases member with member | member | rfl
    · exact low a member
    · exact order.trans _ _ _ (sorted.2.1.2.2 a member n (.inl rfl)) above
    · exact above

theorem locate_spec (order : Order compar) (once : all.Nodup) (sorted : all.Pairwise (Less compar s)) (here : At compar s key all pl t before after)
    (enough : t.nodes.length ≤ time) : ∃ pl' t' before' after', locate compar key s time pl = some pl' ∧ At compar s key all pl' t' before' after' ∧
      (t' = .nil ∨ ∃ n l r, t' = .node n l r ∧ (s.node n).key = key) := by
  induction t generalizing pl before after time with
  | nil =>
    have link : s.get pl = none := here.rep
    refine ⟨pl, .nil, before, after, ?_, here, .inl rfl⟩
    unfold locate
    rw [link]
  | node n l r left right =>
    have link : s.get pl = some n := here.rep.1
    simp only [Shape.nodes, List.length_append, List.length_cons] at enough
    obtain ⟨time, rfl⟩ : ∃ more, time = more + 1 := ⟨time - 1, by omega⟩
    unfold locate
    rw [link]
    dsimp only
    by_cases same : compar key (s.node n).key = 0
    · rw [if_pos same]
      exact ⟨pl, _, _, _, rfl, here, .inr ⟨n, l, r, rfl, ((order.same _ _).mp same).symm⟩⟩
    rw [if_neg same]
    by_cases less : compar key (s.node n).key < 0
    · rw [if_pos less]
      exact left (here.left order once sorted less) (by omega)
    · rw [if_neg less]
      exact right (here.right order once sorted (by omega)) (by omega)

def keys (s : State α) (t : Shape) : List α := t.nodes.map fun n => (s.node n).key

theorem At.absent (order : Order compar) (here : At compar s key t.nodes pl .nil before after) : key ∉ keys s t := by
  intro member
  obtain ⟨a, inside, is⟩ := List.mem_map.mp member
  rw [here.parts] at inside
  simp only [Shape.nodes, List.append_nil, List.mem_append] at inside
  have same := (order.same key key).mpr rfl
  rcases inside with first | last
  · have := here.less a first
    rw [is] at this
    omega
  · have := here.greater a last
    rw [is] at this
    omega

def planted (s : State α) (pl : Place) (n : Nat) (key : α) : State α :=
  { s.set pl (some n) with node := update (s.set pl (some n)).node n ⟨key, none, none⟩, used := n :: s.used }

theorem planted_node (s : State α) (pl : Place) (n : Nat) (key : α) (a : Nat) :
    (planted s pl n key).node a = if a = n then ⟨key, none, none⟩ else (s.set pl (some n)).node a := update_apply ..

theorem planted_get {q : Place} (other : owner q ≠ some n) : (planted s pl n key).get q = (s.set pl (some n)).get q := by
  cases q with
  | root => rfl
  | llink m => exact congrArg Node.llink ((planted_node ..).trans (if_neg fun is => other (congrArg some is)))
  | rlink m => exact congrArg Node.rlink ((planted_node ..).trans (if_neg fun is => other (congrArg some is)))

theorem planted_key (s : State α) (pl : Place) (n : Nat) (key : α) (a : Nat) :
    ((planted s pl n key).node a).key = if a = n then key else (s.node a).key := by
  rw [planted_node]
  split
  · rfl
  · exact key_set ..

theorem planted_kept (kept : Kept compar s t) (here : At compar s key t.nodes pl .nil before after) (fresh : n ∉ s.used) :
    ∃ t', Kept compar (planted s pl n key) t' ∧ t'.nodes = before ++ n :: after := by
  obtain ⟨spot, rep, parts, less, greater⟩ := here
  simp only [Shape.nodes, List.append_nil] at parts
  have new : n ∉ t.nodes := fun member => fresh (kept.used.mem_iff.mpr member)
  have apart : n ∉ before ∧ n ∉ after := by simpa [parts] using new
  have outside : ∀ q, (∀ m, owner q = some m → m ∈ before ∨ m ∈ after) → owner q ≠ some n := by
    intro q inside is
    rcases inside n is with member | member
    · exact apart.1 member
    · exact apart.2 member
  obtain ⟨t', rep', nodes⟩ := spot.fill (planted s pl n key) (.node n .nil .nil)
    (fun q other inside => by rw [planted_get (outside q inside), get_set, if_neg other])
    (by
      rw [planted_get (outside pl spot.inside), get_set, if_pos rfl]
      refine ⟨rfl, ?_, ?_⟩
      · rw [planted_node, if_pos rfl]
        rfl
      · rw [planted_node, if_pos rfl]
        rfl)
  simp only [Shape.nodes, List.nil_append, List.append_assoc, List.cons_append] at nodes
  have keeps : ∀ a ∈ t.nodes, ((planted s pl n key).node a).key = (s.node a).key := by
    intro a member
    rw [planted_key, if_neg]
    rintro rfl
    exact new member
  have at_n : ((planted s pl n key).node n).key = key := by rw [planted_key, if_pos rfl]
  refine ⟨t', ⟨rep', ?_, ?_, ?_⟩, nodes⟩
  · rw [nodes]
    exact (List.perm_middle.nodup_iff).mpr (List.nodup_cons.mpr ⟨by simpa using apart, parts ▸ kept.once⟩)
  · have sorted := kept.sorted
    rw [parts, List.pairwise_append] at sorted
    obtain ⟨first, last, across⟩ := sorted
    have in_before : ∀ a ∈ before, a ∈ t.nodes := fun a member => by rw [parts]; exact List.mem_append_left _ member
    have in_after : ∀ a ∈ after, a ∈ t.nodes := fun a member => by rw [parts]; exact List.mem_append_right _ member
    rw [nodes, List.pairwise_append, List.pairwise_cons]
    refine ⟨first.imp_of_mem fun {a b} ia ib rel => ?_, ⟨fun b ib => ?_, last.imp_of_mem fun {a b} ia ib rel => ?_⟩, fun a ia b ib => ?_⟩
    · rw [Less, keeps a (in_before a ia), keeps b (in_before b ib)]
      exact rel
    · rw [Less, at_n, keeps b (in_after b ib)]
      exact greater b ib
    · rw [Less, keeps a (in_after a ia), keeps b (in_after b ib)]
      exact rel
    · rcases List.mem_cons.mp ib with rfl | ib
      · rw [Less, at_n, keeps a (in_before a ia)]
        exact less a ia
      · rw [Less, keeps a (in_before a ia), keeps b (in_after b ib)]
        exact across a ia b ib
  · rw [nodes]
    exact ((parts ▸ kept.used).cons n).trans List.perm_middle.symm

structure Searched (compar : α → α → Int) (s : State α) (t : Shape) (q : Option Nat) (key : α) (s' : State α) (t' : Shape) (r : Option Nat) : Prop where
  kept : Kept compar s' t'
  keys : ∀ k, k ∈ keys s' t' ↔ k ∈ TsearchSet.keys s t ∨ k = key ∧ q.isSome
  found : ∀ n, r = some n → n ∈ t'.nodes ∧ (s'.node n).key = key
  failed : r = none → q = none ∧ s' = s ∧ key ∉ TsearchSet.keys s t
  present : key ∈ TsearchSet.keys s t → s' = s

theorem tsearch_spec (order : Order compar) (kept : Kept compar s t) {q : Option Nat} (fresh : ∀ n, q = some n → n ∉ s.used)
    (enough : t.nodes.length ≤ time) : ∃ s' t' r, tsearch compar q key time s = some (s', r) ∧ Searched compar s t q key s' t' r := by
  obtain ⟨pl, t₁, before, after, found, here, which⟩ := locate_spec order kept.once kept.sorted (kept.at key) enough
  unfold tsearch
  rw [found]
  dsimp only
  rcases which with rfl | ⟨n, l, r, rfl, is⟩
  · have link : s.get pl = none := here.rep
    have absent := here.absent order
    rw [link]
    cases q with
    | none =>
      refine ⟨s, t, none, rfl, kept, fun k => ?_, (fun n is => by cases is), fun _ => ⟨rfl, rfl, absent⟩, fun _ => rfl⟩
      exact ⟨.inl, fun either => either.elim id fun no => Bool.noConfusion no.2⟩
    | some n =>
      obtain ⟨t', kept', nodes⟩ := planted_kept kept here (fresh n rfl)
      have parts := here.parts
      simp only [Shape.nodes, List.append_nil] at parts
      have new : n ∉ t.nodes := fun member => fresh n rfl (kept.used.mem_iff.mpr member)
      refine ⟨_, t', some n, rfl, kept', fun k => ?_, fun m is => ?_, (fun is => by cases is), fun member => absurd member absent⟩
      · have old : ∀ a ∈ t.nodes, ((planted s pl n key).node a).key = (s.node a).key := by
          intro a member
          rw [planted_key, if_neg]
          rintro rfl
          exact new member
        have at_n : ((planted s pl n key).node n).key = key := by rw [planted_key, if_pos rfl]
        change k ∈ keys (planted s pl n key) t' ↔ _
        have list : (keys (planted s pl n key) t').Perm (key :: keys s t) := by
          rw [keys, nodes]
          refine (List.perm_middle.map _).trans ?_
          rw [List.map_cons, at_n, ← parts]
          exact .of_eq (congrArg _ (List.map_congr_left old))
        rw [list.mem_iff, List.mem_cons, or_comm]
        simp
      · cases is
        refine ⟨by rw [nodes]; simp, ?_⟩
        change ((planted s pl n key).node n).key = key
        rw [planted_key, if_pos rfl]
  · have link : s.get pl = some n := here.rep.1
    have member : n ∈ t.nodes := by
      rw [here.parts]
      simp [Shape.nodes]
    have there : key ∈ keys s t := is ▸ List.mem_map_of_mem member
    rw [link]
    refine ⟨s, t, some n, rfl, kept, fun k => ?_, fun m same => ?_, (fun is => by cases is), fun _ => rfl⟩
    · exact ⟨.inl, fun either => either.elim id fun new => new.1 ▸ there⟩
    · cases same
      exact ⟨member, is⟩

end Svr4.Proofs.TsearchSet
