import Svr4.Proofs.TsearchSet

/-! `tdelete` takes one node out of the tree. -/

namespace Svr4.Proofs.TsearchDelete
open Function Tsearch TsearchSet

variable {α : Type} {compar : α → α → Int} {s s' : State α} {key : α} {all before after : List Nat} {pl : Place} {t l r : Shape} {n p q time : Nat}

theorem locateParent_spec (order : Order compar) (once : all.Nodup) (sorted : all.Pairwise (Less compar s))
    (here : At compar s key all pl (.node n l r) before after) (p : Nat) (enough : (Shape.node n l r).nodes.length ≤ time) :
    (∃ pl' before' after', At compar s key all pl' .nil before' after' ∧ locateParent compar key s time p pl n = some none) ∨
    ∃ pl' p' n' l' r' before' after', At compar s key all pl' (.node n' l' r') before' after' ∧
      locateParent compar key s time p pl n = some (some (pl', p')) ∧ (s.node n').key = key ∧ (∀ a, a ∈ before ∨ a ∈ after → a ∈ before' ∨ a ∈ after') ∧
      (pl' = pl ∧ p' = p ∧ n' = n ∨ owner pl' = some p' ∧ (n ∈ before' ∨ n ∈ after')) := by
  induction time generalizing pl n l r before after p with
  | zero => simp [Shape.nodes] at enough
  | succ time ih =>
    unfold locateParent
    simp only [Shape.nodes, List.length_append, List.length_cons] at enough
    by_cases same : compar key (s.node n).key = 0
    · rw [if_pos same]
      exact .inr ⟨pl, p, n, l, r, before, after, here, rfl, ((order.same _ _).mp same).symm, fun a member => member, .inl ⟨rfl, rfl, rfl⟩⟩
    rw [if_neg same]
    -- the child, with the node `n` now beside it
    obtain ⟨next, child, before₁, after₁, is, here₁, wider, with_n, own, fewer⟩ : ∃ next child before₁ after₁,
        (if compar key (s.node n).key < 0 then Place.llink n else Place.rlink n) = next ∧ At compar s key all next child before₁ after₁ ∧
        (∀ a, a ∈ before ∨ a ∈ after → a ∈ before₁ ∨ a ∈ after₁) ∧ (n ∈ before₁ ∨ n ∈ after₁) ∧ owner next = some n ∧ child.nodes.length ≤ time := by
      by_cases less : compar key (s.node n).key < 0
      · refine ⟨.llink n, l, before, n :: r.nodes ++ after, if_pos less, here.left order once sorted less, fun a member => ?_,
          .inr (by simp), rfl, by omega⟩
        exact member.imp_right fun last => by simp [last]
      · refine ⟨.rlink n, r, before ++ l.nodes ++ [n], after, if_neg less, here.right order once sorted (by omega),
          fun a member => ?_, .inl (by simp), rfl,
          by omega⟩
        exact member.imp_left fun first => by simp [first]
    dsimp only
    rw [is]
    cases child with
    | nil =>
      have link : s.get next = none := here₁.rep
      rw [link]
      exact .inl ⟨next, before₁, after₁, here₁, rfl⟩
    | node m l₁ r₁ =>
      have link : s.get next = some m := here₁.rep.1
      rw [link]
      rcases ih here₁ n fewer with absent | ⟨pl', p', n', l', r', before', after', here', found, key_eq, grows, which⟩
      · exact .inl absent
      · refine .inr ⟨pl', p', n', l', r', before', after', here', found, key_eq, fun a member => grows a (wider a member), .inr ?_⟩
        rcases which with ⟨rfl, rfl, rfl⟩ | ⟨own', -⟩
        · exact ⟨own, grows _ with_n⟩
        · exact ⟨own', grows _ with_n⟩

theorem setLlink_node (s : State α) (n : Nat) (q : Option Nat) (a : Nat) :
    (setLlink n q s).node a = if a = n then { s.node n with llink := q } else s.node a := update_apply ..

theorem setRlink_node (s : State α) (n : Nat) (q : Option Nat) (a : Nat) :
    (setRlink n q s).node a = if a = n then { s.node n with rlink := q } else s.node a := update_apply ..

theorem successor_spec {ql qr rr : Shape} (rep : Rep s.node (some p) (.node p (.node q ql qr) rr)) (once : (Shape.node p (.node q ql qr) rr).nodes.Nodup)
    (enough : ql.nodes.length < time) : ∃ p' q' t', successor s time p q = some (p', q') ∧
      Rep (setLlink p' (s.node q').rlink s).node (some p) t' ∧ (Shape.node p (.node q ql qr) rr).nodes = q' :: t'.nodes ∧ p' ∈ t'.nodes := by
  induction time generalizing p q ql qr rr with
  | zero => omega
  | succ time ih =>
    obtain ⟨-, ⟨down, left, right⟩, beside⟩ := rep
    have apart := once
    rw [Shape.nodes, List.nodup_append, List.nodup_cons] at apart
    obtain ⟨inner, ⟨unused, -⟩, across⟩ := apart
    have off_left : p ∉ (Shape.node q ql qr).nodes := fun member => across p member p List.mem_cons_self rfl
    have off_right : ∀ a ∈ (Shape.node q ql qr).nodes, a ∉ rr.nodes := fun a member also => across a member a (List.mem_cons_of_mem _ also) rfl
    unfold successor
    cases ql with
    | nil =>
      have last : (s.node q).llink = none := left
      rw [last]
      refine ⟨p, q, .node p qr rr, rfl, ⟨rfl, ?_, ?_⟩, rfl, by simp [Shape.nodes]⟩
      · rw [setLlink_node, if_pos rfl]
        refine right.congr fun a member => ?_
        rw [setLlink_node, if_neg]
        · exact ⟨rfl, rfl⟩
        · rintro rfl
          exact off_left (by simp [Shape.nodes, member])
      · rw [setLlink_node, if_pos rfl]
        refine beside.congr fun a member => ?_
        rw [setLlink_node, if_neg]
        · exact ⟨rfl, rfl⟩
        · rintro rfl
          exact unused member
    | node f fl fr =>
      have next : (s.node q).llink = some f := left.1
      rw [next]
      simp only [Shape.nodes, List.length_append, List.length_cons] at enough
      obtain ⟨p', q', t', found, rep', nodes, member'⟩ := ih (p := q) ⟨rfl, next ▸ left, right⟩ inner (by omega)
      have inside : p' ∈ (Shape.node q (.node f fl fr) qr).nodes := by
        rw [nodes]
        exact List.mem_cons_of_mem _ member'
      have other : p ≠ p' := by
        rintro rfl
        exact off_left inside
      refine ⟨p', q', .node p t' rr, found, ⟨rfl, ?_, ?_⟩, ?_, by simp [Shape.nodes, member']⟩
      · rw [setLlink_node, if_neg other, down]
        exact rep'
      · rw [setLlink_node, if_neg other]
        refine beside.congr fun a member => ?_
        rw [setLlink_node, if_neg]
        · exact ⟨rfl, rfl⟩
        · rintro rfl
          exact off_right a inside member
      · change (Shape.node q (.node f fl fr) qr).nodes ++ p :: rr.nodes = _
        rw [nodes]
        rfl

structure Replaced (s : State α) (r : Shape) (s' : State α) (q : Option Nat) (t' : Shape) (joined : List Nat) : Prop where
  rep : Rep s'.node q t'
  nodes : t'.nodes = joined
  root : s'.root = s.root
  used : s'.used = s.used
  others : ∀ a, a ∉ r.nodes → s'.node a = s.node a
  keys : ∀ a, (s'.node a).key = (s.node a).key

theorem replacement_spec (rep : Rep s.node (some n) (.node n l r)) (once : (Shape.node n l r).nodes.Nodup) (enough : r.nodes.length ≤ time) :
    ∃ s' q t', replacement s time n = some (s', q) ∧ Replaced s r s' q t' (l.nodes ++ r.nodes) := by
  obtain ⟨-, left, right⟩ := rep
  rw [Shape.nodes, List.nodup_append, List.nodup_cons] at once
  obtain ⟨-, ⟨unused, once_right⟩, across⟩ := once
  have apart : ∀ a ∈ r.nodes, a ∉ l.nodes := fun a member also => across a also a (List.mem_cons_of_mem _ member) rfl
  unfold replacement
  cases l with
  | nil =>
    have no : (s.node n).llink = none := left
    rw [no]
    exact ⟨s, _, r, rfl, right, rfl, rfl, rfl, fun _ _ => rfl, fun _ => rfl⟩
  | node q lq rq =>
    have some_left : (s.node n).llink = some q := left.1
    rw [some_left] at left ⊢
    cases r with
    | nil =>
      have no : (s.node n).rlink = none := right
      rw [no]
      refine ⟨s, some q, .node q lq rq, rfl, left, ?_, rfl, rfl, fun _ _ => rfl, fun _ => rfl⟩
      rw [Shape.nodes, Shape.nodes, List.append_nil]
    | node p lp rp =>
      have some_right : (s.node n).rlink = some p := right.1
      rw [some_right] at right ⊢
      obtain ⟨-, down, beside⟩ := right
      have self : p ∈ (Shape.node p lp rp).nodes := by simp [Shape.nodes]
      have once_p := once_right
      rw [Shape.nodes, List.nodup_append, List.nodup_cons] at once_p
      cases lp with
      | nil =>
        have no : (s.node p).llink = none := down
        dsimp only
        rw [no]
        refine ⟨_, some p, .node p (.node q lq rq) rp, rfl, ⟨rfl, ?_, ?_⟩, ?_, rfl, rfl, fun a outside => ?_, fun a => key_set ..⟩
        · rw [setLlink_node, if_pos rfl]
          refine left.congr fun a member => ?_
          rw [setLlink_node, if_neg]
          · exact ⟨rfl, rfl⟩
          · rintro rfl
            exact apart a self member
        · rw [setLlink_node, if_pos rfl]
          refine beside.congr fun a member => ?_
          rw [setLlink_node, if_neg]
          · exact ⟨rfl, rfl⟩
          · rintro rfl
            exact once_p.2.1.1 member
        · simp [Shape.nodes]
        · rw [setLlink_node, if_neg]
          rintro rfl
          exact outside self
      | node f fl fr =>
        have next : (s.node p).llink = some f := down.1
        dsimp only
        rw [next]
        dsimp only
        simp only [Shape.nodes, List.length_append, List.length_cons] at enough
        obtain ⟨p', q', t', found, rep', nodes, inside⟩ := successor_spec (p := p) ⟨rfl,
          next ▸ down, beside⟩ once_right (show fl.nodes.length < time by omega)
        rw [found]
        dsimp only
        rw [nodes, List.nodup_cons] at once_right
        have in_right : ∀ a, a = q' ∨ a ∈ t'.nodes → a ∈ (Shape.node p (.node f fl fr) rp).nodes := fun a member => by
          rw [nodes, List.mem_cons]
          exact member
        have n_p' : n ≠ p' := by
          rintro rfl
          exact unused (in_right n (.inr inside))
        have n_q' : n ≠ q' := by
          rintro rfl
          exact unused (in_right n (.inl rfl))
        rw [setLlink_node s p' _ n, if_neg n_p', setLlink_node _ q' _ n, if_neg n_q', setLlink_node s p' _ n, if_neg n_p', some_left, some_right]
        have at_q' : ∀ a, (setRlink q' (some p) (setLlink q' (some q) (setLlink p' (s.node q').rlink s))).node a =
            if a = q' then { (setLlink p' (s.node q').rlink s).node q' with llink := some q, rlink := some p } else
              (setLlink p' (s.node q').rlink s).node a := by
          intro a
          rw [setRlink_node]
          split
          · rw [setLlink_node, if_pos rfl]
          · next other => rw [setLlink_node, if_neg other]
        refine ⟨_, _, .node q' (.node q lq rq) t', rfl, ⟨rfl, ?_, ?_⟩, ?_, rfl, rfl, fun a outside => ?_, fun a => ?_⟩
        · rw [at_q', if_pos rfl]
          refine left.congr fun a member => ?_
          rw [at_q', if_neg, setLlink_node, if_neg]
          · exact ⟨rfl, rfl⟩
          · rintro rfl
            exact apart a (in_right a (.inr inside)) member
          · rintro rfl
            exact apart a (in_right a (.inl rfl)) member
        · rw [at_q', if_pos rfl]
          refine rep'.congr fun a member => ?_
          rw [at_q', if_neg]
          · exact ⟨rfl, rfl⟩
          · rintro rfl
            exact once_right.1 member
        · change (Shape.node q lq rq).nodes ++ q' :: t'.nodes = _
          rw [nodes]
        · rw [at_q', if_neg, setLlink_node, if_neg]
          · rintro rfl
            exact outside (in_right a (.inr inside))
          · rintro rfl
            exact outside (in_right a (.inl rfl))
        · exact (key_set ..).trans ((key_set ..).trans (key_set ..))

structure Deleted (compar : α → α → Int) (s : State α) (t : Shape) (n : Nat) (s' : State α) (t' : Shape) (p : Nat) : Prop where
  kept : Kept compar s' t'
  nodes : t'.nodes = t.nodes.erase n
  used : s'.used = s.used.erase n
  keys : ∀ a, (s'.node a).key = (s.node a).key
  parent : p ∈ t'.nodes ∧ s.root ≠ some n ∨ s.root = some n ∧ p = n

theorem erase_middle {before after : List Nat} (once : (before ++ n :: after).Nodup) : (before ++ n :: after).erase n = before ++ after := by
  rw [List.nodup_append] at once
  rw [List.erase_append_right _ fun member => once.2.2 n member n List.mem_cons_self rfl, List.erase_cons_head]

theorem tdelete_spec (order : Order compar) (kept : Kept compar s t) (enough : t.nodes.length ≤ time) :
    (key ∉ keys s t ∧ tdelete compar key time s = some (s, none)) ∨
    ∃ n s' t' p, n ∈ t.nodes ∧ (s.node n).key = key ∧ tdelete compar key time s = some (s', some p) ∧ Deleted compar s t n s' t' p := by
  unfold tdelete
  cases t with
  | nil =>
    have empty : s.root = none := kept.rep
    rw [empty]
    exact .inl ⟨List.not_mem_nil, rfl⟩
  | node top l r =>
    have root : s.root = some top := kept.rep.1
    rw [root]
    dsimp only
    rcases locateParent_spec order kept.once kept.sorted (kept.at key) top enough with ⟨pl, before, after, here, found⟩ |
        ⟨pl, p, n, l', r', before, after, here, found, is, -, which⟩
    · rw [found]
      exact .inl ⟨here.absent order, rfl⟩
    rw [found]
    dsimp only
    obtain ⟨spot, rep, parts, less, greater⟩ := here
    have link : s.get pl = some n := rep.1
    rw [link] at rep ⊢
    dsimp only
    have once := kept.once
    have all : (Shape.node top l r).nodes = (before ++ l'.nodes) ++ n :: (r'.nodes ++ after) := by
      rw [parts]
      simp [Shape.nodes]
    have sizes := congrArg List.length all
    simp only [List.length_append, List.length_cons] at sizes
    rw [parts, List.nodup_append, List.nodup_append] at once
    obtain ⟨⟨-, once_sub, low⟩, -, high⟩ := once
    have outside : ∀ a, a ∈ before ∨ a ∈ after → a ∉ (Shape.node n l' r').nodes := by
      rintro a (first | last) member
      · exact low a first a member rfl
      · exact high a (List.mem_append_right _ member) a last rfl
    obtain ⟨s₁, q, t₁, done, rep₁, nodes₁, root₁, used₁, others, keys₁⟩ := replacement_spec rep once_sub (show r'.nodes.length ≤ time by omega)
    rw [done]
    dsimp only
    have below : ∀ a ∈ t₁.nodes, a ∈ (Shape.node n l' r').nodes := by
      intro a member
      rw [nodes₁, List.mem_append] at member
      rw [Shape.nodes, List.mem_append, List.mem_cons]
      exact member.imp_right .inr
    have beside : ∀ a, a ∈ before ∨ a ∈ after → s₁.node a = s.node a := by
      intro a member
      refine others a fun also => outside a member ?_
      rw [Shape.nodes, List.mem_append, List.mem_cons]
      exact .inr (.inr also)
    obtain ⟨t', rep', nodes'⟩ := spot.fill ((free n s₁).set pl q) t₁
      (fun x other own => by
        rw [get_set, if_neg other]
        cases x with
        | root => exact root₁
        | llink m => exact congrArg Node.llink (beside m (own m rfl))
        | rlink m => exact congrArg Node.rlink (beside m (own m rfl)))
      (by
        rw [get_set, if_pos rfl]
        refine rep₁.congr fun a member => ?_
        rw [node_set _ _ _ _ fun own => outside a (spot.inside a own) (below a member)]
        exact ⟨rfl, rfl⟩)
    have keys' : ∀ a, (((free n s₁).set pl q).node a).key = (s.node a).key := fun a => (key_set ..).trans (keys₁ a)
    have used' : ((free n s₁).set pl q).used = s.used.erase n := by
      rw [← used₁]
      cases pl <;> rfl
    have erased : t'.nodes = (Shape.node top l r).nodes.erase n := by
      rw [nodes', nodes₁, all, erase_middle (all ▸ kept.once)]
      simp
    refine .inr ⟨n, _, t', p, by rw [all]; simp, is, rfl, ⟨rep', ?_, ?_, ?_⟩, erased, used', keys', ?_⟩
    · rw [erased]
      exact kept.once.erase n
    · rw [erased]
      refine (kept.sorted.sublist List.erase_sublist).imp fun {a b} less => ?_
      rw [Less, keys', keys']
      exact less
    · rw [erased, used']
      exact kept.used.erase n
    · rcases which with ⟨-, rfl, rfl⟩ | ⟨own, passed⟩
      · exact .inr ⟨root, rfl⟩
      · refine .inl ⟨?_, fun is => ?_⟩
        · rw [nodes', List.mem_append, List.mem_append]
          rcases spot.inside p own with first | last
          · exact .inl (.inl first)
          · exact .inr last
        · rw [root] at is
          cases is
          exact outside top passed (by simp [Shape.nodes])

end Svr4.Proofs.TsearchDelete

/-! The trees that calls of `tsearch` and `tdelete` lead to are ordered sets. -/

namespace Svr4.Proofs.TsearchHistory
open Function Tsearch TsearchSet TsearchDelete

variable {α : Type} {compar : α → α → Int} {s s' : State α} {key : α} {t : Shape} {n time level : Nat}

def between (visit : Nat × Visit × Nat) : Bool := visit.2.1 = .postorder ∨ visit.2.1 = .leaf

theorem walk_spec (rep : Rep s.node (some n) t) (enough : t.nodes.length ≤ time) :
    ∃ visits, walk s time n level = some visits ∧ (visits.filter between).map Prod.fst = t.nodes := by
  induction t generalizing n time level with
  | nil => cases rep
  | node m l r first last =>
    obtain ⟨is, left, right⟩ := rep
    cases is
    simp only [Shape.nodes, List.length_append, List.length_cons] at enough
    obtain ⟨time, rfl⟩ : ∃ more, time = more + 1 := ⟨time - 1, by omega⟩
    unfold walk
    cases l with
    | nil =>
      have no_left : (s.node m).llink = none := left
      cases r with
      | nil =>
        have no_right : (s.node m).rlink = none := right
        rw [no_left, no_right]
        exact ⟨_, rfl, rfl⟩
      | node b lb rb =>
        have link : (s.node m).rlink = some b := right.1
        rw [link] at right
        obtain ⟨visits, done, nodes⟩ := @last b time (level + 1) right (by omega)
        rw [no_left, link]
        dsimp only
        rw [done]
        refine ⟨_, rfl, ?_⟩
        simp [between, Shape.nodes, nodes]
    | node a la ra =>
      have link : (s.node m).llink = some a := left.1
      rw [link] at left
      obtain ⟨visits, done, nodes⟩ := @first a time (level + 1) left (by omega)
      cases r with
      | nil =>
        have no_right : (s.node m).rlink = none := right
        rw [no_right, link]
        dsimp only
        rw [done]
        refine ⟨_, rfl, ?_⟩
        simp [between, Shape.nodes, nodes]
      | node b lb rb =>
        have link' : (s.node m).rlink = some b := right.1
        rw [link'] at right
        obtain ⟨visits', done', nodes'⟩ := @last b time (level + 1) right (by omega)
        rw [link, link']
        dsimp only
        rw [done, done']
        refine ⟨_, rfl, ?_⟩
        simp [between, Shape.nodes, nodes, nodes']

inductive Event (α : Type) where
  | tsearch (q : Option Nat) (key : α)
  | tdelete (key : α)

/-- The calls on a tree that is empty at first, the last one first. `malloc` gives nodes that
are not in use, and the time is enough. -/
inductive Run (compar : α → α → Int) : List (Event α) → State α → Prop where
  | start (node : Nat → Node α) : Run compar [] ⟨none, node, []⟩
  | tsearch {events : List (Event α)} {s s' : State α} {q r : Option Nat} {key : α} {time : Nat} (run : Run compar events s)
      (fresh : ∀ n, q = some n → n ∉ s.used) (enough : s.used.length ≤ time) (returned : tsearch compar q key time s = some (s', r)) :
      Run compar (.tsearch q key :: events) s'
  | tdelete {events : List (Event α)} {s s' : State α} {r : Option Nat} {key : α} {time : Nat} (run : Run compar events s)
      (enough : s.used.length ≤ time) (returned : tdelete compar key time s = some (s', r)) : Run compar (.tdelete key :: events) s'

def held : List (Event α) → Set α
  | [] => ∅
  | .tsearch q key :: events => if q.isSome then insert key (held events) else held events
  | .tdelete key :: events => held events \ {key}

variable {events : List (Event α)}

theorem keys_once (order : Order compar) (kept : Kept compar s t) {a b : Nat} (first : a ∈ t.nodes) (second : b ∈ t.nodes)
    (same : (s.node a).key = (s.node b).key) : a = b := by
  have pairs : (keys s t).Nodup := by
    refine List.pairwise_map.mpr (kept.sorted.imp fun {a b} less equal => ?_)
    have := (order.same _ _).mpr equal
    unfold Less at less
    omega
  exact List.inj_on_of_nodup_map pairs first second same

theorem run_kept (order : Order compar) (run : Run compar events s) : ∃ t, Kept compar s t ∧ ∀ k, k ∈ keys s t ↔ k ∈ held events := by
  induction run with
  | start node => exact ⟨.nil, ⟨rfl, .nil, .nil, .nil⟩, fun k => ⟨fun member => absurd member List.not_mem_nil, fun member => absurd member id⟩⟩
  | tsearch run fresh enough returned ih =>
    obtain ⟨t, kept, same⟩ := ih
    rw [kept.used.length_eq] at enough
    obtain ⟨s', t', r, done, searched⟩ := tsearch_spec order kept fresh enough
    rw [returned] at done
    cases done
    refine ⟨t', searched.kept, fun k => (searched.keys k).trans ?_⟩
    rw [same, held]
    split
    · next given =>
      rw [Set.mem_insert_iff, or_comm]
      simp [given]
    · next given => simp [given]
  | @tdelete events s₀ s₁ r key time run enough returned ih =>
    obtain ⟨t, kept, same⟩ := ih
    rw [kept.used.length_eq] at enough
    rcases tdelete_spec order kept enough with ⟨absent, done⟩ | ⟨n, s', t', p, member, is, done, deleted⟩
    · rw [returned] at done
      cases done
      refine ⟨t, kept, fun k => (same k).trans ?_⟩
      rw [held, Set.mem_sdiff, Set.mem_singleton_iff]
      refine ⟨fun member => ⟨member, ?_⟩, And.left⟩
      rintro rfl
      exact absent ((same _).mpr member)
    · rw [returned] at done
      cases done
      refine ⟨t', deleted.kept, fun k => ?_⟩
      rw [held, Set.mem_sdiff, Set.mem_singleton_iff, ← same, keys, keys, deleted.nodes]
      simp only [List.mem_map, deleted.keys, kept.once.mem_erase_iff]
      constructor
      · rintro ⟨a, ⟨other, inside⟩, rfl⟩
        exact ⟨⟨a, inside, rfl⟩, fun equal => other (keys_once order kept inside member (equal.trans is.symm))⟩
      · rintro ⟨⟨a, inside, rfl⟩, other⟩
        refine ⟨a, ⟨?_, inside⟩, rfl⟩
        rintro rfl
        exact other is

/-- A tree after some calls, and what the next call does. The node that `tdelete` returns is
still in the tree, unless it has deleted the root of a tree with other nodes. -/
structure OrderedSet (compar : α → α → Int) (events : List (Event α)) (s : State α) (t : Shape) : Prop where
  kept : Kept compar s t
  keys : ∀ k, k ∈ TsearchSet.keys s t ↔ k ∈ held events
  search : ∀ q key time, (∀ n, q = some n → n ∉ s.used) → s.used.length ≤ time →
    ∃ s' t' r, tsearch compar q key time s = some (s', r) ∧ Searched compar s t q key s' t' r
  absent : ∀ key time, s.used.length ≤ time → key ∉ held events → tdelete compar key time s = some (s, none)
  present : ∀ key time, s.used.length ≤ time → key ∈ held events → ∃ n s' t' p, n ∈ t.nodes ∧ (s.node n).key = key ∧
    tdelete compar key time s = some (s', some p) ∧ Deleted compar s t n s' t' p ∧
    (p ∈ t'.nodes ∨ t'.nodes = [] ↔ (s.root = some n → t.nodes = [n]))
  walk : ∀ time, s.used.length ≤ time → ∃ visits, twalk s time = some visits ∧ (∀ n ∈ t.nodes, n ∈ visits.map Prod.fst) ∧
    ((visits.filter between).map fun visit => (s.node visit.1).key).Pairwise fun a b => compar a b < 0

theorem ordered_set (order : Order compar) (run : Run compar events s) : ∃ t, OrderedSet compar events s t := by
  obtain ⟨t, kept, same⟩ := run_kept order run
  have size := kept.used.length_eq
  refine ⟨t, kept, same, fun q key time fresh enough => tsearch_spec order kept fresh (size ▸ enough), fun key time enough absent => ?_,
    fun key time enough present => ?_, fun time enough => ?_⟩
  · rcases tdelete_spec order kept (size ▸ enough) with ⟨-, done⟩ | ⟨n, s', t', p, member, is, done, -⟩
    · exact done
    · exact absurd ((same key).mp (is ▸ List.mem_map_of_mem member)) absent
  · rcases tdelete_spec order kept (size ▸ enough) with ⟨absent, -⟩ | ⟨n, s', t', p, member, is, done, deleted⟩
    · exact absurd ((same key).mpr present) absent
    refine ⟨n, s', t', p, member, is, done, deleted, ?_⟩
    have once := kept.once
    have erased := deleted.nodes
    rcases deleted.parent with ⟨inside, other⟩ | ⟨root, rfl⟩
    · exact ⟨fun _ root => absurd root other, fun _ => .inl inside⟩
    · have gone : p ∉ t'.nodes := by
        rw [erased]
        exact once.not_mem_erase
      refine ⟨fun either _ => ?_, fun alone => .inr ?_⟩
      · have empty := either.resolve_left gone
        rw [erased] at empty
        have length := List.length_erase_of_mem member
        rw [empty] at length
        obtain ⟨a, is⟩ := List.length_eq_one_iff.mp (show t.nodes.length = 1 by
          have := List.length_pos_of_mem member
          rw [List.length_nil] at length
          omega)
        rw [is] at member ⊢
        rw [List.mem_singleton.mp member]
      · rw [erased, alone root]
        simp
  · have visits_nodes : ∃ visits, twalk s time = some visits ∧ (visits.filter between).map Prod.fst = t.nodes := by
      unfold twalk
      cases t with
      | nil =>
        have empty : s.root = none := kept.rep
        rw [empty]
        exact ⟨[], rfl, rfl⟩
      | node top l r =>
        have root : s.root = some top := kept.rep.1
        rw [root]
        exact walk_spec (root ▸ kept.rep) (size ▸ enough)
    obtain ⟨visits, done, nodes⟩ := visits_nodes
    refine ⟨visits, done, fun n member => ?_, ?_⟩
    · rw [← nodes] at member
      exact (List.filter_sublist.map _).subset member
    · have sorted := kept.sorted
      rw [← nodes, List.pairwise_map] at sorted
      exact List.pairwise_map.mpr sorted

def byNumber (a b : Int) : Int := a - b

theorem byNumber_order : Order byNumber :=
  ⟨fun a b => by unfold byNumber; omega, fun a b => by unfold byNumber; omega, fun a b c => by unfold byNumber; omega⟩

def twoKeys : State Int := ⟨some 10, update (update (update (fun _ => ⟨0, none, none⟩) 10 ⟨2, none, none⟩) 10 ⟨2, some 11, none⟩) 11 ⟨1, none, none⟩, [11, 10]⟩

theorem twoKeys_run : Run byNumber [.tsearch (some 11) 1, .tsearch (some 10) 2] twoKeys :=
  .tsearch (.tsearch (.start fun _ => ⟨0, none, none⟩) (by simp) (show ([] : List Nat).length ≤ 0 from le_rfl) rfl) (by simp)
    (show [10].length ≤ 1 from le_rfl) rfl

theorem ordered_set_two : ∃ t, OrderedSet byNumber [.tsearch (some 11) 1, .tsearch (some 10) 2] twoKeys t :=
  ordered_set byNumber_order twoKeys_run

/-- Deleting the root returns the node that has been freed. -/
theorem root_returned : Run byNumber [.tsearch (some 11) 1, .tsearch (some 10) 2] twoKeys ∧
    ∃ s', tdelete byNumber 2 2 twoKeys = some (s', some 10) ∧ s'.used = [11] ∧ s'.root = some 11 :=
  ⟨twoKeys_run, _, rfl, rfl, rfl⟩

end Svr4.Proofs.TsearchHistory
