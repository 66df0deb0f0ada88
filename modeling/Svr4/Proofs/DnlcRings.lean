import Svr4.Dnlc

/-! The links of the name cache: what the insertions and deletions do to the list of
all entries and to the hash chains. -/

namespace Svr4.Proofs.DnlcRings
open Function Rings Dnlc

def Lists (links : Links) (head : Link) (inside : Nat → Prop) : Prop :=
  ∃ l : List Nat, Ring links.next links.prev head (l.map .ncache) ∧ ∀ i, i ∈ l ↔ inside i

def Node (head : Link) (inside : Nat → Prop) (c : Link) : Prop := c = head ∨ ∃ i, inside i ∧ c = .ncache i

theorem rmhash_eq (ncp : Link) (links : Links) :
    nc_rmhash ncp links =
      ⟨update links.next (links.prev ncp) (links.next ncp), update links.prev (links.next ncp) (links.prev ncp)⟩ := by
  have after : update links.next (links.prev ncp) (links.next ncp) ncp = links.next ncp := by
    rw [update_apply]
    split <;> rfl
  simp only [nc_rmhash, after]

theorem rmlru_eq (ncp : Link) (links : Links) : nc_rmlru ncp links = nc_rmhash ncp links := rfl

theorem inshash_eq (ncp hp : Link) (links : Links) :
    nc_inshash ncp hp links =
      ⟨update (update links.next ncp (links.next hp)) hp ncp, update (update links.prev ncp hp) (links.next hp) ncp⟩ := by
  have after : update links.next ncp (links.next hp) hp = links.next hp := by
    rw [update_apply]
    split <;> simp_all
  simp only [nc_inshash, after]

section lists
variable {links links' : Links} {head : Link} {inside : Nat → Prop} {i : Nat} {p c : Link}

theorem mem_nodes {l : List Nat} (members : ∀ i, i ∈ l ↔ inside i) : c ∈ head :: l.map .ncache ↔ Node head inside c := by
  simp only [List.mem_cons, List.mem_map, members, Node, eq_comm]

theorem Lists.frame (lists : Lists links head inside)
    (same : ∀ c, Node head inside c → links'.next c = links.next c ∧ links'.prev c = links.prev c) :
    Lists links' head inside := by
  obtain ⟨l, ring, members⟩ := lists
  exact ⟨l, ring.congr fun c member => same c ((mem_nodes members).mp member), members⟩

theorem Lists.congr {inside' : Nat → Prop} (lists : Lists links head inside) (same : ∀ i, inside i ↔ inside' i) :
    Lists links head inside' := by
  obtain ⟨l, ring, members⟩ := lists
  exact ⟨l, ring, fun i => (members i).trans (same i)⟩

theorem Lists.closed (lists : Lists links head inside) (node : Node head inside c) :
    Node head inside (links.next c) ∧ Node head inside (links.prev c) := by
  obtain ⟨l, ring, members⟩ := lists
  obtain ⟨next_, prev_⟩ := ring.closed ((mem_nodes members).mpr node)
  exact ⟨(mem_nodes members).mp next_, (mem_nodes members).mp prev_⟩

theorem ring_remove {before after : List Nat} (ring : Ring links.next links.prev head ((before ++ i :: after).map .ncache)) :
    Ring (nc_rmhash (.ncache i) links).next (nc_rmhash (.ncache i) links).prev head ((before ++ after).map .ncache) := by
  rw [rmhash_eq, List.map_append]
  rw [List.map_append, List.map_cons] at ring
  apply ring.remove
  · apply update_self
  · exact fun c other => update_of_ne other _ _
  · apply update_self
  · exact fun c other => update_of_ne other _ _

section
variable (lists : Lists links head inside)
include lists

theorem Lists.remove (member : inside i) :
    Lists (nc_rmhash (.ncache i) links) head (fun j => inside j ∧ j ≠ i) := by
  obtain ⟨l, ring, members⟩ := lists
  obtain ⟨before, after, rfl⟩ := List.append_of_mem ((members i).mpr member)
  have once : (before ++ i :: after).Nodup := (List.nodup_cons.mp ring.once).2.of_map _
  obtain ⟨outside, _⟩ := List.nodup_cons.mp (List.nodup_middle.mp once)
  refine ⟨before ++ after, ring_remove ring, fun j => ?_⟩
  · have at_ := members j
    simp only [List.mem_append, List.mem_cons] at outside at_ ⊢
    grind

theorem Lists.prev_node (member : inside i) (notHead : head ≠ .ncache i) :
    Node head (fun j => inside j ∧ j ≠ i) (links.prev (.ncache i)) := by
  obtain ⟨l, ring, members⟩ := lists
  obtain ⟨before, after, rfl⟩ := List.append_of_mem ((members i).mpr member)
  rw [List.map_append, List.map_cons] at ring
  obtain ⟨xs, p, last⟩ := exists_last head (before.map Link.ncache)
  have once := (List.nodup_cons.mp ring.once).2
  obtain ⟨outside, _⟩ := List.nodup_cons.mp (List.nodup_middle.mp once)
  rw [(ring.next_prev last).2]
  have node : p ∈ head :: before.map Link.ncache := by simp [last]
  rcases List.mem_cons.mp node with rfl | node
  · exact .inl rfl
  · obtain ⟨j, among, rfl⟩ := List.mem_map.mp node
    refine .inr ⟨j, ⟨(members j).mp (by simp [among]), ?_⟩, rfl⟩
    rintro rfl
    exact outside (by simp [among])

theorem Lists.insert (fresh : ¬ Node head inside (.ncache i)) (node : Node head inside p)
    (next_p : links'.next p = .ncache i) (next_i : links'.next (.ncache i) = links.next p)
    (next_same : ∀ c, c ≠ p → c ≠ .ncache i → links'.next c = links.next c)
    (prev_n : links'.prev (links.next p) = .ncache i) (prev_i : links'.prev (.ncache i) = p)
    (prev_same : ∀ c, c ≠ links.next p → c ≠ .ncache i → links'.prev c = links.prev c) :
    Lists links' head (fun j => inside j ∨ j = i) := by
  obtain ⟨l, ring, members⟩ := lists
  obtain ⟨xs, rest, whole⟩ := List.append_of_mem ((mem_nodes members).mpr node)
  obtain ⟨before, after, rfl, last⟩ : ∃ before after, l = before ++ after ∧ head :: before.map .ncache = xs ++ [p] := by
    cases xs with
    | nil => exact ⟨[], l, rfl, by rw [← (List.cons.inj whole).1]; rfl⟩
    | cons x xs =>
      obtain ⟨rfl, tail⟩ := List.cons.inj whole
      have split : l.map .ncache = (xs ++ [p]) ++ rest := by simpa using tail
      obtain ⟨before, after, rfl, front, _⟩ := List.map_eq_append_iff.mp split
      exact ⟨before, after, rfl, by rw [front]; rfl⟩
  refine ⟨before ++ i :: after, ?_, fun j => ?_⟩
  · rw [List.map_append, List.map_cons]
    have fresh' : Link.ncache i ∉ head :: (before.map .ncache ++ after.map .ncache) := by
      rw [← List.map_append]
      exact fun member => fresh ((mem_nodes members).mp member)
    rw [List.map_append] at ring
    exact ring.insert last fresh' next_p next_i next_same prev_n prev_i prev_same
  · have at_ := members j
    simp only [List.mem_append, List.mem_cons] at at_ ⊢
    grind

theorem Lists.insert_hash (fresh : ¬ Node head inside (.ncache i)) (node : Node head inside p) :
    Lists (nc_inshash (.ncache i) p links) head (fun j => inside j ∨ j = i) := by
  have after := (lists.closed node).1
  have apart : Link.ncache i ≠ p := fun same => fresh (same ▸ node)
  have apart' : Link.ncache i ≠ links.next p := fun same => fresh (same ▸ after)
  rw [inshash_eq]
  apply lists.insert fresh node
  · apply update_self
  · exact (update_of_ne apart _ _).trans (update_self ..)
  · exact fun c first second => (update_of_ne first _ _).trans (update_of_ne second _ _)
  · apply update_self
  · exact (update_of_ne apart' _ _).trans (update_self ..)
  · exact fun c first second => (update_of_ne first _ _).trans (update_of_ne second _ _)

theorem Lists.insert_lru (fresh : ¬ Node head inside (.ncache i)) (node : Node head inside p) :
    Lists (nc_inslru (.ncache i) p links) head (fun j => inside j ∨ j = i) := by
  have after := (lists.closed node).1
  have apart : Link.ncache i ≠ p := fun same => fresh (same ▸ node)
  have apart' : Link.ncache i ≠ links.next p := fun same => fresh (same ▸ after)
  apply lists.insert fresh node
  · exact (update_of_ne apart.symm _ _).trans (update_self ..)
  · apply update_self
  · exact fun c first second => (update_of_ne second _ _).trans (update_of_ne first _ _)
  · exact (update_of_ne apart'.symm _ _).trans (update_self ..)
  · apply update_self
  · exact fun c first second => (update_of_ne second _ _).trans (update_of_ne first _ _)

end

theorem ring_front {l : List Nat} (ring : Ring links.next links.prev head (l.map .ncache)) (fresh : .ncache i ∉ head :: l.map Link.ncache) :
    Ring (nc_inslru (.ncache i) head links).next (nc_inslru (.ncache i) head links).prev head ((i :: l).map .ncache) := by
  have apart : Link.ncache i ≠ head := fun same => fresh (same ▸ List.mem_cons_self ..)
  have apart' : Link.ncache i ≠ links.next head := fun same => fresh (same ▸ (ring.closed (List.mem_cons_self ..)).1)
  have all : Ring links.next links.prev head ([] ++ l.map .ncache) := ring
  refine all.insert (List.nil_append [head]).symm fresh ?_ ?_ ?_ ?_ ?_ ?_
  · exact (update_of_ne apart.symm _ _).trans (update_self ..)
  · apply update_self
  · exact fun c first second => (update_of_ne second _ _).trans (update_of_ne first _ _)
  · exact (update_of_ne apart'.symm _ _).trans (update_self ..)
  · apply update_self
  · exact fun c first second => (update_of_ne second _ _).trans (update_of_ne first _ _)

theorem ring_search {s : State} {l : List Nat} (ring : Ring links.next links.prev head (l.map .ncache)) (bound : ∀ i ∈ l, i < s.ncsize)
    (stop : Ncache → Bool) : listSearch stop links head s = .ok (l.find? fun i => stop (s.ncache i)) := by
  have once : l.Nodup := (List.nodup_cons.mp ring.once).2.of_map _
  have below : l ⊆ List.range s.ncsize := fun i member => List.mem_range.mpr (bound i member)
  have fits := (once.subperm below).length_le
  have short : (l.map Link.ncache).length < s.ncsize + 1 := by
    rw [List.length_range] at fits
    rw [List.length_map]
    omega
  rw [listSearch, ring.seek_eq short, List.find?_map, show stopAt (fun i => stop (s.ncache i)) ∘ Link.ncache = fun i => stop (s.ncache i) from rfl]
  cases l.find? fun i => stop (s.ncache i) <;> rfl

theorem Lists.search {s : State} (lists : Lists links head inside) (bound : ∀ i, inside i → i < s.ncsize)
    (stop : Ncache → Bool) :
    ∃ r, listSearch stop links head s = .ok r ∧ (∀ i, r = some i → inside i ∧ stop (s.ncache i) = true) ∧
      (r = none → ∀ i, inside i → stop (s.ncache i) = false) := by
  obtain ⟨l, ring, members⟩ := lists
  refine ⟨_, ring_search ring (fun i member => bound i ((members i).mp member)) stop, fun i found => ?_, fun none_ i member => ?_⟩
  · exact ⟨(members i).mp (List.mem_of_find?_eq_some found), by simpa using List.find?_some found⟩
  · simpa using List.find?_eq_none.mp none_ i ((members i).mpr member)

end lists

def Heads (inside : Nat → Prop) (bucket : Nat → Option Nat) : Link → Prop
  | .nc_hash h => h < NC_HASH_SIZE
  | .ncache i => inside i ∧ bucket i = none
  | .nc_lru => False

def OnChain (inside : Nat → Prop) (bucket : Nat → Option Nat) (head : Link) (i : Nat) : Prop :=
  inside i ∧ (bucket i).map .nc_hash = some head

def Chained (links : Links) (inside : Nat → Prop) (bucket : Nat → Option Nat) : Prop :=
  ∀ head, Heads inside bucket head → Lists links head (OnChain inside bucket head)

section chains
variable {links : Links} {inside : Nat → Prop} {bucket : Nat → Option Nat} {head head' c p : Link} {i h : Nat}

theorem home (first : Heads inside bucket head) (second : Heads inside bucket head')
    (node : Node head (OnChain inside bucket head) c) (node' : Node head' (OnChain inside bucket head') c) : head = head' := by
  rcases node with rfl | ⟨i, listed, rfl⟩
  · rcases node' with same | ⟨i, listed, rfl⟩
    · exact same
    · rw [OnChain, first.2] at listed
      cases listed.2
  · rcases node' with rfl | ⟨j, listed', same⟩
    · rw [OnChain, second.2] at listed
      cases listed.2
    · obtain rfl := Link.ncache.inj same
      exact Option.some.inj (listed.2.symm.trans listed'.2)

private theorem ne_of_mem_node {first second : Link → Prop} {d : Link} (elsewhere : ∀ c, first c → ¬ second c)
    (node : first c) (node' : second d) : c ≠ d := by
  rintro rfl
  exact elsewhere c node node'

theorem bucket_some (listed : OnChain inside bucket (.nc_hash h) i) : bucket i = some h := by
  obtain ⟨k, found, same⟩ := Option.map_eq_some_iff.mp listed.2
  rw [found, Link.nc_hash.inj same]

theorem onChain_of (member : inside i) (found : bucket i = some h) : OnChain inside bucket (.nc_hash h) i :=
  ⟨member, by rw [found]; rfl⟩

theorem Chained.alone_at (chained : Chained links inside bucket) (member : inside i) (none_ : bucket i = none) :
    links.next (.ncache i) = .ncache i ∧ links.prev (.ncache i) = .ncache i := by
  have lists := chained (.ncache i) ⟨member, none_⟩
  have only : ∀ c, Node (.ncache i) (OnChain inside bucket (.ncache i)) c → c = .ncache i := by
    rintro c (same | ⟨j, listed, _⟩)
    · exact same
    · obtain ⟨k, _, same⟩ := Option.map_eq_some_iff.mp listed.2
      cases same
  obtain ⟨next_, prev_⟩ := lists.closed (.inl rfl)
  exact ⟨only _ next_, only _ prev_⟩

theorem Chained.remove (chained : Chained links inside bucket) (member : inside i)
    (bounded : ∀ h, bucket i = some h → h < NC_HASH_SIZE) :
    Chained (nc_rmhash (.ncache i) links) (fun j => inside j ∧ j ≠ i) bucket := by
  intro head isHead
  have isHead' : Heads inside bucket head := by
    cases head with
    | ncache j => exact ⟨isHead.1.1, isHead.2⟩
    | nc_hash h => exact isHead
    | nc_lru => exact isHead
  have lists := chained head isHead'
  cases found : bucket i with
  | none =>
    obtain ⟨next_, prev_⟩ := chained.alone_at member found
    have same : nc_rmhash (.ncache i) links = links := by
      rw [rmhash_eq, next_, prev_]
      congr
      · exact update_eq_self_iff.mpr next_.symm
      · exact update_eq_self_iff.mpr prev_.symm
    rw [same]
    apply lists.congr
    intro j
    constructor
    · rintro ⟨inside_, listed⟩
      refine ⟨⟨inside_, ?_⟩, listed⟩
      rintro rfl
      rw [found] at listed
      cases listed
    · exact fun listed => ⟨listed.1.1, listed.2⟩
  | some h =>
    have table : Heads inside bucket (.nc_hash h) := bounded h found
    have own := chained _ table
    have listed := onChain_of member found
    by_cases here : head = .nc_hash h
    · subst here
      apply (lists.remove listed).congr
      intro j
      exact ⟨fun listed => ⟨⟨listed.1.1, listed.2⟩, listed.1.2⟩, fun listed => ⟨⟨listed.1.1, listed.2⟩, listed.1.2⟩⟩
    · obtain ⟨after, before⟩ := own.closed (.inr ⟨i, listed, rfl⟩)
      have elsewhere : ∀ c, Node head (OnChain inside bucket head) c → ¬ Node (.nc_hash h) (OnChain inside bucket (.nc_hash h)) c :=
        fun c node node' => here (home isHead' table node node')
      have framed : Lists (nc_rmhash (.ncache i) links) head (OnChain inside bucket head) := by
        apply lists.frame
        intro c node
        rw [rmhash_eq]
        constructor
        · exact update_of_ne (ne_of_mem_node elsewhere node before) _ _
        · exact update_of_ne (ne_of_mem_node elsewhere node after) _ _
      apply framed.congr
      intro j
      constructor
      · rintro ⟨inside_, listed'⟩
        refine ⟨⟨inside_, ?_⟩, listed'⟩
        rintro rfl
        rw [found] at listed'
        exact here (Option.some.inj listed').symm
      · exact fun listed => ⟨listed.1.1, listed.2⟩

theorem onChain_update {b : Option Nat} (fresh : ¬ inside i) (j : Nat) :
    OnChain (fun j => inside j ∨ j = i) (update bucket i b) head j ↔
      OnChain inside bucket head j ∨ (j = i ∧ b.map .nc_hash = some head) := by
  unfold OnChain
  by_cases same : j = i
  · subst same
    simp [fresh]
  · simp [same]

theorem heads_update {b : Option Nat} (isHead : Heads (fun j => inside j ∨ j = i) (update bucket i b) head) :
    head = .ncache i ∧ b = none ∨ Heads inside bucket head ∧ head ≠ .ncache i := by
  cases head with
  | ncache j =>
    obtain ⟨inside_, none_⟩ := isHead
    by_cases same : j = i
    · subst same
      rw [update_self] at none_
      exact .inl ⟨rfl, none_⟩
    · rw [update_of_ne same] at none_
      exact .inr ⟨⟨inside_.resolve_right same, none_⟩, fun eq => same (Link.ncache.inj eq)⟩
  | nc_hash h => exact .inr ⟨isHead, by simp⟩
  | nc_lru => exact isHead.elim

theorem fresh_node (fresh : ¬ inside i) (isHead : Heads inside bucket head) : ¬ Node head (OnChain inside bucket head) (.ncache i) := by
  rintro (rfl | ⟨j, listed, same⟩)
  · exact fresh isHead.1
  · obtain rfl := Link.ncache.inj same
    exact fresh listed.1

theorem Chained.insert (chained : Chained links inside bucket) (fresh : ¬ inside i) (table : h < NC_HASH_SIZE)
    (node : Node (.nc_hash h) (OnChain inside bucket (.nc_hash h)) p) :
    Chained (nc_inshash (.ncache i) p links) (fun j => inside j ∨ j = i) (update bucket i (some h)) := by
  intro head isHead
  rcases heads_update isHead with ⟨_, none_⟩ | ⟨isHead, _⟩
  · cases none_
  have lists := chained head isHead
  have own := chained (.nc_hash h) table
  by_cases here : head = .nc_hash h
  · subst here
    apply (lists.insert_hash (fresh_node fresh isHead) node).congr
    intro j
    rw [onChain_update fresh]
    simp
  · have after := (own.closed node).1
    have elsewhere : ∀ c, Node head (OnChain inside bucket head) c → ¬ Node (.nc_hash h) (OnChain inside bucket (.nc_hash h)) c :=
      fun c node node' => here (home isHead table node node')
    have framed : Lists (nc_inshash (.ncache i) p links) head (OnChain inside bucket head) := by
      apply lists.frame
      intro c node'
      have other : c ≠ .ncache i := fun same => fresh_node fresh isHead (same ▸ node')
      rw [inshash_eq]
      constructor
      · exact (update_of_ne (ne_of_mem_node elsewhere node' node) _ _).trans (update_of_ne other _ _)
      · exact (update_of_ne (ne_of_mem_node elsewhere node' after) _ _).trans (update_of_ne other _ _)
    apply framed.congr
    intro j
    rw [onChain_update fresh]
    simp [Ne.symm here]

theorem Chained.alone (chained : Chained links inside bucket) (fresh : ¬ inside i) :
    Chained (NULL_HASH (.ncache i) links) (fun j => inside j ∨ j = i) (update bucket i none) := by
  intro head isHead
  rcases heads_update isHead with ⟨rfl, _⟩ | ⟨isHead, _⟩
  · refine ⟨[], Ring.alone (update_self ..) (update_self ..), fun j => ?_⟩
    rw [onChain_update fresh]
    simp [OnChain, Option.map_eq_some_iff]
  · have framed : Lists (NULL_HASH (.ncache i) links) head (OnChain inside bucket head) := by
      apply (chained head isHead).frame
      intro c node
      have other : c ≠ .ncache i := fun same => fresh_node fresh isHead (same ▸ node)
      exact ⟨update_of_ne other _ _, update_of_ne other _ _⟩
    apply framed.congr
    intro j
    rw [onChain_update fresh]
    simp

theorem Chained.congr {inside' : Nat → Prop} {bucket' : Nat → Option Nat} (chained : Chained links inside bucket)
    (same : ∀ j, inside' j ↔ inside j) (same' : ∀ j, inside j → bucket' j = bucket j) : Chained links inside' bucket' := by
  have equal : inside' = inside := funext fun j => propext (same j)
  subst equal
  intro head isHead
  have isHead' : Heads inside' bucket head := by
    cases head with
    | ncache j => exact ⟨isHead.1, (same' j isHead.1).symm.trans isHead.2⟩
    | nc_hash h => exact isHead
    | nc_lru => exact isHead
  apply (chained head isHead').congr
  intro j
  constructor
  · exact fun listed => ⟨listed.1, by rw [same' j listed.1]; exact listed.2⟩
  · exact fun listed => ⟨listed.1, by rw [← same' j listed.1]; exact listed.2⟩

end chains

end Svr4.Proofs.DnlcRings
