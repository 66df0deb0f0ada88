import Svr4.Proofs.DnlcCache

/-! The name cache over any sequence of calls: its lists and counts stay consistent, and
a name is found only as it was entered. -/

namespace Svr4.Proofs.DnlcHistory
open Function Rings Dnlc DnlcRings DnlcCache

inductive Call
  | dnlc_enter (dp : Nat) (name : Name) (vp : Nat) (cred : Option Nat)
  | dnlc_lookup (dp : Nat) (name : Name) (cred : Option Nat)
  | dnlc_remove (dp : Nat) (name : Name)
  | dnlc_purge
  | dnlc_purge_vp (vp : Nat)
  | dnlc_purge_vfsp (vVfsp : Nat → Nat) (vfsp : Nat) (count : Int)
  | dnlc_purge1

inductive Answer
  | nothing
  | vnode (vp : Option Nat)
  | purged (n : Int)

def perform (s : State) : Call → Outcome (Answer × State)
  | .dnlc_enter dp name vp cred => (dnlc_enter dp name vp cred s).map fun t => (.nothing, t)
  | .dnlc_lookup dp name cred => (dnlc_lookup dp name cred s).map fun r => (.vnode r.1, r.2)
  | .dnlc_remove dp name => (dnlc_remove dp name s).map fun t => (.nothing, t)
  | .dnlc_purge => (dnlc_purge s).map fun t => (.nothing, t)
  | .dnlc_purge_vp vp => (dnlc_purge_vp vp s).map fun t => (.nothing, t)
  | .dnlc_purge_vfsp vVfsp vfsp count => (dnlc_purge_vfsp vVfsp vfsp count s).map fun r => (.purged r.1, r.2)
  | .dnlc_purge1 => (dnlc_purge1 s).map fun r => (.purged r.1, r.2)

structure Done where
  before : State
  call : Call
  answer : Answer
  after : State

inductive Run (start : State) : List Done → State → Prop
  | start : Run start [] start
  | call {history : List Done} {s t : State} {c : Call} {a : Answer} (run : Run start history s)
      (made : perform s c = .ok (a, t)) : Run start (history ++ [⟨s, c, a, t⟩]) t

def Cached (s : State) (dp : Nat) (name : Name) (cred : Option Nat) (vp : Nat) : Prop :=
  ∃ i < s.ncsize, Names (s.ncache i) dp name.chars cred ∧ (s.ncache i).vp = some vp

/-- The triple is that of one of the `n` least recently used entries among those that
`sel` selects. -/
def Oldest (s : State) (sel : Ncache → Bool) (n : Nat) (dp : Nat) (name : Name) (cred : Option Nat) : Prop :=
  ∃ l, Aged s l ∧ ∃ i ∈ (l.filter fun i => sel (s.ncache i)).take n, Names (s.ncache i) dp name.chars cred

/-- The call asks for the triple to be removed: by what is in it, or by its age. -/
def Covers (d : Done) (dp : Nat) (name : Name) (cred : Option Nat) (vp : Nat) : Prop :=
  match d.call with
  | .dnlc_enter .. => False
  | .dnlc_lookup .. => False
  | .dnlc_remove dp' name' => dp' = dp ∧ name' = name
  | .dnlc_purge => True
  | .dnlc_purge_vp v => v = dp ∨ v = vp
  | .dnlc_purge_vfsp vVfsp vfsp count => (vVfsp dp = vfsp ∨ vVfsp vp = vfsp) ∧
      (count = 0 ∨ Oldest d.before (fun e => onVfs vVfsp vfsp e.dp || onVfs vVfsp vfsp e.vp) (max 1 count).toNat dp name cred)
  | .dnlc_purge1 => Oldest d.before (fun e => e.dp.isSome) 1 dp name cred

/-- The triple was entered with the vnode when it was not in the cache, and no later
call covered it. -/
def Entered (history : List Done) (dp : Nat) (name : Name) (cred : Option Nat) (vp : Nat) : Prop :=
  ∃ earlier d later, history = earlier ++ d :: later ∧ d.call = .dnlc_enter dp name vp cred ∧
    (∀ vp', ¬ Cached d.before dp name cred vp') ∧ ∀ l ∈ later, Cached l.before dp name cred vp ∧ ¬ Covers l dp name cred vp

structure Valid (s : State) : Prop where
  consistent : Consistent s
  off : s.doingcache = false → s.ncsize = 0

structure Keeps (d : Done) : Prop where
  valid : Valid d.after
  origin : ∀ dp name cred vp, Cached d.after dp name cred vp →
    Cached d.before dp name cred vp ∧ ¬ Covers d dp name cred vp ∨
      d.call = .dnlc_enter dp name vp cred ∧ ∀ vp', ¬ Cached d.before dp name cred vp'

section finds
variable {dp vp : Nat} {name : Name} {cred : Option Nat} {s t : State}

theorem finds_name (dp : Nat) (name : Name) :
    Finds (fun e => e.dp = some dp ∧ key e = name.chars)
      (dnlc_search dp name.chars name.chars.length (NC_HASH name.chars name.chars.length dp) none) := by
  intro s valid
  obtain ⟨r, result, hit, miss⟩ := search_spec valid _ name none
  refine ⟨r, result, fun i found => ?_, fun none_ i inside _ same => ?_⟩
  · obtain ⟨inside, directory, chars, _⟩ := hit i found
    exact ⟨inside, by simp [directory], directory, chars⟩
  · exact miss none_ i inside same.1 same.2 (.inl rfl)

theorem finds_lru {sel : Ncache → Prop} {stop : Ncache → Bool} (test : ∀ e, stop e = true ↔ sel e)
    (names : ∀ e, sel e → e.dp ≠ none ∨ e.vp ≠ none) : Finds sel (lruSearch stop) := by
  intro s valid
  obtain ⟨r, result, hit, miss⟩ := lru_search_spec valid stop
  refine ⟨r, result, fun i found => ?_, fun none_ i inside _ same => ?_⟩
  · obtain ⟨inside, stops⟩ := hit i found
    have selected := (test _).mp stops
    refine ⟨inside, fun none_ => ?_, selected⟩
    obtain ⟨noVnode, _⟩ := (valid.whole i inside).free none_
    rcases names _ selected with directory | vnode
    · exact directory none_
    · exact vnode noVnode
  · have missed := miss none_ i inside
    rw [(test _).mpr same] at missed
    cases missed

theorem finds_chained : Finds (fun _ => True) firstChained := by
  intro s valid
  unfold firstChained
  split
  case h_1 nowhere =>
    refine ⟨none, rfl, fun i none_ => (by cases none_), fun _ i inside used _ => ?_⟩
    obtain ⟨dp, directory⟩ := Option.ne_none_iff_exists'.mp used
    obtain ⟨h, bucket_⟩ : ∃ h, bucket (s.ncache i) = some h := ⟨_, by rw [bucket, directory, Option.map_some]⟩
    have table := bucket_lt bucket_
    have empty : s.hash.next (.nc_hash h) = .nc_hash h := by
      simpa using List.find?_eq_none.mp nowhere h (List.mem_range.mpr table)
    obtain ⟨l, ring, members⟩ := valid.chained (.nc_hash h) table
    have member := (members i).mpr (onChain_of inside bucket_)
    cases l with
    | nil => cases member
    | cons j l =>
      have first := (List.cons.inj ring.forward).1
      rw [empty] at first
      cases first
  case h_2 h somewhere =>
    have table : h < NC_HASH_SIZE := List.mem_range.mp (List.mem_of_find?_eq_some somewhere)
    have other : s.hash.next (.nc_hash h) ≠ .nc_hash h := by simpa using List.find?_some somewhere
    have own := valid.chained (.nc_hash h) table
    rcases (own.closed (.inl rfl)).1 with same | ⟨i, listed, first⟩
    · exact absurd same other
    · rw [first]
      have bucket_ := bucket_some listed
      obtain ⟨dp, directory, _⟩ := Option.map_eq_some_iff.mp bucket_
      obtain ⟨⟨vp, vnode⟩, _⟩ := (valid.whole i listed.1).used dp directory
      refine ⟨some i, ?_, fun j found => ?_, fun none_ => (by cases none_)⟩
      · simp [directory, vnode]
      · obtain rfl := Option.some.inj found
        exact ⟨listed.1, by simp [directory], trivial⟩

end finds

section calls
variable {s t : State} {c : Call} {a : Answer}

section
variable (valid : Valid s)
include valid

theorem cached_inside {dp : Nat} {name : Name} {cred : Option Nat} {vp : Nat} (cached : Cached s dp name cred vp) :
    s.doingcache = true ∧ name.chars.length ≤ NC_NAMLEN := by
  obtain ⟨i, inside, ⟨directory, chars, _⟩, _⟩ := cached
  constructor
  · cases on_ : s.doingcache with
    | true => rfl
    | false =>
      rw [valid.off on_] at inside
      omega
  · obtain ⟨_, _, bound⟩ := (valid.consistent.whole i inside).used dp directory
    rw [← chars, key, List.length_take]
    omega

theorem unchanged_keeps
    (misses : ∀ dp name cred vp, Cached s dp name cred vp → ¬ Covers ⟨s, c, a, s⟩ dp name cred vp) : Keeps ⟨s, c, a, s⟩ :=
  ⟨valid, fun dp name cred vp cached => .inl ⟨cached, misses dp name cred vp cached⟩⟩

theorem off_keeps (off : s.doingcache = false) : Keeps ⟨s, c, a, s⟩ := by
  apply unchanged_keeps valid
  intro dp name cred vp cached
  rw [(cached_inside valid cached).1] at off
  cases off

theorem purge_keeps {sel : Ncache → Prop} (purged : Purged sel s t) (valid' : Consistent t)
    (misses : ∀ dp name cred vp, Cached t dp name cred vp → ¬ Covers ⟨s, c, a, t⟩ dp name cred vp) : Keeps ⟨s, c, a, t⟩ := by
  refine ⟨⟨valid', fun off => ?_⟩, fun dp name cred vp cached => .inl ⟨?_, misses dp name cred vp cached⟩⟩
  · rw [purged.size]
    exact valid.off (purged.caching ▸ off)
  · obtain ⟨i, inside, names, vnode⟩ := cached
    rw [purged.size] at inside
    rcases purged.entry i inside with same | ⟨_, _, gone⟩
    · rw [same] at names vnode
      exact ⟨i, inside, names, vnode⟩
    · rw [gone] at vnode
      cases vnode

theorem enter_keeps (dp : Nat) (name : Name) (vp : Nat) (cred : Option Nat) :
    ∃ a t, perform s (.dnlc_enter dp name vp cred) = .ok (a, t) ∧ Keeps ⟨s, .dnlc_enter dp name vp cred, a, t⟩ := by
  have unchanged : Keeps ⟨s, .dnlc_enter dp name vp cred, .nothing, s⟩ := unchanged_keeps valid fun _ _ _ _ _ covers => covers
  simp only [perform, dnlc_enter]
  split
  · exact ⟨_, _, rfl, unchanged⟩
  split
  · exact ⟨_, _, rfl, unchanged⟩
  next long =>
  obtain ⟨r, result, hit, miss⟩ := search_spec valid.consistent dp name (some cred)
  rw [result]
  cases r with
  | some i => exact ⟨_, _, rfl, unchanged⟩
  | none =>
    have new : ∀ j < s.ncsize, ¬ Names (s.ncache j) dp name.chars cred :=
      fun j inside names => miss rfl j inside names.1 names.2.1 (.inr (by rw [names.2.2]))
    rcases (valid.consistent.lru.closed (.inl rfl)).1 with here | ⟨i, inside, first⟩
    · simp only [here]
      exact ⟨_, _, rfl, unchanged⟩
    · simp only [first]
      refine ⟨_, _, rfl, ?_⟩
      obtain ⟨valid', size, caching, entries_⟩ := recycle_spec valid.consistent vp inside (by omega) new _ rfl
      refine ⟨⟨valid', fun off => ?_⟩, ?_⟩
      · rw [size]
        exact valid.off (caching ▸ off)
      · rintro dp' name' cred' vp' ⟨j, inside', names, vnode⟩
        simp only [size, entries_] at inside' names vnode
        by_cases same : j = i
        · subst same
          rw [update_self] at names vnode
          obtain ⟨directory, chars, credential⟩ := names
          rw [key_named] at chars
          obtain rfl := Option.some.inj directory
          obtain rfl := Option.some.inj vnode
          obtain rfl : name = name' := by
            cases name
            cases name'
            subst chars
            rfl
          obtain rfl := credential
          exact .inr ⟨rfl, fun vp' ⟨k, inside_, names, _⟩ => new k inside_ names⟩
        · rw [update_of_ne same] at names vnode
          exact .inl ⟨⟨j, inside', names, vnode⟩, fun covers => covers⟩

theorem lookup_spec (dp : Nat) (name : Name) (cred : Option Nat) :
    ∃ r t, dnlc_lookup dp name cred s = .ok (r, t) ∧ Keeps ⟨s, .dnlc_lookup dp name cred, .vnode r, t⟩ ∧
      ∀ vp, r = some vp ↔ Cached s dp name cred vp := by
  have unchanged : Keeps ⟨s, .dnlc_lookup dp name cred, .vnode none, s⟩ :=
    unchanged_keeps valid fun _ _ _ _ _ covers => covers
  unfold dnlc_lookup
  simp only []
  split
  next off =>
    refine ⟨_, _, rfl, unchanged, fun vp => ⟨fun none_ => (by cases none_), fun cached => ?_⟩⟩
    rw [(cached_inside valid cached).1] at off
    cases off
  split
  next long =>
    refine ⟨_, _, rfl, unchanged, fun vp => ⟨fun none_ => (by cases none_), fun cached => ?_⟩⟩
    have fits := (cached_inside valid cached).2
    omega
  obtain ⟨r, result, hit, miss⟩ := search_spec valid.consistent dp name (some cred)
  rw [result]
  cases r with
  | none =>
    refine ⟨_, _, rfl, unchanged, fun vp => ⟨fun none_ => (by cases none_), ?_⟩⟩
    rintro ⟨i, inside, ⟨directory, chars, credential⟩, _⟩
    exact absurd (.inr (by rw [credential])) (miss rfl i inside directory chars)
  | some i =>
    obtain ⟨inside, directory, chars, credential⟩ := hit i rfl
    have credential' : (s.ncache i).cred = cred := by simpa [eq_comm] using credential
    have bucket_ := bucket_of_key (valid.consistent.whole i inside) directory chars
    obtain ⟨valid', size, caching, entries_⟩ := moveForward_spec valid.consistent inside bucket_ _ rfl
    refine ⟨_, _, rfl, ⟨⟨valid', fun off => ?_⟩, ?_⟩, fun vp => ⟨fun found => ?_, ?_⟩⟩
    · rw [size]
      exact valid.off (caching ▸ off)
    · rintro dp' name' cred' vp' ⟨j, inside', names, vnode⟩
      simp only [size, entries_] at inside' names vnode
      exact .inl ⟨⟨j, inside', names, vnode⟩, fun covers => covers⟩
    · exact ⟨i, inside, ⟨directory, chars, credential'⟩, found⟩
    · rintro ⟨j, inside', names, vnode⟩
      obtain rfl := valid.consistent.once i inside j inside' _ _ _ ⟨directory, chars, credential'⟩ names
      exact vnode

theorem remove_keeps (dp : Nat) (name : Name) :
    ∃ a t, perform s (.dnlc_remove dp name) = .ok (a, t) ∧ Keeps ⟨s, .dnlc_remove dp name, a, t⟩ := by
  simp only [perform, dnlc_remove]
  split
  · next off => exact ⟨_, _, rfl, off_keeps valid off⟩
  split
  · next long =>
    refine ⟨_, _, rfl, unchanged_keeps valid ?_⟩
    rintro dp' name' cred vp cached ⟨_, rfl⟩
    have fits := (cached_inside valid cached).2
    omega
  · obtain ⟨t, run, valid', purged, none_⟩ := rmWhile_spec (finds_name dp name) valid.consistent (used_within s)
    rw [run]
    refine ⟨_, _, rfl, purge_keeps valid purged valid' ?_⟩
    rintro dp' name' cred vp ⟨i, inside, ⟨directory, chars, _⟩, _⟩ ⟨rfl, rfl⟩
    exact none_ i inside (by simp [directory]) ⟨directory, chars⟩

theorem purge_all_keeps : ∃ a t, perform s .dnlc_purge = .ok (a, t) ∧ Keeps ⟨s, .dnlc_purge, a, t⟩ := by
  simp only [perform, dnlc_purge]
  split
  · next off => exact ⟨_, _, rfl, off_keeps valid off⟩
  · obtain ⟨t, run, valid', purged, none_⟩ := rmWhile_spec finds_chained valid.consistent (used_within s)
    rw [run]
    refine ⟨_, _, rfl, purge_keeps valid purged valid' ?_⟩
    rintro dp name cred vp ⟨i, inside, ⟨directory, _, _⟩, _⟩ _
    exact none_ i inside (by simp [directory]) trivial

theorem purge_vp_keeps (vp : Nat) :
    ∃ a t, perform s (.dnlc_purge_vp vp) = .ok (a, t) ∧ Keeps ⟨s, .dnlc_purge_vp vp, a, t⟩ := by
  simp only [perform, dnlc_purge_vp]
  split
  · next off => exact ⟨_, _, rfl, off_keeps valid off⟩
  · have finds : Finds (fun e => e.dp = some vp ∨ e.vp = some vp)
        (lruSearch fun ncp => decide (ncp.dp = some vp) || decide (ncp.vp = some vp)) := by
      apply finds_lru
      · intro e
        simp
      · rintro e (directory | vnode)
        · exact .inl (by simp [directory])
        · exact .inr (by simp [vnode])
    obtain ⟨t, run, valid', purged, none_⟩ := rmWhile_spec finds valid.consistent (used_within s)
    rw [run]
    refine ⟨_, _, rfl, purge_keeps valid purged valid' ?_⟩
    rintro dp name cred vp' ⟨i, inside, ⟨directory, _, _⟩, vnode⟩ (rfl | rfl)
    · exact none_ i inside (by simp [directory]) (.inl directory)
    · exact none_ i inside (by simp [directory]) (.inr vnode)

end

theorem oldest_gone {sel : Ncache → Prop} {stop : Ncache → Bool} {n dp vp : Nat} {name : Name} {cred : Option Nat} (valid : Consistent s)
    (purged : Purged sel s t) (gone : ∀ l, Aged s l → ∀ i ∈ (l.filter fun i => stop (s.ncache i)).take n, (t.ncache i).dp = none)
    (cached : Cached t dp name cred vp) : ¬ Oldest s stop n dp name cred := by
  rintro ⟨l, aged, i, among, names⟩
  obtain ⟨j, inside, names', _⟩ := cached
  rw [purged.size] at inside
  have bound := (aged.2 i).mp (List.mem_of_mem_filter (List.mem_of_mem_take among))
  rcases purged.entry j inside with same | ⟨_, _, clear⟩
  · rw [same] at names'
    obtain rfl := valid.once i bound j inside _ _ _ names names'
    rw [← same, Names, gone l aged i among] at names
    cases names.1
  · rw [clear] at names'
    cases names'.1

theorem purge_vfsp_keeps (valid : Valid s) (vVfsp : Nat → Nat) (vfsp : Nat) (count : Int) :
    ∃ a t, perform s (.dnlc_purge_vfsp vVfsp vfsp count) = .ok (a, t) ∧ Keeps ⟨s, .dnlc_purge_vfsp vVfsp vfsp count, a, t⟩ := by
  simp only [perform, dnlc_purge_vfsp]
  split
  · next off => exact ⟨_, _, rfl, off_keeps valid off⟩
  · have finds : Finds (fun e => onVfs vVfsp vfsp e.dp = true ∨ onVfs vVfsp vfsp e.vp = true)
        (lruSearch fun ncp => onVfs vVfsp vfsp ncp.dp || onVfs vVfsp vfsp ncp.vp) := by
      apply finds_lru
      · intro e
        simp
      · rintro e (directory | vnode)
        · exact .inl fun none_ => by simp [none_, onVfs] at directory
        · exact .inr fun none_ => by simp [none_, onVfs] at vnode
    obtain ⟨n, t, run, valid', purged, _, _, none_⟩ :=
      purgeCounted_spec finds count (le_refl 0) valid.consistent (used_within s)
    rw [run]
    refine ⟨.purged n, t, rfl, purge_keeps valid purged valid' ?_⟩
    rintro dp name cred vp cached ⟨belongs, all | oldest⟩
    · obtain ⟨i, inside, ⟨directory, _, _⟩, vnode⟩ := cached
      apply none_ (.inl all) i inside (by simp [directory])
      simpa [directory, vnode, onVfs] using belongs
    · refine oldest_gone valid.consistent purged (fun l aged => ?_) cached oldest
      have first := purgeCounted_first (by simpa using finds) (fun _ => rfl) (le_refl 0) valid.consistent (used_within s) aged run
      rwa [Int.sub_zero] at first

theorem purge1_keeps (valid : Valid s) : ∃ a t, perform s .dnlc_purge1 = .ok (a, t) ∧ Keeps ⟨s, .dnlc_purge1, a, t⟩ := by
  simp only [perform, dnlc_purge1]
  split
  · next off => exact ⟨_, _, rfl, off_keeps valid off⟩
  · have finds : Finds (fun e => e.dp ≠ none) (lruSearch fun ncp => ncp.dp.isSome) :=
      finds_lru (fun e => Option.isSome_iff_ne_none) fun e used => .inl used
    obtain ⟨r, found, hit, miss⟩ := finds s valid.consistent
    simp only [found, bind, Except.bind]
    have first {l : List Nat} (aged : Aged s l) : (l.filter fun i => (s.ncache i).dp.isSome).take 1 = r.toList := by
      rw [List.take_one, List.head?_filter, ← Except.ok.inj ((lruSearch_aged aged _).symm.trans found)]
    cases r with
    | none =>
      refine ⟨_, _, rfl, unchanged_keeps valid ?_⟩
      rintro _ _ _ _ _ ⟨l, aged, i, among, _⟩
      rw [first aged] at among
      cases among
    | some i =>
      obtain ⟨inside, used, selected⟩ := hit i rfl
      obtain ⟨t, run, valid', purged, _⟩ := rm_found valid.consistent (fun e => e.dp ≠ none) inside used selected
      simp only [run]
      refine ⟨_, _, rfl, purge_keeps valid purged valid' fun dp name cred vp cached covers => ?_⟩
      have oldest : Oldest s (fun e => e.dp.isSome) 1 dp name cred := covers
      refine oldest_gone valid.consistent purged (fun l aged => ?_) cached oldest
      obtain ⟨dp, directory⟩ := Option.ne_none_iff_exists'.mp used
      obtain ⟨_, again, _, _, _, entries_⟩ := dnlc_rm_spec valid.consistent inside directory
      obtain rfl := Except.ok.inj (run.symm.trans again)
      rw [first aged, entries_]
      rintro j among
      obtain rfl : j = i := by simpa using among
      rw [update_self, cleared]

theorem perform_keeps (valid : Valid s) (c : Call) : ∃ a t, perform s c = .ok (a, t) ∧ Keeps ⟨s, c, a, t⟩ := by
  cases c with
  | dnlc_enter dp name vp cred => exact enter_keeps valid dp name vp cred
  | dnlc_lookup dp name cred =>
    obtain ⟨r, t, run, keeps, _⟩ := lookup_spec valid dp name cred
    exact ⟨_, t, by rw [perform, run]; rfl, keeps⟩
  | dnlc_remove dp name => exact remove_keeps valid dp name
  | dnlc_purge => exact purge_all_keeps valid
  | dnlc_purge_vp vp => exact purge_vp_keeps valid vp
  | dnlc_purge_vfsp vVfsp vfsp count => exact purge_vfsp_keeps valid vVfsp vfsp count
  | dnlc_purge1 => exact purge1_keeps valid

end calls

structure Blank (n k : Nat) (s : State) : Prop where
  lru : Lists s.lru .nc_lru (· < k)
  hash : ∀ c, s.hash.next c = c ∧ s.hash.prev c = c
  rest : s = { bss with ncsize := n, lru := s.lru, hash := s.hash }

theorem null_hash_same {links : Links} (self : ∀ c, links.next c = c ∧ links.prev c = c) (d : Link) : NULL_HASH d links = links := by
  unfold NULL_HASH
  congr
  · exact update_eq_self_iff.mpr (self d).1.symm
  · exact update_eq_self_iff.mpr (self d).2.symm

theorem initEntry_blank {n k : Nat} {s : State} (blank : Blank n k s) : Blank n (k + 1) (initEntry s k) := by
  constructor
  · have fresh : ¬ Node .nc_lru (· < k) (.ncache k) := by
      rintro (same | ⟨j, below, same⟩)
      · cases same
      · exact absurd below (by simp [← Link.ncache.inj same])
    apply (blank.lru.insert_lru fresh (.inl rfl)).congr
    intro j
    exact Nat.lt_succ_iff_lt_or_eq.symm
  · rw [initEntry, null_hash_same blank.hash]
    exact blank.hash
  · have entries_ : s.ncache = bss.ncache := by rw [blank.rest]
    have same : update s.ncache k { s.ncache k with dp := none, vp := none } = bss.ncache := by
      rw [entries_]
      exact update_eq_self_iff.mpr rfl
    rw [initEntry, same]
    conv_lhs => rw [blank.rest]

theorem initEntries_blank {n : Nat} {s : State} (blank : Blank n 0 s) (k : Nat) :
    Blank n k ((List.range k).foldl initEntry s) := by
  induction k with
  | zero => exact blank
  | succ k ih =>
    rw [List.range_succ, List.foldl_append]
    exact initEntry_blank ih

theorem null_hashes_same {links : Links} (self : ∀ c, links.next c = c ∧ links.prev c = c) (k : Nat) :
    (List.range k).foldl (fun links h => NULL_HASH (.nc_hash h) links) links = links := by
  induction k with
  | zero => rfl
  | succ k ih =>
    rw [List.range_succ, List.foldl_append, ih]
    exact null_hash_same self _

theorem blank_valid {n : Nat} {s : State} (blank : Blank n n s) : Consistent s := by
  have entries_ : s.ncache = bss.ncache := by rw [blank.rest]
  have size : s.ncsize = n := by rw [blank.rest]
  constructor
  · rw [size]
    exact blank.lru
  · intro head _
    refine ⟨[], Ring.alone (blank.hash head).1 (blank.hash head).2, fun i => ?_⟩
    simp [OnChain, entries_, bss, bucket]
  · intro i _
    rw [entries_]
    exact ⟨by simp [bss], fun _ => ⟨rfl, rfl⟩, fun _ found => by cases found⟩
  · intro i _ j _ dp name cred names
    rw [entries_] at names
    cases names.1
  · intro v
    rw [blank.rest]
    simp [bss, vnodeUses]
  · intro c
    rw [blank.rest]
    simp [bss, credUses]

theorem dnlc_init_valid (ncsize : Int) (memory : Bool) :
    Valid (dnlc_init ncsize memory) ∧ ∀ dp name cred vp, ¬ Cached (dnlc_init ncsize memory) dp name cred vp := by
  have alone : ∀ c : Link, id c = c ∧ id c = c := fun _ => ⟨rfl, rfl⟩
  unfold dnlc_init
  split
  · have none_ : Blank 0 0 bss := ⟨⟨[], Ring.alone rfl rfl, by simp⟩, alone, rfl⟩
    have valid := blank_valid none_
    refine ⟨⟨⟨valid.lru, valid.chained, valid.whole, valid.once, valid.vnodes, valid.creds⟩, fun _ => rfl⟩, ?_⟩
    rintro dp name cred vp ⟨i, _, names, _⟩
    cases names.1
  · have linked : Ring (update bss.lru.next .nc_lru .nc_lru) (update bss.lru.prev .nc_lru .nc_lru) .nc_lru [] :=
      Ring.alone (update_self ..) (update_self ..)
    have start : Blank ncsize.toNat 0
        { bss with ncsize := ncsize.toNat, lru := ⟨update bss.lru.next .nc_lru .nc_lru, update bss.lru.prev .nc_lru .nc_lru⟩ } :=
      ⟨⟨[], linked, by simp⟩, alone, rfl⟩
    have filled := initEntries_blank start ncsize.toNat
    simp only [null_hashes_same filled.hash]
    refine ⟨⟨blank_valid filled, fun off => ?_⟩, ?_⟩
    · rw [filled.rest] at off
      cases off
    · rintro dp name cred vp ⟨i, _, names, _⟩
      rw [filled.rest] at names
      cases names.1

section history
variable {start s : State} {history : List Done}

theorem run_valid (valid : Valid start) (run : Run start history s) : Valid s := by
  induction run with
  | start => exact valid
  | call run made ih =>
    obtain ⟨a, t, made', keeps⟩ := perform_keeps ih _
    obtain ⟨rfl, rfl⟩ := Prod.mk.inj (Except.ok.inj (made.symm.trans made'))
    exact keeps.valid

theorem cached_entered (valid : Valid start) (empty : ∀ dp name cred vp, ¬ Cached start dp name cred vp)
    (run : Run start history s) {dp : Nat} {name : Name} {cred : Option Nat} {vp : Nat} (cached : Cached s dp name cred vp) :
    Entered history dp name cred vp := by
  induction run with
  | start => exact absurd cached (empty dp name cred vp)
  | @call _ s t c a run made ih =>
    obtain ⟨a, t, made', keeps⟩ := perform_keeps (run_valid valid run) c
    obtain ⟨rfl, rfl⟩ := Prod.mk.inj (Except.ok.inj (made.symm.trans made'))
    rcases keeps.origin dp name cred vp cached with ⟨before, uncovered⟩ | ⟨entered, new⟩
    · obtain ⟨earlier, d, later, rfl, call, new, since⟩ := ih before
      refine ⟨earlier, d, later ++ [⟨s, c, a, t⟩], by simp, call, new, fun l member => ?_⟩
      rcases List.mem_append.mp member with member | member
      · exact since l member
      · obtain rfl := List.mem_singleton.mp member
        exact ⟨before, uncovered⟩
    · exact ⟨_, _, [], rfl, entered, new, fun l member => by cases member⟩

/-- After any sequence of calls each entry is once on the list from the least recently
used, and on the chain of its name or on none, and the reference counts are those of the
entries. Every call returns, and a lookup finds a vnode only for the triple that was
entered with it and that nothing has covered since. -/
theorem name_cache (ncsize : Int) (memory : Bool) {history : List Done} {s : State}
    (run : Run (dnlc_init ncsize memory) history s) :
    Consistent s ∧ (∀ c, ∃ a t, perform s c = .ok (a, t)) ∧
      ∀ dp name cred vp t, dnlc_lookup dp name cred s = .ok (some vp, t) → Entered history dp name cred vp := by
  obtain ⟨initial, empty⟩ := dnlc_init_valid ncsize memory
  have valid := run_valid initial run
  refine ⟨valid.consistent, fun c => ?_, fun dp name cred vp t found => ?_⟩
  · obtain ⟨a, t, made, _⟩ := perform_keeps valid c
    exact ⟨a, t, made⟩
  · obtain ⟨r, t', result, _, finds⟩ := lookup_spec valid dp name cred
    obtain ⟨rfl, rfl⟩ := Prod.mk.inj (Except.ok.inj (found.symm.trans result))
    exact cached_entered initial empty run ((finds vp).mp rfl)

end history

private def passwd : Name := ⟨[112, 97, 115, 115, 119, 100], by simp⟩

/-- The theorem after a name was entered in a cache of one entry: the lookup finds its
vnode, and each of the two vnodes has one reference. -/
theorem name_cache_one : ∃ s, perform (dnlc_init 1 true) (.dnlc_enter 8 passwd 24 none) = .ok (.nothing, s) ∧
    s.vHeld 8 = 1 ∧ s.vHeld 24 = 1 ∧ (∃ t, dnlc_lookup 8 passwd none s = .ok (some 24, t)) ∧
      Entered [⟨dnlc_init 1 true, .dnlc_enter 8 passwd 24 none, .nothing, s⟩] 8 passwd none 24 := by
  refine ⟨_, rfl, rfl, rfl, ⟨_, rfl⟩, ?_⟩
  exact (name_cache 1 true (.call .start rfl)).2.2 8 passwd none 24 _ rfl

end Svr4.Proofs.DnlcHistory
