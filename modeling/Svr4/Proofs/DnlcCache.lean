import Svr4.Proofs.DnlcRings

/-! The entries of the name cache: each routine keeps the lists, the triples apart and
the reference counts. -/

namespace Svr4.Proofs.DnlcCache
open Function Rings Dnlc DnlcRings

variable {time : Nat} {sel : Ncache → Prop}

def key (e : Ncache) : List UInt8 := e.name.take e.namlen

def bucket (e : Ncache) : Option Nat := e.dp.map (NC_HASH e.name e.namlen)

def Names (e : Ncache) (dp : Nat) (name : List UInt8) (cred : Option Nat) : Prop := e.dp = some dp ∧ key e = name ∧ e.cred = cred

def vnodeUses (v : Nat) (e : Ncache) : Int := (if e.dp = some v then 1 else 0) + if e.vp = some v then 1 else 0

def credUses (c : Nat) (e : Ncache) : Int := if e.cred = some c then 1 else 0

structure Whole (e : Ncache) : Prop where
  room : e.name.length = NC_NAMLEN
  free : e.dp = none → e.vp = none ∧ e.cred = none
  used : ∀ dp, e.dp = some dp → (∃ vp, e.vp = some vp) ∧ 0 < e.namlen ∧ e.namlen ≤ NC_NAMLEN

structure Consistent (s : State) : Prop where
  lru : Lists s.lru .nc_lru (· < s.ncsize)
  chained : Chained s.hash (· < s.ncsize) (fun i => bucket (s.ncache i))
  whole : ∀ i < s.ncsize, Whole (s.ncache i)
  once : ∀ i < s.ncsize, ∀ j < s.ncsize, ∀ dp name cred, Names (s.ncache i) dp name cred → Names (s.ncache j) dp name cred → i = j
  vnodes : ∀ v, s.vHeld v = ∑ i ∈ Finset.range s.ncsize, vnodeUses v (s.ncache i)
  creds : ∀ c, s.crHeld c = ∑ i ∈ Finset.range s.ncsize, credUses c (s.ncache i)

theorem NC_HASH_lt (name : List UInt8) (namlen dp : Nat) : NC_HASH name namlen dp < NC_HASH_SIZE := Nat.mod_lt _ (by simp [NC_HASH_SIZE])

theorem bucket_lt {e : Ncache} {h : Nat} (found : bucket e = some h) : h < NC_HASH_SIZE := by
  obtain ⟨dp, _, rfl⟩ := Option.map_eq_some_iff.mp found
  exact NC_HASH_lt _ _ _

theorem NC_HASH_congr {first second : List UInt8} {n : Nat} (same : first.take n = second.take n) (some_ : 0 < n) (dp : Nat) :
    NC_HASH first n dp = NC_HASH second n dp := by
  have at_ : ∀ k < n, first.getD k 0 = second.getD k 0 := by
    intro k below
    have look := congrArg (fun l => l[k]?) same
    simp only [List.getElem?_take_of_lt below] at look
    simp only [List.getD_eq_getElem?_getD, look]
  simp only [NC_HASH, at_ 0 some_, at_ (n - 1) (by omega)]

theorem sum_update {g : Nat → Ncache} {i n : Nat} (inside : i < n) (e : Ncache) (f : Ncache → Int) :
    ∑ j ∈ Finset.range n, f (update g i e j) = (∑ j ∈ Finset.range n, f (g j)) + f e - f (g i) := by
  have member : i ∈ Finset.range n := Finset.mem_range.mpr inside
  rw [← Finset.add_sum_erase _ _ member, ← Finset.add_sum_erase _ (fun j => f (g j)) member, update_self]
  have rest : ∑ j ∈ (Finset.range n).erase i, f (update g i e j) = ∑ j ∈ (Finset.range n).erase i, f (g j) := by
    apply Finset.sum_congr rfl
    intro j among
    rw [update_of_ne (Finset.ne_of_mem_erase among)]
  rw [rest]
  ring

theorem bucket_update (g : Nat → Ncache) (i : Nat) (e : Ncache) :
    (fun j => bucket (update g i e j)) = update (fun j => bucket (g j)) i (bucket e) := by
  funext j
  simp only [update_apply]
  split <;> rfl

theorem addTo_eq (held : Nat → Int) (p : Option Nat) (n : Int) (v : Nat) :
    addTo held p n v = held v + n * if p = some v then 1 else 0 := by
  simp [addTo]

section entry
variable {e : Ncache} {dp namlen : Nat} {name : Name} {cred : Option (Option Nat)}

theorem matches_iff (whole : Whole e) :
    matches_ dp name.chars name.chars.length cred e = true ↔
      e.dp = some dp ∧ key e = name.chars ∧ (cred = none ∨ cred = some e.cred) := by
  have some_ := List.length_pos_iff.mpr name.someChar
  simp only [matches_, Bool.and_eq_true, Bool.or_eq_true, decide_eq_true_eq, List.take_length]
  constructor
  · rintro ⟨⟨⟨⟨directory, size⟩, credential⟩, _⟩, chars⟩
    refine ⟨directory, ?_, credential⟩
    rw [key, size, chars]
  · rintro ⟨directory, chars, credential⟩
    obtain ⟨_, _, bound⟩ := whole.used dp directory
    have size : e.namlen = name.chars.length := by
      rw [← chars, key, List.length_take, whole.room]
      omega
    rw [key, size] at chars
    refine ⟨⟨⟨⟨directory, size⟩, credential⟩, ?_⟩, chars⟩
    rw [← chars, List.head?_take, if_neg (by omega)]

theorem bucket_of_key (whole : Whole e) (directory : e.dp = some dp) (chars : key e = name.chars) :
    bucket e = some (NC_HASH name.chars name.chars.length dp) := by
  obtain ⟨_, some_, bound⟩ := whole.used dp directory
  have size : e.namlen = name.chars.length := by
    rw [← chars, key, List.length_take, whole.room]
    omega
  rw [bucket, directory, size, Option.map_some]
  rw [key, size] at chars
  have same : (e.name.take name.chars.length) = name.chars.take name.chars.length := by rw [chars, List.take_length]
  rw [NC_HASH_congr same (by omega)]

end entry

section routines
variable {s t : State} {i dp : Nat}

theorem search_spec (valid : Consistent s) (dp : Nat) (name : Name) (cred : Option (Option Nat)) :
    ∃ r, dnlc_search dp name.chars name.chars.length (NC_HASH name.chars name.chars.length dp) cred s = .ok r ∧
      (∀ i, r = some i → i < s.ncsize ∧ (s.ncache i).dp = some dp ∧ key (s.ncache i) = name.chars ∧
        (cred = none ∨ cred = some (s.ncache i).cred)) ∧
      (r = none → ∀ i < s.ncsize, (s.ncache i).dp = some dp → key (s.ncache i) = name.chars →
        ¬ (cred = none ∨ cred = some (s.ncache i).cred)) := by
  have lists := valid.chained (.nc_hash (NC_HASH name.chars name.chars.length dp)) (NC_HASH_lt _ _ _)
  obtain ⟨r, result, hit, miss⟩ :=
    lists.search (fun i member => member.1) (matches_ dp name.chars name.chars.length cred)
  refine ⟨r, result, fun i found => ?_, fun none_ i inside directory chars credential => ?_⟩
  · obtain ⟨member, stops⟩ := hit i found
    exact ⟨member.1, (matches_iff (valid.whole i member.1)).mp stops⟩
  · have whole := valid.whole i inside
    have missed := miss none_ i (onChain_of inside (bucket_of_key whole directory chars))
    rw [(matches_iff whole).mpr ⟨directory, chars, credential⟩] at missed
    cases missed

theorem lru_search_spec (valid : Consistent s) (stop : Ncache → Bool) :
    ∃ r, lruSearch stop s = .ok r ∧ (∀ i, r = some i → i < s.ncsize ∧ stop (s.ncache i) = true) ∧
      (r = none → ∀ i < s.ncsize, stop (s.ncache i) = false) :=
  valid.lru.search (fun _ member => member) stop

theorem lru_moved {links : Links} {n : Nat} {p : Link} (lists : Lists links .nc_lru (· < n)) (inside : i < n)
    (node : Node .nc_lru (fun j => j < n ∧ j ≠ i) p) :
    Lists (nc_inslru (.ncache i) p (nc_rmlru (.ncache i) links)) .nc_lru (· < n) := by
  rw [rmlru_eq]
  have removed := lists.remove inside
  have fresh : ¬ Node .nc_lru (fun j => j < n ∧ j ≠ i) (.ncache i) := by
    rintro (same | ⟨j, ⟨_, other⟩, same⟩)
    · cases same
    · exact other (Link.ncache.inj same).symm
  apply (removed.insert_lru fresh node).congr
  intro j
  by_cases same : j = i
  · simp [same, inside]
  · simp [same]

theorem node_last {links : Links} {n : Nat} (lists : Lists links .nc_lru (· < n)) (inside : i < n) :
    Node .nc_lru (fun j => j < n ∧ j ≠ i) ((nc_rmlru (.ncache i) links).prev .nc_lru) :=
  ((lists.remove inside).closed (.inl rfl)).2

theorem put_back {n : Nat} (inside : i < n) (j : Nat) : j < n ↔ (j < n ∧ j ≠ i) ∨ j = i := by
  by_cases same : j = i
  · simp [same, inside]
  · simp [same]

theorem Consistent.replace {e : Ncache} (valid : Consistent s) (inside : i < s.ncsize) (size : t.ncsize = s.ncsize)
    (entries_ : t.ncache = update s.ncache i e) (lru : Lists t.lru .nc_lru (· < s.ncsize))
    (chained : Chained t.hash (· < s.ncsize) (update (fun j => bucket (s.ncache j)) i (bucket e))) (whole : Whole e)
    (apart : ∀ j < s.ncsize, j ≠ i → ∀ dp name cred, Names e dp name cred → ¬ Names (s.ncache j) dp name cred)
    (vnodes : ∀ v, t.vHeld v = s.vHeld v + vnodeUses v e - vnodeUses v (s.ncache i))
    (creds : ∀ c, t.crHeld c = s.crHeld c + credUses c e - credUses c (s.ncache i)) : Consistent t := by
  constructor
  · rw [size]
    exact lru
  · rw [size, entries_, bucket_update]
    exact chained
  · rw [size, entries_]
    intro j inside_
    by_cases same : j = i
    · subst same
      rw [update_self]
      exact whole
    · rw [update_of_ne same]
      exact valid.whole j inside_
  · rw [size, entries_]
    intro j inside_ k inside' dp name cred first second
    by_cases here : j = i
    · subst here
      by_cases there : k = j
      · exact there.symm
      · rw [update_self] at first
        rw [update_of_ne there] at second
        exact absurd second (apart k inside' there dp name cred first)
    · rw [update_of_ne here] at first
      by_cases there : k = i
      · subst there
        rw [update_self] at second
        exact absurd first (apart j inside_ here dp name cred second)
      · rw [update_of_ne there] at second
        exact valid.once j inside_ k inside' dp name cred first second
  · intro v
    rw [size, entries_, sum_update inside, vnodes, valid.vnodes]
  · intro c
    rw [size, entries_, sum_update inside, creds, valid.creds]

def cleared (e : Ncache) : Ncache := { e with dp := none, vp := none, cred := none }

theorem dnlc_rm_spec (valid : Consistent s) (inside : i < s.ncsize) (used : (s.ncache i).dp = some dp) :
    ∃ t, dnlc_rm i s = .ok t ∧ Consistent t ∧ t.ncsize = s.ncsize ∧ t.doingcache = s.doingcache ∧
      t.ncache = update s.ncache i (cleared (s.ncache i)) := by
  have whole := valid.whole i inside
  obtain ⟨⟨vp, named⟩, _, _⟩ := whole.used dp used
  have run := dnlc_rm.eq_1 i s
  rw [used, named] at run
  refine ⟨_, run, ?_, rfl, rfl, rfl⟩
  refine valid.replace (e := cleared (s.ncache i)) inside ?_ ?_ ?_ ?_ ?_ ?_ ?_ ?_
  · rfl
  · rfl
  · exact lru_moved valid.lru inside (.inl rfl)
  · have removed := valid.chained.remove inside fun _ found => bucket_lt found
    exact (removed.alone (i := i) (by simp)).congr (put_back inside) fun _ _ => rfl
  · exact ⟨whole.room, fun _ => ⟨rfl, rfl⟩, fun _ found => by cases found⟩
  · intro j _ _ dp name cred names
    cases names.1
  · intro v
    simp only [crfree, VN_RELE, addTo_eq, vnodeUses, cleared, used, named, reduceCtorEq, if_false]
    ring
  · intro c
    simp only [crfree, VN_RELE, addTo_eq, credUses, cleared, reduceCtorEq, if_false]
    ring

def named (e : Ncache) (dp : Nat) (name : Name) (vp : Nat) (cred : Option Nat) : Ncache :=
  ⟨some vp, some dp, name.chars.length, name.chars ++ e.name.drop name.chars.length, cred⟩

theorem key_named {e : Ncache} {name : Name} {vp : Nat} {cred : Option Nat} : key (named e dp name vp cred) = name.chars := by
  simp [key, named]

theorem recycle_spec {name : Name} {cred : Option Nat} (valid : Consistent s) (vp : Nat) (inside : i < s.ncsize)
    (fits : name.chars.length ≤ NC_NAMLEN)
    (new : ∀ j < s.ncsize, ¬ Names (s.ncache j) dp name.chars cred) (t : State)
    (result : t = recycle i dp name.chars name.chars.length (NC_HASH name.chars name.chars.length dp) vp cred s) :
    Consistent t ∧ t.ncsize = s.ncsize ∧ t.doingcache = s.doingcache ∧
      t.ncache = update s.ncache i (named (s.ncache i) dp name vp cred) := by
  have whole := valid.whole i inside
  have entries_ : t.ncache = update s.ncache i (named (s.ncache i) dp name vp cred) := by
    rw [result]
    simp only [recycle, named, List.take_length]
    rfl
  refine ⟨?_, by rw [result]; rfl, by rw [result]; rfl, entries_⟩
  have some_ := List.length_pos_iff.mpr name.someChar
  have whole' : Whole (named (s.ncache i) dp name vp cred) := by
    refine ⟨?_, fun none_ => (by cases none_), fun _ _ => ⟨⟨vp, rfl⟩, some_, fits⟩⟩
    simp only [named, List.length_append, List.length_drop, whole.room]
    omega
  have bucket_ : bucket (named (s.ncache i) dp name vp cred) = some (NC_HASH name.chars name.chars.length dp) :=
    bucket_of_key whole' rfl key_named
  subst result
  refine valid.replace inside rfl entries_ ?_ ?_ whole' ?_ ?_ ?_
  · exact lru_moved valid.lru inside (node_last valid.lru inside)
  · rw [bucket_]
    have removed := valid.chained.remove inside fun _ found => bucket_lt found
    exact (removed.insert (i := i) (by simp) (NC_HASH_lt _ _ _) (.inl rfl)).congr (put_back inside) fun _ _ => rfl
  · rintro j inside' _ dp' name' cred' ⟨directory, chars, credential⟩ names
    rw [key_named] at chars
    obtain rfl := Option.some.inj directory
    obtain rfl := credential
    exact new j inside' (chars ▸ names)
  · intro v
    have uses : vnodeUses v (named (s.ncache i) dp name vp cred) =
        (if some dp = some v then 1 else 0) + if some vp = some v then 1 else 0 := rfl
    rw [uses, vnodeUses]
    simp only [recycle, crfree, crhold, VN_HOLD, VN_RELE, addTo_eq]
    ring
  · intro c
    have uses : credUses c (named (s.ncache i) dp name vp cred) = if cred = some c then 1 else 0 := rfl
    rw [uses, credUses]
    simp only [recycle, crfree, crhold, VN_HOLD, VN_RELE, addTo_eq]
    ring

theorem moveForward_spec {h : Nat} (valid : Consistent s) (inside : i < s.ncsize) (found : bucket (s.ncache i) = some h)
    (t : State) (result : t = moveForward i h s) :
    Consistent t ∧ t.ncsize = s.ncsize ∧ t.doingcache = s.doingcache ∧ t.ncache = s.ncache := by
  have table : h < NC_HASH_SIZE := bucket_lt found
  have lru : Lists t.lru .nc_lru (· < s.ncsize) := by
    subst result
    have moved := lru_moved valid.lru inside (node_last valid.lru inside)
    unfold moveForward
    simp only []
    split
    · exact moved
    · exact moved
  have chained : Chained t.hash (· < s.ncsize) (fun j => bucket (s.ncache j)) := by
    subst result
    unfold moveForward
    simp only []
    split
    case isFalse => exact valid.chained
    case isTrue =>
      have removed := valid.chained.remove inside fun _ found => bucket_lt found
      have own := removed (.nc_hash h) table
      have before := (valid.chained (.nc_hash h) table).prev_node (onChain_of inside found) (by simp)
      have same : (nc_rmhash (.ncache i) s.hash).prev (.ncache i) = s.hash.prev (.ncache i) := by
        rw [rmhash_eq]
        apply (update_apply ..).trans
        split
        · rfl
        · rfl
      rw [same]
      have node : Node (.nc_hash h) (OnChain (fun j => j < s.ncsize ∧ j ≠ i) (fun j => bucket (s.ncache j)) (.nc_hash h))
          (s.hash.prev (.ncache i)) := by
        rcases before with here | ⟨j, ⟨listed, other⟩, here⟩
        · exact .inl here
        · exact .inr ⟨j, ⟨⟨listed.1, other⟩, listed.2⟩, here⟩
      apply (removed.insert (i := i) (by simp) table (own.closed node).2).congr (put_back inside)
      intro j _
      rw [update_apply]
      split
      · next same => rw [same, found]
      · rfl
  have rest : t = { s with lru := t.lru, hash := t.hash } := by
    subst result
    unfold moveForward
    simp only []
    split
    · rfl
    · rfl
  have size : t.ncsize = s.ncsize := by rw [rest]
  have entries_ : t.ncache = s.ncache := by rw [rest]
  refine ⟨?_, size, by rw [rest], entries_⟩
  rw [rest]
  exact ⟨lru, chained, valid.whole, valid.once, valid.vnodes, valid.creds⟩

def usedEntries (s : State) : Finset Nat := (Finset.range s.ncsize).filter fun i => (s.ncache i).dp ≠ none

structure Purged (sel : Ncache → Prop) (s t : State) : Prop where
  size : t.ncsize = s.ncsize
  caching : t.doingcache = s.doingcache
  entry : ∀ i < s.ncsize, t.ncache i = s.ncache i ∨
    (s.ncache i).dp ≠ none ∧ sel (s.ncache i) ∧ t.ncache i = cleared (s.ncache i)

theorem Purged.refl (sel : Ncache → Prop) (s : State) : Purged sel s s := ⟨rfl, rfl, fun _ _ => .inl rfl⟩

theorem Purged.trans {u : State} (first : Purged sel s t) (second : Purged sel t u) : Purged sel s u := by
  refine ⟨second.size.trans first.size, second.caching.trans first.caching, fun i inside => ?_⟩
  rcases first.entry i inside with same | ⟨used, selected, gone⟩
  · rcases second.entry i (first.size ▸ inside) with same' | ⟨used, selected, gone⟩
    · exact .inl (same'.trans same)
    · rw [same] at used selected gone
      exact .inr ⟨used, selected, gone⟩
  · rcases second.entry i (first.size ▸ inside) with same' | ⟨used', _, _⟩
    · exact .inr ⟨used, selected, same'.trans gone⟩
    · rw [gone] at used'
      exact absurd rfl used'

def Finds (sel : Ncache → Prop) (find : State → Outcome (Option Nat)) : Prop :=
  ∀ s, Consistent s → ∃ r, find s = .ok r ∧
    (∀ i, r = some i → i < s.ncsize ∧ (s.ncache i).dp ≠ none ∧ sel (s.ncache i)) ∧
    (r = none → ∀ i < s.ncsize, (s.ncache i).dp ≠ none → ¬ sel (s.ncache i))

theorem rm_found (valid : Consistent s) (sel : Ncache → Prop) (inside : i < s.ncsize) (used : (s.ncache i).dp ≠ none)
    (selected : sel (s.ncache i)) :
    ∃ t, dnlc_rm i s = .ok t ∧ Consistent t ∧ Purged sel s t ∧ (usedEntries t).card + 1 = (usedEntries s).card := by
  obtain ⟨dp, directory⟩ := Option.ne_none_iff_exists'.mp used
  obtain ⟨t, run, valid', size, caching, entries_⟩ := dnlc_rm_spec valid inside directory
  refine ⟨t, run, valid', ⟨size, caching, fun j _ => ?_⟩, ?_⟩
  · rw [entries_]
    by_cases same : j = i
    · subst same
      exact .inr ⟨used, selected, update_self ..⟩
    · exact .inl (update_of_ne same _ _)
  · have member : i ∈ usedEntries s := Finset.mem_filter.mpr ⟨Finset.mem_range.mpr inside, used⟩
    have less : usedEntries t = (usedEntries s).erase i := by
      ext j
      rw [usedEntries, usedEntries, size, entries_, Finset.mem_erase, Finset.mem_filter, Finset.mem_filter]
      by_cases same : j = i
      · subst same
        simp [cleared]
      · simp [same]
    rw [less]
    exact Finset.card_erase_add_one member

theorem rmWhile_spec {find : State → Outcome (Option Nat)} (finds : Finds sel find)
    (valid : Consistent s) (enough : (usedEntries s).card < time) :
    ∃ t, rmWhile find time s = .ok t ∧ Consistent t ∧ Purged sel s t ∧
      ∀ i < t.ncsize, (t.ncache i).dp ≠ none → ¬ sel (t.ncache i) := by
  induction time generalizing s with
  | zero => omega
  | succ time ih =>
    obtain ⟨r, found, hit, miss⟩ := finds s valid
    cases r with
    | none =>
      refine ⟨s, ?_, valid, .refl sel s, miss rfl⟩
      simp [rmWhile, found, bind, Except.bind, pure, Except.pure]
    | some i =>
      obtain ⟨inside, used, selected⟩ := hit i rfl
      obtain ⟨t, run, valid', purged, less⟩ := rm_found valid sel inside used selected
      obtain ⟨u, run', valid'', purged', none_⟩ := ih valid' (by omega)
      refine ⟨u, ?_, valid'', purged.trans purged', none_⟩
      simp [rmWhile, found, run, run', bind, Except.bind]

theorem purgeCounted_spec {find : State → Outcome (Option Nat)} (finds : Finds sel find) (count : Int) {n : Int} (positive : 0 ≤ n)
    (valid : Consistent s) (enough : (usedEntries s).card < time) :
    ∃ m t, purgeCounted find count time n s = .ok (m, t) ∧ Consistent t ∧ Purged sel s t ∧
      m + (usedEntries t).card = n + (usedEntries s).card ∧ n ≤ m ∧
      (count = 0 ∨ m < count ∨ m = 0 → ∀ i < t.ncsize, (t.ncache i).dp ≠ none → ¬ sel (t.ncache i)) := by
  induction time generalizing s n with
  | zero => omega
  | succ time ih =>
    obtain ⟨r, found, hit, miss⟩ := finds s valid
    cases r with
    | none =>
      refine ⟨n, s, ?_, valid, .refl sel s, rfl, le_refl n, fun _ => miss rfl⟩
      simp [purgeCounted, found, bind, Except.bind, pure, Except.pure]
    | some i =>
      obtain ⟨inside, used, selected⟩ := hit i rfl
      obtain ⟨t, run, valid', purged, less⟩ := rm_found valid sel inside used selected
      by_cases more : count = 0 ∨ n + 1 < count
      · obtain ⟨m, u, run', valid'', purged', total, grows, none_⟩ := ih (n := n + 1) (by omega) valid' (by omega)
        refine ⟨m, u, ?_, valid'', purged.trans purged', by omega, by omega, none_⟩
        simp [purgeCounted, found, run, run', more, bind, Except.bind]
      · refine ⟨n + 1, t, ?_, valid', purged, by omega, by omega, fun unlimited => by omega⟩
        simp [purgeCounted, found, run, more, bind, Except.bind, pure, Except.pure]

def Aged (s : State) (l : List Nat) : Prop := Ring s.lru.next s.lru.prev .nc_lru (l.map .ncache) ∧ ∀ i, i ∈ l ↔ i < s.ncsize

theorem lruSearch_aged {l : List Nat} (aged : Aged s l) (stop : Ncache → Bool) : lruSearch stop s = .ok (l.find? fun i => stop (s.ncache i)) :=
  ring_search aged.1 (fun i => (aged.2 i).mp) stop

theorem dnlc_rm_aged {before after : List Nat} (aged : Aged s (before ++ i :: after)) (run : dnlc_rm i s = .ok t) : Aged t (i :: (before ++ after)) := by
  have once : (before ++ i :: after).Nodup := (List.nodup_cons.mp aged.1.once).2.of_map _
  have outside := (List.nodup_cons.mp (List.nodup_middle.mp once)).1
  unfold dnlc_rm at run
  split at run
  · cases run
    refine ⟨ring_front (ring_remove aged.1) ?_, fun j => ?_⟩
    · simpa using outside
    · rw [← List.perm_middle.mem_iff]
      exact aged.2 j
  · cases run

theorem cleared_stays (purged : Purged sel s t) (inside : i < s.ncsize) (none_ : (s.ncache i).dp = none) :
    (t.ncache i).dp = none := by
  rcases purged.entry i inside with same | ⟨used, -, -⟩
  · rw [same, none_]
  · exact absurd none_ used

theorem purgeCounted_first {stop : Ncache → Bool} {l : List Nat} {count n m : Int} (finds : Finds (fun e => stop e = true) (lruSearch stop))
    (unnamed : ∀ e, stop (cleared e) = false) (positive : 0 ≤ n) (valid : Consistent s) (enough : (usedEntries s).card < time) (aged : Aged s l)
    (run : purgeCounted (lruSearch stop) count time n s = .ok (m, t)) :
    ∀ i ∈ (l.filter fun i => stop (s.ncache i)).take (max 1 (count - n)).toNat, (t.ncache i).dp = none := by
  induction time generalizing s n l with
  | zero => omega
  | succ time ih =>
    rw [purgeCounted, lruSearch_aged aged] at run
    intro j among
    cases look : l.find? fun i => stop (s.ncache i) with
    | none =>
      obtain ⟨member, stops⟩ := List.mem_filter.mp (List.mem_of_mem_take among)
      exact absurd stops (List.find?_eq_none.mp look j member)
    | some i =>
      rw [look] at run
      obtain ⟨stops, before, after, rfl, passed⟩ := List.find?_eq_some_iff_append.mp look
      have once : (before ++ i :: after).Nodup := (List.nodup_cons.mp aged.1.once).2.of_map _
      have outside := (List.nodup_cons.mp (List.nodup_middle.mp once)).1
      have inside := (aged.2 i).mp (by simp)
      obtain ⟨dp, directory⟩ : ∃ dp, (s.ncache i).dp = some dp := by
        obtain ⟨r, found, hit, _⟩ := finds s valid
        rw [lruSearch_aged aged, look] at found
        exact Option.ne_none_iff_exists'.mp (hit i (Except.ok.inj found).symm).2.1
      obtain ⟨t', removed, valid', size, _, entries_⟩ := dnlc_rm_spec valid inside directory
      obtain ⟨_, again, _, _, less⟩ := rm_found valid (fun e => stop e = true) inside (by simp [directory]) stops
      obtain rfl := Except.ok.inj (removed.symm.trans again)
      simp only [bind, Except.bind, removed] at run
      have cleared_ : (t'.ncache i).dp = none := by rw [entries_, update_self, cleared]
      have earlier : before.filter (fun k => stop (s.ncache k)) = [] := by simpa using passed
      have rest : (i :: (before ++ after)).filter (fun k => stop (t'.ncache k)) = after.filter fun k => stop (s.ncache k) := by
        have same : (before ++ after).filter (fun k => stop (t'.ncache k)) = (before ++ after).filter fun k => stop (s.ncache k) := by
          refine List.filter_congr fun k member => ?_
          rw [entries_, update_of_ne]
          exact fun same => outside (same ▸ member)
        rw [List.filter_cons_of_neg (by simp [entries_, unnamed]), same, List.filter_append, earlier, List.nil_append]
      have chosen : (i :: after).filter (fun k => stop (s.ncache k)) = i :: after.filter fun k => stop (s.ncache k) := List.filter_cons_of_pos stops
      rw [List.filter_append, earlier, List.nil_append, chosen, List.take_cons (by omega), List.mem_cons] at among
      by_cases more : count = 0 ∨ n + 1 < count
      · rw [if_pos more] at run
        rcases among with rfl | among
        · have fewer : (usedEntries t').card < time := by omega
          obtain ⟨m', u, run', _, purged, _⟩ := purgeCounted_spec finds count (n := n + 1) (by omega) valid' fewer
          rw [← (Prod.mk.inj (Except.ok.inj (run.symm.trans run'))).2] at purged
          exact cleared_stays purged (size ▸ inside) cleared_
        · apply ih (by omega) valid' (by omega) (dnlc_rm_aged aged removed) run j
          rw [rest]
          exact List.take_subset_take_left _ (by omega) among
      · rw [if_neg more] at run
        obtain ⟨_, rfl⟩ := Prod.mk.inj (Except.ok.inj run)
        rcases among with rfl | among
        · exact cleared_
        · rw [show (max 1 (count - n)).toNat - 1 = 0 by omega] at among
          cases among

theorem used_within (s : State) : (usedEntries s).card < s.ncsize + 1 := by
  have few := Finset.card_filter_le (Finset.range s.ncsize) fun i => (s.ncache i).dp ≠ none
  rw [Finset.card_range] at few
  exact Nat.lt_succ_of_le few

end routines

end Svr4.Proofs.DnlcCache
