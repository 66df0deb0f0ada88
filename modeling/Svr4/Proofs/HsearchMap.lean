import Svr4.Hsearch
import Svr4.Library.Stride

/-! A hash table is a map with room for the given number of keys. -/

namespace Svr4.Proofs.HsearchMap
open Function Stride Hsearch

variable {t t' : Table} {stored : List Entry} {key : List UInt8} {item e : Entry} {c i k n time : Nat}

theorem grow_spec (unsize a : Nat) (few : a ≤ 31) (small : 2 ^ a * (2 * unsize) < 2 ^ 32) :
    ∃ b, grow unsize (2 ^ a) a = (2 ^ (a + b), a + b) ∧ unsize < 2 ^ b ∧ a + b ≤ 31 := by
  induction unsize using Nat.strongRecOn generalizing a with
  | ind unsize ih =>
    rw [grow]
    by_cases zero : unsize = 0
    · rw [if_pos zero, zero]
      exact ⟨0, rfl, by decide, few⟩
    · have top : 2 ^ (a + 1) < 2 ^ 32 := by
        refine Nat.lt_of_le_of_lt ?_ small
        rw [pow_succ]
        exact Nat.mul_le_mul_left _ (by omega)
      have next : 2 ^ (a + 1) * (2 * (unsize / 2)) < 2 ^ 32 := by
        refine Nat.lt_of_le_of_lt (Nat.mul_le_mul_left _ (show 2 * (unsize / 2) ≤ unsize by omega)) ?_
        rwa [pow_succ, Nat.mul_assoc]
      have more := (Nat.pow_lt_pow_iff_right (by decide : 1 < 2)).mp top
      obtain ⟨b, is, bound, last⟩ := ih (unsize / 2) (by omega) (a + 1) (by omega) next
      rw [if_neg zero, Nat.shiftRight_eq_div_pow, pow_one, Nat.shiftLeft_eq, pow_one, ← pow_succ, Nat.mod_eq_of_lt top]
      rw [Nat.add_assoc, Nat.add_comm 1 b] at is last
      refine ⟨b + 1, is, ?_, last⟩
      rw [pow_succ]
      omega

theorem hashm_lt (few : t.m ≤ 31) (key : List UInt8) : hashm t.m key < 2 ^ t.m := by
  rw [hashm, Nat.shiftRight_eq_div_pow, Nat.div_lt_iff_lt_mul (Nat.two_pow_pos _), SHIFT, ← pow_add, show t.m + (8 * 4 - t.m) = 32 by omega]
  exact Nat.mod_lt _ (Nat.two_pow_pos 32)

theorem hash2m_odd (m : Nat) (key : List UInt8) : hash2m m key % 2 = 1 := by
  unfold hash2m
  rw [Nat.mod_two_eq_one_iff_testBit_zero, Nat.testBit_or]
  simp

structure Good (t : Table) (stored : List Entry) : Prop where
  power : t.length = 2 ^ t.m
  few : 0 < t.m ∧ t.m ≤ 31
  count : t.count = stored.length
  room : stored.length < t.length
  keys : (stored.map Entry.key).Nodup
  slots : ((List.range t.length).filterMap t.table).Perm stored
  reach : ∀ i < t.length, ∀ e, t.table i = some e → ∃ n, place t.length (hash2m t.m e.key) (hashm t.m e.key) n = i ∧
    ∀ j < n, ∃ e', t.table (place t.length (hash2m t.m e.key) (hashm t.m e.key) j) = some e' ∧ e'.key ≠ e.key

section
variable (good : Good t stored)
include good

theorem Good.positive : 0 < t.length := by
  rw [good.power]
  exact Nat.two_pow_pos _

theorem Good.coprime (key : List UInt8) : Nat.Coprime t.length (hash2m t.m key) := by
  rw [good.power]
  exact Nat.Coprime.pow_left _ (Nat.coprime_two_left.mpr (Nat.odd_iff.mpr (hash2m_odd t.m key)))

theorem Good.start (key : List UInt8) : hashm t.m key < t.length := by
  rw [good.power]
  exact hashm_lt good.few.2 key

theorem Good.mem : e ∈ stored ↔ ∃ i < t.length, t.table i = some e := by
  rw [← good.slots.mem_iff, List.mem_filterMap]
  simp only [List.mem_range]

theorem Good.empty : ∃ i < t.length, t.table i = none := by
  by_contra full
  have all : ∀ i ∈ List.range t.length, (t.table i).isSome := by
    intro i inside
    rw [Option.isSome_iff_ne_none]
    exact fun none => full ⟨i, List.mem_range.mp inside, none⟩
  have length := good.slots.length_eq
  rw [List.length_filterMap_eq_countP, List.countP_eq_length.mpr all, List.length_range] at length
  have := good.room
  omega

theorem Good.step (i : Nat) : (i + c) % 2 ^ 32 % t.length = (i + c) % t.length := by
  refine Nat.mod_mod_of_dvd _ ?_
  rw [good.power]
  exact Nat.pow_dvd_pow 2 (by have := good.few.2; omega)

theorem probe_passes (start : Nat) (n : Nat)
    (others : ∀ j < n, ∃ e, t.table (place t.length c start (k + j)) = some e ∧ e.key ≠ key)
    (stop : ∀ e, t.table (place t.length c start (k + n)) = some e → e.key = key) (enough : n < time) :
    probe t key c time (place t.length c start k) = some (place t.length c start (k + n)) := by
  induction n generalizing k time with
  | zero =>
    obtain ⟨time, rfl⟩ : ∃ more, time = more + 1 := ⟨time - 1, by omega⟩
    rw [Nat.add_zero] at stop ⊢
    unfold probe
    cases found : t.table (place t.length c start k) with
    | none => rfl
    | some e =>
      dsimp only
      rw [if_pos (stop e found)]
      rfl
  | succ n ih =>
    obtain ⟨time, rfl⟩ : ∃ more, time = more + 1 := ⟨time - 1, by omega⟩
    obtain ⟨e, found, other⟩ := others 0 (by omega)
    rw [Nat.add_zero] at found
    unfold probe
    rw [found]
    dsimp only
    rw [if_neg other, good.step, place_succ, show k + (n + 1) = k + 1 + n by omega]
    refine ih (fun j less => ?_) (fun e at_end => stop e (by rwa [show k + (n + 1) = k + 1 + n by omega])) (by omega)
    obtain ⟨e', found', other'⟩ := others (j + 1) (by omega)
    exact ⟨e', by rwa [show k + 1 + j = k + (j + 1) by omega], other'⟩

theorem probe_present (member : e ∈ stored) (enough : t.length ≤ time) :
    ∃ i, t.table i = some e ∧ probe t e.key (hash2m t.m e.key) time (hashm t.m e.key) = some i := by
  obtain ⟨i, inside, found⟩ := good.mem.mp member
  obtain ⟨n, is, others⟩ := good.reach i inside e found
  have less : n < t.length := by
    obtain ⟨n₀, less, same⟩ := @place_surjective t.length (hash2m t.m e.key) (hashm t.m e.key) i (good.coprime e.key) inside
    by_contra far
    obtain ⟨e', there, other⟩ := others n₀ (by omega)
    rw [same, found] at there
    cases there
    exact other rfl
  refine ⟨i, found, ?_⟩
  have run := @probe_passes t stored _ (hash2m t.m e.key) 0 time good (hashm t.m e.key) n (fun j early => by rw [Nat.zero_add]; exact others j early)
    (fun e' there => by rw [Nat.zero_add, is, found] at there; cases there; rfl) (by omega)
  rwa [place_zero (good.start e.key), Nat.zero_add, is] at run

theorem probe_absent (absent : key ∉ stored.map Entry.key) (enough : t.length ≤ time) :
    ∃ n, t.table (place t.length (hash2m t.m key) (hashm t.m key) n) = none ∧
      (∀ j < n, ∃ e, t.table (place t.length (hash2m t.m key) (hashm t.m key) j) = some e ∧ e.key ≠ key) ∧
      probe t key (hash2m t.m key) time (hashm t.m key) = some (place t.length (hash2m t.m key) (hashm t.m key) n) := by
  obtain ⟨i, inside, none⟩ := good.empty
  obtain ⟨n₀, less, is⟩ := @place_surjective t.length (hash2m t.m key) (hashm t.m key) i (good.coprime key) inside
  have some : ∃ n, t.table (place t.length (hash2m t.m key) (hashm t.m key) n) = Option.none := ⟨n₀, is ▸ none⟩
  classical
  obtain ⟨n, last, before, bound⟩ : ∃ n, t.table (place t.length (hash2m t.m key) (hashm t.m key) n) = Option.none ∧
      (∀ j < n, t.table (place t.length (hash2m t.m key) (hashm t.m key) j) ≠ Option.none) ∧ n ≤ n₀ :=
    ⟨Nat.find some, Nat.find_spec some, fun j early => Nat.find_min some early, Nat.find_min' some (is ▸ none)⟩
  have others : ∀ j < n, ∃ e, t.table (place t.length (hash2m t.m key) (hashm t.m key) j) = Option.some e ∧ e.key ≠ key := by
    intro j early
    obtain ⟨e, found⟩ := Option.ne_none_iff_exists'.mp (before j early)
    refine ⟨e, found, fun same => absent (same ▸ List.mem_map_of_mem (good.mem.mpr ⟨_, place_lt good.positive j, found⟩))⟩
  refine ⟨n, last, others, ?_⟩
  have run := @probe_passes t stored key (hash2m t.m key) 0 time good (hashm t.m key) n (fun j early => by rw [Nat.zero_add]; exact others j early)
    (fun e found => by rw [Nat.zero_add, last] at found; cases found) (by omega)
  rwa [place_zero (good.start key), Nat.zero_add] at run

end

def stored_in (t : Table) (i : Nat) (item : Entry) : Table := { t with count := t.count + 1, table := update t.table i (some item) }

theorem range_parts (inside : i < n) : List.range n = List.range i ++ i :: List.range' (i + 1) (n - (i + 1)) := by
  rw [← List.range'_succ, show n - (i + 1) + 1 = n - i by omega, List.range_eq_range', List.range_eq_range']
  have joined := List.range'_append_1 (s := 0) (m := i) (n := n - i)
  rw [Nat.zero_add, Nat.add_sub_of_le (Nat.le_of_lt inside)] at joined
  exact joined.symm

theorem Good.store (good : Good t stored) (absent : item.key ∉ stored.map Entry.key) (room : stored.length + 1 < t.length) (n : Nat)
    (is : place t.length (hash2m t.m item.key) (hashm t.m item.key) n = i) (none : t.table i = none)
    (others : ∀ j < n, ∃ e, t.table (place t.length (hash2m t.m item.key) (hashm t.m item.key) j) = some e ∧ e.key ≠ item.key) :
    Good (stored_in t i item) (stored ++ [item]) := by
  have inside : i < t.length := is ▸ place_lt good.positive n
  have keeps : ∀ j e, t.table j = some e → (stored_in t i item).table j = some e := by
    intro j e found
    refine (update_of_ne ?_ ..).trans found
    rintro rfl
    rw [none] at found
    cases found
  refine ⟨good.power, good.few, ?_, ?_, ?_, ?_, fun j less e found => ?_⟩
  · rw [List.length_append]
    exact congrArg (· + 1) good.count
  · rw [List.length_append]
    exact room
  · rw [List.map_append, List.nodup_append]
    exact ⟨good.keys, List.nodup_singleton _, fun k member k' also => by
      rintro rfl
      exact absent (List.mem_singleton.mp also ▸ member)⟩
  · have old := good.slots
    change ((List.range t.length).filterMap (update t.table i (some item))).Perm _
    have same : ∀ l : List Nat, i ∉ l → l.filterMap (update t.table i (some item)) = l.filterMap t.table := by
      intro l outside
      refine List.filterMap_congr fun j member => update_of_ne ?_ ..
      rintro rfl
      exact outside member
    rw [range_parts inside, List.filterMap_append, List.filterMap_cons_none none] at old
    rw [range_parts inside, List.filterMap_append, List.filterMap_cons_some (update_self ..), same _ (by simp), same _ (by simp [List.mem_range'_1])]
    exact List.perm_middle.trans ((old.cons item).trans (List.perm_append_singleton item stored).symm)
  · by_cases new : j = i
    · have content : e = item := by
        rw [new] at found
        exact Option.some.inj (found.symm.trans (update_self ..))
      rw [content, new]
      refine ⟨n, is, fun j early => ?_⟩
      obtain ⟨e', there, other⟩ := others j early
      exact ⟨e', keeps _ _ there, other⟩
    · obtain ⟨m, at_j, before⟩ := good.reach j less e ((update_of_ne new ..).symm.trans found)
      refine ⟨m, at_j, fun j' early => ?_⟩
      obtain ⟨e', there, other⟩ := before j' early
      exact ⟨e', keeps _ _ there, other⟩

structure Answers (size : Nat) (t : Table) (stored : List Entry) (item : Entry) (action : Action) (t' : Table) (r : Option Nat) : Prop where
  present : ∀ e ∈ stored, e.key = item.key → t' = t ∧ ∃ i, r = some i ∧ t.table i = some e
  absent : item.key ∉ stored.map Entry.key → action = .FIND → t' = t ∧ r = none
  enter : item.key ∉ stored.map Entry.key → action = .ENTER → t' = t ∧ r = none ∧ size ≤ stored.length ∨
    ∃ i, r = some i ∧ t.table i = none ∧ t' = stored_in t i item ∧ Good t' (stored ++ [item])

theorem hsearch_spec {size : Nat} (good : Good t stored) (fits : size < t.length) (action : Action) (item : Entry) (enough : t.length ≤ time) :
    ∃ t' r, hsearch item action time t = some (t', r) ∧ Answers size t stored item action t' r := by
  unfold hsearch
  by_cases there : item.key ∈ stored.map Entry.key
  · obtain ⟨e, member, same⟩ := List.mem_map.mp there
    obtain ⟨i, found, run⟩ := probe_present good member enough
    rw [← same, run]
    dsimp only
    rw [if_pos (by rw [found]; exact Option.some_ne_none e)]
    refine ⟨t, some i, rfl, fun e' member' same' => ⟨rfl, i, rfl, ?_⟩, fun absent => absurd there absent, fun absent => absurd there absent⟩
    rw [found, List.inj_on_of_nodup_map good.keys member' member (same'.trans same.symm)]
  · have no : ∀ e ∈ stored, e.key ≠ item.key := fun e member same => there (same ▸ List.mem_map_of_mem member)
    obtain ⟨n, none, others, run⟩ := probe_absent good there enough
    rw [run]
    dsimp only
    rw [if_neg (not_not.mpr none)]
    by_cases find : action = .FIND
    · rw [if_pos find]
      exact ⟨t, .none, rfl, fun e member same => absurd same (no e member), fun _ _ => ⟨rfl, rfl⟩, fun _ enter => by rw [find] at enter; cases enter⟩
    rw [if_neg find]
    have count := good.count
    have room := good.room
    by_cases full : t.count = t.length - 1
    · rw [if_pos full]
      exact ⟨t, .none, rfl, fun e member same => absurd same (no e member), fun _ is => absurd is find, fun _ _ => .inl ⟨rfl, rfl, by omega⟩⟩
    · rw [if_neg full]
      exact ⟨_, _, rfl, fun e member same => absurd same (no e member), fun _ is => absurd is find,
        fun _ _ => .inr ⟨_, rfl, none, rfl, good.store there (by omega) n rfl none others⟩⟩

structure Event where
  item : Entry
  action : Action
  result : Option Nat

/-- The calls since the table was made, the last one first. -/
inductive Run (size : Nat) : List Event → Table → Prop where
  | create {memory : Bool} {t₀ t : Table} (positive : 0 < size) (int : size < 2 ^ 31) (zero : t₀.count = 0)
      (made : hcreate memory size t₀ = (t, true)) : Run size [] t
  | call {events : List Event} {t t' : Table} {item : Entry} {action : Action} {time : Nat} {r : Option Nat} (run : Run size events t)
      (enough : t.length ≤ time) (returned : hsearch item action time t = some (t', r)) : Run size (⟨item, action, r⟩ :: events) t'

/-- The entries that have been entered under a new key, in that order. -/
def entered : List Event → List Entry
  | [] => []
  | e :: events =>
    if e.action = .ENTER ∧ e.result ≠ none ∧ e.item.key ∉ (entered events).map Entry.key then entered events ++ [e.item] else entered events

theorem create_good {memory : Bool} {size : Nat} {t₀ : Table} (positive : 0 < size) (int : size < 2 ^ 31) (zero : t₀.count = 0)
    (made : hcreate memory size t₀ = (t, true)) : Good t [] ∧ size < t.length := by
  obtain ⟨b, is, bound, few⟩ := grow_spec size 0 (by decide) (by omega)
  rw [Nat.zero_add] at is few
  rw [pow_zero] at is
  unfold hcreate at made
  rw [if_neg (by omega), Int.toNat_natCast, is] at made
  dsimp only at made
  split at made
  · cases made
    have some : b ≠ 0 := by
      rintro rfl
      rw [pow_zero] at bound
      omega
    refine ⟨⟨rfl, ⟨Nat.pos_of_ne_zero some, few⟩, zero, Nat.two_pow_pos b, .nil, ?_, fun i _ e found => by cases found⟩, bound⟩
    rw [List.filterMap_eq_nil_iff.mpr fun _ _ => rfl]
  · cases made

theorem run_good {size : Nat} {events : List Event} (run : Run size events t) : Good t (entered events) ∧ size < t.length := by
  induction run with
  | create positive int zero made => exact create_good positive int zero made
  | @call events t t₁ item action time r run enough returned ih =>
    obtain ⟨good, fits⟩ := ih
    obtain ⟨t', r', done, answers⟩ := hsearch_spec good fits action item enough
    rw [returned] at done
    cases done
    rw [entered]
    dsimp only
    by_cases there : item.key ∈ (entered events).map Entry.key
    · obtain ⟨e, member, same⟩ := List.mem_map.mp there
      rw [if_neg fun all => all.2.2 there, (answers.present e member same).1]
      exact ⟨good, fits⟩
    cases action with
    | FIND =>
      rw [if_neg fun all => (by cases all.1), (answers.absent there rfl).1]
      exact ⟨good, fits⟩
    | ENTER =>
      rcases answers.enter there rfl with ⟨same, none, -⟩ | ⟨i, some, -, is, good'⟩
      · rw [if_neg fun all => all.2.1 none, same]
        exact ⟨good, fits⟩
      · rw [if_pos ⟨rfl, by rw [some]; exact Option.some_ne_none i, there⟩]
        exact ⟨good', by rw [is]; exact fits⟩

/-- A table that was made for `size` keys holds what was entered first under each key, and every call comes to an end. -/
theorem bounded_map {size : Nat} {events : List Event} (run : Run size events t) (item : Entry) (action : Action) (time : Nat)
    (enough : t.length ≤ time) : ((entered events).map Entry.key).Nodup ∧ (∀ e, e ∈ entered events ↔ ∃ i < t.length, t.table i = some e) ∧
      ∃ t' r, hsearch item action time t = some (t', r) ∧ Answers size t (entered events) item action t' r := by
  obtain ⟨good, fits⟩ := run_good run
  exact ⟨good.keys, fun e => good.mem, hsearch_spec good fits action item enough⟩

theorem create_three : hcreate true 3 ⟨0, 0, 0, fun _ => none⟩ = (⟨4, 2, 0, fun _ => none⟩, true) := by
  simp [hcreate, grow, calloc, sizeofTABELEM]

/-- Two keys with one hash value are entered and the second is found; a third one fills the
table, and a fourth is not entered. -/
theorem bounded_map_three : ∃ events t, Run 3 events t ∧ entered events = [⟨[97, 98], 7⟩, ⟨[98, 97], 8⟩, ⟨[99], 9⟩] ∧
    ((entered events).map Entry.key).Nodup ∧ (∀ e, e ∈ entered events ↔ ∃ i < t.length, t.table i = some e) ∧
    ∃ t' r, hsearch ⟨[98, 97], 5⟩ .ENTER 4 t = some (t', r) ∧ Answers 3 t (entered events) ⟨[98, 97], 5⟩ .ENTER t' r := by
  have played : ((hsearch ⟨[97, 98], 7⟩ .ENTER 4 ⟨4, 2, 0, fun _ => none⟩).bind fun first => (hsearch ⟨[98, 97], 8⟩ .ENTER 4 first.1).bind fun second =>
      (hsearch ⟨[98, 97], 0⟩ .FIND 4 second.1).bind fun third => (hsearch ⟨[99], 9⟩ .ENTER 4 third.1).bind fun fourth =>
        (hsearch ⟨[100], 1⟩ .ENTER 4 fourth.1).map fun fifth =>
          ([first.2, second.2, third.2, fourth.2, fifth.2], [first.1, second.1, third.1, fourth.1, fifth.1].map Table.length)) =
      some ([some 2, some 3, some 3, some 1, none], [4, 4, 4, 4, 4]) := by decide +kernel
  obtain ⟨⟨t₁, r₁⟩, first, played⟩ := Option.bind_eq_some_iff.mp played
  obtain ⟨⟨t₂, r₂⟩, second, played⟩ := Option.bind_eq_some_iff.mp played
  obtain ⟨⟨t₃, r₃⟩, third, played⟩ := Option.bind_eq_some_iff.mp played
  obtain ⟨⟨t₄, r₄⟩, fourth, played⟩ := Option.bind_eq_some_iff.mp played
  obtain ⟨⟨t₅, r₅⟩, fifth, played⟩ := Option.map_eq_some_iff.mp played
  simp only [List.map_cons, List.map_nil, Prod.mk.injEq, List.cons.injEq] at played
  obtain ⟨⟨rfl, rfl, rfl, rfl, rfl, _⟩, one, two, three, four, five, _⟩ := played
  have created : Run 3 [] ⟨4, 2, 0, fun _ => none⟩ := .create (by decide) (by decide) rfl create_three
  have run := ((((created.call (by decide) first).call one.le second).call two.le third).call three.le fourth).call four.le fifth
  exact ⟨_, t₅, run, rfl, bounded_map run ⟨[98, 97], 5⟩ .ENTER 4 five.le⟩

end Svr4.Proofs.HsearchMap
