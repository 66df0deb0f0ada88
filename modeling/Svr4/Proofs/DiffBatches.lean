import Svr4.Library.Groups
import Svr4.Library.Faults
import Svr4.DiffContext

/-! Which calls of `change` make one hunk: the groups of changes each near to the one before, as long as
the vector holds them. -/

namespace Svr4.Proofs.DiffHunks
open Function DiffContext

def Effective (r : context_vec) : Prop := r.a ≤ r.b ∨ r.c ≤ r.d

instance : DecidablePred Effective := fun _ => inferInstanceAs (Decidable (_ ∨ _))

def kept (calls : List context_vec) : List context_vec := calls.filter fun r => decide (Effective r)

def near (context : Int) (p q : context_vec) : Bool := q.a ≤ p.b + 2 * context || q.c ≤ p.d + 2 * context

def Fits (x : Int) : Prop := -2 ^ 31 ≤ x ∧ x < 2 ^ 31

structure PairFits (context : Int) (p q : context_vec) : Prop where
  twice : Fits (2 * context)
  b : Fits (p.b + 2 * context)
  d : q.a > p.b + 2 * context → Fits (p.d + 2 * context)

structure HunkFits (context : Int) (first last : context_vec) : Prop where
  a : Fits (first.a - context)
  b : Fits (last.b + context)
  c : Fits (first.c - context)
  d : Fits (last.d + context)

variable {context len0 len1 x y : Int} {s s' : State} {p q r : context_vec} {es latest : List context_vec} {closed : List (List context_vec)}

def dumped (context len0 len1 : Int) (group : List context_vec) : List Event :=
  match group.head?, group.getLast? with
  | some p, some q =>
    hunk (max 1 (p.a - context)) (min len0 (q.b + context)) (max 1 (p.c - context)) (min len1 (q.d + context)) group
  | _, _ => []

def GroupFits (context : Int) (group : List context_vec) : Prop :=
  ∀ p ∈ group.head?, ∀ q ∈ group.getLast?, HunkFits context p q

structure Ready (context : Int) (es : List context_vec) (closed : List (List context_vec)) (latest : List context_vec) : Prop where
  split : es.splitBy (near context) = closed ++ [latest]
  sizes : ∀ g ∈ closed ++ [latest], (g.length : Int) ≤ MAX_CONTEXT
  pairs : es.IsChain (PairFits context)
  hunks : ∀ g ∈ closed, GroupFits context g

structure Held (context len0 len1 : Int) (es : List context_vec) (s : State) (closed : List (List context_vec)) (latest : List context_vec) : Prop
    extends Ready context es closed latest where
  anychange : s.anychange = true
  ptr : s.ptr = latest.length - 1
  vec : ∀ i p, latest[i]? = some p → s.vec i = p
  out : s.out = .names :: (closed.map (dumped context len0 len1)).flatten

theorem int_ok : int x = .ok y ↔ Fits x ∧ x = y := by
  unfold int
  by_cases fits : -2 ^ 31 ≤ x ∧ x < 2 ^ 31
  · rw [if_pos fits, Except.ok.injEq]
    exact ⟨fun same => ⟨fits, same⟩, fun both => both.2⟩
  · rw [if_neg fits]
    exact ⟨fun run => (by cases run), fun both => absurd both.1 fits⟩

theorem int_fits (fits : Fits x) : int x = .ok x := int_ok.mpr ⟨fits, rfl⟩

theorem Ready.filled (ready : Ready context es closed latest) : latest ≠ [] := fun none_ =>
  List.nil_notMem_splitBy (near context) es (ready.split ▸ by simp [none_])

theorem Ready.last (ready : Ready context es closed latest) : es.getLast? = latest.getLast? := by
  have flat := List.flatten_splitBy (near context) es
  rw [ready.split, List.flatten_append] at flat
  rw [← flat]
  simp [List.getLast?_append, Option.or_of_isSome (List.getLast?_isSome.mpr ready.filled)]

theorem Held.vec_ptr (held : Held context len0 len1 es s closed latest) (last : es.getLast? = some p) : s.vec s.ptr.toNat = p := by
  rw [held.last, List.getLast?_eq_getElem?] at last
  have := List.length_pos_of_ne_nil held.filled
  rw [held.ptr, show ((latest.length : Int) - 1).toNat = latest.length - 1 by omega]
  exact held.vec _ p last

theorem cut_done (low : 0 ≤ s.ptr) (high : s.ptr < MAX_CONTEXT) (fits : PairFits context (s.vec s.ptr.toNat) r) :
    cut context s r = .ok (!near context (s.vec s.ptr.toNat) r) := by
  obtain ⟨twice, b, d⟩ := fits
  unfold cut
  rw [if_neg (by omega), if_neg (by omega), int_fits twice]
  simp only [bind, Except.bind, int_fits b]
  split_ifs with beyond
  · rw [int_fits (d beyond)]
    simp only [near]
    congr 1
    grind
  · simp only [near]
    congr 1
    grind

theorem int_bind {α : Type} {k : Int → Except Fault α} {y : α} (run : (int x >>= k) = .ok y) : Fits x ∧ k x = .ok y := by
  obtain ⟨z, same, rest⟩ := Faults.bind_ok.mp run
  obtain ⟨fits, rfl⟩ := int_ok.mp same
  exact ⟨fits, rest⟩

theorem cut_fits {full : Bool} (low : 0 ≤ s.ptr) (high : s.ptr < MAX_CONTEXT) (run : cut context s r = .ok full) :
    PairFits context (s.vec s.ptr.toNat) r := by
  unfold cut at run
  rw [if_neg (by omega), if_neg (by omega)] at run
  obtain ⟨twice, run⟩ := int_bind run
  obtain ⟨b, run⟩ := int_bind run
  refine ⟨twice, b, fun beyond => ?_⟩
  rw [if_pos beyond] at run
  exact (int_bind run).1

theorem dump_done (held : Held context len0 len1 es s closed latest) (first : latest.head? = some p) (last : latest.getLast? = some q)
    (fits : HunkFits context p q) :
    dump_context_vec context len0 len1 s = .ok { s with ptr := -1, out := s.out ++ dumped context len0 len1 latest } := by
  have positive := List.length_pos_of_ne_nil held.filled
  have begins : s.vec 0 = p := held.vec 0 p (by rw [← first, List.head?_eq_getElem?])
  have ends : s.vec s.ptr.toNat = q := held.vec_ptr (held.last.trans last)
  have count : s.ptr.toNat + 1 = latest.length := by
    rw [held.ptr]
    omega
  have records : (List.range (s.ptr.toNat + 1)).map s.vec = latest := by
    rw [count]
    refine List.ext_getElem (by simp) fun i inside inside' => ?_
    rw [List.getElem_map, List.getElem_range]
    exact held.vec i _ (List.getElem?_eq_getElem inside')
  unfold dump_context_vec
  rw [if_neg (by rw [held.ptr]; omega)]
  simp only [begins, ends, int_fits fits.a, int_fits fits.b, int_fits fits.c, int_fits fits.d, bind, Except.bind, records, dumped, first, last]

theorem dump_fits (held : Held context len0 len1 es s closed latest) (first : latest.head? = some p) (last : latest.getLast? = some q)
    (run : dump_context_vec context len0 len1 s = .ok s') : HunkFits context p q := by
  have positive := List.length_pos_of_ne_nil held.filled
  have begins : s.vec 0 = p := held.vec 0 p (by rw [← first, List.head?_eq_getElem?])
  have ends : s.vec s.ptr.toNat = q := held.vec_ptr (held.last.trans last)
  unfold dump_context_vec at run
  rw [if_neg (by rw [held.ptr]; omega)] at run
  simp only [begins, ends] at run
  obtain ⟨a, run⟩ := int_bind run
  obtain ⟨b, run⟩ := int_bind run
  obtain ⟨c, run⟩ := int_bind run
  exact ⟨a, b, c, (int_bind run).1⟩

theorem Ready.join (ready : Ready context es closed latest) (last : latest.getLast? = some p) (fits : PairFits context p r)
    (joins : near context p r = true) (room : (latest.length : Int) < MAX_CONTEXT) :
    Ready context (es ++ [r]) closed (latest ++ [r]) where
  split := Groups.splitBy_near ready.split fun q last' => by
    obtain rfl : p = q := Option.some.inj (last.symm.trans last')
    exact joins
  sizes g member := by
    rcases List.mem_append.mp member with old | new
    · exact ready.sizes g (List.mem_append_left _ old)
    · obtain rfl : g = latest ++ [r] := by simpa using new
      rw [List.length_append, List.length_singleton]
      omega
  pairs := ready.pairs.append (List.isChain_singleton r) fun q last' x first => by
    obtain rfl : r = x := by simpa using first
    obtain rfl : p = q := Option.some.inj ((ready.last.trans last).symm.trans last')
    exact fits
  hunks := ready.hunks

theorem Ready.part (ready : Ready context es closed latest) (last : latest.getLast? = some p) (fits : PairFits context p r)
    (parts : near context p r = false) (hunk : GroupFits context latest) :
    Ready context (es ++ [r]) (closed ++ [latest]) [r] where
  split := Groups.splitBy_far ready.split fun q last' => by
    obtain rfl : p = q := Option.some.inj (last.symm.trans last')
    exact parts
  sizes g member := by
    rcases List.mem_append.mp member with old | new
    · exact ready.sizes g old
    · obtain rfl : g = [r] := by simpa using new
      exact show (1 : Int) ≤ 128 by decide
  pairs := ready.pairs.append (List.isChain_singleton r) fun q last' x first => by
    obtain rfl : r = x := by simpa using first
    obtain rfl : p = q := Option.some.inj ((ready.last.trans last).symm.trans last')
    exact fits
  hunks g member := by
    rcases List.mem_append.mp member with old | new
    · exact ready.hunks g old
    · obtain rfl : g = latest := by simpa using new
      exact hunk

theorem change_joins (held : Held context len0 len1 es s closed latest) (effective : Effective r) (last : latest.getLast? = some p)
    (fits : PairFits context p r) (joins : near context p r = true) (room : (latest.length : Int) < MAX_CONTEXT) :
    ∃ s', change context len0 len1 s r = .ok s' ∧ Held context len0 len1 (es ++ [r]) s' closed (latest ++ [r]) := by
  have positive := List.length_pos_of_ne_nil held.filled
  have ends : s.vec s.ptr.toNat = p := held.vec_ptr (held.last.trans last)
  have low : 0 ≤ s.ptr := by
    rw [held.ptr]
    omega
  have high : s.ptr + 1 < MAX_CONTEXT := by
    rw [held.ptr]
    omega
  have place : (s.ptr + 1).toNat = latest.length := by
    rw [held.ptr]
    omega
  refine ⟨{ s with ptr := s.ptr + 1, vec := update s.vec (s.ptr + 1).toNat r }, ?_, held.toReady.join last fits joins room,
    held.anychange, ?_, ?_, held.out⟩
  · unfold change
    rw [if_neg (by unfold Effective at effective; omega)]
    simp only [held.anychange, if_true]
    rw [cut_done low (by omega) (ends ▸ fits), ends, joins]
    simp only [bind, Except.bind, Bool.not_true, Bool.false_eq_true, if_false]
    rw [if_pos high, held.anychange]
  · show s.ptr + 1 = _
    rw [held.ptr, List.length_append, List.length_singleton]
    omega
  · intro i q found
    rw [List.getElem?_append] at found
    show update s.vec (s.ptr + 1).toNat r i = q
    rw [place]
    split_ifs at found with inside
    · rw [update_of_ne (by omega)]
      exact held.vec i q found
    · obtain ⟨here, rfl⟩ : i = latest.length ∧ r = q := by
        have := (List.getElem?_eq_some_iff.mp found).1
        rw [List.length_singleton] at this
        exact ⟨by omega, by simpa [show i - latest.length = 0 by omega] using found⟩
      rw [here, update_self]

theorem change_parts (held : Held context len0 len1 es s closed latest) (effective : Effective r) (last : latest.getLast? = some p)
    (fits : PairFits context p r) (parts : near context p r = false) (group : GroupFits context latest) :
    ∃ s', change context len0 len1 s r = .ok s' ∧ Held context len0 len1 (es ++ [r]) s' (closed ++ [latest]) [r] := by
  have positive := List.length_pos_of_ne_nil held.filled
  have ends : s.vec s.ptr.toNat = p := held.vec_ptr (held.last.trans last)
  have low : 0 ≤ s.ptr := by
    rw [held.ptr]
    omega
  have high : s.ptr < MAX_CONTEXT := by
    have := held.sizes latest (by simp)
    rw [held.ptr]
    omega
  obtain ⟨first, head⟩ : ∃ first, latest.head? = some first := Option.isSome_iff_exists.mp (List.isSome_head?.mpr held.filled)
  refine ⟨{ s with ptr := 0, vec := update s.vec 0 r, out := s.out ++ dumped context len0 len1 latest }, ?_, held.toReady.part last fits parts group,
    held.anychange, rfl, ?_, ?_⟩
  · unfold change
    rw [if_neg (by unfold Effective at effective; omega)]
    simp only [held.anychange, if_true]
    rw [cut_done low high (ends ▸ fits), ends, parts]
    simp only [bind, Except.bind, Bool.not_false, if_true, dump_done held head last (group first head p last)]
    rw [if_pos (by decide), held.anychange]
    rfl
  · intro i q found
    obtain ⟨rfl, rfl⟩ : i = 0 ∧ r = q := by
      cases i with
      | zero => exact ⟨rfl, by simpa using found⟩
      | succ i => simp at found
    exact update_self 0 r s.vec
  · rw [held.out]
    simp

theorem change_first (context len0 len1 : Int) (memory : Nat → context_vec) (effective : Effective r) :
    ∃ s', change context len0 len1 ⟨false, memory, -1, []⟩ r = .ok s' ∧ Held context len0 len1 [r] s' [] [r] := by
  refine ⟨⟨true, update memory 0 r, 0, [.names]⟩, ?_, ⟨?_, ?_, List.isChain_singleton r, by simp⟩, rfl, rfl, ?_, rfl⟩
  · unfold change
    rw [if_neg (by unfold Effective at effective; omega)]
    rfl
  · exact List.splitBy_of_isChain (by simp) (List.isChain_singleton r)
  · intro g member
    obtain rfl : g = [r] := by simpa using member
    exact show (1 : Int) ≤ 128 by decide
  · intro i q found
    obtain ⟨rfl, rfl⟩ : i = 0 ∧ r = q := by
      cases i with
      | zero => exact ⟨rfl, by simpa using found⟩
      | succ i => simp at found
    exact update_self 0 r memory

theorem change_idle (idle : ¬Effective r) : change context len0 len1 s r = .ok s := by
  unfold change
  rw [if_pos (by unfold Effective at idle; omega)]

theorem change_held (held : Held context len0 len1 es s closed latest) (effective : Effective r) (run : change context len0 len1 s r = .ok s') :
    ∃ closed latest, Held context len0 len1 (es ++ [r]) s' closed latest := by
  obtain ⟨p, last⟩ : ∃ p, latest.getLast? = some p := Option.isSome_iff_exists.mp (List.getLast?_isSome.mpr held.filled)
  have positive := List.length_pos_of_ne_nil held.filled
  have ends : s.vec s.ptr.toNat = p := held.vec_ptr (held.last.trans last)
  have low : 0 ≤ s.ptr := by
    rw [held.ptr]
    omega
  have high : s.ptr < MAX_CONTEXT := by
    have := held.sizes latest (by simp)
    rw [held.ptr]
    omega
  have attempt := run
  unfold change at attempt
  rw [if_neg (by unfold Effective at effective; omega)] at attempt
  simp only [held.anychange, if_true] at attempt
  cases decided : cut context s r with
  | error fault =>
    rw [decided] at attempt
    cases attempt
  | ok full =>
    have fits : PairFits context p r := ends ▸ cut_fits low high decided
    rw [cut_done low high (ends ▸ fits), ends] at decided attempt
    cases joins : near context p r with
    | true =>
      rw [joins] at attempt
      simp only [bind, Except.bind, Bool.not_true, Bool.false_eq_true, if_false] at attempt
      by_cases room : s.ptr + 1 < MAX_CONTEXT
      · obtain ⟨s'', done, next⟩ := change_joins held effective last fits joins (by have := held.ptr; omega)
        obtain rfl : s' = s'' := Except.ok.inj (run.symm.trans done)
        exact ⟨_, _, next⟩
      · rw [if_neg room] at attempt
        cases attempt
    | false =>
      rw [joins] at attempt
      simp only [bind, Except.bind, Bool.not_false, if_true] at attempt
      cases written : dump_context_vec context len0 len1 s with
      | error fault =>
        rw [written] at attempt
        cases attempt
      | ok s₁ =>
        have group : GroupFits context latest := fun first head q last => dump_fits held head last written
        obtain ⟨s'', done, next⟩ := change_parts held effective last fits joins group
        obtain rfl : s' = s'' := Except.ok.inj (run.symm.trans done)
        exact ⟨_, _, next⟩

theorem change_done (held : Held context len0 len1 es s closed latest) (effective : Effective r) {closed' : List (List context_vec)}
    {latest' : List context_vec} (ready : Ready context (es ++ [r]) closed' latest') :
    ∃ s' closed latest, change context len0 len1 s r = .ok s' ∧ Held context len0 len1 (es ++ [r]) s' closed latest := by
  obtain ⟨p, last⟩ : ∃ p, latest.getLast? = some p := Option.isSome_iff_exists.mp (List.getLast?_isSome.mpr held.filled)
  have fits : PairFits context p r := (List.isChain_append.mp ready.pairs).2.2 p (held.last.trans last) r (by simp)
  have only : ∀ q ∈ latest.getLast?, p = q := fun q last' => Option.some.inj (last.symm.trans last')
  cases joins : near context p r with
  | true =>
    have split := Groups.splitBy_near held.split fun q last' => only q last' ▸ joins
    rw [ready.split] at split
    obtain ⟨rfl, same⟩ := List.append_inj' split rfl
    obtain rfl : latest' = latest ++ [r] := by simpa using same
    have size := ready.sizes (latest ++ [r]) (by simp)
    rw [List.length_append, List.length_singleton] at size
    obtain ⟨s', done, next⟩ := change_joins held effective last fits joins (by omega)
    exact ⟨s', _, _, done, next⟩
  | false =>
    have split := Groups.splitBy_far held.split fun q last' => only q last' ▸ joins
    rw [ready.split] at split
    obtain ⟨rfl, -⟩ := List.append_inj' split rfl
    obtain ⟨s', done, next⟩ := change_parts held effective last fits joins (ready.hunks latest (by simp))
    exact ⟨s', _, _, done, next⟩

theorem Ready.before {closed' : List (List context_vec)} {latest' : List context_vec} (some_ : es ≠ [])
    (ready : Ready context (es ++ [r]) closed' latest') : ∃ closed latest, Ready context es closed latest := by
  have parts : es.splitBy (near context) ≠ [] := by simpa using some_
  obtain ⟨closed, latest, split⟩ : ∃ closed latest, es.splitBy (near context) = closed ++ [latest] :=
    ⟨_, _, (List.dropLast_append_getLast parts).symm⟩
  obtain ⟨p, last⟩ : ∃ p, latest.getLast? = some p := by
    refine Option.isSome_iff_exists.mp (List.getLast?_isSome.mpr fun none_ => ?_)
    exact List.nil_notMem_splitBy (near context) es (split ▸ by simp [none_])
  have only : ∀ q ∈ latest.getLast?, p = q := fun q last' => Option.some.inj (last.symm.trans last')
  have pairs := (List.isChain_append.mp ready.pairs).1
  obtain ⟨sizes, hunks⟩ : (∀ g ∈ closed ++ [latest], (g.length : Int) ≤ MAX_CONTEXT) ∧ ∀ g ∈ closed, GroupFits context g := by
    cases joins : near context p r with
    | true =>
      have split' := Groups.splitBy_near split fun q last' => only q last' ▸ joins
      rw [ready.split] at split'
      obtain ⟨rfl, same⟩ := List.append_inj' split' rfl
      obtain rfl : latest' = latest ++ [r] := by simpa using same
      refine ⟨fun g member => ?_, ready.hunks⟩
      rcases List.mem_append.mp member with old | new
      · exact ready.sizes g (List.mem_append_left _ old)
      · have size := ready.sizes (latest ++ [r]) (by simp)
        obtain rfl : g = latest := by simpa using new
        rw [List.length_append, List.length_singleton] at size
        omega
    | false =>
      have split' := Groups.splitBy_far split fun q last' => only q last' ▸ joins
      rw [ready.split] at split'
      obtain ⟨rfl, -⟩ := List.append_inj' split' rfl
      exact ⟨fun g member => ready.sizes g (List.mem_append_left _ member), fun g member => ready.hunks g (List.mem_append_left _ member)⟩
  exact ⟨closed, latest, split, sizes, pairs, hunks⟩

section Runs

variable {memory : Nat → context_vec} {calls : List context_vec}

theorem effective_of_kept (member : r ∈ kept calls) : Effective r := by
  simpa using List.of_mem_filter (show r ∈ calls.filter _ from member)

theorem kept_append : kept (calls ++ [r]) = if Effective r then kept calls ++ [r] else kept calls := by
  rw [kept, List.filter_append]
  split_ifs with effective
  · rw [List.filter_singleton, decide_eq_true effective]
    rfl
  · rw [List.filter_singleton, decide_eq_false effective]
    exact List.append_nil _

theorem changes_held (run : calls.foldlM (change context len0 len1) ⟨false, memory, -1, []⟩ = .ok s) :
    (kept calls = [] ∧ s = ⟨false, memory, -1, []⟩) ∨
      ∃ closed latest, Held context len0 len1 (kept calls) s closed latest := by
  induction calls using List.reverseRecOn generalizing s with
  | nil => exact .inl ⟨rfl, (Except.ok.inj run).symm⟩
  | append_singleton calls r ih =>
    obtain ⟨s₁, before, step⟩ := Faults.foldlM_snoc.mp run
    rw [kept_append]
    by_cases effective : Effective r
    · rw [if_pos effective]
      rcases ih before with ⟨none_, rfl⟩ | ⟨closed, latest, held⟩
      · obtain ⟨s₂, first, held⟩ := change_first context len0 len1 memory effective
        obtain rfl : s = s₂ := Except.ok.inj (step.symm.trans first)
        rw [none_]
        exact .inr ⟨_, _, held⟩
      · exact .inr (change_held held effective step)
    · rw [change_idle effective] at step
      rw [if_neg effective, ← Except.ok.inj step]
      exact ih before

theorem changes_done (context len0 len1 : Int) (memory : Nat → context_vec) (ready : kept calls = [] ∨
      ∃ closed latest, Ready context (kept calls) closed latest) :
    ∃ s, calls.foldlM (change context len0 len1) ⟨false, memory, -1, []⟩ = .ok s := by
  induction calls using List.reverseRecOn with
  | nil => exact ⟨_, rfl⟩
  | append_singleton calls r ih =>
    rw [kept_append] at ready
    by_cases effective : Effective r
    · rw [if_pos effective] at ready
      obtain ⟨closed', latest', ready⟩ := ready.resolve_left (by simp)
      have earlier : kept calls = [] ∨
          ∃ closed latest, Ready context (kept calls) closed latest := by
        by_cases none_ : kept calls = []
        · exact .inl none_
        · exact .inr (ready.before none_)
      obtain ⟨s₁, before⟩ := ih earlier
      rcases changes_held before with ⟨none_, rfl⟩ | ⟨closed, latest, held⟩
      · obtain ⟨s₂, first, -⟩ := change_first context len0 len1 memory effective
        exact ⟨s₂, Faults.foldlM_snoc.mpr ⟨_, before, first⟩⟩
      · obtain ⟨s₂, -, -, done, -⟩ := change_done held effective ready
        exact ⟨s₂, Faults.foldlM_snoc.mpr ⟨_, before, done⟩⟩
    · rw [if_neg effective] at ready
      obtain ⟨s₁, before⟩ := ih ready
      exact ⟨s₁, Faults.foldlM_snoc.mpr ⟨_, before, change_idle effective⟩⟩

end Runs

end Svr4.Proofs.DiffHunks

/-! Each effective change is written once, in hunks whose ranges of lines do not overlap, exactly when no
hunk has more changes than the vector has records. -/

namespace Svr4.Proofs.DiffBatches
open DiffContext DiffHunks

def markedOld : Event → Option (Int × Int × Mark)
  | .fetchOld a b s => if s = .same then none else some (a, b, s)
  | _ => none

def markedNew : Event → Option (Int × Int × Mark)
  | .fetchNew a b s => if s = .same then none else some (a, b, s)
  | _ => none

def oldRange : Event → Option (Int × Int)
  | .old lowa upb => some (lowa, upb)
  | _ => none

def newRange : Event → Option (Int × Int)
  | .new lowc upd => some (lowc, upd)
  | _ => none

def oldMark (r : context_vec) : Option (Int × Int × Mark) :=
  if r.a ≤ r.b then some (r.a, r.b, if r.c ≤ r.d then .changed else .deleted) else none

def newMark (r : context_vec) : Option (Int × Int × Mark) :=
  if r.c ≤ r.d then some (r.c, r.d, if r.a ≤ r.b then .changed else .added) else none

structure Ascending (calls : List context_vec) : Prop where
  ordered : calls.Pairwise fun p q => p.b < q.a ∧ p.d < q.c
  shaped : ∀ r ∈ calls, r.a ≤ r.b + 1 ∧ r.c ≤ r.d + 1

/-- The groups of near changes have room in the vector, and no sum is too large for an `int`. -/
structure Batched (context : Int) (es : List context_vec) : Prop where
  sizes : ∀ g ∈ es.splitBy (near context), (g.length : Int) ≤ MAX_CONTEXT
  pairs : es.IsChain (PairFits context)
  hunks : ∀ g ∈ es.splitBy (near context), GroupFits context g

variable {context len0 len1 lowa upb lowc upd : Int} {s : State} {p q r : context_vec} {es group rs calls : List context_vec}
  {groups : List (List context_vec)} {memory : Nat → context_vec}

theorem old_lines_marked : (old_lines upb lowa rs).filterMap markedOld = rs.filterMap oldMark := by
  induction rs generalizing lowa with
  | nil => rfl
  | cons r rs ih =>
    rw [old_lines, List.filterMap_append, ih, List.filterMap_cons, oldMark]
    split_ifs <;> rfl

theorem old_lines_new : (old_lines upb lowa rs).filterMap markedNew = [] := by
  induction rs generalizing lowa with
  | nil => rfl
  | cons r rs ih =>
    rw [old_lines, List.filterMap_append, ih]
    split_ifs <;> rfl

theorem new_lines_old : (new_lines upd lowc rs).filterMap markedOld = [] := by
  induction rs generalizing lowc with
  | nil => rfl
  | cons r rs ih =>
    rw [new_lines, List.filterMap_append, ih]
    split_ifs <;> rfl

theorem new_lines_marked (effective : ∀ r ∈ rs, Effective r) : (new_lines upd lowc rs).filterMap markedNew = rs.filterMap newMark := by
  induction rs generalizing lowc with
  | nil => rfl
  | cons r rs ih =>
    have here : Effective r := effective r (by simp)
    rw [new_lines, List.filterMap_append, ih fun r member => effective r (List.mem_cons_of_mem _ member), List.filterMap_cons, newMark]
    unfold Effective at here
    split_ifs <;> first | rfl | omega

theorem old_lines_ranges : (old_lines upb lowa rs).filterMap oldRange = [] ∧ (old_lines upb lowa rs).filterMap newRange = [] := by
  induction rs generalizing lowa with
  | nil => exact ⟨rfl, rfl⟩
  | cons r rs ih =>
    rw [old_lines, List.filterMap_append, List.filterMap_append, ih.1, ih.2]
    split_ifs <;> exact ⟨rfl, rfl⟩

theorem new_lines_ranges : (new_lines upd lowc rs).filterMap oldRange = [] ∧ (new_lines upd lowc rs).filterMap newRange = [] := by
  induction rs generalizing lowc with
  | nil => exact ⟨rfl, rfl⟩
  | cons r rs ih =>
    rw [new_lines, List.filterMap_append, List.filterMap_append, ih.1, ih.2]
    split_ifs <;> exact ⟨rfl, rfl⟩

theorem hunk_old : (hunk lowa upb lowc upd rs).filterMap markedOld = rs.filterMap oldMark := by
  have none_ : ¬rs.any (fun r => decide (r.a ≤ r.b)) = true → rs.filterMap oldMark = [] := fun plain => by
    refine List.filterMap_eq_nil_iff.mpr fun r member => if_neg fun lines => plain ?_
    exact List.any_eq_true.mpr ⟨r, member, decide_eq_true lines⟩
  unfold hunk
  split_ifs with old new new
  all_goals simp only [List.filterMap_append, List.filterMap_cons, markedOld, old_lines_marked, new_lines_old, List.filterMap_nil, List.append_nil]
  all_goals exact (none_ old).symm

theorem hunk_new (effective : ∀ r ∈ rs, Effective r) : (hunk lowa upb lowc upd rs).filterMap markedNew = rs.filterMap newMark := by
  have none_ : ¬rs.any (fun r => decide (r.c ≤ r.d)) = true → rs.filterMap newMark = [] := fun plain => by
    refine List.filterMap_eq_nil_iff.mpr fun r member => if_neg fun lines => plain ?_
    exact List.any_eq_true.mpr ⟨r, member, decide_eq_true lines⟩
  unfold hunk
  split_ifs with old new new
  all_goals simp only [List.filterMap_append, List.filterMap_cons, markedNew, old_lines_new, new_lines_marked effective,
    List.filterMap_nil, List.nil_append]
  all_goals exact (none_ new).symm

theorem hunk_ranges : (hunk lowa upb lowc upd rs).filterMap oldRange = [(lowa, upb)] ∧
    (hunk lowa upb lowc upd rs).filterMap newRange = [(lowc, upd)] := by
  unfold hunk
  split_ifs
  all_goals simp only [List.filterMap_append, List.filterMap_cons, oldRange, newRange, old_lines_ranges, new_lines_ranges,
    List.filterMap_nil, List.nil_append, List.append_nil, and_self]

theorem dumped_eq (first : group.head? = some p) (last : group.getLast? = some q) : dumped context len0 len1 group =
    hunk (max 1 (p.a - context)) (min len0 (q.b + context)) (max 1 (p.c - context)) (min len1 (q.d + context)) group := by
  rw [dumped, first, last]

theorem ends_of (filled : group ≠ []) : ∃ p q, group.head? = some p ∧ group.getLast? = some q :=
  ⟨group.head filled, group.getLast filled, List.head?_eq_some_head filled, List.getLast?_eq_some_getLast filled⟩

def Apart (context : Int) (g h : List context_vec) : Prop :=
  ∀ p ∈ g.getLast?, ∀ q ∈ h.head?, p.b + 2 * context < q.a ∧ p.d + 2 * context < q.c

theorem split_apart : (es.splitBy (near context)).IsChain (Apart context) := by
  refine (List.isChain_getLast_head_splitBy (near context) es).imp fun g h both p last q first => ?_
  obtain ⟨ends, begins, far⟩ := both
  obtain rfl : g.getLast ends = p := Option.some.inj ((List.getLast?_eq_some_getLast ends).symm.trans last)
  obtain rfl : h.head begins = q := Option.some.inj ((List.head?_eq_some_head begins).symm.trans first)
  simp only [near, Bool.or_eq_false_iff, decide_eq_false_iff_not] at far
  omega

theorem all_apart (chain : groups.IsChain (Apart context)) (filled : ∀ g ∈ groups, g ≠ []) (ascending : Ascending groups.flatten) :
    groups.Pairwise (Apart context) := by
  induction groups with
  | nil => exact List.Pairwise.nil
  | cons g rest ih =>
    have ordered := ascending.ordered
    rw [List.flatten_cons, List.pairwise_append] at ordered
    have later : Ascending rest.flatten := ⟨ordered.2.1, fun r member => ascending.shaped r (by simp [member])⟩
    refine List.pairwise_cons.mpr ⟨fun h member p last q first => ?_, ih chain.tail (fun g member => filled g (by simp [member])) later⟩
    cases rest with
    | nil => cases member
    | cons k rest =>
      have near_ : Apart context g k := (List.isChain_cons_cons.mp chain).1
      rcases List.mem_cons.mp member with rfl | beyond
      · exact near_ p last q first
      obtain ⟨k₀, -, first', -⟩ := ends_of (filled k (by simp))
      have gap := near_ p last k₀ first'
      have inside := List.mem_of_head? first'
      have shape := later.shaped k₀ (by simp [inside])
      have order := later.ordered
      rw [List.flatten_cons, List.pairwise_append] at order
      have := order.2.2 k₀ inside q (List.mem_flatten.mpr ⟨h, beyond, List.mem_of_head? first⟩)
      omega

theorem output_held (run : output context len0 len1 memory calls = .ok s) :
    Batched context (kept calls) ∧ (kept calls = [] ∧ s.out = [] ∨
      s.out = .names :: (((kept calls).splitBy (near context)).map (dumped context len0 len1)).flatten) := by
  obtain ⟨s₁, gathered, ended⟩ := Faults.bind_ok.mp run
  rcases changes_held gathered with ⟨none_, rfl⟩ | ⟨closed, latest, held⟩
  · obtain rfl : (⟨false, memory, -1, []⟩ : State) = s := Except.ok.inj ended
    rw [none_]
    exact ⟨⟨by simp, List.isChain_nil, by simp⟩, .inl ⟨rfl, rfl⟩⟩
  · obtain ⟨p, q, first, last⟩ := ends_of held.filled
    rw [held.anychange, if_pos rfl] at ended
    have fits := dump_fits held first last ended
    rw [dump_done held first last fits] at ended
    obtain rfl := Except.ok.inj ended
    refine ⟨⟨held.split ▸ held.sizes, held.pairs, fun g member => ?_⟩, .inr ?_⟩
    · rw [held.split] at member
      rcases List.mem_append.mp member with old | new
      · exact held.hunks g old
      · obtain rfl : g = latest := by simpa using new
        intro p' first' q' last'
        obtain rfl : p = p' := Option.some.inj (first.symm.trans first')
        obtain rfl : q = q' := Option.some.inj (last.symm.trans last')
        exact fits
    · rw [held.split, List.map_append, List.flatten_append, ← List.cons_append, ← held.out]
      simp

theorem output_done (len0 len1 : Int) (memory : Nat → context_vec) (batched : Batched context (kept calls)) :
    ∃ s, output context len0 len1 memory calls = .ok s := by
  have ready : kept calls = [] ∨
      ∃ closed latest, Ready context (kept calls) closed latest := by
    by_cases none_ : kept calls = []
    · exact .inl none_
    have parts : (kept calls).splitBy (near context) ≠ [] := by simpa using none_
    have split := (List.dropLast_append_getLast parts).symm
    exact .inr ⟨_, _, split, split ▸ batched.sizes, batched.pairs, fun g member => batched.hunks g (List.mem_of_mem_dropLast member)⟩
  obtain ⟨s₁, gathered⟩ := changes_done context len0 len1 memory ready
  rcases changes_held gathered with ⟨none_, rfl⟩ | ⟨closed, latest, held⟩
  · exact ⟨_, Faults.bind_ok.mpr ⟨_, gathered, rfl⟩⟩
  · obtain ⟨p, q, first, last⟩ := ends_of held.filled
    have fits : HunkFits context p q := batched.hunks latest (held.split ▸ by simp) p first q last
    obtain ⟨s, ended⟩ : ∃ s, (if s₁.anychange then dump_context_vec context len0 len1 s₁ else .ok s₁) = .ok s := by
      rw [held.anychange, if_pos rfl]
      exact ⟨_, dump_done held first last fits⟩
    exact ⟨s, Faults.bind_ok.mpr ⟨_, gathered, ended⟩⟩

/-- What `diff -c` should print for the changes `es`: each once and in order, in hunks that do not overlap. -/
structure Exact (es : List context_vec) (out : List Event) : Prop where
  old : out.filterMap markedOld = es.filterMap oldMark
  new : out.filterMap markedNew = es.filterMap newMark
  oldApart : (out.filterMap oldRange).Pairwise fun g h => g.2 < h.1
  newApart : (out.filterMap newRange).Pairwise fun g h => g.2 < h.1

theorem hunks_filterMap {β : Type} {f : Event → Option β} {read : List context_vec → List β} (filled : ∀ g ∈ groups, g ≠ [])
    (each : ∀ g ∈ groups, ∀ p q, g.head? = some p → g.getLast? = some q →
      (hunk (max 1 (p.a - context)) (min len0 (q.b + context)) (max 1 (p.c - context)) (min len1 (q.d + context)) g).filterMap f = read g) :
    ((groups.map (dumped context len0 len1)).flatten).filterMap f = (groups.map read).flatten := by
  rw [List.filterMap_flatten, List.map_map]
  congr 1
  refine List.map_congr_left fun g member => ?_
  obtain ⟨p, q, first, last⟩ := ends_of (filled g member)
  show (dumped context len0 len1 g).filterMap f = read g
  rw [dumped_eq first last]
  exact each g member p q first last

theorem ranges_apart {f : Event → Option (Int × Int)} (lower upper : context_vec → Int) (filled : ∀ g ∈ groups, g ≠ [])
    (each : ∀ g p q, g.head? = some p → g.getLast? = some q → (dumped context len0 len1 g).filterMap f = [(lower p, upper q)])
    (apart : groups.Pairwise fun g h => ∀ q ∈ g.getLast?, ∀ p ∈ h.head?, upper q < lower p) :
    (((groups.map (dumped context len0 len1)).flatten).filterMap f).Pairwise fun g h => g.2 < h.1 := by
  rw [List.filterMap_flatten, List.map_map, List.pairwise_flatten]
  refine ⟨fun ranges member => ?_, ?_⟩
  · obtain ⟨g, inside, rfl⟩ := List.mem_map.mp member
    obtain ⟨p, q, first, last⟩ := ends_of (filled g inside)
    show ((dumped context len0 len1 g).filterMap f).Pairwise _
    rw [each g p q first last]
    exact List.pairwise_singleton _ _
  · rw [List.pairwise_map]
    refine apart.imp_of_mem fun {g h} member member' far x inside y inside' => ?_
    obtain ⟨p, q, first, last⟩ := ends_of (filled g member)
    obtain ⟨p', q', first', last'⟩ := ends_of (filled h member')
    obtain rfl : x = (lower p, upper q) := by simpa [each g p q first last] using inside
    obtain rfl : y = (lower p', upper q') := by simpa [each h p' q' first' last'] using inside'
    exact far q last p' first'

theorem hunks_exact (effective : ∀ r ∈ es, Effective r) (ascending : Ascending es) :
    Exact es (.names :: ((es.splitBy (near context)).map (dumped context len0 len1)).flatten) := by
  have flat := List.flatten_splitBy (near context) es
  have filled : ∀ g ∈ es.splitBy (near context), g ≠ [] := fun g member none_ => List.nil_notMem_splitBy (near context) es (none_ ▸ member)
  have apart := all_apart split_apart filled (flat.symm ▸ ascending)
  constructor
  · rw [List.filterMap_cons_none rfl, hunks_filterMap filled fun g _ p q _ _ => hunk_old, ← List.filterMap_flatten, flat]
  · rw [List.filterMap_cons_none rfl, hunks_filterMap filled fun g member p q _ _ => hunk_new fun r inside =>
      effective r (flat ▸ List.mem_flatten.mpr ⟨g, member, inside⟩), ← List.filterMap_flatten, flat]
  · rw [List.filterMap_cons_none rfl]
    refine ranges_apart (fun p => max 1 (p.a - context)) (fun q => min len0 (q.b + context)) filled (fun g p q first last => ?_)
      (apart.imp fun far q last p first => ?_)
    · rw [dumped_eq first last]
      exact hunk_ranges.1
    · have := (far q last p first).1
      omega
  · rw [List.filterMap_cons_none rfl]
    refine ranges_apart (fun p => max 1 (p.c - context)) (fun q => min len1 (q.d + context)) filled (fun g p q first last => ?_)
      (apart.imp fun far q last p first => ?_)
    · rw [dumped_eq first last]
      exact hunk_ranges.2
    · have := (far q last p first).2
      omega

theorem Ascending.kept (ascending : Ascending calls) : Ascending (kept calls) :=
  ⟨ascending.ordered.filter _, fun r member => ascending.shaped r (List.mem_of_mem_filter member)⟩

/-- `diff -c` gathers its changes without a fault, and prints each once in hunks apart from each other, exactly
when no more than `MAX_CONTEXT` changes follow each other closely. -/
theorem output_batches (context len0 len1 : Int) (memory : Nat → context_vec) (calls : List context_vec) (ascending : Ascending calls) :
    (∃ s, output context len0 len1 memory calls = .ok s ∧ Exact (kept calls) s.out) ↔ Batched context (kept calls) := by
  constructor
  · rintro ⟨s, run, -⟩
    exact (output_held run).1
  · intro batched
    obtain ⟨s, run⟩ := output_done len0 len1 memory batched
    refine ⟨s, run, ?_⟩
    rcases (output_held run).2 with ⟨none_, silent⟩ | printed
    · rw [none_, silent]
      exact ⟨rfl, rfl, List.Pairwise.nil, List.Pairwise.nil⟩
    · rw [printed]
      exact hunks_exact (fun r member => effective_of_kept member) ascending.kept

theorem output_batches_sample : (∃ s, output 3 20 20 (fun _ => ⟨0, 0, 0, 0⟩) [⟨1, 1, 1, 1⟩, ⟨9, 10, 9, 8⟩] = .ok s ∧
    Exact (kept [⟨1, 1, 1, 1⟩, ⟨9, 10, 9, 8⟩]) s.out) ↔ Batched 3 (kept [⟨1, 1, 1, 1⟩, ⟨9, 10, 9, 8⟩]) :=
  output_batches 3 20 20 (fun _ => ⟨0, 0, 0, 0⟩) [⟨1, 1, 1, 1⟩, ⟨9, 10, 9, 8⟩] ⟨by simp, by simp⟩

def everySecond (count : Nat) : List context_vec :=
  (List.range count).map fun i : Nat => ⟨2 * (i : Int) + 2, 2 * (i : Int) + 2, 2 * (i : Int) + 2, 2 * (i : Int) + 2⟩

def fault? {α : Type} : Except Fault α → Option Fault
  | .ok _ => none
  | .error fault => some fault

theorem error_of_fault {α : Type} {x : Except Fault α} {fault : Fault} (ended : fault? x = some fault) : x = .error fault := by
  cases x with
  | ok a => cases ended
  | error other =>
    cases ended
    rfl

/-- The record after the last one is stored behind the vector. -/
theorem output_wild :
    Ascending (everySecond 129) ∧ output 3 258 258 (fun _ => ⟨0, 0, 0, 0⟩) (everySecond 129) = .error .wild := by
  refine ⟨⟨?_, ?_⟩, error_of_fault (by decide +kernel)⟩
  · simp only [everySecond, List.pairwise_map]
    exact List.pairwise_lt_range.imp fun before => by omega
  · simp only [everySecond, List.mem_map]
    rintro r ⟨i, -, rfl⟩
    have : 2 * (i : Int) + 2 ≤ 2 * i + 2 + 1 := by omega
    exact ⟨this, this⟩

end Svr4.Proofs.DiffBatches
