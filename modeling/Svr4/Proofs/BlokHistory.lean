import Svr4.Proofs.BlokHeld

/-! Every sequence of calls of the two allocators of the shell: `alloc` ends with a block
that is large enough, and neither the blocks nor the stack areas ever overlap. -/

namespace Svr4.Proofs.BlokHistory
open Bytes Loop Blok BlokChain BlokSearch BlokHeld

variable {t : Session}

variable {s s' : Shell} {r n ap a x : Nat} {blocks blocks' : List Block} {live areas : List (Nat × Nat)}

theorem rbytes_bounds (n : Nat) : n + 4 ≤ rbytes n ∧ rbytes n % 4 = 0 :=
  ⟨(round_bounds _).1, (round_bounds _).2.2⟩

def InUse (s : Shell) (live areas : List (Nat × Nat)) (a : Nat) : Prop :=
  (∃ one ∈ live, one.1 ≤ a ∧ a < one.1 + one.2) ∨ (∃ area ∈ areas, area.1 ≤ a ∧ a < area.2) ∨ (s.stakbas ≤ a ∧ a < s.staktop)

theorem quiet (held : Held s live areas blocks) (untouched : Untouched s s' blocks) (used : InUse s live areas a) :
    s'.mem a = s.mem a := by
  rcases used with ⟨one, member, low, high⟩ | ⟨area, member, low, high⟩ | ⟨low, high⟩
  · obtain ⟨block, among, start, room⟩ := held.lives one member
    exact untouched.inside block among a (by omega) (by omega)
  · obtain ⟨block, among, start, first, last⟩ := held.covers area member
    exact untouched.inside block among a (by omega) (by omega)
  · have base : s.stakbas = s.bloktop + 8 := held.stack.base
    exact untouched.above a (by omega)

theorem string_above (held : Held s live areas blocks) (untouched : Untouched s s' blocks)
    (same : s' = { s with mem := s'.mem, blokp := s'.blokp }) : SameString s s' := by
  have staktop : s'.staktop = s.staktop := congrArg (·.staktop) same
  have stakbot : s'.stakbot = s.stakbot := congrArg (·.stakbot) same
  have base : s.stakbas = s.bloktop + 8 := held.stack.base
  have bot := held.stack.bot
  refine ⟨by rw [staktop, stakbot], fun i inside => ?_⟩
  rw [stakbot]
  exact untouched.above _ (by omega)

theorem quiet_grew (held : Held s live areas blocks) (grew : Grew s s' blocks blocks' r) (used : InUse s live areas a) :
    s'.mem a = s.mem a ∧ InUse s' live (areasAfter s s' areas) a := by
  rcases used with ⟨one, member, low, high⟩ | ⟨area, member, low, high⟩ | ⟨low, high⟩
  · obtain ⟨block, among, start, room⟩ := held.lives one member
    have below := (held.inside among).2
    exact ⟨grew.below a (by omega), .inl ⟨one, member, low, high⟩⟩
  · obtain ⟨block, among, start, first, last⟩ := held.covers area member
    have below := (held.inside among).2
    refine ⟨grew.below a (by omega), .inr (.inl ⟨area, ?_, low, high⟩)⟩
    rw [areasAfter]
    split
    · exact member
    · exact List.mem_cons_of_mem _ member
  · rcases grew.covered with ⟨empty, -⟩ | ⟨used, stakbsy, link, above, kept, more⟩
    · omega
    · refine ⟨kept a low high.le, .inr (.inl ⟨(s.stakbas, s.staktop), ?_, low, high⟩)⟩
      rw [held.fresh stakbsy]
      exact List.mem_cons_self

theorem search_grown (grew : Grew s s' blocks blocks' r) (size : 4 ≤ r) (even : r % 4 = 0) : ∃ s'' blocks'',
    Ends (fun time => search time s' s'.blokp 0 r) (s'', some (s'.blokp + BYTESPERWORD)) ∧
      Took s' s'' blocks' blocks'' r (s'.blokp + BYTESPERWORD) := by
  obtain ⟨pre, shape⟩ : ∃ pre, blocks' = pre ++ [⟨s'.blokp, s'.bloktop, false⟩] := by
    rcases grew.covered with ⟨-, -, shape⟩ | ⟨-, -, -, -, -, shape⟩
    · exact ⟨blocks, shape⟩
    · exact ⟨_, shape⟩
  subst shape
  have arena := grew.arena
  have room := grew.room
  obtain ⟨blocks'', took⟩ := take_took arena rfl size even (show s'.blokp + r ≤ s'.bloktop by omega)
  refine ⟨_, blocks'', ?_, took⟩
  obtain ⟨mid, first, second⟩ := laid_append.mp arena.laid
  obtain ⟨rfl, wide, aligned, word, -⟩ := second
  have stop := busy_of_word arena.top arena.aligned
  have free : busy s'.mem s'.blokp = false := @busy_link _ _ ⟨s'.blokp, s'.bloktop, false⟩ aligned word
  have link : s'.mem.word s'.blokp = s'.bloktop := word
  have enough : s'.bloktop - s'.blokp ≥ r := by omega
  refine ⟨2, fun time later => ?_⟩
  obtain ⟨before, rfl⟩ := Nat.exists_eq_add_of_le' later
  simp only [search, inspect, free, coalesce, link, stop, if_true, Option.bind_some, enough, proceed, Bool.false_eq_true, if_false]

theorem addblok_staktop (same : s' = { s with mem := s'.mem }) : (addblok s' r).staktop = (addblok s r).staktop := by
  rw [same]
  simp only [addblok, grow, cover]
  split <;> split <;> rfl

structure Allocated (s : Shell) (live areas : List (Nat × Nat)) (n : Nat) (s' : Shell) (ap : Nat) : Prop where
  held : ∃ blocks', Held s' ((ap, n) :: live) (areasAfter s s' areas) blocks' ∧ Header s' blocks' s'.blokp
  string : SameString s s'
  quiet : ∀ a, InUse s live areas a → s'.mem a = s.mem a

theorem in_use_same (used : InUse s live areas a) (stakbas : s'.stakbas = s.stakbas) (staktop : s'.staktop = s.staktop) :
    InUse s' live areas a := by
  rw [InUse, stakbas, staktop]
  exact used

theorem SameString.trans {s'' : Shell} (first : SameString s s') (second : SameString s' s'') : SameString s s'' := by
  refine ⟨second.1.trans first.1, fun i inside => ?_⟩
  rw [second.2 i (by rw [first.1]; exact inside)]
  exact first.2 i inside

theorem alloc_ends (held : Held s live areas blocks) (header : Header s blocks s.blokp)
    (supplied : (addblok s (rbytes n)).staktop < 2 ^ 32) :
    ∃ s' ap, Ends (fun time => alloc time s n) (s', ap) ∧ Allocated s live areas n s' ap := by
  obtain ⟨size, even⟩ := rbytes_bounds n
  have room : 4 ≤ rbytes n := by omega
  obtain ⟨⟨s1, found⟩, ends, search⟩ := search_ends held.arena header room even
  rcases search with ⟨missing, blocks1, merged⟩ | ⟨ap, blocks', found', took⟩
  · obtain rfl : found = none := missing
    have merged : Merged s s1 blocks blocks1 := merged
    obtain ⟨s2, same⟩ : ∃ s2, addblok s1 (rbytes n) = s2 := ⟨_, rfl⟩
    have held1 := held.merged merged
    rw [← addblok_staktop merged.same, same] at supplied
    obtain ⟨blocks2, grew⟩ := addblok_grew held1.arena held1.stack held1.stakbsy_small (same.symm ▸ supplied)
    rw [same] at grew
    have held2 := held1.grew grew supplied
    obtain ⟨s3, blocks3, ends', took⟩ := search_grown grew room even
    have stakbsy1 : s1.stakbsy = s.stakbsy := congrArg (·.stakbsy) merged.same
    have stakbas1 : s1.stakbas = s.stakbas := congrArg (·.stakbas) merged.same
    have staktop1 : s1.staktop = s.staktop := congrArg (·.staktop) merged.same
    have stakbsy3 : s3.stakbsy = s2.stakbsy := congrArg (·.stakbsy) took.same
    have after : areasAfter s1 s2 areas = areasAfter s s3 areas := by
      rw [areasAfter, areasAfter, stakbsy1, stakbas1, staktop1, stakbsy3]
    have plain : s1 = { s with mem := s1.mem, blokp := s1.blokp } := by
      conv_lhs => rw [merged.same]
      rw [merged.same]
    subst same
    refine ⟨s3, _, ?_, ⟨blocks3, after ▸ held2.took took size, took.next⟩, ?_, ?_⟩
    · apply Ends.within (fun time => answer fun s => alloc time (addblok s (rbytes n)) n) ends
      · apply Ends.within (fun time => answer fun s => alloc time (addblok s (rbytes n)) n) ends'
          (Ends.const (fun _ => rfl))
        intro time
        rfl
      · intro time
        rfl
    · have string1 := string_above held merged.untouched plain
      exact SameString.trans (SameString.trans string1 grew.string) (string_above held2 took.untouched took.same)
    · intro a used
      have first := quiet held merged.untouched used
      obtain ⟨second, used'⟩ := quiet_grew held1 grew (in_use_same used stakbas1 staktop1)
      exact (quiet held2 took.untouched used').trans (second.trans first)
  · obtain rfl : found = some ap := found'
    have took : Took s s1 blocks blocks' (rbytes n) ap := took
    refine ⟨s1, ap, ?_, ⟨blocks', ?_, took.next⟩, string_above held took.untouched took.same,
      fun a used => quiet held took.untouched used⟩
    · apply Ends.within (fun time => answer fun s => alloc time (addblok s (rbytes n)) n) ends (Ends.const (fun _ => rfl))
      intro time
      rfl
    · have stakbsy : s1.stakbsy = s.stakbsy := congrArg (·.stakbsy) took.same
      rw [areasAfter, if_pos stakbsy]
      exact held.took took size

def coveredBelow (x : Nat) (areas : List (Nat × Nat)) : List (Nat × Nat) :=
  areas.filter (fun area => ¬ area.1 - BYTESPERWORD > x)

def uncovered (x : Nat) (areas : List (Nat × Nat)) (blocks : List Block) : List Block :=
  blocks.map (fun block => if ∃ area ∈ areas, area.1 - BYTESPERWORD > x ∧ block.start + 4 = area.1 - BYTESPERWORD
    then { block with busy := false } else block)

structure Uncovered (s : Shell) (live areas : List (Nat × Nat)) (blocks : List Block) (x : Nat) (s' : Shell) : Prop where
  held : Held s' live (coveredBelow x areas) (uncovered x areas blocks)
  same : s' = { s with mem := s'.mem, stakbsy := s'.stakbsy }

theorem coveredBelow_all {area : Nat × Nat} {rest : List (Nat × Nat)} (falling : (area :: rest).Pairwise (fun p q => p.1 > q.1))
    (low : ¬ area.1 - BYTESPERWORD > x) : ∀ other ∈ area :: rest, ¬ other.1 - BYTESPERWORD > x := by
  intro other member
  rcases List.mem_cons.mp member with rfl | inside
  · exact low
  · have less := (List.pairwise_cons.mp falling).1 other inside
    omega

theorem uncovered_none (none_ : ∀ area ∈ areas, ¬ area.1 - BYTESPERWORD > x) : uncovered x areas blocks = blocks := by
  apply List.map_id''
  intro block
  apply if_neg
  intro ⟨area, member, high, _⟩
  exact none_ area member high

theorem uncover_ends (held : Held s live areas blocks) : ∃ s', Ends (fun time => uncover time s x) s' ∧
    Uncovered s live areas blocks x s' := by
  induction areas generalizing s blocks with
  | nil =>
    have zero : s.stakbsy = 0 := held.chain
    refine ⟨s, ?_, ?_, rfl⟩
    · apply Ends.stop
      intro time
      simp [uncover, zero]
    · rw [uncovered_none (by simp)]
      exact held
  | cons area rest ih =>
    have link : s.stakbsy = area.1 - BYTESPERWORD := held.chain.1
    by_cases high : area.1 - BYTESPERWORD > x
    · obtain ⟨block, among, start, low, room⟩ := held.covers area (by simp)
      have inside := held.inside among
      have place : area.1 - BYTESPERWORD = block.start + 4 := by simp only [BYTESPERWORD]; omega
      have distinct : (live.map (·.1) ++ (block.start + 4) :: blokstaks rest).Nodup := place ▸ held.distinct
      have others := (List.nodup_cons.mp (List.nodup_middle.mp distinct)).1
      have after := held.released among (show block.start + 4 < s.bloktop by omega) (List.Sublist.refl live)
        (List.sublist_cons_self area rest) (fun p member equal => others (equal ▸ member)) held.chain.2
      have here : s.stakbsy = block.start + 4 := link.trans place
      obtain ⟨arena, frame⟩ := free_arena held.arena (mem_taken.mp among).1 (show block.start + 4 < s.bloktop by omega)
      have next : (free s (block.start + 4)).mem.word (block.start + 4) = s.mem.word (area.1 - BYTESPERWORD) := by
        rw [place]
        apply Memory.word_congr
        intro b first last
        exact frame b (.inr first)
      obtain ⟨s', ends, left⟩ := ih after
      refine ⟨s', ?_, ?_, ?_⟩
      · apply ends.turn
        intro time
        have kept : (free s (block.start + 4)).stakbsy = block.start + 4 := by
          rw [free_same]
          exact here
        have more : block.start + 4 > x := place ▸ high
        simp only [uncover, here, more, if_true, kept, next]
      · have fewer : coveredBelow x (area :: rest) = coveredBelow x rest := List.filter_cons_of_neg (fun kept => of_decide_eq_true kept high)
        have marks : uncovered x (area :: rest) blocks = uncovered x rest (released (block.start + 4) blocks) := by
          rw [uncovered, uncovered, released, List.map_map]
          apply List.map_congr_left
          intro c _
          simp only [Function.comp_apply]
          by_cases here : c.start + 4 = block.start + 4
          · rw [if_pos ⟨area, List.mem_cons_self, high, Eq.trans here place.symm⟩, if_pos here]
            split <;> rfl
          · rw [if_neg here]
            refine if_congr ?_ rfl rfl
            constructor
            · rintro ⟨other, member, above, start⟩
              rcases List.mem_cons.mp member with rfl | inside
              · exact absurd (by omega) here
              · exact ⟨other, inside, above, start⟩
            · rintro ⟨other, inside, above, start⟩
              exact ⟨other, List.mem_cons_of_mem _ inside, above, start⟩
        rw [fewer, marks]
        exact left.held
      · have shell := left.same
        rw [free_same] at shell
        exact shell
    · have none_ := coveredBelow_all held.falling high
      refine ⟨s, ?_, ?_, rfl⟩
      · apply Ends.stop
        intro time
        simp only [uncover, link, high, if_false]
      · rw [uncovered_none none_, coveredBelow, List.filter_eq_self.mpr (fun other member => decide_eq_true (none_ other member))]
        exact held

theorem uncovered_start (x : Nat) (areas : List (Nat × Nat)) (blocks : List Block) :
    (uncovered x areas blocks).map (·.start) = blocks.map (·.start) := by
  rw [uncovered, List.map_map]
  apply List.map_congr_left
  intro block _
  simp only [Function.comp_apply]
  split <;> rfl

theorem tdystak_ends (held : Held s live areas blocks) (small : x < 2 ^ 32) : ∃ s', Ends (fun time => tdystak time s x) s' ∧
    Held s' live (coveredBelow x areas) (uncovered x areas blocks) ∧ s'.blokp = s.blokp ∧ s'.bloktop = s.bloktop := by
  obtain ⟨s', ⟨enough, ends⟩, left⟩ := uncover_ends (x := x) held
  have held' := left.held
  have stack := held'.stack
  have base : s'.stakbas ≤ max x s'.stakbas := le_max_right ..
  have high : max x s'.stakbas < 2 ^ 32 := max_lt small (by have := stack.bot; have := stack.top; have := held'.small; omega)
  refine ⟨{ s' with stakbot := max x s'.stakbas, staktop := max x s'.stakbas }, ⟨enough, fun time later => ?_⟩, ?_, ?_⟩
  · simp only [tdystak, ends time later, Option.map_some]
  · have stack' : Stack { s' with stakbot := max x s'.stakbas, staktop := max x s'.stakbas } :=
      ⟨stack.begun, stack.base, base, le_rfl, stack.some, stack.aligned⟩
    apply held'.store rfl stack' high
    intro a changed
    exact absurd rfl changed
  · exact ⟨congrArg (·.blokp) left.same, congrArg (·.bloktop) left.same⟩

/-- The shell, the live blocks, and the areas of the stack that are covered. -/
structure Session where
  shell : Shell
  live : List (Nat × Nat)
  areas : List (Nat × Nat)

def start (mem : Memory) (brk : Nat) : Session := ⟨main_start mem brk, [], []⟩

def Supplied (s : Shell) : Prop := s.staktop < 2 ^ 32

instance (s : Shell) : Decidable (Supplied s) := inferInstanceAs (Decidable (s.staktop < 2 ^ 32))

inductive Step (t : Session) : Session → Prop
  | alloc {n ap : Nat} {s' : Shell} (supplied : Supplied (addblok t.shell (rbytes n))) (ends : Ends (fun time => alloc time t.shell n) (s', ap)) :
    Step t ⟨s', (ap, n) :: t.live, areasAfter t.shell s' t.areas⟩
  | free {n ap : Nat} (member : (ap, n) ∈ t.live) :
    Step t { t with shell := free t.shell ap, live := t.live.filter (fun one => one.1 ≠ ap) }
  | foreign {ap : Nat} (outside : ap ≤ t.shell.brkbegin ∨ t.shell.bloktop ≤ ap) : Step t { t with shell := free t.shell ap }
  | getstak {asize : Nat} (supplied : Supplied (getstak t.shell asize).1) : Step t { t with shell := (getstak t.shell asize).1 }
  | endstak {argp : Nat} (inside : t.shell.stakbas ≤ argp) (supplied : Supplied (endstak t.shell argp).1) :
    Step t { t with shell := (endstak t.shell argp).1 }
  | tdystak {x : Nat} {s' : Shell} (supplied : x < 2 ^ 32) (ends : Ends (fun time => tdystak time t.shell x) s') :
    Step t { t with shell := s', areas := coveredBelow x t.areas }
  | locstak {short : Bool} : Step t { t with shell := locstak t.shell short }
  | pushstak {c : UInt8} (supplied : Supplied (pushstak t.shell c)) : Step t { t with shell := pushstak t.shell c }
  | setstak {x : Nat} (supplied : Supplied (setstak t.shell x)) : Step t { t with shell := setstak t.shell x }
  | store {a : Nat} {c : UInt8} (mine : Mine t.shell t.live t.areas a) : Step t { t with shell := { t.shell with mem := t.shell.mem.set a c } }

structure Sound (t : Session) (blocks : List Block) : Prop where
  held : Held t.shell t.live t.areas blocks
  header : Header t.shell blocks t.shell.blokp

theorem start_sound {mem : Memory} {brk : Nat} (aligned : brk % 4 = 0) (some : 0 < brk) (supplied : Supplied (main_start mem brk)) :
    ∃ blocks, Sound (start mem brk) blocks := by
  have main : main_start mem brk = grow ⟨mem, brk, BRKINCR, brk, brk, 0, 0, 0, 0, 0⟩ 0 := rfl
  have laid : Laid mem brk [] brk := rfl
  obtain ⟨arena, -⟩ := grow_arena (s := ⟨mem, brk, BRKINCR, brk, brk, 0, 0, 0, 0, 0⟩) (r := 0) aligned laid
    (by simp [BRKINCR]) (by simp [BRKINCR]) (main ▸ supplied)
  rw [← main] at arena
  refine ⟨_, ⟨arena, ?_, supplied, rfl, .nil, List.nodup_nil, by simp [start], by simp [start]⟩, [], _, rfl, rfl⟩
  exact grow_stack (s := ⟨mem, brk, BRKINCR, brk, brk, 0, 0, 0, 0, 0⟩) some (by simp [BRKINCR]) (by simp [BRKINCR])

theorem released_gone (held : Held t.shell t.live t.areas blocks) (member : (ap, n) ∈ t.live) :
    ∀ p ∈ (t.live.filter (fun one => one.1 ≠ ap)).map (·.1) ++ blokstaks t.areas, p ≠ ap := by
  intro p inside equal
  subst equal
  rcases List.mem_append.mp inside with first | second
  · obtain ⟨one, among, same⟩ := List.mem_map.mp first
    have other := (List.mem_filter.mp among).2
    exact absurd same (of_decide_eq_true other)
  · have apart := (List.nodup_append.mp held.distinct).2.2 p (List.mem_map_of_mem (f := (·.1)) member) p second
    exact apart rfl

theorem free_sound (sound : Sound t blocks) (member : (ap, n) ∈ t.live) :
    ∃ blocks', Sound { t with shell := free t.shell ap, live := t.live.filter (fun one => one.1 ≠ ap) } blocks' := by
  have held := sound.held
  obtain ⟨block, among, place, room⟩ := held.lives _ member
  obtain rfl : block.start + 4 = ap := place
  have gone := released_gone held member
  by_cases low : block.start + 4 < t.shell.bloktop
  · have shell : { free t.shell (block.start + 4) with stakbsy := t.shell.stakbsy } = free t.shell (block.start + 4) := by
      rw [free_same]
    have after := held.released among low List.filter_sublist (List.Sublist.refl _) gone held.chain
    rw [shell] at after
    refine ⟨released (block.start + 4) blocks, after, ?_⟩
    apply header_iff.mpr
    rw [released_start]
    have header := header_iff.mp sound.header
    rw [free_same]
    exact header
  · have shell : free t.shell (block.start + 4) = t.shell := if_neg (by omega)
    refine ⟨blocks, ?_, by rw [shell]; exact sound.header⟩
    rw [shell]
    have fewer : (t.live.filter (fun one => one.1 ≠ block.start + 4)).Sublist t.live := List.filter_sublist
    have distinct := held.distinct.sublist (List.Sublist.append_right (fewer.map (·.1)) (blokstaks t.areas))
    exact { held with distinct := distinct, lives := fun one inside => held.lives one (List.mem_filter.mp inside).1 }

theorem store_sound (sound : Sound t blocks) (same : s' = { t.shell with
      mem := s'.mem, brkincr := s'.brkincr, stakbot := s'.stakbot, staktop := s'.staktop })
    (stack : Stack s') (supplied : Supplied s') (frame : ∀ a, s'.mem a ≠ t.shell.mem a → Mine t.shell t.live t.areas a) :
    Sound { t with shell := s' } blocks := by
  refine ⟨sound.held.store same stack supplied frame, ?_⟩
  have header := header_iff.mp sound.header
  apply header_iff.mpr
  have blokp : s'.blokp = t.shell.blokp := congrArg (·.blokp) same
  have bloktop : s'.bloktop = t.shell.bloktop := congrArg (·.bloktop) same
  rw [blokp, bloktop]
  exact header

theorem changed_at {m : Memory} {c : UInt8} {b : Nat} (changed : m.set a c b ≠ m b) : b = a := by
  by_contra other
  exact changed (Memory.set_apart other)

theorem locstak_incr (short : Bool) (stack : Stack s) :
    ∃ incr, locstak s short = { s with brkincr := incr } ∧ 0 < incr ∧ incr % 4 = 0 := by
  have some := stack.some
  have aligned := stack.aligned
  cases short with
  | false => exact ⟨s.brkincr, rfl, some, aligned⟩
  | true =>
    by_cases less : s.brkincr < BRKMAX
    · refine ⟨s.brkincr + 256, ?_, by omega, by omega⟩
      simp only [locstak, if_true, if_pos less]
    · refine ⟨s.brkincr, ?_, some, aligned⟩
      simp only [locstak, if_true, if_neg less]

theorem step_sound {t' : Session} (sound : Sound t blocks) (step : Step t t') : ∃ blocks', Sound t' blocks' := by
  have stack := sound.held.stack
  have small := sound.held.small
  have bot := stack.bot
  have top := stack.top
  cases step with
  | alloc supplied ends =>
    obtain ⟨s', ap, ends', allocated⟩ := alloc_ends sound.held sound.header supplied
    cases ends.unique ends'
    obtain ⟨blocks', held, header⟩ := allocated.held
    exact ⟨blocks', held, header⟩
  | free member => exact free_sound sound member
  | @foreign ap outside =>
    have shell : free t.shell ap = t.shell := if_neg (by omega)
    rw [shell]
    exact ⟨blocks, sound⟩
  | @getstak asize supplied =>
    refine ⟨blocks, store_sound sound rfl { stack with bot := ?_, top := le_rfl } supplied (fun a changed => absurd rfl changed)⟩
    exact bot.trans (Nat.le_add_right ..)
  | @endstak argp inside supplied =>
    have above := (round_bounds (argp + 1)).1
    refine ⟨blocks, store_sound sound rfl { stack with bot := ?_, top := le_rfl } supplied ?_⟩
    · show t.shell.stakbas ≤ round (argp + 1)
      omega
    · intro a changed
      obtain rfl := changed_at changed
      exact .inr (.inr inside)
  | @tdystak x s' supplied ends =>
    obtain ⟨s'', ends', held, blokp, bloktop⟩ := tdystak_ends sound.held supplied
    cases ends.unique ends'
    refine ⟨_, held, ?_⟩
    apply header_iff.mpr
    rw [uncovered_start, blokp, bloktop]
    exact header_iff.mp sound.header
  | @locstak short =>
    obtain ⟨incr, shell, some, aligned⟩ := locstak_incr short stack
    rw [shell]
    exact ⟨blocks, store_sound sound rfl { stack with some := some, aligned := aligned } small (fun a changed => absurd rfl changed)⟩
  | @pushstak c supplied =>
    refine ⟨blocks, store_sound sound rfl { stack with top := ?_ } supplied ?_⟩
    · exact top.trans (Nat.le_add_right ..)
    · intro a changed
      obtain rfl := changed_at changed
      exact .inr (.inr (bot.trans top))
  | @setstak x supplied =>
    refine ⟨blocks, store_sound sound rfl { stack with top := ?_ } supplied (fun a changed => absurd rfl changed)⟩
    exact Nat.le_add_right ..
  | @store a c mine =>
    refine ⟨blocks, store_sound sound rfl { stack with } small ?_⟩
    intro b changed
    obtain rfl := changed_at changed
    exact mine

/-- These are the headers on the way from `brkbegin` to `bloktop`, which leads back. -/
structure Chained (s : Shell) (heads : List Nat) : Prop where
  first : heads.head? = some s.brkbegin
  last : heads.getLast? = some s.bloktop
  links : heads.IsChain (fun p q => following s.mem p = q ∧ p < q)
  back : following s.mem s.bloktop = s.brkbegin

theorem arena_chained (arena : Arena s blocks) : Chained s (blocks.map (·.start) ++ [s.bloktop]) := by
  obtain ⟨links, head⟩ := arena.laid.chain
  refine ⟨head, List.getLast?_concat .., links, ?_⟩
  exact following_of_word arena.top arena.aligned

structure Apart (t : Session) : Prop where
  chained : ∃ heads, Chained t.shell heads ∧ t.shell.blokp ∈ heads ∧ ∀ one ∈ t.live, one.1 - BYTESPERWORD ∈ heads
  marked : ∀ one ∈ t.live, busy t.shell.mem (one.1 - BYTESPERWORD) = true
  sized : ∀ one ∈ t.live, one.1 + one.2 ≤ following t.shell.mem (one.1 - BYTESPERWORD)
  disjoint : t.live.Pairwise (fun p q => p.1 + p.2 ≤ q.1 - BYTESPERWORD ∨ q.1 + q.2 ≤ p.1 - BYTESPERWORD)
  kept : Busies t.shell.mem t.shell.stakbsy (blokstaks t.areas)
  covered : ∀ one ∈ t.live, ∀ area ∈ t.areas, one.1 + one.2 ≤ area.1 - 2 * BYTESPERWORD ∨ area.2 < one.1 - BYTESPERWORD
  current : t.shell.bloktop < t.shell.stakbas ∧ t.shell.stakbas ≤ t.shell.stakbot ∧ t.shell.stakbot ≤ t.shell.staktop ∧
    ∀ one ∈ t.live, one.1 + one.2 ≤ t.shell.bloktop

theorem sound_apart (sound : Sound t blocks) : Apart t := by
  have held := sound.held
  have laid := held.arena.laid
  have base : t.shell.stakbas = t.shell.bloktop + 8 := held.stack.base
  have block_of : ∀ one ∈ t.live, ∃ block ∈ taken blocks, one.1 - BYTESPERWORD = block.start ∧ one.1 + one.2 ≤ block.stop := by
    intro one member
    obtain ⟨block, among, start, room⟩ := held.lives one member
    exact ⟨block, among, by simp only [BYTESPERWORD]; omega, room⟩
  constructor
  case chained =>
    refine ⟨_, arena_chained held.arena, header_iff.mp sound.header, fun one member => ?_⟩
    obtain ⟨block, among, place, -⟩ := block_of one member
    rw [place]
    exact List.mem_append_left _ (List.mem_map_of_mem (mem_taken.mp among).1)
  case marked =>
    intro one member
    obtain ⟨block, among, place, -⟩ := block_of one member
    have within := laid.within (mem_taken.mp among).1
    rw [place, busy_link within.aligned within.word]
    exact (mem_taken.mp among).2
  case sized =>
    intro one member
    obtain ⟨block, among, place, room⟩ := block_of one member
    have within := laid.within (mem_taken.mp among).1
    rw [place, following_link within.aligned within.word]
    exact room
  case disjoint =>
    have distinct := List.pairwise_map.mp (List.nodup_append.mp held.distinct).1
    apply distinct.imp_of_mem
    intro p q first second other
    obtain ⟨b, among, place, room⟩ := block_of p first
    obtain ⟨c, among', place', room'⟩ := block_of q second
    obtain ⟨b', there, start, -⟩ := held.lives p first
    obtain ⟨c', there', start', -⟩ := held.lives q second
    rcases laid.separate (mem_taken.mp among).1 (mem_taken.mp among').1 with rfl | before | after
    · simp only [BYTESPERWORD] at place place'
      omega
    · exact .inl (by omega)
    · exact .inr (by omega)
  case kept => exact held.chain
  case covered =>
    intro one first area second
    obtain ⟨block, among, start, room⟩ := held.lives one first
    obtain ⟨cover, there, start', low, high⟩ := held.covers area second
    have apart := (List.nodup_append.mp held.distinct).2.2 one.1 (List.mem_map_of_mem first) (area.1 - BYTESPERWORD)
      (List.mem_map_of_mem second)
    simp only [BYTESPERWORD] at apart ⊢
    rcases laid.separate (mem_taken.mp among).1 (mem_taken.mp there).1 with rfl | before | after
    · omega
    · exact .inl (by omega)
    · exact .inr (by omega)
  case current =>
    refine ⟨by omega, held.stack.bot, held.stack.top, fun one member => ?_⟩
    obtain ⟨block, among, start, room⟩ := held.lives one member
    exact room.trans (held.inside among).2

/-- Every call of `alloc` ends, with a block that is large enough; the unfinished string and
whatever else is in use keeps its bytes, and every search starts at a header. -/
structure Allocates (t : Session) (n : Nat) : Prop where
  ends : ∃ s' ap, Ends (fun time => alloc time t.shell n) (s', ap) ∧ ap + n ≤ following s'.mem (ap - BYTESPERWORD) ∧
    SameString t.shell s' ∧ ∀ a, InUse t.shell t.live t.areas a → s'.mem a = t.shell.mem a
  again : ∀ s', Ends (fun time => search time t.shell t.shell.blokp 0 (rbytes n)) (s', none) →
    ∃ heads, Chained (addblok s' (rbytes n)) heads ∧ (addblok s' (rbytes n)).blokp ∈ heads

/-- Every call of `tdystak` ends; it clears the marks of the areas above its argument and no
others, and the other areas stay on the chain. -/
def Tidies (t : Session) (x : Nat) : Prop :=
  ∃ s', Ends (fun time => tdystak time t.shell x) s' ∧ Busies s'.mem s'.stakbsy (blokstaks (coveredBelow x t.areas)) ∧
    ∃ heads, Chained t.shell heads ∧ Chained s' heads ∧ ∀ head ∈ heads, busy s'.mem head = true ↔ busy t.shell.mem head = true ∧
      ∀ area ∈ t.areas, area.1 - BYTESPERWORD > x → head + BYTESPERWORD ≠ area.1 - BYTESPERWORD

theorem sound_allocates (sound : Sound t blocks) (supplied : Supplied (addblok t.shell (rbytes n))) : Allocates t n := by
  constructor
  · obtain ⟨s', ap, ends, allocated⟩ := alloc_ends sound.held sound.header supplied
    obtain ⟨blocks', held, header⟩ := allocated.held
    have apart := sound_apart (t := ⟨s', (ap, n) :: t.live, areasAfter t.shell s' t.areas⟩) ⟨held, header⟩
    exact ⟨s', ap, ends, apart.sized (ap, n) (by simp), allocated.string, allocated.quiet⟩
  · intro s' ends
    obtain ⟨size, even⟩ := rbytes_bounds n
    obtain ⟨result, ends', answer⟩ := search_ends sound.held.arena sound.header (show 4 ≤ rbytes n by omega) even
    cases ends.unique ends'
    rcases answer with ⟨-, blocks1, merged⟩ | ⟨ap, blocks', found, -⟩
    · have merged : Merged t.shell s' blocks blocks1 := merged
      have held := sound.held.merged merged
      rw [Supplied, ← addblok_staktop merged.same] at supplied
      obtain ⟨blocks2, grew⟩ := addblok_grew held.arena held.stack held.stakbsy_small supplied
      refine ⟨_, arena_chained grew.arena, ?_⟩
      apply header_iff.mp
      rcases grew.covered with ⟨-, -, shape⟩ | ⟨-, -, -, -, -, shape⟩
      · exact ⟨_, _, shape, rfl⟩
      · exact ⟨_, _, shape, rfl⟩
    · cases found

theorem sound_tidies (sound : Sound t blocks) (small : x < 2 ^ 32) : Tidies t x := by
  obtain ⟨s', ends, held, -, bloktop⟩ := tdystak_ends sound.held small
  have chained := arena_chained held.arena
  rw [uncovered_start, bloktop] at chained
  refine ⟨s', ends, held.chain, _, arena_chained sound.held.arena, chained, ?_⟩
  intro head member
  rcases List.mem_append.mp member with inside | last
  · obtain ⟨block, among, rfl⟩ := List.mem_map.mp inside
    have within := sound.held.arena.laid.within among
    have within' := held.arena.laid.within (List.mem_map_of_mem among)
    rw [busy_link within.aligned within.word]
    split at within'
    case isTrue freed =>
      rw [busy_link within'.aligned within'.word]
      obtain ⟨area, there, high, place⟩ := freed
      constructor
      · intro busy
        cases busy
      · intro ⟨_, other⟩
        exact absurd place (other area there high)
    case isFalse kept =>
      rw [busy_link within'.aligned within'.word]
      refine ⟨fun busy => ⟨busy, fun area there high place => kept ⟨area, there, high, place⟩⟩, fun both => both.1⟩
  · obtain rfl := List.mem_singleton.mp last
    have top := busy_of_word sound.held.arena.top sound.held.arena.aligned
    have top' := busy_of_word held.arena.top held.arena.aligned
    rw [bloktop] at top'
    refine ⟨fun _ => ⟨top, fun area there high place => ?_⟩, fun _ => top'⟩
    obtain ⟨cover, among, start, -, -⟩ := sound.held.covers area there
    have range := sound.held.inside among
    simp only [BYTESPERWORD] at place
    omega

/-- After every sequence of calls the heap and the string stack are apart, and every next
call of `alloc` and `tdystak` does what it should. -/
theorem heap_and_stack_apart {mem : Memory} {brk : Nat} {t : Session} (aligned : brk % 4 = 0) (some : 0 < brk)
    (supplied : Supplied (main_start mem brk)) (run : Relation.ReflTransGen Step (start mem brk) t) :
    Apart t ∧ (∀ n, Supplied (addblok t.shell (rbytes n)) → Allocates t n) ∧ ∀ x, x < 2 ^ 32 → Tidies t x := by
  have sound : ∃ blocks, Sound t blocks := by
    induction run with
    | refl => exact start_sound aligned some supplied
    | tail _ step ih =>
      obtain ⟨blocks, sound⟩ := ih
      exact step_sound sound step
  obtain ⟨blocks, sound⟩ := sound
  exact ⟨sound_apart sound, fun n more => sound_allocates sound more, fun x small => sound_tidies sound small⟩

section more
variable {time p c : Nat} {m : Memory}

theorem coalesce_more {r : Memory × Nat} (done : coalesce time m p = some r) : coalesce (time + 1) m p = some r := by
  induction time generalizing m with
  | zero => cases done
  | succ time ih =>
    rw [coalesce] at done ⊢
    split at done
    · rwa [if_pos ‹_›]
    · rw [if_neg ‹_›]
      exact ih done

theorem inspect_more {rbytes : Nat} {r : Shell × Option Nat} (done : inspect time s p rbytes = some r) :
    inspect (time + 1) s p rbytes = some r := by
  unfold inspect at done ⊢
  split at done
  · rwa [if_pos ‹_›]
  · obtain ⟨merged, first, rest⟩ := Option.bind_eq_some_iff.mp done
    rw [if_neg ‹_›, coalesce_more first]
    exact rest

theorem search_more {rbytes : Nat} {r : Shell × Option Nat} (done : search time s p c rbytes = some r) :
    search (time + 1) s p c rbytes = some r := by
  induction time generalizing s p c with
  | zero => cases done
  | succ time ih =>
    obtain ⟨turn, first, rest⟩ := Option.bind_eq_some_iff.mp done
    rw [search, inspect_more first, Option.bind_some]
    unfold proceed at rest ⊢
    grind

theorem alloc_more {nbytes : Nat} {r : Shell × Nat} (done : alloc time s nbytes = some r) : alloc (time + 1) s nbytes = some r := by
  induction time generalizing s with
  | zero => cases done
  | succ time ih =>
    obtain ⟨found, first, rest⟩ := Option.bind_eq_some_iff.mp done
    rw [alloc, search_more first, Option.bind_some]
    unfold answer at rest ⊢
    grind

theorem uncover_more {r : Shell} (done : uncover time s x = some r) : uncover (time + 1) s x = some r := by
  induction time generalizing s with
  | zero => cases done
  | succ time ih =>
    rw [uncover] at done ⊢
    split at done
    · rw [if_pos ‹_›]
      exact ih done
    · rwa [if_neg ‹_›]

end more

/-- A block of five bytes, eight bytes of stack, a block for which the arena grows over
them, the first block freed, the stack brought back, and a byte of a string. -/
theorem heap_and_stack_apart_string : ∃ s : Shell, Relation.ReflTransGen Step (start (fun _ => 0) 4) ⟨s, [(540, 600)], []⟩ ∧
    Apart ⟨s, [(540, 600)], []⟩ := by
  have played : ((alloc 9 (main_start (fun _ => 0) 4) 5).bind fun first =>
      (alloc 30 (getstak first.1 8).1 600).bind fun second =>
        (tdystak 9 (free second.1 8) 0).map fun tidy =>
          ([first.2, second.2, (getstak first.1 8).1.staktop, (addblok (getstak first.1 8).1 (rbytes 600)).staktop, tidy.staktop],
            areasAfter (main_start (fun _ => 0) 4) first.1 [], areasAfter (getstak first.1 8).1 second.1 [])) =
      some ([8, 540, 532, 1568, 1568], [], [(524, 532)]) := by decide +kernel
  obtain ⟨⟨s₁, ap⟩, one, played⟩ := Option.bind_eq_some_iff.mp played
  obtain ⟨⟨s₂, ap'⟩, two, played⟩ := Option.bind_eq_some_iff.mp played
  obtain ⟨s₃, tidy, played⟩ := Option.map_eq_some_iff.mp played
  simp only [Prod.mk.injEq, List.cons.injEq] at played
  obtain ⟨⟨rfl, rfl, stack, larger, last, _⟩, none_, covered⟩ := played
  have alloc₁ : Step (start (fun _ => 0) 4) ⟨s₁, [(8, 5)], []⟩ := by
    have step := Step.alloc (t := start (fun _ => 0) 4) (by decide +kernel) (Ends.of_more (fun _ => alloc_more) one)
    rwa [show areasAfter (start (fun _ => 0) 4).shell s₁ (start (fun _ => 0) 4).areas = [] from none_] at step
  have getstak₂ : Step ⟨s₁, [(8, 5)], []⟩ ⟨(getstak s₁ 8).1, [(8, 5)], []⟩ := .getstak (by rw [Supplied, stack]; decide)
  have alloc₃ : Step ⟨(getstak s₁ 8).1, [(8, 5)], []⟩ ⟨s₂, [(540, 600), (8, 5)], [(524, 532)]⟩ := by
    rw [← covered]
    exact .alloc (by rw [Supplied, larger]; decide) (Ends.of_more (fun _ => alloc_more) two)
  have free₄ : Step ⟨s₂, [(540, 600), (8, 5)], [(524, 532)]⟩ ⟨free s₂ 8, [(540, 600)], [(524, 532)]⟩ := .free (n := 5) (by simp)
  have tdystak₅ : Step ⟨free s₂ 8, [(540, 600)], [(524, 532)]⟩ ⟨s₃, [(540, 600)], []⟩ := by
    refine .tdystak (x := 0) (by decide) (Ends.of_more (fun time done => ?_) tidy)
    obtain ⟨s, up, rfl⟩ := Option.map_eq_some_iff.mp done
    rw [tdystak, uncover_more up, Option.map_some]
  have pushstak₆ : Step ⟨s₃, [(540, 600)], []⟩ ⟨pushstak s₃ 65, [(540, 600)], []⟩ :=
    by
    refine .pushstak ?_
    change s₃.staktop + 1 < 2 ^ 32
    omega
  have run : Relation.ReflTransGen Step (start (fun _ => 0) 4) ⟨pushstak s₃ 65, [(540, 600)], []⟩ :=
    .tail (.tail (.tail (.tail (.tail (.single alloc₁) getstak₂) alloc₃) free₄) tdystak₅) pushstak₆
  exact ⟨_, run, (heap_and_stack_apart (by decide) (by decide) (by decide) run).1⟩

end Svr4.Proofs.BlokHistory
