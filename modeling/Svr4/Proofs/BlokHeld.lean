import Svr4.Proofs.BlokSearch

/-! The arena grows: `addblok` covers the stack in use, and puts a free block above it that
is large enough for the request. -/

namespace Svr4.Proofs.BlokHeld
open Bytes Loop Blok BlokChain BlokSearch

variable {s s' s'' : Shell} {r n ap : Nat} {block : Block} {blocks blocks' blocks'' pre post : List Block}

structure Stack (s : Shell) : Prop where
  begun : 0 < s.brkbegin
  base : s.stakbas = s.bloktop + 2 * BYTESPERWORD
  bot : s.stakbas ≤ s.stakbot
  top : s.stakbot ≤ s.staktop
  some : 0 < s.brkincr
  aligned : s.brkincr % 4 = 0

def SameString (s s' : Shell) : Prop :=
  s'.staktop - s'.stakbot = s.staktop - s.stakbot ∧ ∀ i, i < s.staktop - s.stakbot → s'.mem (s'.stakbot + i) = s.mem (s.stakbot + i)

theorem grow_top (some : 0 < s.brkincr) (aligned : s.brkincr % 4 = 0) (even : s.bloktop % 4 = 0) :
    s.bloktop + r < (grow s r).bloktop ∧ (grow s r).bloktop % 4 = 0 := by
  have more := andNot_incr r some aligned
  simp only [grow]
  omega

theorem grow_arena (aligned : s.brkbegin % 4 = 0) (laid : Laid s.mem s.brkbegin blocks s.bloktop) (some : 0 < s.brkincr)
    (incr : s.brkincr % 4 = 0) (small : (grow s r).staktop < 2 ^ 32) :
    Arena (grow s r) (blocks ++ [⟨s.bloktop, (grow s r).bloktop, false⟩]) ∧ ∀ a, a < s.bloktop → (grow s r).mem a = s.mem a := by
  have even := laid.end_aligned aligned
  obtain ⟨more, even'⟩ := grow_top (r := r) some incr even
  have low := laid.le
  obtain ⟨top, same⟩ : ∃ top, (grow s r).bloktop = top := ⟨_, rfl⟩
  have above : top + 8 ≤ (grow s r).staktop := by
    rw [← same]
    exact Nat.le_add_right ..
  have mem : ∀ a, a < top + 8 → (grow s r).mem a = ((s.mem.put s.bloktop top).put top (s.brkbegin + 1)) a := by
    intro a below
    have start : (grow s r).bloktop + 2 * BYTESPERWORD = top + 8 := congrArg (· + 8) same
    rw [← same]
    simp only [grow]
    split
    · apply Memory.copy_apart
      exact .inl (lt_of_lt_of_eq below start.symm)
    · rfl
  rw [same] at more even' ⊢
  have first : (grow s r).mem.word s.bloktop = top := by
    rw [Memory.word_congr (fun b _ _ => mem b (by omega)), Memory.word_put_apart (by omega)]
    exact Memory.word_put (by omega)
  have second : (grow s r).mem.word top = s.brkbegin + 1 := by
    rw [Memory.word_congr (fun b _ _ => mem b (by omega))]
    exact Memory.word_put (by omega)
  have below : ∀ a, a < s.bloktop → (grow s r).mem a = s.mem a := by
    intro a less
    rw [mem a (by omega), Memory.put_apart (by omega), Memory.put_apart (by omega)]
  refine ⟨⟨aligned, ?_, ?_, ?_⟩, below⟩
  · rw [same]
    apply laid_append.mpr
    exact ⟨s.bloktop, laid.frame (fun b _ high => below b high), rfl, by simp only; omega, even', first, rfl⟩
  · rw [same]
    exact second
  · omega

theorem grow_string (some : 0 < s.brkincr) (aligned : s.brkincr % 4 = 0) (even : s.bloktop % 4 = 0)
    (below : s.stakbot < s.staktop → s.staktop ≤ s.bloktop) : SameString s (grow s r) := by
  obtain ⟨more, -⟩ := grow_top (r := r) some aligned even
  have top : (grow s r).bloktop = s.bloktop + andNot (r + s.brkincr) (s.brkincr - 1) := rfl
  rw [top] at more
  refine ⟨Nat.add_sub_cancel_left .., ?_⟩
  intro i inside
  have length : s.staktop - s.stakbot ≠ 0 := by omega
  have low := below (by omega)
  simp only [grow, length, ne_eq, not_false_eq_true, if_true]
  rw [Memory.copy_inside inside, Memory.put_apart (by omega), Memory.put_apart (by omega)]

theorem grow_stack (begun : 0 < s.brkbegin) (some : 0 < s.brkincr) (aligned : s.brkincr % 4 = 0) : Stack (grow s r) :=
  ⟨begun, rfl, le_rfl, Nat.le_add_right .., some, aligned⟩

structure Grew (s s' : Shell) (blocks blocks' : List Block) (r : Nat) : Prop where
  arena : Arena s' blocks'
  stack : Stack s'
  begins : s'.brkbegin = s.brkbegin
  string : SameString s s'
  below : ∀ a, a < s.bloktop → s'.mem a = s.mem a
  room : s'.blokp + r < s'.bloktop
  covered : (s.stakbas = s.staktop ∧ s'.stakbsy = s.stakbsy ∧ blocks' = blocks ++ [⟨s'.blokp, s'.bloktop, false⟩]) ∨
    (s.stakbas ≠ s.staktop ∧ s'.stakbsy = s.stakbas - BYTESPERWORD ∧ s'.mem.word s'.stakbsy = s.stakbsy ∧ s.staktop < s'.blokp ∧
      (∀ a, s.stakbas ≤ a → a ≤ s.staktop → s'.mem a = s.mem a) ∧
      blocks' = blocks ++ [⟨s.bloktop, s'.blokp, true⟩] ++ [⟨s'.blokp, s'.bloktop, false⟩])

theorem addblok_running (running : s.stakbot ≠ 0) :
    addblok s r = grow (if s.stakbas ≠ s.staktop then cover s else s) r := by
  rw [addblok, if_neg running]

theorem addblok_plain (arena : Arena s blocks) (stack : Stack s) (empty : s.stakbas = s.staktop)
    (small : (grow s r).staktop < 2 ^ 32) : ∃ blocks', Grew s (grow s r) blocks blocks' r := by
  have even := arena.laid.end_aligned arena.aligned
  have bot := stack.bot
  obtain ⟨arena', below⟩ := grow_arena arena.aligned arena.laid stack.some stack.aligned small
  exact ⟨_, arena', grow_stack stack.begun stack.some stack.aligned, rfl,
    grow_string stack.some stack.aligned even (by omega), below, (grow_top stack.some stack.aligned even).1,
    .inl ⟨empty, rfl, rfl⟩⟩

theorem addblok_cover (arena : Arena s blocks) (stack : Stack s) (used : s.stakbas ≠ s.staktop)
    (chain : s.stakbsy < 2 ^ 32) (small : (grow (cover s) r).staktop < 2 ^ 32) :
    ∃ blocks', Grew s (grow (cover s) r) blocks blocks' r := by
  have even := arena.laid.end_aligned arena.aligned
  have low := arena.laid.le
  have base : s.stakbas = s.bloktop + 8 := stack.base
  have bot := stack.bot
  have top := stack.top
  obtain ⟨rnd, same⟩ : ∃ rnd, round (s.staktop + 1) = rnd := ⟨_, rfl⟩
  have bounds := round_bounds (s.staktop + 1)
  rw [same] at bounds
  have even' : (cover s).bloktop % 4 = 0 := by
    simp only [cover, same]
    omega
  have incr := (grow_top (s := cover s) (r := r) stack.some stack.aligned even').1
  have fits : (grow (cover s) r).bloktop ≤ (grow (cover s) r).staktop := by
    simp only [grow]
    omega
  have at_rnd : (cover s).bloktop = rnd := same
  have mem : (cover s).mem = (s.mem.put (s.bloktop + 4) s.stakbsy).put s.bloktop (rnd + 1) := by
    simp only [cover, same, base, BYTESPERWORD, or_busy bounds.2.2]
    rfl
  have outside : ∀ a, a < s.bloktop ∨ s.bloktop + 8 ≤ a → (cover s).mem a = s.mem a := by
    intro a apart
    rw [mem, Memory.put_apart (by omega), Memory.put_apart (by omega)]
  have laid : Laid (cover s).mem s.brkbegin (blocks ++ [⟨s.bloktop, rnd, true⟩]) (cover s).bloktop := by
    apply laid_append.mpr
    refine ⟨s.bloktop, arena.laid.frame (fun b _ high => outside b (.inl high)), rfl, by simp only; omega, bounds.2.2, ?_,
      same.symm⟩
    rw [mem]
    exact Memory.word_put (by omega)
  have link : (cover s).mem.word (s.bloktop + 4) = s.stakbsy := by
    rw [mem, Memory.word_put_apart (by omega)]
    exact Memory.word_put chain
  obtain ⟨arena', below⟩ := grow_arena (s := cover s) arena.aligned laid stack.some stack.aligned small
  rw [at_rnd] at below
  have string : SameString s (cover s) := by
    refine ⟨rfl, fun i inside => ?_⟩
    show (cover s).mem (s.stakbot + i) = s.mem (s.stakbot + i)
    exact outside _ (.inr (by omega))
  have string' : SameString (cover s) (grow (cover s) r) :=
    grow_string (s := cover s) stack.some stack.aligned even' (fun _ => by rw [at_rnd]; show s.staktop ≤ rnd; omega)
  refine ⟨_, arena', grow_stack stack.begun stack.some stack.aligned, rfl, ?_, ?_, incr, .inr ⟨used, rfl, ?_, ?_, ?_, ?_⟩⟩
  · refine ⟨string'.1.trans string.1, fun i inside => ?_⟩
    exact (string'.2 i inside).trans (string.2 i inside)
  · intro a less
    rw [below a (by omega)]
    exact outside a (.inl less)
  · show (grow (cover s) r).mem.word (s.stakbas - 4) = s.stakbsy
    rw [← link, base]
    apply Memory.word_congr
    intro b _ _
    exact below b (by omega)
  · show s.staktop < (cover s).bloktop
    omega
  · intro a first last
    rw [below a (by omega)]
    exact outside a (.inr (by omega))
  · have blokp : (grow (cover s) r).blokp = rnd := at_rnd
    rw [at_rnd, blokp]

theorem addblok_grew (arena : Arena s blocks) (stack : Stack s) (chain : s.stakbsy < 2 ^ 32)
    (small : (addblok s r).staktop < 2 ^ 32) : ∃ blocks', Grew s (addblok s r) blocks blocks' r := by
  have base := stack.base
  have bot := stack.bot
  have running : s.stakbot ≠ 0 := by
    simp only [BYTESPERWORD] at base
    omega
  by_cases used : s.stakbas = s.staktop
  · have plain : addblok s r = grow s r := by rw [addblok_running running, if_neg (not_not.mpr used)]
    rw [plain] at small ⊢
    exact addblok_plain arena stack used small
  · have covered : addblok s r = grow (cover s) r := by rw [addblok_running running, if_pos used]
    rw [covered] at small ⊢
    exact addblok_cover arena stack used chain small

end Svr4.Proofs.BlokHeld

/-! Who holds the busy blocks: the callers of `alloc`, and the stack areas that the heap has
covered. What the allocators do keeps them apart. -/

namespace Svr4.Proofs.BlokHeld
open Bytes Loop Blok BlokChain BlokSearch

variable {s s' s'' : Shell} {r n ap x : Nat} {block : Block} {blocks blocks' blocks'' : List Block}
  {live live' areas areas' : List (Nat × Nat)}

def Busies (m : Memory) : Nat → List Nat → Prop
  | p, [] => p = 0
  | p, b :: rest => p = b ∧ Busies m (m.word b) rest

/-- An area is given by what `stakbas` and `staktop` were when it was covered. -/
def blokstaks (areas : List (Nat × Nat)) : List Nat := areas.map (fun area => area.1 - BYTESPERWORD)

structure Held (s : Shell) (live areas : List (Nat × Nat)) (blocks : List Block) : Prop where
  arena : Arena s blocks
  stack : Stack s
  small : s.staktop < 2 ^ 32
  chain : Busies s.mem s.stakbsy (blokstaks areas)
  falling : areas.Pairwise (fun above below => above.1 > below.1)
  distinct : (live.map (·.1) ++ blokstaks areas).Nodup
  lives : ∀ held ∈ live, ∃ block ∈ taken blocks, block.start + 4 = held.1 ∧ held.1 + held.2 ≤ block.stop
  covers : ∀ area ∈ areas, ∃ block ∈ taken blocks, block.start + 8 = area.1 ∧ area.1 ≤ area.2 ∧ area.2 < block.stop

theorem Busies.congr {m m' : Memory} {p : Nat} {list : List Nat} (chain : Busies m p list) (same : ∀ b ∈ list, m'.word b = m.word b) :
    Busies m' p list := by
  induction list generalizing p with
  | nil => exact chain
  | cons b rest ih =>
    refine ⟨chain.1, ?_⟩
    rw [same b (by simp)]
    exact ih chain.2 (fun c member => same c (by simp [member]))

section
variable (held : Held s live areas blocks)
include held

theorem Held.link_inside {b : Nat} (member : b ∈ blokstaks areas) :
    ∃ block ∈ taken blocks, b = block.start + 4 ∧ b + 4 < block.stop := by
  obtain ⟨area, inside, rfl⟩ := List.mem_map.mp member
  obtain ⟨block, among, start, low, high⟩ := held.covers area inside
  refine ⟨block, among, ?_, ?_⟩
  · simp only [BYTESPERWORD]
    omega
  · simp only [BYTESPERWORD]
    omega

theorem Held.stakbsy_small : s.stakbsy < 2 ^ 32 := by
  have chain := held.chain
  cases areas with
  | nil =>
    rw [show s.stakbsy = 0 from chain]
    decide
  | cons area areas =>
    obtain ⟨block, among, start, room⟩ := held.link_inside (b := s.stakbsy) (by rw [chain.1]; simp [blokstaks])
    have within := held.arena.laid.within (mem_taken.mp among).1
    have high := within.high
    have small := held.arena.small
    omega

theorem Held.untouched (arena : Arena s' blocks') (same : s' = { s with mem := s'.mem, blokp := s'.blokp })
    (kept : ∀ block ∈ taken blocks, block ∈ taken blocks') (untouched : Untouched s s' blocks) : Held s' live areas blocks' := by
  have stack : Stack s' := by
    rw [same]
    exact { held.stack with }
  have stakbsy : s'.stakbsy = s.stakbsy := congrArg (·.stakbsy) same
  have staktop : s'.staktop = s.staktop := congrArg (·.staktop) same
  refine ⟨arena, stack, staktop ▸ held.small, ?_, held.falling, held.distinct, ?_, ?_⟩
  · rw [stakbsy]
    apply held.chain.congr
    intro b member
    obtain ⟨block, among, rfl, room⟩ := held.link_inside member
    apply Memory.word_congr
    intro c first last
    exact untouched.inside block among c (by omega) (by omega)
  · intro one member
    obtain ⟨block, among, start, room⟩ := held.lives one member
    exact ⟨block, kept block among, start, room⟩
  · intro area member
    obtain ⟨block, among, start, low, high⟩ := held.covers area member
    exact ⟨block, kept block among, start, low, high⟩

theorem Held.merged (merged : Merged s s' blocks blocks') : Held s' live areas blocks' := by
  have same : s' = { s with mem := s'.mem, blokp := s'.blokp } := by
    rw [merged.same]
  exact held.untouched merged.arena same (fun block member => merged.taken ▸ member) merged.untouched

theorem Held.took (took : Took s s' blocks blocks' r ap) (size : n + 4 ≤ r) :
    Held s' ((ap, n) :: live) areas blocks' := by
  obtain ⟨pre, post, old, new⟩ := took.added
  have kept : ∀ block ∈ taken blocks, block ∈ taken blocks' := by
    intro block member
    rw [old] at member
    rw [new]
    rcases List.mem_append.mp member with first | second
    · exact List.mem_append_left _ first
    · exact List.mem_append_right _ (List.mem_cons_of_mem _ second)
  have rest := held.untouched took.arena took.same kept took.untouched
  have room := took.room
  -- the busy blocks are apart, so no holder of another one has this address
  have apart : ∀ block ∈ taken blocks, block.start + 4 ≠ ap := by
    intro block member
    have order : (taken blocks').Pairwise (fun b c => b.stop ≤ c.start) := took.arena.laid.apart.sublist List.filter_sublist
    rw [new] at order
    have order := List.pairwise_append.mp order
    have within := rest.arena.laid.within (mem_taken.mp (kept block member)).1
    have wide := within.room
    rw [old] at member
    rcases List.mem_append.mp member with first | second
    · have below := order.2.2 block first ⟨ap - 4, ap - 4 + r, true⟩ (by simp)
      simp only at below
      omega
    · have above := (List.pairwise_cons.mp order.2.1).1 block second
      simp only at above
      omega
  refine { rest with distinct := ?_, lives := ?_ }
  · rw [List.map_cons, List.cons_append]
    apply List.nodup_cons.mpr
    refine ⟨?_, held.distinct⟩
    intro member
    rcases List.mem_append.mp member with first | second
    · obtain ⟨one, inside, same⟩ := List.mem_map.mp first
      obtain ⟨block, among, start, -⟩ := held.lives one inside
      exact apart block among (start.trans same)
    · obtain ⟨block, among, start, -⟩ := held.link_inside second
      exact apart block among start.symm
  · intro one member
    rcases List.mem_cons.mp member with rfl | inside
    · refine ⟨⟨ap - 4, ap - 4 + r, true⟩, ?_, Nat.sub_add_cancel room, show ap + n ≤ ap - 4 + r by omega⟩
      rw [new]
      simp
    · exact rest.lives one inside

end

def areasAfter (s s' : Shell) (areas : List (Nat × Nat)) : List (Nat × Nat) :=
  if s'.stakbsy = s.stakbsy then areas else (s.stakbas, s.staktop) :: areas

section
variable (held : Held s live areas blocks)
include held

theorem Held.inside (member : block ∈ taken blocks) :
    block.start + 4 ≤ block.stop ∧ block.stop ≤ s.bloktop := by
  have within := held.arena.laid.within (mem_taken.mp member).1
  exact ⟨within.room, within.high⟩

theorem Held.links_below {b : Nat} (member : b ∈ blokstaks areas) :
    b < s.stakbas - BYTESPERWORD := by
  obtain ⟨block, among, rfl, room⟩ := held.link_inside member
  have high := (held.inside among).2
  have base : s.stakbas = s.bloktop + 8 := held.stack.base
  simp only [BYTESPERWORD]
  omega

theorem Held.fresh (covered : s'.stakbsy = s.stakbas - BYTESPERWORD) :
    areasAfter s s' areas = (s.stakbas, s.staktop) :: areas := by
  apply if_neg
  rw [covered]
  intro equal
  have chain := held.chain
  cases areas with
  | nil =>
    have base : s.stakbas = s.bloktop + 8 := held.stack.base
    have zero : s.stakbsy = 0 := chain
    simp only [BYTESPERWORD] at equal
    omega
  | cons area areas =>
    have less := held.links_below (b := s.stakbsy) (by rw [chain.1]; simp [blokstaks])
    omega

theorem Held.grew (grew : Grew s s' blocks blocks' r) (small : s'.staktop < 2 ^ 32) :
    Held s' live (areasAfter s s' areas) blocks' := by
  have base : s.stakbas = s.bloktop + 8 := held.stack.base
  have bot := held.stack.bot
  have top := held.stack.top
  have chain : Busies s'.mem s.stakbsy (blokstaks areas) := by
    apply held.chain.congr
    intro b member
    obtain ⟨block, among, rfl, room⟩ := held.link_inside member
    have high := (held.inside among).2
    apply Memory.word_congr
    intro c first last
    exact grew.below c (by omega)
  have lives : ∀ kept, taken blocks' = taken blocks ++ kept →
      ∀ one ∈ live, ∃ block ∈ taken blocks', block.start + 4 = one.1 ∧ one.1 + one.2 ≤ block.stop := by
    intro kept same one member
    obtain ⟨block, among, start, room⟩ := held.lives one member
    exact ⟨block, by rw [same]; exact List.mem_append_left _ among, start, room⟩
  have covers : ∀ kept, taken blocks' = taken blocks ++ kept →
      ∀ area ∈ areas, ∃ block ∈ taken blocks', block.start + 8 = area.1 ∧ area.1 ≤ area.2 ∧ area.2 < block.stop := by
    intro kept same area member
    obtain ⟨block, among, start, low, high⟩ := held.covers area member
    exact ⟨block, by rw [same]; exact List.mem_append_left _ among, start, low, high⟩
  rcases grew.covered with ⟨empty, plain, more⟩ | ⟨used, stakbsy, link, above, kept, more⟩
  · have same : taken blocks' = taken blocks ++ [] := by rw [more, taken_append]; rfl
    rw [areasAfter, if_pos plain]
    exact ⟨grew.arena, grew.stack, small, plain ▸ chain, held.falling, held.distinct, lives _ same, covers _ same⟩
  · have same : taken blocks' = taken blocks ++ [⟨s.bloktop, s'.blokp, true⟩] := by
      rw [more, taken_append, taken_append]
      simp [taken]
    rw [held.fresh stakbsy]
    refine ⟨grew.arena, grew.stack, small, ?_, ?_, ?_, lives _ same, ?_⟩
    · refine ⟨stakbsy, ?_⟩
      show Busies s'.mem (s'.mem.word (s.stakbas - BYTESPERWORD)) (blokstaks areas)
      rw [← stakbsy, link]
      exact chain
    · refine .cons ?_ held.falling
      intro area member
      obtain ⟨block, among, start, low, high⟩ := held.covers area member
      have within := held.inside among
      show area.1 < s.stakbas
      omega
    · show (live.map (·.1) ++ (s.stakbas - BYTESPERWORD) :: blokstaks areas).Nodup
      apply List.nodup_middle.mpr
      apply List.nodup_cons.mpr
      refine ⟨?_, held.distinct⟩
      intro member
      rcases List.mem_append.mp member with first | second
      · obtain ⟨one, among, start⟩ := List.mem_map.mp first
        obtain ⟨block, among, start', room⟩ := held.lives one among
        have high := (held.inside among).2
        have within := (held.arena.laid.within (mem_taken.mp among).1).room
        simp only [BYTESPERWORD] at start
        omega
      · exact absurd (held.links_below second) (lt_irrefl _)
    · intro area member
      rcases List.mem_cons.mp member with rfl | old
      · refine ⟨⟨s.bloktop, s'.blokp, true⟩, ?_, base.symm, bot.trans top, above⟩
        rw [same]
        simp
      · exact covers _ same area old

end

def released (p : Nat) (blocks : List Block) : List Block :=
  blocks.map (fun block => if block.start + 4 = p then { block with busy := false } else block)

theorem released_start (p : Nat) (blocks : List Block) : (released p blocks).map (·.start) = blocks.map (·.start) := by
  rw [released, List.map_map]
  apply List.map_congr_left
  intro block _
  simp only [Function.comp_apply]
  split <;> rfl

theorem mem_released {p : Nat} : block ∈ taken (released p blocks) ↔ block ∈ taken blocks ∧ block.start + 4 ≠ p := by
  rw [mem_taken, mem_taken, released, List.mem_map]
  constructor
  · rintro ⟨⟨old, inside, rfl⟩, busy⟩
    split at busy
    · cases busy
    case isFalse other =>
      rw [if_neg other]
      exact ⟨⟨inside, busy⟩, other⟩
  · intro ⟨⟨inside, busy⟩, other⟩
    exact ⟨⟨block, inside, if_neg other⟩, busy⟩

theorem free_arena (arena : Arena s blocks) (member : block ∈ blocks) (low : block.start + 4 < s.bloktop) :
    Arena (free s (block.start + 4)) (released (block.start + 4) blocks) ∧
      ∀ a, a < block.start ∨ block.start + 4 ≤ a → (free s (block.start + 4)).mem a = s.mem a := by
  have within := arena.laid.within member
  have start := within.low
  have room := within.room
  have high := within.high
  have small := arena.small
  have clear : andNot (s.mem.word block.start) BUSY = block.stop := following_link within.aligned within.word
  have mem : (free s (block.start + 4)).mem = s.mem.put block.start block.stop := by
    rw [free, if_pos ⟨by omega, low, by omega⟩, ← clear]
    rfl
  have shell : (free s (block.start + 4)).bloktop = s.bloktop ∧ (free s (block.start + 4)).brkbegin = s.brkbegin := by
    rw [free]
    split <;> exact ⟨rfl, rfl⟩
  refine ⟨⟨?_, ?_, ?_, ?_⟩, ?_⟩
  · rw [shell.2]
    exact arena.aligned
  · rw [shell.1, shell.2, mem]
    apply arena.laid.relabel (fun c => if c.start + 4 = block.start + 4 then { c with busy := false } else c)
    · intro c
      split <;> rfl
    · intro c
      split <;> rfl
    · intro c inside
      have other := arena.laid.within inside
      by_cases same : c.start + 4 = block.start + 4
      · have equal : c.stop = block.stop := by
          rcases arena.laid.separate inside member with rfl | before | after
          · rfl
          · have := other.room
            omega
          · omega
        have place : c.start = block.start := by omega
        rw [if_pos same, place, Memory.word_put (by omega), Block.link, equal]
        rfl
      · rw [if_neg same, ← other.word]
        apply Memory.word_put_apart
        have := other.room
        rcases arena.laid.separate inside member with rfl | before | after
        · exact absurd rfl same
        · omega
        · omega
  · rw [shell.1, shell.2, mem, Memory.word_put_apart (by omega)]
    exact arena.top
  · rw [shell.1]
    exact small
  · intro a apart
    rw [mem]
    exact Memory.put_apart apart

theorem free_same (s : Shell) (ap : Nat) : free s ap = { s with mem := (free s ap).mem } := by
  rw [free]
  split <;> rfl

theorem Held.released (held : Held s live areas blocks) (member : block ∈ taken blocks) (low : block.start + 4 < s.bloktop)
    (few : live'.Sublist live) (suffix : areas'.Sublist areas)
    (gone : ∀ p ∈ live'.map (·.1) ++ blokstaks areas', p ≠ block.start + 4)
    (link : Busies s.mem x (blokstaks areas')) :
    Held { free s (block.start + 4) with stakbsy := x } live' areas' (released (block.start + 4) blocks) := by
  obtain ⟨arena, frame⟩ := free_arena held.arena (mem_taken.mp member).1 low
  have same := free_same s (block.start + 4)
  have links : (blokstaks areas').Sublist (blokstaks areas) := suffix.map _
  have distinct := held.distinct.sublist (List.Sublist.append (few.map (·.1)) links)
  refine ⟨{ arena with }, ?_, ?_, ?_, held.falling.sublist suffix, distinct, ?_, ?_⟩
  · rw [same]
    exact { held.stack with }
  · rw [same]
    exact held.small
  · apply link.congr
    intro b inside
    obtain ⟨area, among, rfl⟩ := List.mem_map.mp inside
    obtain ⟨c, there, start, room⟩ := held.link_inside (List.mem_map.mpr ⟨area, suffix.subset among, rfl⟩)
    have other : c.start ≠ block.start := by
      intro equal
      apply gone (area.1 - BYTESPERWORD) (List.mem_append_right _ inside)
      rw [start, equal]
    have wide := (held.arena.laid.within (mem_taken.mp member).1).room
    apply Memory.word_congr
    intro a first last
    apply frame
    rcases held.arena.laid.separate (mem_taken.mp there).1 (mem_taken.mp member).1 with rfl | before | after
    · exact absurd rfl other
    · omega
    · omega
  · intro one inside
    obtain ⟨c, there, start, room⟩ := held.lives one (few.subset inside)
    refine ⟨c, mem_released.mpr ⟨there, ?_⟩, start, room⟩
    rw [start]
    exact gone one.1 (List.mem_append_left _ (List.mem_map_of_mem inside))
  · intro area inside
    obtain ⟨c, there, start, low, high⟩ := held.covers area (suffix.subset inside)
    refine ⟨c, mem_released.mpr ⟨there, ?_⟩, start, low, high⟩
    have other := gone (area.1 - BYTESPERWORD) (List.mem_append_right _ (List.mem_map_of_mem inside))
    simp only [BYTESPERWORD] at other
    omega

def Mine (s : Shell) (live areas : List (Nat × Nat)) (a : Nat) : Prop :=
  (∃ one ∈ live, one.1 ≤ a ∧ a < one.1 + one.2) ∨ (∃ area ∈ areas, area.1 ≤ a ∧ a < area.2) ∨ s.stakbas ≤ a

theorem Held.mine_apart (held : Held s live areas blocks) {a : Nat} (mine : Mine s live areas a) (member : block ∈ blocks) :
    a < block.start ∨ block.start + 4 ≤ a := by
  have within := held.arena.laid.within member
  have high := within.high
  have wide := within.room
  have holder : ∀ c ∈ taken blocks, c.start + 4 ≤ a → a < c.stop → a < block.start ∨ block.start + 4 ≤ a := by
    intro c among low high
    rcases held.arena.laid.separate (mem_taken.mp among).1 member with rfl | before | after
    · exact .inr low
    · exact .inl (by omega)
    · exact .inr (by omega)
  rcases mine with ⟨one, inside, low, high⟩ | ⟨area, inside, low, high⟩ | low
  · obtain ⟨c, among, start, room⟩ := held.lives one inside
    exact holder c among (by omega) (by omega)
  · obtain ⟨c, among, start, first, last⟩ := held.covers area inside
    exact holder c among (by omega) (by omega)
  · have base : s.stakbas = s.bloktop + 8 := held.stack.base
    omega

theorem Held.mine_apart_link (held : Held s live areas blocks) {a b : Nat} (mine : Mine s live areas a)
    (member : b ∈ blokstaks areas) : a < b ∨ b + 4 ≤ a := by
  obtain ⟨block, there, place, room⟩ := held.link_inside member
  have range := held.inside there
  rcases mine with ⟨one, inside, low, high⟩ | ⟨area, inside, low, high⟩ | low
  · obtain ⟨c, among, start, room⟩ := held.lives one inside
    rcases held.arena.laid.separate (mem_taken.mp among).1 (mem_taken.mp there).1 with rfl | before | after
    · have apart := (List.nodup_append.mp held.distinct).2.2 one.1 (List.mem_map_of_mem inside) b member
      omega
    · omega
    · omega
  · obtain ⟨c, among, start, first, last⟩ := held.covers area inside
    rcases held.arena.laid.separate (mem_taken.mp among).1 (mem_taken.mp there).1 with rfl | before | after
    · omega
    · omega
    · omega
  · have base : s.stakbas = s.bloktop + 8 := held.stack.base
    omega

theorem Held.store (held : Held s live areas blocks) (same : s' = { s with
      mem := s'.mem, brkincr := s'.brkincr, stakbot := s'.stakbot, staktop := s'.staktop })
    (stack : Stack s') (small : s'.staktop < 2 ^ 32) (frame : ∀ a, s'.mem a ≠ s.mem a → Mine s live areas a) :
    Held s' live areas blocks := by
  have brkbegin : s'.brkbegin = s.brkbegin := congrArg (·.brkbegin) same
  have bloktop : s'.bloktop = s.bloktop := congrArg (·.bloktop) same
  have stakbsy : s'.stakbsy = s.stakbsy := congrArg (·.stakbsy) same
  have kept : ∀ p, (∀ a, Mine s live areas a → a < p ∨ p + 4 ≤ a) → s'.mem.word p = s.mem.word p := by
    intro p apart
    apply Memory.word_congr
    intro b first last
    by_contra changed
    have := apart b (frame b changed)
    omega
  refine ⟨⟨?_, ?_, ?_, ?_⟩, stack, small, ?_, held.falling, held.distinct, held.lives, held.covers⟩
  · rw [brkbegin]
    exact held.arena.aligned
  · rw [brkbegin, bloktop]
    apply held.arena.laid.congr
    intro block member
    exact kept _ (fun a mine => held.mine_apart mine member)
  · rw [brkbegin, bloktop, ← held.arena.top]
    apply kept
    intro a mine
    rcases mine with ⟨one, inside, low, high⟩ | ⟨area, inside, low, high⟩ | low
    · obtain ⟨c, among, start, room⟩ := held.lives one inside
      have high := (held.inside among).2
      exact .inl (by omega)
    · obtain ⟨c, among, start, first, last⟩ := held.covers area inside
      have high := (held.inside among).2
      exact .inl (by omega)
    · have base : s.stakbas = s.bloktop + 8 := held.stack.base
      exact .inr (by omega)
  · rw [bloktop]
    exact held.arena.small
  · rw [stakbsy]
    exact held.chain.congr (fun b member => kept b (fun a mine => held.mine_apart_link mine member))

end Svr4.Proofs.BlokHeld
