import Svr4.Library.Loop
import Svr4.Blok

/-! The blocks of the heap laid end to end, and the free ones of them that `coalesce` makes
one. -/

namespace Svr4.Proofs.BlokChain
open Bytes Loop Blok

variable {m m' : Memory} {s s' : Shell} {a b p q r top mid w n : Nat}

theorem andNot_busy (a : Nat) : andNot a BUSY = a - a % 2 := by
  rw [andNot, BUSY, Nat.and_one_is_mod]

theorem round_eq (a : Nat) : round a = (a + 3) - (a + 3) % 4 := by
  have low : (a + 3) &&& (2 ^ 2 - 1) = (a + 3) % 2 ^ 2 := Nat.and_two_pow_sub_one_eq_mod ..
  exact congrArg (a + 3 - ·) low

theorem round_bounds (a : Nat) : a ≤ round a ∧ round a ≤ a + 3 ∧ round a % 4 = 0 := by
  rw [round_eq]
  omega

theorem or_busy (even : w % 4 = 0) : w ||| BUSY = w + 1 := by
  obtain ⟨k, rfl⟩ := Nat.dvd_of_mod_eq_zero even
  have whole := Nat.two_pow_add_eq_or_of_lt (show 1 < 2 ^ 2 by decide) k
  exact whole.symm

theorem andNot_incr (reqd : Nat) {incr : Nat} (some_ : 0 < incr) (aligned : incr % 4 = 0) :
    reqd < andNot (reqd + incr) (incr - 1) ∧ andNot (reqd + incr) (incr - 1) % 4 = 0 := by
  have less : (reqd + incr) &&& (incr - 1) ≤ incr - 1 := Nat.and_le_right
  have low : ((reqd + incr) &&& (incr - 1)) % 4 = (reqd + incr) % 4 := by
    have three : (incr - 1) % 2 ^ 2 = 2 ^ 2 - 1 := by omega
    rw [show 4 = 2 ^ 2 from rfl, Nat.and_mod_two_pow, three, Nat.and_two_pow_sub_one_eq_mod, Nat.mod_mod]
  rw [andNot]
  omega

structure Block where
  start : Nat
  stop : Nat
  busy : Bool
  deriving DecidableEq

def Block.link (block : Block) : Nat := block.stop + block.busy.toNat

def Laid (m : Memory) : Nat → List Block → Nat → Prop
  | a, [], top => a = top
  | a, block :: rest, top =>
    block.start = a ∧ block.start + 4 ≤ block.stop ∧ block.stop % 4 = 0 ∧ m.word a = block.link ∧ Laid m block.stop rest top

variable {block : Block} {blocks pre post rest : List Block}

theorem laid_append : Laid m a (pre ++ post) top ↔ ∃ mid, Laid m a pre mid ∧ Laid m mid post top := by
  induction pre generalizing a with
  | nil =>
    constructor
    · intro laid
      exact ⟨a, rfl, laid⟩
    · intro ⟨mid, same, laid⟩
      cases same
      exact laid
  | cons first pre ih =>
    simp only [List.cons_append, Laid, ih]
    constructor
    · intro ⟨start, room, aligned, word, mid, before, after⟩
      exact ⟨mid, ⟨start, room, aligned, word, before⟩, after⟩
    · intro ⟨mid, ⟨start, room, aligned, word, before⟩, after⟩
      exact ⟨start, room, aligned, word, mid, before, after⟩

theorem Laid.le (laid : Laid m a blocks top) : a ≤ top := by
  induction blocks generalizing a with
  | nil => exact le_of_eq laid
  | cons first blocks ih =>
    have after := ih laid.2.2.2.2
    have start := laid.1
    have room := laid.2.1
    omega

structure Within (m : Memory) (a top : Nat) (block : Block) : Prop where
  low : a ≤ block.start
  room : block.start + 4 ≤ block.stop
  high : block.stop ≤ top
  aligned : block.stop % 4 = 0
  word : m.word block.start = block.link

section
variable (laid : Laid m a blocks top)
include laid

theorem Laid.within (member : block ∈ blocks) : Within m a top block := by
  induction blocks generalizing a with
  | nil => cases member
  | cons first blocks ih =>
    obtain ⟨start, room, aligned, word, rest⟩ := laid
    rcases List.mem_cons.mp member with rfl | inside
    · exact ⟨start.ge, room, rest.le, aligned, start ▸ word⟩
    · have within := ih rest inside
      exact { within with low := by have := within.low; omega }

theorem Laid.apart : blocks.Pairwise (fun b c => b.stop ≤ c.start) := by
  induction blocks generalizing a with
  | nil => exact .nil
  | cons first blocks ih =>
    have rest := laid.2.2.2.2
    exact .cons (fun c member => (rest.within member).low) (ih rest)

theorem Laid.separate {b c : Block} (first : b ∈ blocks) (second : c ∈ blocks) :
    b = c ∨ b.stop ≤ c.start ∨ c.stop ≤ b.start := by
  refine List.Pairwise.forall_of_forall_of_flip (R := fun b c => b = c ∨ b.stop ≤ c.start ∨ c.stop ≤ b.start)
    (fun _ _ => .inl rfl) ?_ ?_ first second
  · exact laid.apart.imp (fun apart => .inr (.inl apart))
  · exact laid.apart.imp (fun apart => .inr (.inr apart))

theorem Laid.relabel (f : Block → Block) (start : ∀ b, (f b).start = b.start)
    (stop : ∀ b, (f b).stop = b.stop) (word : ∀ b ∈ blocks, m'.word b.start = (f b).link) : Laid m' a (blocks.map f) top := by
  induction blocks generalizing a with
  | nil => exact laid
  | cons first blocks ih =>
    obtain ⟨rfl, room, aligned, -, rest⟩ := laid
    refine ⟨start first, ?_, ?_, word first (by simp), ?_⟩
    · rw [start, stop]
      exact room
    · rw [stop]
      exact aligned
    · rw [stop]
      exact ih rest (fun b member => word b (by simp [member]))

theorem Laid.congr (same : ∀ block ∈ blocks, m'.word block.start = m.word block.start) :
    Laid m' a blocks top := by
  induction blocks generalizing a with
  | nil => exact laid
  | cons first blocks ih =>
    obtain ⟨start, room, aligned, word, rest⟩ := laid
    refine ⟨start, room, aligned, ?_, ih rest (fun block member => same block (by simp [member]))⟩
    rw [← word, ← start]
    exact same first (by simp)

theorem Laid.frame (same : ∀ b, a ≤ b → b < top → m' b = m b) : Laid m' a blocks top := by
  apply laid.congr
  intro block member
  have within := laid.within member
  apply Memory.word_congr
  intro b first last
  have low := within.low
  have room := within.room
  have high := within.high
  exact same b (by omega) (by omega)

theorem Laid.end_aligned (aligned : a % 4 = 0) : top % 4 = 0 := by
  induction blocks generalizing a with
  | nil => exact laid ▸ aligned
  | cons first blocks ih => exact ih laid.2.2.2.2 laid.2.2.1

end

theorem Laid.start (laid : Laid m a (block :: rest) top) : block.start = a := laid.1

theorem busy_link (aligned : block.stop % 4 = 0) (word : m.word p = block.link) : busy m p = block.busy := by
  rw [busy, word, BUSY, Nat.and_one_is_mod, Block.link]
  cases block.busy with
  | false => simp; omega
  | true => simp; omega

theorem following_link (aligned : block.stop % 4 = 0) (word : m.word p = block.link) : following m p = block.stop := by
  rw [following, andNot_busy, word, Block.link]
  cases block.busy with
  | false => simp; omega
  | true => simp; omega

theorem busy_of_word (word : m.word p = a + 1) (aligned : a % 4 = 0) : busy m p = true :=
  @busy_link m p ⟨p, a, true⟩ aligned word

theorem following_of_word (word : m.word p = a + 1) (aligned : a % 4 = 0) : following m p = a :=
  @following_link m p ⟨p, a, true⟩ aligned word

theorem coalesce_ends (laid : Laid m p (block :: rest) top) (free : block.busy = false) (stop : busy m top = true)
    (small : top < 2 ^ 32) : ∃ m' q gone rest', Ends (fun time => coalesce time m p) (m', q) ∧ rest = gone ++ rest' ∧
      (∀ c ∈ gone, c.busy = false) ∧ Laid m' p (⟨p, q, false⟩ :: rest') top ∧ ∀ a, a < p ∨ p + 4 ≤ a → m' a = m a := by
  induction rest generalizing m block with
  | nil =>
    obtain ⟨rfl, room, aligned, word, rfl⟩ := laid
    have link : m.word block.start = block.stop := by rw [word, Block.link, free]; rfl
    refine ⟨m, block.stop, [], [], ?_, rfl, nofun, ⟨rfl, room, aligned, link, rfl⟩, fun _ _ => rfl⟩
    apply Ends.stop
    intro time
    simp only [coalesce, link, stop, if_true]
  | cons next rest ih =>
    obtain ⟨rfl, room, aligned, word, after⟩ := laid
    have link : m.word block.start = block.stop := by rw [word, Block.link, free]; rfl
    obtain ⟨start, room', aligned', word', after'⟩ := after
    cases busy : next.busy with
    | true =>
      refine ⟨m, block.stop, [], next :: rest, ?_, rfl, nofun, ⟨rfl, room, aligned, link, start, room', aligned', word', after'⟩,
        fun _ _ => rfl⟩
      apply Ends.stop
      intro time
      simp only [coalesce, link, busy_link aligned' word', busy, if_true]
    | false =>
      have link' : m.word block.stop = next.stop := by rw [word', Block.link, busy]; rfl
      have high := after'.le
      have longer : Laid (m.put block.start next.stop) block.start (⟨block.start, next.stop, false⟩ :: rest) top := by
        refine ⟨rfl, by simp only; omega, aligned', Memory.word_put (by omega), ?_⟩
        apply after'.frame
        intro b low _
        exact Memory.put_apart (by omega)
      have stop' : Blok.busy (m.put block.start next.stop) top = true := by
        rw [Blok.busy, Memory.word_put_apart (by omega)]
        exact stop
      obtain ⟨m', q, gone, rest', ends, rfl, spare, laid, frame⟩ := ih longer rfl stop'
      refine ⟨m', q, next :: gone, rest', ?_, rfl, ?_, laid, ?_⟩
      · apply ends.turn
        intro time
        simp only [coalesce, link, busy_link aligned' word', busy, link', Bool.false_eq_true, if_false]
      · intro c member
        rcases List.mem_cons.mp member with rfl | inside
        · exact busy
        · exact spare c inside
      · intro a apart
        rw [frame a apart]
        exact Memory.put_apart apart

theorem Laid.chain (laid : Laid m a blocks top) :
    (blocks.map (·.start) ++ [top]).IsChain (fun p q => following m p = q ∧ p < q) ∧
      (blocks.map (·.start) ++ [top]).head? = some a := by
  induction blocks generalizing a with
  | nil =>
    obtain rfl := laid
    exact ⟨.singleton a, rfl⟩
  | cons first blocks ih =>
    obtain ⟨rfl, room, aligned, word, rest⟩ := laid
    obtain ⟨links, head⟩ := ih rest
    refine ⟨?_, rfl⟩
    apply List.isChain_cons.mpr
    refine ⟨fun next same => ?_, links⟩
    obtain rfl := Option.some.inj (head.symm.trans same)
    exact ⟨following_link aligned word, show first.start < first.stop by omega⟩

end Svr4.Proofs.BlokChain

/-! The search of `alloc`: whatever it merges on its way, the busy blocks stay as they are,
and it ends with a block that will do or after the whole circle. -/

namespace Svr4.Proofs.BlokSearch
open Bytes Loop Blok BlokChain

variable {s s' s'' : Shell} {c p q r time : Nat} {block : Block} {blocks blocks' blocks'' pre post : List Block}

structure Arena (s : Shell) (blocks : List Block) : Prop where
  aligned : s.brkbegin % 4 = 0
  laid : Laid s.mem s.brkbegin blocks s.bloktop
  top : s.mem.word s.bloktop = s.brkbegin + 1
  small : s.bloktop + 4 ≤ 2 ^ 32

def taken (blocks : List Block) : List Block := blocks.filter (·.busy)

theorem taken_append : taken (pre ++ post) = taken pre ++ taken post := List.filter_append ..

theorem taken_free (free : block.busy = false) : taken (block :: post) = taken post := List.filter_cons_of_neg (by simp [free])

theorem taken_busy (busy : block.busy = true) : taken (block :: post) = block :: taken post := List.filter_cons_of_pos busy

theorem taken_none (free : ∀ c ∈ pre, c.busy = false) : taken pre = [] :=
  List.filter_eq_nil_iff.mpr (fun c member => by simp [free c member])

theorem mem_taken : block ∈ taken blocks ↔ block ∈ blocks ∧ block.busy = true := List.mem_filter

def startOf (s : Shell) : List Block → Nat
  | [] => s.bloktop
  | block :: _ => block.start

def Header (s : Shell) (blocks : List Block) (p : Nat) : Prop := ∃ pre post, blocks = pre ++ post ∧ p = startOf s post

structure Untouched (s s' : Shell) (blocks : List Block) : Prop where
  inside : ∀ block ∈ taken blocks, ∀ a, block.start ≤ a → a < block.stop → s'.mem a = s.mem a
  above : ∀ a, s.bloktop ≤ a → s'.mem a = s.mem a

structure Merged (s s' : Shell) (blocks blocks' : List Block) : Prop where
  arena : Arena s' blocks'
  same : s' = { s with mem := s'.mem }
  taken : taken blocks' = taken blocks
  untouched : Untouched s s' blocks

structure Took (s s' : Shell) (blocks blocks' : List Block) (r ap : Nat) : Prop where
  arena : Arena s' blocks'
  same : s' = { s with mem := s'.mem, blokp := s'.blokp }
  next : Header s' blocks' s'.blokp
  added : ∃ pre post, taken blocks = pre ++ post ∧ taken blocks' = pre ++ ⟨ap - 4, ap - 4 + r, true⟩ :: post
  room : 4 ≤ ap
  untouched : Untouched s s' blocks

theorem Merged.refl (arena : Arena s blocks) : Merged s s blocks blocks :=
  ⟨arena, rfl, rfl, fun _ _ _ _ _ => rfl, fun _ _ => rfl⟩

theorem Untouched.trans (first : Merged s s' blocks blocks') (second : Untouched s' s'' blocks') : Untouched s s'' blocks := by
  have top : s'.bloktop = s.bloktop := congrArg (·.bloktop) first.same
  constructor
  · intro block member a low high
    rw [← first.taken] at member
    rw [second.inside block member a low high]
    exact first.untouched.inside block (first.taken ▸ member) a low high
  · intro a high
    rw [second.above a (by rw [top]; exact high)]
    exact first.untouched.above a high

theorem Merged.trans (first : Merged s s' blocks blocks') (second : Merged s' s'' blocks' blocks'') :
    Merged s s'' blocks blocks'' := by
  refine ⟨second.arena, ?_, second.taken.trans first.taken, second.untouched.trans first⟩
  have same := second.same
  rw [first.same] at same
  exact same

theorem Took.after {ap : Nat} (first : Merged s s' blocks blocks') (second : Took s' s'' blocks' blocks'' r ap) :
    Took s s'' blocks blocks'' r ap := by
  refine ⟨second.arena, ?_, second.next, first.taken ▸ second.added, second.room, second.untouched.trans first⟩
  have same := second.same
  rw [first.same] at same
  exact same

def Answer (s : Shell) (blocks : List Block) (r : Nat) (result : Shell × Option Nat) : Prop :=
  (result.2 = none ∧ ∃ blocks', Merged s result.1 blocks blocks') ∨
  ∃ ap blocks', result.2 = some ap ∧ Took s result.1 blocks blocks' r ap

theorem Answer.after {result : Shell × Option Nat} (first : Merged s s' blocks blocks') (second : Answer s' blocks' r result) :
    Answer s blocks r result := by
  rcases second with ⟨none_, blocks'', merged⟩ | ⟨ap, blocks'', found, took⟩
  · exact .inl ⟨none_, blocks'', first.trans merged⟩
  · exact .inr ⟨ap, blocks'', found, took.after first⟩

theorem untouched_of_free {m : Memory} (arena : Arena s (pre ++ block :: post)) (free : block.busy = false)
    (frame : ∀ a, a < block.start ∨ block.stop ≤ a → m a = s.mem a) : Untouched s { s with mem := m } (pre ++ block :: post) := by
  have apart := List.pairwise_append.mp arena.laid.apart
  have after := List.pairwise_cons.mp apart.2.1
  constructor
  · intro c member a low high
    obtain ⟨inside, busy⟩ := mem_taken.mp member
    apply frame
    rcases List.mem_append.mp inside with before | rest
    · have lower := apart.2.2 c before block (by simp)
      omega
    · rcases List.mem_cons.mp rest with rfl | later
      · rw [free] at busy
        cases busy
      · have higher := after.1 c later
        omega
  · intro a high
    have within : Within s.mem s.brkbegin s.bloktop block := arena.laid.within (by simp)
    apply frame
    have := within.high
    omega

theorem arena_replace {m : Memory} (new gone : List Block) (arena : Arena s (pre ++ block :: (gone ++ post))) (mid : Nat)
    (laid : Laid m block.start new mid) (rest : Laid s.mem mid post s.bloktop)
    (frame : ∀ a, a < block.start ∨ mid ≤ a → m a = s.mem a) : Arena { s with mem := m } (pre ++ (new ++ post)) := by
  obtain ⟨before, first, second⟩ := laid_append.mp arena.laid
  obtain rfl := second.start
  have high := rest.le
  refine ⟨arena.aligned, ?_, ?_, arena.small⟩
  · apply laid_append.mpr
    refine ⟨block.start, ?_, laid_append.mpr ⟨mid, laid, ?_⟩⟩
    · apply first.frame
      intro b _ high
      exact frame b (.inl high)
    · apply rest.frame
      intro b low _
      exact frame b (.inr low)
  · show m.word s.bloktop = s.brkbegin + 1
    rw [← arena.top]
    apply Memory.word_congr
    intro b low _
    exact frame b (.inr (by omega))

theorem startOf_laid {a : Nat} (laid : Laid s.mem a post s.bloktop) : startOf s post = a := by
  cases post with
  | nil => exact Eq.symm laid
  | cons block post => exact laid.start

theorem take_laid (room : p + r ≤ q) (size : 4 ≤ r) (even : (p + r) % 4 = 0) (aligned : q % 4 = 0) (small : q + 4 ≤ 2 ^ 32)
    (word : s.mem.word p = q) : ∃ left, Laid (take s p q r).mem p (⟨p, p + r, true⟩ :: left) q ∧ taken left = [] ∧
      (∀ a, a < p ∨ q ≤ a → (take s p q r).mem a = s.mem a) ∧ ∀ post, startOf s post = q → startOf s (left ++ post) = p + r := by
  have header : (p + r) ||| BUSY = p + r + 1 := or_busy even
  by_cases more : q > p + r
  · have mem : (take s p q r).mem = (s.mem.put (p + r) q).put p (p + r + 1) := by simp only [take, more, if_true, word, header]
    refine ⟨[⟨p + r, q, false⟩], ?_, taken_none (by simp), ?_, fun _ _ => rfl⟩
    · rw [mem]
      refine ⟨rfl, by simp only; omega, even, Memory.word_put (by omega), rfl, by simp only; omega, aligned, ?_, rfl⟩
      rw [Memory.word_put_apart (by simp only; omega)]
      exact Memory.word_put (by omega)
    · intro a outside
      rw [mem, Memory.put_apart (by omega), Memory.put_apart (by omega)]
  · have all : p + r = q := by omega
    have mem : (take s p q r).mem = s.mem.put p (p + r + 1) := by simp only [take, more, if_false, header]
    refine ⟨[], ?_, rfl, ?_, fun post start => start.trans all.symm⟩
    · rw [mem]
      exact ⟨rfl, by simp only; omega, even, Memory.word_put (by omega), all⟩
    · intro a outside
      rw [mem, Memory.put_apart (by omega)]

inductive Looked (s : Shell) (pre : List Block) (block : Block) (post : List Block) (r : Nat) : Shell × Option Nat → Prop
  | passed (s' : Shell) (block' : Block) (post' : List Block) (start : block'.start = block.start) (shorter : post'.length ≤ post.length)
      (merged : Merged s s' (pre ++ block :: post) (pre ++ block' :: post')) : Looked s pre block post r (s', none)
  | found (s' : Shell) (blocks' : List Block) (ap : Nat) (took : Took s s' (pre ++ block :: post) blocks' r ap) :
      Looked s pre block post r (s', some ap)

theorem take_took (arena : Arena s (pre ++ block :: post)) (free : block.busy = false) (size : 4 ≤ r) (even : r % 4 = 0)
    (enough : block.start + r ≤ block.stop) : ∃ blocks',
      Took s (take s block.start block.stop r) (pre ++ block :: post) blocks' r (block.start + BYTESPERWORD) := by
  obtain ⟨mid, first, second⟩ := laid_append.mp arena.laid
  obtain ⟨rfl, room, aligned, word, after⟩ := second
  have small := arena.small
  have high := after.le
  have start := first.end_aligned arena.aligned
  have link : s.mem.word block.start = block.stop := by rw [word, Block.link, free]; rfl
  obtain ⟨left, cut, spare, frame, next⟩ := take_laid enough size (by omega) aligned (by omega) link
  have arena' := arena_replace _ [] arena block.stop cut after frame
  refine ⟨pre ++ ((⟨block.start, block.start + r, true⟩ :: left) ++ post), ?_, rfl, ?_, ⟨taken pre, taken post, ?_, ?_⟩,
    by simp [BYTESPERWORD], ?_⟩
  · exact { arena' with }
  · refine ⟨pre ++ [⟨block.start, block.start + r, true⟩], left ++ post, by simp, ?_⟩
    exact (next post (startOf_laid after)).symm
  · rw [taken_append, taken_free free]
  · rw [taken_append, List.cons_append, taken_busy rfl, taken_append, spare, List.nil_append]
    rfl
  · exact { untouched_of_free arena free frame with }

theorem merge_merged {m : Memory} {gone rest : List Block} (arena : Arena s (pre ++ block :: (gone ++ rest)))
    (free : block.busy = false) (spare : ∀ c ∈ gone, c.busy = false)
    (laid : Laid m block.start (⟨block.start, q, false⟩ :: rest) s.bloktop)
    (frame : ∀ a, a < block.start ∨ block.start + 4 ≤ a → m a = s.mem a) :
    Merged s { s with mem := m } (pre ++ block :: (gone ++ rest)) (pre ++ ⟨block.start, q, false⟩ :: rest) := by
  have within : Within s.mem s.brkbegin s.bloktop block := arena.laid.within (by simp)
  have room := within.room
  obtain ⟨-, room', aligned, word, after⟩ := laid
  have room' : block.start + 4 ≤ q := room'
  have after : Laid m q rest s.bloktop := after
  have from_q : Laid s.mem q rest s.bloktop := by
    apply after.frame
    intro b low _
    exact (frame b (.inr (by omega))).symm
  refine ⟨arena_replace [⟨block.start, q, false⟩] gone arena q ⟨rfl, room', aligned, word, rfl⟩ from_q ?_, rfl, ?_, ?_⟩
  · intro a outside
    exact frame a (by omega)
  · rw [taken_append, taken_append, taken_free free, taken_append, taken_none spare, List.nil_append]
    rw [taken_free rfl]
  · apply untouched_of_free arena free
    intro a outside
    exact frame a (by omega)

theorem inspect_ends (arena : Arena s (pre ++ block :: post)) (size : 4 ≤ r) (even : r % 4 = 0) :
    ∃ result, Ends (fun time => inspect time s block.start r) result ∧ Looked s pre block post r result := by
  obtain ⟨before, first, second⟩ := laid_append.mp arena.laid
  obtain rfl := second.start
  have link := busy_link second.2.2.1 second.2.2.2.1
  cases busy : block.busy with
  | true =>
    refine ⟨(s, none), ?_, .passed s block post rfl le_rfl (.refl arena)⟩
    apply Ends.const
    intro time
    rw [inspect, link, busy, if_pos rfl]
  | false =>
    have stop := busy_of_word arena.top arena.aligned
    have small := arena.small
    obtain ⟨m, q, gone, rest, ends, rfl, spare, laid, frame⟩ := coalesce_ends second busy stop (by omega)
    have merged := merge_merged arena busy spare laid frame
    obtain ⟨turns, ends⟩ := ends
    have room : block.start + 4 ≤ q := laid.2.1
    by_cases enough : q - block.start ≥ r
    · obtain ⟨blocks', took⟩ := take_took merged.arena rfl size even (show block.start + r ≤ q by omega)
      refine ⟨_, ⟨turns, fun time later => ?_⟩, .found _ blocks' _ (took.after merged)⟩
      simp only [inspect, link, busy, ends time later, Option.bind_some, enough, if_true, Bool.false_eq_true, if_false]
    · refine ⟨_, ⟨turns, fun time later => ?_⟩, .passed _ ⟨block.start, q, false⟩ rest rfl (by simp) merged⟩
      simp only [inspect, link, busy, ends time later, Option.bind_some, enough, if_false, Bool.false_eq_true]

theorem climb (size : 4 ≤ r) (even : r % 4 = 0) (finish : ∀ s' blocks', Merged s s' blocks blocks' →
      ∃ result, Ends (fun time => search time s' s'.bloktop c r) result ∧ Answer s' blocks' r result) :
    ∀ (n : Nat) (pre post : List Block) (s' : Shell), post.length ≤ n → Merged s s' blocks (pre ++ post) →
      ∃ result, Ends (fun time => search time s' (startOf s' post) c r) result ∧ Answer s' (pre ++ post) r result := by
  intro n
  induction n with
  | zero =>
    intro pre post s' short merged
    obtain rfl := List.eq_nil_of_length_eq_zero (Nat.le_zero.mp short)
    exact finish s' _ merged
  | succ n ih =>
    intro pre post s' short merged
    cases post with
    | nil => exact finish s' _ merged
    | cons block post =>
      obtain ⟨result, ends, looked⟩ := inspect_ends merged.arena size even
      cases looked with
      | found s'' blocks' ap took =>
        refine ⟨(s'', some ap), ?_, .inr ⟨ap, blocks', rfl, took⟩⟩
        apply Ends.within (fun time => proceed (fun s p c => search time s p c r) block.start c) ends
        · exact Ends.const (fun _ => rfl)
        · intro time
          rfl
      | passed s'' block' post' start shorter merged' =>
        have regroup : pre ++ block' :: post' = (pre ++ [block']) ++ post' := by simp
        obtain ⟨before, first, second⟩ := laid_append.mp merged'.arena.laid
        obtain rfl := second.start
        have next : following s''.mem block'.start = block'.stop := following_link second.2.2.1 second.2.2.2.1
        have up : startOf s'' post' = block'.stop := startOf_laid second.2.2.2.2
        have higher : block'.stop > block'.start := by have := second.2.1; omega
        have short' : post'.length ≤ n := by
          have : post.length + 1 ≤ n + 1 := short
          omega
        obtain ⟨result, ends', answer⟩ := ih (pre ++ [block']) post' s'' short' (regroup ▸ merged.trans merged')
        refine ⟨result, ?_, Answer.after merged' (regroup ▸ answer)⟩
        apply Ends.within (fun time => proceed (fun s p c => search time s p c r) block.start c) ends
        · obtain ⟨turns, ends'⟩ := ends'
          refine ⟨turns, fun time later => ?_⟩
          rw [← start]
          simp only [proceed, next, higher, if_true]
          rw [← up]
          exact ends' time later
        · intro time
          rfl

theorem search_top {result : Shell × Option Nat} (arena : Arena s blocks) (turn : if c = 0
      then Ends (fun time => search time s s.brkbegin 1 r) result else result = (s, none)) :
    Ends (fun time => search time s s.bloktop c r) result := by
  have stop := busy_of_word arena.top arena.aligned
  have back : following s.mem s.bloktop = s.brkbegin := following_of_word arena.top arena.aligned
  have low := arena.laid.le
  apply Ends.within (g := fun time => inspect time s s.bloktop r) (r := (s, none))
    (fun time => proceed (fun s p c => search time s p c r) s.bloktop c)
  · apply Ends.const
    intro time
    rw [inspect, stop, if_pos rfl]
  · have down : ¬ s.brkbegin > s.bloktop := by omega
    simp only [proceed, back, down, if_false]
    split at turn
    case isTrue first =>
      subst first
      simpa only [if_true] using turn
    case isFalse second =>
      subst turn
      simp only [second, if_false]
      exact Ends.const (fun _ => rfl)
  · intro time
    rfl

theorem search_ends (arena : Arena s blocks) (header : Header s blocks s.blokp) (size : 4 ≤ r) (even : r % 4 = 0) :
    ∃ result, Ends (fun time => search time s s.blokp 0 r) result ∧ Answer s blocks r result := by
  obtain ⟨pre, post, rfl, start⟩ := header
  rw [start]
  apply climb size even ?_ post.length pre post s le_rfl (.refl arena)
  intro s' blocks' merged
  -- the second round starts at the bottom and ends at the top
  have bottom : startOf s' blocks' = s'.brkbegin := startOf_laid merged.arena.laid
  have again := climb (c := 1) size even (fun s'' blocks'' merged' => ⟨(s'', none), search_top merged'.arena rfl,
    .inl ⟨rfl, blocks'', .refl merged'.arena⟩⟩) blocks'.length [] blocks' s' le_rfl (.refl merged.arena)
  rw [bottom] at again
  obtain ⟨result, ends, answer⟩ := again
  exact ⟨result, search_top merged.arena ends, answer⟩

theorem header_iff {p : Nat} : Header s blocks p ↔ p ∈ blocks.map (·.start) ++ [s.bloktop] := by
  constructor
  · rintro ⟨pre, post, rfl, rfl⟩
    cases post with
    | nil => simp [startOf]
    | cons block post => simp [startOf]
  · intro member
    rcases List.mem_append.mp member with inside | last
    · obtain ⟨block, among, rfl⟩ := List.mem_map.mp inside
      obtain ⟨pre, post, rfl⟩ := List.append_of_mem among
      exact ⟨pre, block :: post, rfl, rfl⟩
    · exact ⟨blocks, [], by simp, List.mem_singleton.mp last⟩

end Svr4.Proofs.BlokSearch
