import Svr4.Proofs.ClistCalls

/-! Characters and buffers of characters that are appended. -/

namespace Svr4.Proofs.ClistStores
open Function Shuffle Clist ClistCalls

variable {s t : State} {pool held : Finset Nat} {place : Nat → Place} {free rest : List Nat} {blocks : Nat → List Nat}
  {queue : Nat → List UInt8} {p o b c : Nat} {x : UInt8} {l r : List UInt8} {m : Nat → UInt8}

theorem bcopy_cons (a : Nat) : bcopy l (bcopy [x] m a) (a + 1) = bcopy (x :: l) m a := by
  funext k
  unfold bcopy
  rcases Nat.lt_trichotomy k a with below | same | above
  · simp [show ¬ a + 1 ≤ k by omega, show ¬ a ≤ k by omega]
  · subst same
    simp
  · obtain ⟨k, rfl⟩ := Nat.exists_eq_add_of_lt above
    simp [show a + k + 1 - a = k + 1 by omega, show a + k + 1 - (a + 1) = k by omega, show a ≤ a + k + 1 by omega]

theorem store_cons : store (store s b [x]) b l = store s b (x :: l) := by
  simp only [store, update_self, update_idem, List.length_cons, List.length_nil, zero_add, bcopy_cons]
  rw [show s.c_last b + 1 + l.length = s.c_last b + (l.length + 1) by omega]

theorem count_count (n n' : Int) : count (count s p n) p n' = count s p (n + n') := by
  simp only [count, update_self, update_idem, Int.add_assoc]

theorem chars_store (order : s.c_first b ≤ s.c_last b) : chars (store s b [x]) b = chars s b ++ [x] := by
  have added : bcopy [x] (s.c_data b) (s.c_last b) (s.c_last b) = x := by simp [bcopy]
  have below : slice (bcopy [x] (s.c_data b) (s.c_last b)) (s.c_first b) (s.c_last b) = chars s b := by
    apply slice_congr
    intro k _ high
    simp [bcopy, show ¬ s.c_last b ≤ k by omega]
  simp only [chars, store, update_self, List.length_cons, List.length_nil, zero_add]
  rw [← slice_append order (Nat.le_add_right _ 1), slice_one, below, added]
  rfl

theorem chars_store_other (other : c ≠ b) : chars (store s b l) c = chars s c := by simp [chars, store, other]

theorem store_append : store (append s p b) b l = append (store s b l) p b := by
  unfold append
  cases known : s.c_cl p <;> simp [store, known]

def Exhausted (s : State) (p : Nat) : Prop := s.cfreelist = none ∧ ∀ b, s.c_cl p = some b → s.c_last b = CLSIZE

theorem tail_cases (s : State) (p : Nat) :
    (∃ b, s.c_cl p = some b ∧ s.c_last b ≠ CLSIZE ∧ tail s p = some (b, s)) ∨
      (∀ b, s.c_cl p = some b → s.c_last b = CLSIZE) ∧ tail s p = newblk s p := by
  unfold tail
  cases known : s.c_cl p with
  | none => exact .inr ⟨nofun, rfl⟩
  | some b =>
    dsimp only
    split
    · next full =>
      refine .inr ⟨fun c is => ?_, rfl⟩
      cases is
      exact full
    · next loose => exact .inl ⟨b, rfl, loose, rfl⟩

theorem Sound.store_last (sound : Sound s pool held place free blocks) (texts : ∀ p, text s (blocks p) = queue p)
    (last : s.c_cl p = some b) (loose : s.c_last b ≠ CLSIZE) : Queues (store s b [x]) pool held (update queue p (queue p ++ [x])) := by
  rw [sound.links.tails] at last
  obtain ⟨before, known⟩ := List.getLast?_eq_some_iff.mp last
  have here : b ∈ blocks p := by simp [known]
  have listed := (sound.links.mem_blocks b p).mp here
  have order := sound.filled b p listed
  have within := sound.fits b (by simp [listed]) (by simp [listed])
  refine ⟨place, free, blocks, sound.congr rfl rfl rfl rfl (fun c o listed => ?_) (fun c loose known => ?_), fun o => ?_⟩
  · show s.c_first c < update s.c_last b _ c
    by_cases same : c = b
    · subst same
      rw [update_self]
      omega
    · rw [update_of_ne same]
      exact sound.filled c o listed
  · show update s.c_last b (s.c_last b + 1) c ≤ CLSIZE
    by_cases same : c = b
    · subst same
      rw [update_self]
      omega
    · rw [update_of_ne same]
      exact sound.fits c loose known
  · by_cases same : o = p
    · subst same
      have once := (sound.links.lists o).nodup
      rw [known, List.nodup_append] at once
      have others : text (store s b [x]) before = text s before := by
        apply text_congr
        intro c member
        exact chars_store_other (once.2.2 c member b (by simp))
      rw [update_self, ← texts, known]
      simp only [text, List.flatMap_append, List.flatMap_cons, List.flatMap_nil, List.append_nil] at others ⊢
      rw [others, chars_store order.le, List.append_assoc]
    · rw [update_of_ne same, ← texts]
      exact sound.text_other here same (fun c other => chars_store_other other)

theorem Sound.store_new (sound : Sound s pool held place (b :: rest) blocks) (texts : ∀ p, text s (blocks p) = queue p)
    (links : t.c_next = s.c_next ∧ t.c_cf = s.c_cf ∧ t.c_cl = s.c_cl ∧ t.cfreelist = s.c_next b)
    (others : ∀ c, c ≠ b → t.c_first c = s.c_first c ∧ t.c_last c = s.c_last c ∧ t.c_data c = s.c_data c)
    (first : t.c_first b = 0) (last : t.c_last b = 1) (is : t.c_data b 0 = x) :
    Queues (Clist.append t p b) pool held (update queue p (queue p ++ [x])) := by
  have was := (sound.links.mem_free b).mp (by simp)
  have apart : b ∉ held := by simp [sound.in_held, was]
  have popped := sound.pop links.1 links.2.1 links.2.2.1 links.2.2.2 (fun c other => ⟨(others c other).1, (others c other).2.1⟩)
    (by simp [last, CLSIZE])
  have stored := popped.append (Finset.mem_insert_self b held) (by simp [first, last]) p
  rw [Finset.erase_insert apart, update_idem] at stored
  have same_chars : ∀ c, chars (Clist.append t p b) c = chars t c := by
    intro c
    rw [chars, append_c_data, append_c_first, append_c_last]
    rfl
  have old : ∀ o, text (Clist.append t p b) (blocks o) = queue o := by
    intro o
    rw [← texts]
    apply text_congr
    intro c member
    have other : c ≠ b := by
      rintro rfl
      exact sound.links.free_apart (by simp) o member
    obtain ⟨first, last, data⟩ := others c other
    rw [same_chars, chars, chars, first, last, data]
  refine ⟨_, _, _, stored, fun o => ?_⟩
  by_cases same : o = p
  · subst same
    rw [update_self, update_self, ← old o]
    simp only [text, List.flatMap_append, List.flatMap_cons, List.flatMap_nil, List.append_nil]
    rw [same_chars b, chars, first, last, slice_one, is]
  · rw [update_of_ne same, update_of_ne same, old o]

theorem putc_queues (queues : Queues s pool held queue) (counted : Counted s queue) (x : UInt8) (p : Nat) :
    (putc s x p = (false, s) ∧ Exhausted s p) ∨
      ∃ t, putc s x p = (true, t) ∧ Queues t pool held (update queue p (queue p ++ [x])) ∧
        Counted t (update queue p (queue p ++ [x])) := by
  obtain ⟨place, free, blocks, sound, texts⟩ := queues
  have size : ((queue p ++ [x]).length : Int) = (queue p).length + 1 := by simp
  unfold putc
  obtain ⟨b, last, loose, found⟩ | ⟨full, found⟩ := tail_cases s p
  · right
    rw [found]
    exact ⟨_, rfl, (Sound.store_last sound texts last loose).count p 1, counted.change rfl size⟩
  rw [found]
  unfold newblk
  have spare := Svr4.Chain.Linked.head sound.links.spare
  cases free with
  | nil =>
    left
    rw [spare]
    exact ⟨rfl, spare, full⟩
  | cons b rest =>
    right
    rw [spare]
    dsimp only [List.head?_cons, Option.map_some]
    rw [store_append]
    have stored := Sound.store_new (p := p) (x := x) sound texts
      (t := store { s with cfreelist := s.c_next b, c_first := update s.c_first b 0, c_last := update s.c_last b 0 } b [x])
      ⟨rfl, rfl, rfl, rfl⟩ (fun c other => by simp [store, other]) (by simp [store]) (by simp [store]) (by simp [store, bcopy])
    refine ⟨_, rfl, stored.count p 1, counted.change ?_ size⟩
    simp [Clist.count, append_c_cc, store]

/-- Repeated `putc`, until there is no place for more characters. -/
def putcs : State → Nat → List UInt8 → Nat × State
  | s, _, [] => (0, s)
  | s, p, x :: cp => if (putc s x p).1 then ((putcs (putc s x p).2 p cp).1 + 1, (putcs (putc s x p).2 p cp).2) else (0, s)

theorem putcs_queues (queues : Queues s pool held queue) (counted : Counted s queue) (p : Nat) (cp : List UInt8) :
    (putcs s p cp).1 ≤ cp.length ∧
      Queues (putcs s p cp).2 pool held (update queue p (queue p ++ cp.take (putcs s p cp).1)) ∧
      Counted (putcs s p cp).2 (update queue p (queue p ++ cp.take (putcs s p cp).1)) ∧
      ((putcs s p cp).1 < cp.length → Exhausted (putcs s p cp).2 p) := by
  induction cp generalizing s queue with
  | nil =>
    rw [putcs, List.take_nil, List.append_nil, update_eq_self]
    exact ⟨le_rfl, queues, counted, fun less => absurd less (lt_irrefl _)⟩
  | cons x cp ih =>
    unfold putcs
    obtain ⟨refused, exhausted⟩ | ⟨t, done, queues, counted⟩ := putc_queues queues counted x p
    · rw [refused]
      dsimp only
      rw [if_neg nofun, List.take_zero, List.append_nil, update_eq_self]
      exact ⟨Nat.zero_le _, queues, counted, fun _ => exhausted⟩
    · obtain ⟨within, queues, counted, short⟩ := ih queues counted
      rw [update_self, update_idem, List.append_assoc] at queues counted
      rw [done]
      dsimp only
      rw [if_pos rfl, List.take_succ_cons]
      exact ⟨Nat.succ_le_succ within, queues, counted, fun less => short (Nat.lt_of_succ_lt_succ less)⟩

theorem tail_last {t : State} (found : tail s p = some (b, t)) : t.c_cl p = some b := by
  obtain ⟨c, last, _, is⟩ | ⟨_, is⟩ := tail_cases s p
  · rw [is] at found
    cases found
    exact last
  · rw [is] at found
    obtain ⟨c, _, equal⟩ := Option.map_eq_some_iff.mp found
    cases equal
    rw [append_c_cl, update_self]

theorem append_count (n : Int) : append (count s p n) p b = count (append s p b) p n := by
  unfold append
  cases known : s.c_cl p <;> simp [count, known]

theorem newblk_count (n : Int) : newblk (count s p n) p = (newblk s p).map fun r => (r.1, count r.2 p n) := by
  unfold newblk
  cases known : s.cfreelist with
  | none => simp [count, known]
  | some b =>
    rw [show (count s p n).cfreelist = some b from known, Option.map_some, Option.map_some, Option.map_some]
    exact congrArg (fun t => some (b, t))
      (append_count (s := { s with cfreelist := s.c_next b, c_first := update s.c_first b 0, c_last := update s.c_last b 0 }) n)

theorem tail_count (n : Int) : tail (count s p n) p = (tail s p).map fun r => (r.1, count r.2 p n) := by
  unfold tail
  rw [newblk_count]
  cases known : s.c_cl p with
  | none =>
    rw [show (count s p n).c_cl p = none from known]
  | some b =>
    rw [show (count s p n).c_cl p = some b from known]
    dsimp only
    rw [show (count s p n).c_last = s.c_last from rfl]
    split <;> rfl

theorem putcs_block (n : Int) (found : tail s p = some (b, t)) (some : l ≠ []) (fit : t.c_last b + l.length ≤ CLSIZE) :
    putcs (count s p n) p (l ++ r) =
      (l.length + (putcs (count (store t b l) p (n + l.length)) p r).1, (putcs (count (store t b l) p (n + l.length)) p r).2) := by
  induction l generalizing s t n with
  | nil => exact absurd rfl some
  | cons x l ih =>
    have stored : putc (count s p n) x p = (true, count (store t b [x]) p (n + 1)) := by
      rw [putc, tail_count, found]
      show (true, count (count (store t b [x]) p n) p 1) = _
      rw [count_count]
    have last := tail_last found
    rw [List.cons_append, putcs, stored]
    dsimp only
    rw [if_pos rfl]
    by_cases done : l = []
    · subst done
      simp [Nat.add_comm]
    · have size : 0 < l.length := List.length_pos_iff.mpr done
      have room : (store t b [x]).c_last b ≠ CLSIZE := by
        simp only [store, update_self, List.length_cons, List.length_nil] at fit ⊢
        omega
      have again : tail (store t b [x]) p = Option.some (b, store t b [x]) := by
        unfold tail
        rw [show (store t b [x]).c_cl p = Option.some b from last]
        exact if_neg room
      rw [ih (n + 1) again done (by simp [store] at fit ⊢; omega), store_cons, List.length_cons, Nat.cast_succ,
        show n + 1 + (l.length : Int) = n + (l.length + 1) by omega]
      simp [Nat.add_right_comm]

def Fits (s : State) (p : Nat) : Prop := ∀ b, s.c_cl p = some b → s.c_last b ≤ CLSIZE

theorem tail_room (fits : Fits s p) (found : tail s p = some (b, t)) : t.c_last b < CLSIZE := by
  obtain ⟨c, last, loose, is⟩ | ⟨full, is⟩ := tail_cases s p
  · rw [is] at found
    cases found
    exact lt_of_le_of_ne (fits b last) loose
  · rw [is] at found
    obtain ⟨c, _, equal⟩ := Option.map_eq_some_iff.mp found
    cases equal
    rw [append_c_last]
    simp [CLSIZE]

theorem putcbp_loop_putcs {time : Nat} (n : Int) (fits : Fits s p) (enough : l.length < time) :
    ∃ k t, putcbp_loop time s p l = some (k, t) ∧ putcs (count s p n) p l = (k, count t p (n + k)) := by
  induction time generalizing s l n with
  | zero => omega
  | succ time ih =>
    unfold putcbp_loop
    by_cases done : l = []
    · subst done
      refine ⟨0, s, rfl, ?_⟩
      rw [putcs, Nat.cast_zero, Int.add_zero]
    rw [if_neg done]
    cases found : tail s p with
    | none =>
      refine ⟨0, s, rfl, ?_⟩
      obtain ⟨x, l, rfl⟩ := List.exists_cons_of_ne_nil done
      rw [putcs, putc, tail_count, found, Nat.cast_zero, Int.add_zero]
      rfl
    | some r =>
      obtain ⟨b, t⟩ := r
      have room := tail_room fits found
      dsimp only
      by_cases many : l.length ≥ CLSIZE - t.c_last b
      · rw [if_pos many]
        have size : (l.take (CLSIZE - t.c_last b)).length = CLSIZE - t.c_last b := List.length_take_of_le many
        have some : l.take (CLSIZE - t.c_last b) ≠ [] := List.ne_nil_of_length_pos (by omega)
        have again : Fits (store t b (l.take (CLSIZE - t.c_last b))) p := by
          intro c last
          obtain rfl : b = c := Option.some.inj ((tail_last found).symm.trans last)
          simp only [store, update_self]
          omega
        have whole := List.take_append_drop (CLSIZE - t.c_last b) l
        obtain ⟨k, u, copied, repeated⟩ := ih (n + (l.take (CLSIZE - t.c_last b)).length) again
          (show (l.drop (CLSIZE - t.c_last b)).length < time by rw [List.length_drop]; omega)
        have block := putcs_block n found some (r := l.drop (CLSIZE - t.c_last b)) (by omega)
        rw [whole, repeated, size] at block
        refine ⟨CLSIZE - t.c_last b + k, u, ?_, ?_⟩
        · rw [copied]
          rfl
        · rw [block, Nat.cast_add, Int.add_assoc]
      · rw [if_neg many]
        refine ⟨l.length, store t b l, rfl, ?_⟩
        have block := putcs_block n found done (r := []) (by omega)
        rw [List.append_nil, putcs] at block
        exact block

theorem putcbp_putcs (fits : Fits s p) (cp : List UInt8) : putcbp (cp.length + 1) s p cp = some (putcs s p cp) := by
  obtain ⟨k, t, copied, repeated⟩ := putcbp_loop_putcs 0 fits (Nat.lt_succ_self cp.length)
  have start : count s p 0 = s := by simp [count]
  rw [start, Int.zero_add] at repeated
  rw [putcbp, copied, repeated]
  rfl

theorem Queues.fits (queues : Queues s pool held queue) (p : Nat) : Fits s p := by
  obtain ⟨place, free, blocks, sound, _⟩ := queues
  intro b last
  rw [sound.links.tails] at last
  have listed := (sound.links.mem_blocks b p).mp (List.mem_of_getLast? last)
  exact sound.fits b (by simp [listed]) (by simp [listed])

end Svr4.Proofs.ClistStores

/-! Every history of calls serves the lists as queues of characters. -/

namespace Svr4.Proofs.ClistHistory
open Function Shuffle Clist ClistCalls ClistStores

inductive Call
  | getc (p : Nat)
  | putc (c : UInt8) (p : Nat)
  | getcf
  | putcf (bp : Nat)
  | getcb (p : Nat)
  | putcb (bp p : Nat)
  | getcbp (p n : Nat)
  | putcbp (p : Nat) (cp : List UInt8)
  | fill (bp first last : Nat) (data : Nat → UInt8)

inductive Reply
  | none
  | char (c : Option UInt8)
  | block (bp : Option Nat)
  | chars (l : List UInt8)
  | count (n : Nat)
  | done (b : Bool)

structure World where
  state : State
  held : Finset Nat

/-- A caller gives up only what it holds, and a block that it appends is not empty. -/
def Legal (w : World) : Call → Prop
  | .putcf bp => bp ∈ w.held
  | .putcb bp _ => bp ∈ w.held ∧ w.state.c_first bp < w.state.c_last bp
  | .fill bp _ last _ => bp ∈ w.held ∧ last ≤ CLSIZE
  | _ => True

def hold (held : Finset Nat) : Option Nat → Finset Nat
  | none => held
  | some bp => insert bp held

def call (w : World) : Call → Option (Reply × World)
  | .getc p => (getc w.state p).map fun r => (.char r.1, ⟨r.2, w.held⟩)
  | .putc c p => some (.done (putc w.state c p).1, ⟨(putc w.state c p).2, w.held⟩)
  | .getcf => some (.block (getcf w.state).1, ⟨(getcf w.state).2, hold w.held (getcf w.state).1⟩)
  | .putcf bp => some (.none, ⟨putcf w.state bp, w.held.erase bp⟩)
  | .getcb p => some (.block (getcb w.state p).1, ⟨(getcb w.state p).2, hold w.held (getcb w.state p).1⟩)
  | .putcb bp p => some (.none, ⟨putcb w.state bp p, w.held.erase bp⟩)
  | .getcbp p n => (getcbp (n + 1) w.state p n).map fun r => (.chars r.1, ⟨r.2, w.held⟩)
  | .putcbp p cp => (putcbp (cp.length + 1) w.state p cp).map fun r => (.count r.1, ⟨r.2, w.held⟩)
  | .fill bp first last data => some (.none, ⟨fill w.state bp first last data, w.held⟩)

inductive Serves (w t : World) (queue : Nat → List UInt8) : Call → Reply → (Nat → List UInt8) → Prop
  | getc {p x l} (first : queue p = x :: l) : Serves w t queue (.getc p) (.char (some x)) (update queue p l)
  | getc_none {p} (empty : queue p = []) : Serves w t queue (.getc p) (.char none) queue
  | putc {p x} : Serves w t queue (.putc x p) (.done true) (update queue p (queue p ++ [x]))
  | putc_none {p x} (full : Exhausted w.state p) : Serves w t queue (.putc x p) (.done false) queue
  | getcf {b} (free : w.state.cfreelist = some b) : Serves w t queue .getcf (.block (some b)) queue
  | getcf_none (full : w.state.cfreelist = none) : Serves w t queue .getcf (.block none) queue
  | putcf {bp} : Serves w t queue (.putcf bp) .none queue
  | getcb {p b l} (first : queue p = chars t.state b ++ l) (filled : chars t.state b ≠ []) :
      Serves w t queue (.getcb p) (.block (some b)) (update queue p l)
  | getcb_none {p} (empty : queue p = []) : Serves w t queue (.getcb p) (.block none) queue
  | putcb {p bp} : Serves w t queue (.putcb bp p) .none (update queue p (queue p ++ chars w.state bp))
  | getcbp {p n} : Serves w t queue (.getcbp p n) (.chars ((queue p).take n)) (update queue p ((queue p).drop n))
  | putcbp {p cp k} (within : k ≤ cp.length) (short : k < cp.length → Exhausted t.state p) :
      Serves w t queue (.putcbp p cp) (.count k) (update queue p (queue p ++ cp.take k))
  | fill {bp first last data} : Serves w t queue (.fill bp first last data) .none queue

variable {w t : World} {pool : Finset Nat} {queue : Nat → List UInt8} {p b : Nat} {boot : State}

structure Kept (w : World) (pool : Finset Nat) (queue : Nat → List UInt8) : Prop where
  queues : Queues w.state pool w.held queue
  counted : Counted w.state queue

def Served (w : World) (pool : Finset Nat) (queue : Nat → List UInt8) (c : Call) : Prop :=
  ∃ r t next, call w c = some (r, t) ∧ Serves w t queue c r next ∧ Kept t pool next

section
variable (kept : Kept w pool queue)
include kept

theorem getc_serves (p : Nat) : Served w pool queue (.getc p) := by
  obtain ⟨empty, done⟩ | ⟨x, l, s, first, done, queues, counted⟩ := getc_queues kept.queues kept.counted p
  · refine ⟨.char none, w, queue, ?_, .getc_none empty, kept⟩
    rw [call, done]
    rfl
  · refine ⟨.char (some x), ⟨s, w.held⟩, _, ?_, .getc first, queues, counted⟩
    rw [call, done]
    rfl

theorem putc_serves (x : UInt8) (p : Nat) : Served w pool queue (.putc x p) := by
  obtain ⟨done, full⟩ | ⟨s, done, queues, counted⟩ := putc_queues kept.queues kept.counted x p
  · refine ⟨.done false, w, queue, ?_, .putc_none full, kept⟩
    rw [call, done]
  · refine ⟨.done true, ⟨s, w.held⟩, _, ?_, .putc, queues, counted⟩
    rw [call, done]

theorem getcf_serves : Served w pool queue .getcf := by
  obtain ⟨place, free, blocks, sound, texts⟩ := kept.queues
  have spare := Svr4.Chain.Linked.head sound.links.spare
  cases free with
  | nil =>
    have done : getcf w.state = (none, w.state) := by
      unfold getcf
      rw [spare]
      rfl
    refine ⟨.block none, w, queue, ?_, .getcf_none spare, kept⟩
    rw [call, done]
    rfl
  | cons b rest =>
    have listed := (sound.links.free_apart (b := b) (by simp))
    have popped := sound.pop
      (t := { w.state with
        cfreelist := w.state.c_next b, c_first := update w.state.c_first b 0, c_last := update w.state.c_last b CLSIZE })
      rfl rfl rfl rfl (fun c other => by simp [other]) (by simp)
    refine ⟨.block (some b), ⟨(getcf w.state).2, insert b w.held⟩, queue, ?_, .getcf spare, ?_⟩
    · unfold call getcf
      rw [spare]
      rfl
    · unfold getcf
      rw [spare]
      refine ⟨⟨_, _, _, ⟨popped.links.congr (fun c loose => ?_) rfl rfl rfl, popped.filled, popped.fits, popped.in_pool, popped.in_held⟩, fun p => ?_⟩,
        kept.counted⟩
      · apply update_of_ne
        rintro rfl
        exact loose (update_self ..)
      · rw [← texts]
        apply text_congr
        intro c member
        have other : c ≠ b := by
          rintro rfl
          exact listed p member
        simp [chars, other]

theorem putcf_serves (mine : b ∈ w.held) : Served w pool queue (.putcf b) := by
  obtain ⟨place, free, blocks, sound, texts⟩ := kept.queues
  exact ⟨.none, ⟨putcf w.state b, w.held.erase b⟩, queue, rfl, .putcf, ⟨_, _, _, sound.putcf mine, texts⟩, kept.counted⟩

theorem getcb_serves (p : Nat) : Served w pool queue (.getcb p) := by
  obtain ⟨place, free, blocks, sound, texts⟩ := kept.queues
  have start := Svr4.Chain.Linked.head (sound.links.lists p)
  rcases first : blocks p with _ | ⟨b, bs⟩
  · rw [first] at start
    have empty : queue p = [] := by rw [← texts, first]; rfl
    have done : getcb w.state p = (none, w.state) := by
      unfold getcb
      rw [start]
      rfl
    refine ⟨.block none, w, queue, ?_, .getcb_none empty, kept⟩
    rw [call, done]
    rfl
  obtain ⟨start, filled⟩ := sound.head first
  have whole : queue p = chars w.state b ++ text w.state bs := by rw [← texts, first]; rfl
  have size : (chars w.state b).length = w.state.c_last b - w.state.c_first b := length_slice
  have fewer : ((text w.state bs).length : Int) = (queue p).length + -((w.state.c_last b : Int) - w.state.c_first b) := by
    rw [whole, List.length_append]
    omega
  have done : getcb w.state p =
      (some b, unlink (count w.state p (-((w.state.c_last b : Int) - w.state.c_first b))) p b) := by
    unfold getcb
    rw [start]
  refine ⟨.block (some b), ⟨(getcb w.state p).2, insert b w.held⟩, update queue p (text w.state bs), ?_, .getcb ?_ ?_, ?_, ?_⟩
  · rw [call, done]
    rfl
  · rw [done]
    exact whole
  · rw [done]
    apply List.ne_nil_of_length_pos
    show 0 < (chars w.state b).length
    omega
  · rw [done]
    refine ⟨_, _, _, (sound.count p _).unlink first, fun o => ?_⟩
    show text w.state (update blocks p bs o) = _
    by_cases same : o = p
    · subst same
      rw [update_self, update_self]
    · rw [update_of_ne same, update_of_ne same, texts]
  · rw [done]
    exact kept.counted.change rfl fewer

theorem putcb_serves (mine : b ∈ w.held) (filled : w.state.c_first b < w.state.c_last b) (p : Nat) :
    Served w pool queue (.putcb b p) := by
  obtain ⟨place, free, blocks, sound, texts⟩ := kept.queues
  have size : (chars w.state b).length = w.state.c_last b - w.state.c_first b := length_slice
  have same_chars : ∀ c, chars (append w.state p b) c = chars w.state c := by
    intro c
    rw [chars, append_c_data, append_c_first, append_c_last]
    rfl
  have same_text : ∀ bs, text (append w.state p b) bs = text w.state bs := fun bs => text_congr fun c _ => same_chars c
  refine ⟨.none, ⟨putcb w.state b p, w.held.erase b⟩, _, rfl, .putcb, ?_, ?_⟩
  · refine Queues.count ⟨_, _, _, sound.append mine filled p, fun o => ?_⟩ p _
    by_cases same : o = p
    · subst same
      rw [update_self, update_self, same_text, ← texts]
      simp [text]
    · rw [update_of_ne same, update_of_ne same, same_text, texts]
  · refine kept.counted.change (n := (w.state.c_last b : Int) - w.state.c_first b) ?_ ?_
    · simp [putcb, count, append_c_cc]
    · rw [List.length_append]
      omega

theorem getcbp_serves (p n : Nat) : Served w pool queue (.getcbp p n) := by
  obtain ⟨s, done, queues, counted⟩ := getcbp_queues kept.queues kept.counted p n
  refine ⟨.chars ((queue p).take n), ⟨s, w.held⟩, _, ?_, .getcbp, queues, counted⟩
  rw [call, done]
  rfl

theorem putcbp_serves (p : Nat) (cp : List UInt8) : Served w pool queue (.putcbp p cp) := by
  obtain ⟨within, queues, counted, short⟩ := putcs_queues kept.queues kept.counted p cp
  refine ⟨.count (putcs w.state p cp).1, ⟨(putcs w.state p cp).2, w.held⟩, _, ?_, .putcbp within short, queues, counted⟩
  rw [call, putcbp_putcs (Queues.fits kept.queues p)]
  rfl

theorem fill_serves (mine : b ∈ w.held) (first : Nat) {last : Nat} (within : last ≤ CLSIZE)
    (data : Nat → UInt8) : Served w pool queue (.fill b first last data) := by
  obtain ⟨place, free, blocks, sound, texts⟩ := kept.queues
  have was := (sound.in_held b).mp mine
  refine ⟨.none, ⟨fill w.state b first last data, w.held⟩, queue, rfl, .fill, ⟨place, free, blocks,
    sound.congr rfl rfl rfl rfl (fun c o listed => ?_) (fun c loose known => ?_), fun o => ?_⟩, kept.counted⟩
  · have other : c ≠ b := by
      rintro rfl
      rw [was] at listed
      cases listed
    simpa [fill, other] using sound.filled c o listed
  · by_cases same : c = b
    · simpa [fill, same] using within
    · simpa [fill, same] using sound.fits c loose known
  · rw [← texts]
    apply text_congr
    intro c member
    have other : c ≠ b := by
      rintro rfl
      exact (sound.links.held_apart was).2 o member
    simp [chars, fill, other]

theorem call_serves {c : Call} (legal : Legal w c) : Served w pool queue c := by
  cases c with
  | getc p => exact getc_serves kept p
  | putc x p => exact putc_serves kept x p
  | getcf => exact getcf_serves kept
  | putcf bp => exact putcf_serves kept legal
  | getcb p => exact getcb_serves kept p
  | putcb bp p => exact putcb_serves kept legal.1 legal.2 p
  | getcbp p n => exact getcbp_serves kept p n
  | putcbp p cp => exact putcbp_serves kept p cp
  | fill bp first last data => exact fill_serves kept legal.1 first legal.2 data

end

def Booted (s : State) (pool : Finset Nat) : Prop :=
  (∃ free, Svr4.Chain.Linked s.c_next s.cfreelist free ∧ ∀ b, b ∈ free ↔ b ∈ pool) ∧
    ∀ p, s.c_cf p = none ∧ s.c_cl p = none ∧ s.c_cc p = 0

theorem booted_kept (booted : Booted boot pool) : Kept ⟨boot, ∅⟩ pool fun _ => [] := by
  obtain ⟨⟨free, linked, members⟩, empty⟩ := booted
  refine ⟨⟨fun b => if b ∈ pool then .free else .absent, free, fun _ => [], ⟨⟨linked, fun p => (empty p).1, fun p => (empty p).2.1,
    fun b => ?_, fun b p => ?_⟩, fun b p listed => ?_, fun b loose known => ?_, fun b => ?_, fun b => ?_⟩, fun p => rfl⟩, fun p => (empty p).2.2⟩
  · by_cases known : b ∈ pool <;> simp [known, members]
  · by_cases known : b ∈ pool <;> simp [known]
  · by_cases known : b ∈ pool <;> simp [known] at listed
  · by_cases inside : b ∈ pool <;> simp [inside] at loose known
  · by_cases known : b ∈ pool <;> simp [known]
  · by_cases known : b ∈ pool <;> simp [known]

structure Event where
  before : World
  call : Call
  reply : Reply
  after : World

inductive Run (boot : World) : List Event → World → Prop
  | start : Run boot [] boot
  | step {events : List Event} {w t : World} {c : Call} {r : Reply} (run : Run boot events w) (legal : Legal w c)
      (called : call w c = some (r, t)) : Run boot (events ++ [⟨w, c, r, t⟩]) t

def Serve : (Nat → List UInt8) → List Event → (Nat → List UInt8) → Prop
  | queue, [], last => last = queue
  | queue, e :: events, last => ∃ next, Serves e.before e.after queue e.call e.reply next ∧ Serve next events last

theorem Serve.snoc {events : List Event} {last next : Nat → List UInt8} {e : Event} (serve : Serve queue events last)
    (served : Serves e.before e.after last e.call e.reply next) : Serve queue (events ++ [e]) next := by
  induction events generalizing queue with
  | nil =>
    obtain rfl : last = queue := serve
    exact ⟨next, served, rfl⟩
  | cons first events ih =>
    obtain ⟨middle, head, rest⟩ := serve
    exact ⟨middle, head, ih rest⟩

theorem run_kept {events : List Event} (booted : Booted boot pool) (run : Run ⟨boot, ∅⟩ events w) :
    ∃ queue, Serve (fun _ => []) events queue ∧ Kept w pool queue := by
  induction run with
  | start => exact ⟨fun _ => [], rfl, booted_kept booted⟩
  | step run legal called ih =>
    obtain ⟨queue, serve, kept⟩ := ih
    obtain ⟨r, t, next, done, served, kept⟩ := call_serves kept legal
    rw [called] at done
    cases done
    exact ⟨next, serve.snoc served, kept⟩

/-- The lists are queues of characters, each with its count, and no block is lost or shared. The copies of
whole buffers are repeated calls for single characters. -/
theorem lists_are_queues {events : List Event} (booted : Booted boot pool) (run : Run ⟨boot, ∅⟩ events w) :
    ∃ queue, Serve (fun _ => []) events queue ∧ Kept w pool queue ∧
      (∀ c, Legal w c → ∃ r t, call w c = some (r, t)) ∧
      (∀ p n, ∃ l s s' next, getcbp (n + 1) w.state p n = some (l, s) ∧ getcs n w.state p = some (l, s') ∧
        Kept ⟨s, w.held⟩ pool next ∧ Kept ⟨s', w.held⟩ pool next) ∧
      ∀ p cp, putcbp (cp.length + 1) w.state p cp = some (putcs w.state p cp) := by
  obtain ⟨queue, serve, kept⟩ := run_kept booted run
  refine ⟨queue, serve, kept, fun c legal => ?_, fun p n => ?_, fun p cp => ?_⟩
  · obtain ⟨r, t, _, done, _⟩ := call_serves kept legal
    exact ⟨r, t, done⟩
  · obtain ⟨s, copied, queues, counted⟩ := getcbp_queues kept.queues kept.counted p n
    obtain ⟨s', taken, queues', counted'⟩ := getcs_queues kept.queues kept.counted p n
    exact ⟨_, s, s', _, copied, taken, ⟨queues, counted⟩, ⟨queues', counted'⟩⟩
  · exact putcbp_putcs (Queues.fits kept.queues p) cp

def two : State where
  c_next b := if b = 0 then some 1 else none
  c_first _ := 0
  c_last _ := 0
  c_data _ _ := 0
  c_cc _ := 0
  c_cf _ := none
  c_cl _ := none
  cfreelist := some 0

theorem two_booted : Booted two {0, 1} := by
  refine ⟨⟨[0, 1], ⟨rfl, rfl, rfl⟩, fun b => ?_⟩, fun p => ⟨rfl, rfl, rfl⟩⟩
  simp

theorem lists_are_queues_two : ∃ events w, Run ⟨two, ∅⟩ events w ∧ events.length = 6 ∧
    events.getLast?.map (fun e => e.reply) = some (.chars [2, 7]) ∧ ∃ queue, Serve (fun _ => []) events queue ∧ Kept w {0, 1} queue := by
  have taken := (Run.start : Run ⟨two, ∅⟩ [] _).step (c := .getcf) trivial rfl
  have filled := taken.step (c := .fill 0 0 2 fun k => k.toUInt8 + 1) ⟨by decide, by decide⟩ rfl
  have appended := filled.step (c := .putcb 0 5) ⟨by decide, by decide⟩ rfl
  have more := appended.step (c := .putc 7 5) trivial rfl
  have fewer := more.step (c := .getc 5) trivial rfl
  have run := fewer.step (c := .getcbp 5 9) trivial rfl
  obtain ⟨queue, serve, kept, _⟩ := lists_are_queues two_booted run
  exact ⟨_, _, run, rfl, rfl, queue, serve, kept⟩

end Svr4.Proofs.ClistHistory
