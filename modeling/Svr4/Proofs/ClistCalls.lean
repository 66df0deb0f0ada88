import Svr4.Clist

/-! Where the blocks are: each is on the free list, on one list, or held by a caller. -/

namespace Svr4.Proofs.ClistCalls
open Function Shuffle Chain Clist

inductive Place
  | absent | free | held | listed (p : Nat)

variable {s s' : State} {place : Nat → Place} {free rest bs : List Nat} {blocks : Nat → List Nat} {p o b bp : Nat}

structure Links (s : State) (place : Nat → Place) (free : List Nat) (blocks : Nat → List Nat) : Prop where
  spare : Linked s.c_next s.cfreelist free
  lists : ∀ p, Linked s.c_next (s.c_cf p) (blocks p)
  tails : ∀ p, s.c_cl p = (blocks p).getLast?
  mem_free : ∀ b, b ∈ free ↔ place b = .free
  mem_blocks : ∀ b p, b ∈ blocks p ↔ place b = .listed p

section
variable (links : Links s place free blocks)
include links

theorem Links.congr (next : ∀ b, place b ≠ .held → s'.c_next b = s.c_next b)
    (first : s'.c_cf = s.c_cf) (last : s'.c_cl = s.c_cl) (spare : s'.cfreelist = s.cfreelist) : Links s' place free blocks := by
  refine ⟨?_, fun p => ?_, ?_, links.mem_free, links.mem_blocks⟩
  · rw [spare]
    apply links.spare.congr
    intro b member
    apply next
    rw [(links.mem_free b).mp member]
    exact nofun
  · rw [first]
    apply (links.lists p).congr
    intro b member
    apply next
    rw [(links.mem_blocks b p).mp member]
    exact nofun
  · rw [last]
    exact links.tails

theorem Links.held_apart (held : place b = .held) : b ∉ free ∧ ∀ p, b ∉ blocks p := by
  constructor
  · intro member
    cases held.symm.trans ((links.mem_free b).mp member)
  · intro p member
    cases held.symm.trans ((links.mem_blocks b p).mp member)

theorem Links.listed_apart (here : b ∈ blocks p) : b ∉ free ∧ ∀ o, o ≠ p → b ∉ blocks o := by
  have listed := (links.mem_blocks b p).mp here
  constructor
  · intro member
    cases listed.symm.trans ((links.mem_free b).mp member)
  · intro o other member
    cases listed.symm.trans ((links.mem_blocks b o).mp member)
    exact other rfl

theorem Links.free_apart (here : b ∈ free) (p : Nat) : b ∉ blocks p := by
  intro member
  cases ((links.mem_free b).mp here).symm.trans ((links.mem_blocks b p).mp member)

theorem Links.putcf (held : place b = .held) :
    Links (putcf s b) (update place b .free) (b :: free) blocks := by
  obtain ⟨not_free, not_listed⟩ := links.held_apart held
  refine ⟨links.spare.push_front not_free, fun p => Seg.update (links.lists p) _ (not_listed p), links.tails, fun c => ?_, fun c p => ?_⟩
  · by_cases same : c = b
    · simp [same]
    · simp [same, links.mem_free]
  · by_cases same : c = b
    · simp [same, not_listed]
    · simp [same, links.mem_blocks]

theorem Links.unlink (first : blocks p = b :: rest) :
    Links (unlink s p b) (update place b .held) free (update blocks p rest) := by
  have here : b ∈ blocks p := by simp [first]
  obtain ⟨not_free, not_other⟩ := links.listed_apart here
  have list := links.lists p
  rw [first] at list
  have not_rest : b ∉ rest := (List.nodup_cons.mp list.nodup).1
  refine ⟨links.spare, fun o => ?_, fun o => ?_, fun c => ?_, fun c o => ?_⟩
  · show Linked s.c_next (update s.c_cf p (s.c_next b) o) (update blocks p rest o)
    by_cases same : o = p
    · subst same
      rw [update_self, update_self]
      exact list.2
    · rw [update_of_ne same, update_of_ne same]
      exact links.lists o
  · have next : s.c_next b = rest.head? := Linked.head list.2
    have tail := links.tails p
    show (if s.c_next b = none then update s.c_cl p none else s.c_cl) o = (update blocks p rest o).getLast?
    by_cases same : o = p
    · subst same
      rw [update_self, next]
      cases rest with
      | nil => rw [List.head?_nil, if_pos rfl, update_self, List.getLast?_nil]
      | cons c rest => rw [List.head?_cons, if_neg nofun, tail, first, List.getLast?_cons_cons]
    · rw [update_of_ne same]
      split
      · rw [update_of_ne same]
        exact links.tails o
      · exact links.tails o
  · by_cases same : c = b
    · simp [same, not_free]
    · simp [same, links.mem_free]
  · by_cases same : c = b
    · subst same
      by_cases list : o = p
      · simp [list, not_rest]
      · simp [list, not_other o list]
    · rw [update_of_ne same, ← links.mem_blocks]
      by_cases list : o = p
      · simp [list, first, same]
      · simp [list]

theorem Links.append (held : place b = .held) (p : Nat) :
    Links (append s p b) (update place b (.listed p)) free (update blocks p (blocks p ++ [b])) := by
  obtain ⟨not_free, not_listed⟩ := links.held_apart held
  have tail := links.tails p
  have list := links.lists p
  have places : (∀ c, c ∈ free ↔ update place b (.listed p) c = .free) ∧
      ∀ c o, c ∈ update blocks p (blocks p ++ [b]) o ↔ update place b (.listed p) c = .listed o := by
    refine ⟨fun c => ?_, fun c o => ?_⟩
    · by_cases same : c = b
      · simp [same, not_free]
      · simp [same, links.mem_free]
    · by_cases same : c = b
      · by_cases list : o = p
        · simp [same, list]
        · simp [same, list, not_listed, Ne.symm list]
      · by_cases list : o = p
        · simp [same, list, links.mem_blocks]
        · simp [same, list, links.mem_blocks]
  rcases List.eq_nil_or_concat' (blocks p) with none | ⟨before, last, known⟩
  · rw [none, List.getLast?_nil] at tail
    unfold Clist.append
    dsimp only
    rw [tail]
    refine ⟨Seg.update links.spare _ not_free, fun o => ?_, fun o => ?_, places.1, places.2⟩
    · show Linked (update s.c_next b _) (update s.c_cf p (some b) o) (update blocks p (blocks p ++ [b]) o)
      by_cases same : o = p
      · subst same
        rw [update_self, update_self, none]
        exact ⟨rfl, update_self ..⟩
      · rw [update_of_ne same, update_of_ne same]
        exact Seg.update (links.lists o) _ (not_listed o)
    · show update s.c_cl p (some b) o = (update blocks p (blocks p ++ [b]) o).getLast?
      by_cases same : o = p
      · subst same
        rw [update_self, update_self, List.getLast?_concat]
      · rw [update_of_ne same, update_of_ne same]
        exact links.tails o
  · rw [known, List.getLast?_concat] at tail
    have here : last ∈ blocks p := by simp [known]
    obtain ⟨last_not_free, last_not_other⟩ := links.listed_apart here
    unfold Clist.append
    dsimp only
    rw [tail]
    refine ⟨Seg.update (Seg.update links.spare _ not_free) _ last_not_free, fun o => ?_, fun o => ?_, places.1, places.2⟩
    · show Linked (update (update s.c_next b _) last (some b)) (s.c_cf o) (update blocks p (blocks p ++ [b]) o)
      by_cases same : o = p
      · subst same
        rw [update_self, known]
        rw [known] at list
        apply Linked.push_back list
        rw [← known]
        exact not_listed o
      · rw [update_of_ne same]
        exact Seg.update (Seg.update (links.lists o) _ (not_listed o)) _ (last_not_other o same)
    · show update s.c_cl p (some b) o = (update blocks p (blocks p ++ [b]) o).getLast?
      by_cases same : o = p
      · subst same
        rw [update_self, update_self, List.getLast?_concat]
      · rw [update_of_ne same, update_of_ne same]
        exact links.tails o

end

theorem Links.pop (links : Links s place (b :: rest) blocks) (next : s'.c_next = s.c_next) (first : s'.c_cf = s.c_cf)
    (last : s'.c_cl = s.c_cl) (spare : s'.cfreelist = s.c_next b) : Links s' (update place b .held) rest blocks := by
  have not_listed := links.free_apart (b := b) (by simp)
  have not_rest : b ∉ rest := (List.nodup_cons.mp links.spare.nodup).1
  refine ⟨?_, ?_, ?_, fun c => ?_, fun c o => ?_⟩
  · rw [next, spare]
    exact links.spare.2
  · rw [next, first]
    exact links.lists
  · rw [last]
    exact links.tails
  · by_cases same : c = b
    · simp [same, not_rest]
    · have known := links.mem_free c
      rw [List.mem_cons] at known
      simp [same] at known
      simp [same, known]
  · by_cases same : c = b
    · simp [same, not_listed]
    · simp [same, links.mem_blocks]

end Svr4.Proofs.ClistCalls

/-! What each call does to the lists as queues of characters. -/

namespace Svr4.Proofs.ClistCalls
open Function Shuffle Chain Clist

variable {s t : State} {pool held : Finset Nat} {place : Nat → Place} {free rest bs : List Nat} {blocks : Nat → List Nat}
  {queue : Nat → List UInt8} {p o b c : Nat}

def chars (s : State) (b : Nat) : List UInt8 := slice (s.c_data b) (s.c_first b) (s.c_last b)

def text (s : State) (bs : List Nat) : List UInt8 := bs.flatMap (chars s)

theorem text_congr (same : ∀ b ∈ bs, chars t b = chars s b) : text t bs = text s bs := List.flatMap_congr same

structure Sound (s : State) (pool held : Finset Nat) (place : Nat → Place) (free : List Nat) (blocks : Nat → List Nat) : Prop where
  links : Links s place free blocks
  filled : ∀ b p, place b = .listed p → s.c_first b < s.c_last b
  fits : ∀ b, place b ≠ .free → place b ≠ .absent → s.c_last b ≤ CLSIZE
  in_pool : ∀ b, b ∈ pool ↔ place b ≠ .absent
  in_held : ∀ b, b ∈ held ↔ place b = .held

def Queues (s : State) (pool held : Finset Nat) (queue : Nat → List UInt8) : Prop :=
  ∃ place free blocks, Sound s pool held place free blocks ∧ ∀ p, text s (blocks p) = queue p

def Counted (s : State) (queue : Nat → List UInt8) : Prop := ∀ p, s.c_cc p = (queue p).length

section
variable (sound : Sound s pool held place free blocks)
include sound

theorem Sound.congr (next : t.c_next = s.c_next) (first : t.c_cf = s.c_cf)
    (last : t.c_cl = s.c_cl) (spare : t.cfreelist = s.cfreelist) (filled : ∀ b p, place b = .listed p → t.c_first b < t.c_last b)
    (fits : ∀ b, place b ≠ .free → place b ≠ .absent → t.c_last b ≤ CLSIZE) : Sound t pool held place free blocks :=
  ⟨sound.links.congr (fun _ _ => congrFun next _) first last spare, filled, fits, sound.in_pool, sound.in_held⟩

theorem Sound.count (p : Nat) (n : Int) : Sound (count s p n) pool held place free blocks :=
  sound.congr rfl rfl rfl rfl sound.filled sound.fits

theorem Sound.pool_moved (was : place b ≠ .absent) {now : Place} (is : now ≠ .absent)
    (c : Nat) : c ∈ pool ↔ update place b now c ≠ .absent := by
  rw [sound.in_pool]
  by_cases same : c = b
  · simp [same, was, is]
  · simp [same]

theorem Sound.held_erased {now : Place} (is : now ≠ .held) (c : Nat) :
    c ∈ held.erase b ↔ update place b now c = .held := by
  rw [Finset.mem_erase, sound.in_held]
  by_cases same : c = b
  · simp [same, is]
  · simp [same]

theorem Sound.held_inserted (c : Nat) :
    c ∈ insert b held ↔ update place b .held c = .held := by
  rw [Finset.mem_insert, sound.in_held]
  by_cases same : c = b
  · simp [same]
  · simp [same]

theorem Sound.putcf (mine : b ∈ held) :
    Sound (putcf s b) pool (held.erase b) (update place b .free) (b :: free) blocks := by
  have was := (sound.in_held b).mp mine
  refine ⟨sound.links.putcf was, fun c p listed => ?_, fun c loose known => ?_, sound.pool_moved (by simp [was]) nofun,
    sound.held_erased nofun⟩
  · by_cases same : c = b
    · simp [same] at listed
    · exact sound.filled c p (by simpa [same] using listed)
  · by_cases same : c = b
    · simp [same] at loose
    · exact sound.fits c (by simpa [same] using loose) (by simpa [same] using known)

theorem Sound.unlink (first : blocks p = b :: rest) :
    Sound (unlink s p b) pool (insert b held) (update place b .held) free (update blocks p rest) := by
  have was := (sound.links.mem_blocks b p).mp (by simp [first])
  refine ⟨sound.links.unlink first, fun c o listed => ?_, fun c loose known => ?_, sound.pool_moved (by simp [was]) nofun,
    sound.held_inserted⟩
  · by_cases same : c = b
    · simp [same] at listed
    · exact sound.filled c o (by simpa [same] using listed)
  · by_cases same : c = b
    · subst same
      exact sound.fits c (by simp [was]) (by simp [was])
    · exact sound.fits c (by simpa [same] using loose) (by simpa [same] using known)

end

theorem append_c_first : (append s p b).c_first = s.c_first := by
  unfold append
  dsimp only
  split <;> rfl

theorem append_c_last : (append s p b).c_last = s.c_last := by
  unfold append
  dsimp only
  split <;> rfl

theorem append_c_data : (append s p b).c_data = s.c_data := by
  unfold append
  dsimp only
  split <;> rfl

theorem append_c_cc : (append s p b).c_cc = s.c_cc := by
  unfold append
  dsimp only
  split <;> rfl

theorem append_c_cl : (append s p b).c_cl = update s.c_cl p (some b) := by
  unfold append
  dsimp only
  split <;> rfl

theorem Sound.append (sound : Sound s pool held place free blocks) (mine : b ∈ held) (some : s.c_first b < s.c_last b) (p : Nat) :
    Sound (append s p b) pool (held.erase b) (update place b (.listed p)) free (update blocks p (blocks p ++ [b])) := by
  have was := (sound.in_held b).mp mine
  refine ⟨sound.links.append was p, fun c o listed => ?_, fun c loose known => ?_, sound.pool_moved (by simp [was]) nofun,
    sound.held_erased nofun⟩
  · rw [append_c_first, append_c_last]
    by_cases same : c = b
    · rwa [same]
    · exact sound.filled c o (by simpa [same] using listed)
  · rw [append_c_last]
    by_cases same : c = b
    · subst same
      exact sound.fits c (by simp [was]) (by simp [was])
    · exact sound.fits c (by simpa [same] using loose) (by simpa [same] using known)

theorem Sound.pop (sound : Sound s pool held place (b :: rest) blocks) (next : t.c_next = s.c_next) (head : t.c_cf = s.c_cf)
    (tail : t.c_cl = s.c_cl) (spare : t.cfreelist = s.c_next b) (same : ∀ c, c ≠ b → t.c_first c = s.c_first c ∧ t.c_last c = s.c_last c)
    (fits : t.c_last b ≤ CLSIZE) : Sound t pool (insert b held) (update place b .held) rest blocks := by
  have was := (sound.links.mem_free b).mp (by simp)
  refine ⟨sound.links.pop next head tail spare, fun c o listed => ?_, fun c loose there => ?_, sound.pool_moved (by simp [was]) nofun,
    sound.held_inserted⟩
  · by_cases known : c = b
    · simp [known] at listed
    · rw [(same c known).1, (same c known).2]
      exact sound.filled c o (by simpa [known] using listed)
  · by_cases known : c = b
    · rwa [known]
    · rw [(same c known).2]
      exact sound.fits c (by simpa [known] using loose) (by simpa [known] using there)

theorem Sound.release (sound : Sound s pool held place free blocks) (first : blocks p = b :: rest) :
    Sound (Clist.putcf (Clist.unlink s p b) b) pool held (update place b .free) (b :: free) (update blocks p rest) := by
  have was := (sound.links.mem_blocks b p).mp (by simp [first])
  have freed := (sound.unlink first).putcf (Finset.mem_insert_self b held)
  have apart : b ∉ held := by simp [sound.in_held, was]
  rwa [Finset.erase_insert apart, update_idem] at freed

theorem Sound.text_other (sound : Sound s pool held place free blocks) (here : b ∈ blocks p) (other : o ≠ p)
    (same : ∀ c, c ≠ b → chars t c = chars s c) : text t (blocks o) = text s (blocks o) := by
  apply text_congr
  intro c member
  apply same
  rintro rfl
  exact (sound.links.listed_apart here).2 o other member

def advance (s : State) (b n : Nat) : State := { s with c_first := update s.c_first b (s.c_first b + n) }

theorem chars_advance_other (other : c ≠ b) (n : Nat) : chars (advance s b n) c = chars s c := by
  simp [chars, advance, other]

theorem chars_split (n : Nat) (within : s.c_first b + n ≤ s.c_last b) :
    chars s b = slice (s.c_data b) (s.c_first b) (s.c_first b + n) ++ chars (advance s b n) b := by
  simp only [chars, advance, update_self]
  exact (slice_append (by omega) within).symm

theorem Sound.advance (sound : Sound s pool held place free blocks) (first : blocks p = b :: rest) {n : Nat}
    (within : s.c_first b + n < s.c_last b) :
    Sound (advance s b n) pool held place free blocks ∧
      (∀ o, text (ClistCalls.advance s b n) (blocks o) = update (fun o => text s (blocks o)) p ((text s (blocks p)).drop n) o) ∧
      slice (s.c_data b) (s.c_first b) (s.c_first b + n) = (text s (blocks p)).take n := by
  have split := chars_split n within.le
  have size : (slice (s.c_data b) (s.c_first b) (s.c_first b + n)).length = n := by rw [length_slice, Nat.add_sub_cancel_left]
  have whole : text s (blocks p) = slice (s.c_data b) (s.c_first b) (s.c_first b + n) ++ text (ClistCalls.advance s b n) (blocks p) := by
    have later : text (ClistCalls.advance s b n) rest = text s rest := by
      apply text_congr
      intro c member
      apply chars_advance_other
      rintro rfl
      have once := (sound.links.lists p).nodup
      rw [first] at once
      exact (List.nodup_cons.mp once).1 member
    rw [first]
    simp only [text, List.flatMap_cons] at later ⊢
    rw [later, split, List.append_assoc]
  refine ⟨sound.congr rfl rfl rfl rfl (fun c o listed => ?_) sound.fits, fun o => ?_, ?_⟩
  · show update s.c_first b _ c < s.c_last c
    by_cases same : c = b
    · rwa [same, update_self]
    · rw [update_of_ne same]
      exact sound.filled c o listed
  · by_cases same : o = p
    · subst same
      rw [update_self, whole, List.drop_left' size]
    · rw [update_of_ne same]
      exact sound.text_other (by simp [first]) same (fun c other => chars_advance_other other n)
  · rw [whole, List.take_left' size]

theorem text_release (first : blocks p = b :: rest) :
    ∀ o, text s (update blocks p rest o) = update (fun o => text s (blocks o)) p ((text s (blocks p)).drop (chars s b).length) o := by
  intro o
  by_cases same : o = p
  · subst same
    rw [update_self, update_self, first]
    simp [text]
  · rw [update_of_ne same, update_of_ne same]

theorem Counted.change (counted : Counted s queue) {l : List UInt8} {n : Int} (now : t.c_cc = update s.c_cc p (s.c_cc p + n))
    (size : (l.length : Int) = (queue p).length + n) : Counted t (update queue p l) := by
  intro o
  rw [now]
  by_cases same : o = p
  · subst same
    rw [update_self, update_self, counted, size]
  · rw [update_of_ne same, update_of_ne same, counted]

theorem Sound.head (sound : Sound s pool held place free blocks) (first : blocks p = b :: rest) :
    s.c_cf p = some b ∧ s.c_first b < s.c_last b := by
  have start := Linked.head (sound.links.lists p)
  rw [first] at start
  exact ⟨start, sound.filled b p ((sound.links.mem_blocks b p).mp (by simp [first]))⟩

theorem getc_queues (queues : Queues s pool held queue) (counted : Counted s queue) (p : Nat) :
    (queue p = [] ∧ getc s p = some (none, s)) ∨
      ∃ x l t, queue p = x :: l ∧ getc s p = some (some x, t) ∧ Queues t pool held (update queue p l) ∧
        Counted t (update queue p l) := by
  obtain ⟨place, free, blocks, sound, texts⟩ := queues
  obtain rfl : (fun p => text s (blocks p)) = queue := funext texts
  rcases first : blocks p with _ | ⟨b, bs⟩
  · have empty : text s (blocks p) = [] := by rw [first]; rfl
    refine .inl ⟨empty, ?_⟩
    unfold getc
    rw [if_neg (by simp [counted p, empty])]
  right
  obtain ⟨start, filled⟩ := sound.head first
  have split := chars_split 1 (show s.c_first b + 1 ≤ s.c_last b from filled)
  rw [slice_one] at split
  have whole : text s (blocks p) = s.c_data b (s.c_first b) :: (text s (blocks p)).drop 1 := by
    rw [first, text, List.flatMap_cons, split]
    rfl
  have size : s.c_cc p = (text s (blocks p)).length := counted p
  have positive : s.c_cc p > 0 := by
    rw [size, whole]
    simp
  have fewer : (((text s (blocks p)).drop 1).length : Int) = (text s (blocks p)).length + -1 := by
    rw [List.length_drop]
    omega
  unfold getc
  rw [if_pos positive, start, Option.map_some]
  refine ⟨s.c_data b (s.c_first b), (text s (blocks p)).drop 1, _, whole, rfl, ?_⟩
  dsimp only
  split
  · next last =>
    rw [update_self] at last
    have freed := sound.release first
    refine ⟨⟨_, _, _, freed.congr rfl rfl rfl rfl (fun c o listed => ?_) freed.fits, fun o => ?_⟩, counted.change rfl fewer⟩
    · show update s.c_first b _ c < s.c_last c
      have other : c ≠ b := by
        rintro rfl
        simp at listed
      rw [update_of_ne other]
      exact freed.filled c o listed
    · have size : (chars s b).length = 1 := by rw [chars, length_slice]; omega
      have rest := text_release (s := s) first o
      rw [size] at rest
      rw [← rest]
      apply text_congr
      intro c member
      have other : c ≠ b := by
        rintro rfl
        have listed := (freed.links.mem_blocks c o).mp member
        simp at listed
      exact chars_advance_other (s := s) other 1
  · next more =>
    rw [update_self] at more
    obtain ⟨kept, texts, _⟩ := sound.advance first (n := 1) (by omega)
    exact ⟨⟨place, free, blocks, kept.congr rfl rfl rfl rfl kept.filled kept.fits, texts⟩, counted.change rfl fewer⟩

def getcs : Nat → State → Nat → Option (List UInt8 × State)
  | 0, s, _ => some ([], s)
  | n + 1, s, p =>
    (getc s p).bind fun r =>
      match r.1 with
      | none => some ([], r.2)
      | some x => (getcs n r.2 p).map fun r => (x :: r.1, r.2)

section
variable (queues : Queues s pool held queue)
include queues

theorem getcs_queues (counted : Counted s queue) (p n : Nat) :
    ∃ t, getcs n s p = some ((queue p).take n, t) ∧ Queues t pool held (update queue p ((queue p).drop n)) ∧
      Counted t (update queue p ((queue p).drop n)) := by
  induction n generalizing s queue with
  | zero =>
    refine ⟨s, rfl, ?_⟩
    rw [List.drop_zero, update_eq_self]
    exact ⟨queues, counted⟩
  | succ n ih =>
    obtain ⟨empty, done⟩ | ⟨x, l, t, known, done, queues, counted⟩ := getc_queues queues counted p
    · refine ⟨s, ?_, ?_⟩
      · rw [getcs, done, empty]
        rfl
      · rw [List.drop_eq_nil_of_le (by simp [empty]), ← empty, update_eq_self]
        exact ⟨queues, counted⟩
    · obtain ⟨u, more, queues, counted⟩ := ih queues counted
      rw [update_self, update_idem] at *
      refine ⟨u, ?_, ?_⟩
      · rw [getcs, done, known]
        show (getcs n t p).map _ = _
        rw [more]
        rfl
      · rw [known]
        exact ⟨queues, counted⟩

theorem getcbp_loop_queues {time n : Nat} (enough : n < time) (p : Nat) :
    ∃ t, getcbp_loop time s p n = some ((queue p).take n, t) ∧ Queues t pool held (update queue p ((queue p).drop n)) ∧
      t.c_cc = s.c_cc := by
  induction time generalizing s queue n with
  | zero => omega
  | succ time ih =>
    unfold getcbp_loop
    by_cases done : n = 0
    · subst done
      refine ⟨s, rfl, ?_, rfl⟩
      rwa [List.drop_zero, update_eq_self]
    rw [if_neg done]
    obtain ⟨place, free, blocks, sound, texts⟩ := queues
    rcases first : blocks p with _ | ⟨b, bs⟩
    · have empty : queue p = [] := by rw [← texts, first]; rfl
      have start : s.c_cf p = none := by rw [Linked.head (sound.links.lists p), first]; rfl
      refine ⟨s, ?_, ⟨place, free, blocks, sound, ?_⟩, rfl⟩
      · rw [start, empty, List.take_nil]
      · rwa [empty, List.drop_nil, ← empty, update_eq_self]
    obtain ⟨start, filled⟩ := sound.head first
    have size : (chars s b).length = s.c_last b - s.c_first b := length_slice
    have whole : queue p = chars s b ++ text s bs := by rw [← texts, first]; rfl
    rw [start]
    dsimp only
    by_cases all : n ≥ s.c_last b - s.c_first b
    · rw [if_pos all]
      have freed : Queues (putcf (unlink s p b) b) pool held (update queue p (text s bs)) := by
        refine ⟨_, _, _, sound.release first, fun o => ?_⟩
        rw [show text (putcf (unlink s p b) b) = text s from rfl]
        by_cases same : o = p
        · subst same
          rw [update_self, update_self]
        · rw [update_of_ne same, update_of_ne same, texts]
      obtain ⟨t, rest, queues, kept⟩ := ih freed (show n - (s.c_last b - s.c_first b) < time by omega)
      rw [update_self, update_idem] at *
      refine ⟨t, ?_, ?_, kept⟩
      · have front : (chars s b).take n = chars s b := List.take_of_length_le (by omega)
        rw [rest, whole, List.take_append, front, size]
        rfl
      · rwa [whole, List.drop_append, List.drop_eq_nil_of_le (by omega), List.nil_append, size]
    · rw [if_neg all]
      obtain ⟨kept, rest, taken⟩ := sound.advance first (n := n) (by omega)
      rw [taken, texts]
      refine ⟨ClistCalls.advance s b n, rfl, ⟨place, free, blocks, kept, ?_⟩, rfl⟩
      rwa [texts, show (fun o => text s (blocks o)) = queue from funext texts] at rest

theorem Queues.count (p : Nat) (n : Int) : Queues (Clist.count s p n) pool held queue := by
  obtain ⟨place, free, blocks, sound, texts⟩ := queues
  exact ⟨place, free, blocks, sound.count p n, texts⟩

theorem getcbp_queues (counted : Counted s queue) (p n : Nat) :
    ∃ t, getcbp (n + 1) s p n = some ((queue p).take n, t) ∧ Queues t pool held (update queue p ((queue p).drop n)) ∧
      Counted t (update queue p ((queue p).drop n)) := by
  obtain ⟨t, copied, queues, kept⟩ := getcbp_loop_queues queues (Nat.lt_succ_self n) p
  have parts := congrArg List.length (List.take_append_drop n (queue p))
  rw [List.length_append] at parts
  refine ⟨Clist.count t p (-(((queue p).take n).length : Int)), ?_, queues.count p _,
    counted.change (n := -(((queue p).take n).length : Int)) ?_ (by omega)⟩
  · rw [getcbp, copied]
    rfl
  · rw [← kept]
    rfl

end

end Svr4.Proofs.ClistCalls
