import Svr4.Proofs.LdtermChain

/-! The lines that canonical input sends upstream are those of an editor of lists of bytes.
`ldterm_docanon` is followed on a list first; what is left then are its two flags. -/

namespace Svr4.Proofs.LdtermLines
open Function Chain Ldterm LdtermChain

variable {d : Draft} {line : List UInt8}

variable {s s' : LdtermState} {l : List Nat} {bpt : Nat} {c : UInt8} {modes : Modes}

structure Draft where
  line : List UInt8
  slnch : Bool
  quot : Bool
  sent : List (List UInt8)

namespace Draft

def ended (modes : Modes) (c : UInt8) (d : Draft) : Draft :=
  if ¬ d.slnch ∧ ends_line modes c then { d with line := [], sent := d.sent ++ [d.line] }
  else { d with slnch := false, quot := c = 92 }

def escaped (modes : Modes) (c : UInt8) (d : Draft) : Draft :=
  if full modes d.line.length then
    if modes.imaxbel then d else ended modes c { d with line := [c], slnch := false }
  else ended modes c { d with line := d.line ++ [c] }

def replace (modes : Modes) (c : UInt8) (d : Draft) : Draft := escaped modes c { d with line := d.line.dropLast }

def typed (modes : Modes) (c : UInt8) (d : Draft) : Draft :=
  if d.slnch then escaped modes c d
  else if c = 0 then escaped modes c { d with quot := false }
  else if modes.iexten ∧ c = modes.vlnext then { d with slnch := true }
  else if c = modes.verase then
    if d.quot then replace modes c d else { d with line := d.line.dropLast }
  else if modes.iexten ∧ c = modes.vwerase then { d with line := without_word d.line }
  else if c = modes.vkill then
    if d.quot then replace modes c d else { d with line := [], quot := false, slnch := false }
  else if modes.iexten ∧ c = modes.vreprint then d
  else if d.quot then
    if c = modes.veof then replace modes c { d with quot := false }
    else if modes.xcase ∧ imaptab c ≠ 0 then replace modes (imaptab c) { d with quot := false }
    else escaped modes c { d with quot := false }
  else if c = modes.veof then { d with line := [], sent := d.sent ++ [d.line] }
  else escaped modes c d

end Draft

structure Holds (s : LdtermState) (bpt : Nat) (d : Draft) : Prop where
  whole : ∃ l, Whole s l d.line
  last : s.t_endmsg = some bpt
  slnch : s.slnch = d.slnch
  quot : s.quot = d.quot
  sent : s.sent = d.sent

theorem whole_last (whole : Whole s l line) : ∃ bpt, s.t_endmsg = some bpt := by
  obtain ⟨pre, bpt, -, last⟩ := whole.shape
  exact ⟨bpt, last⟩

theorem Holds.flags (holds : Holds s bpt d) (slnch quot : Bool) :
    Holds { s with slnch := slnch, quot := quot } bpt { d with slnch := slnch, quot := quot } := by
  obtain ⟨l, whole⟩ := holds.whole
  exact ⟨⟨l, { whole with }⟩, holds.last, rfl, rfl, holds.sent⟩

theorem upstream_holds (holds : Holds s bpt d) :
    Holds (newmsg (ldterm_msg_upstream s)).1 (newmsg (ldterm_msg_upstream s)).2 { d with line := [], sent := d.sent ++ [d.line] } := by
  obtain ⟨l, whole⟩ := holds.whole
  obtain ⟨none_, zero, lim, slnch, quot, sent⟩ := upstream_whole whole
  obtain ⟨empty, same⟩ := newmsg_whole none_ zero (by rw [lim]; exact whole.room)
  refine ⟨⟨_, empty⟩, empty.last, ?_, ?_, ?_⟩
  · exact same.1.trans (slnch.trans holds.slnch)
  · exact same.2.1.trans (quot.trans holds.quot)
  · rw [same.2.2, sent, holds.sent]

theorem ended_holds (holds : Holds s bpt d) :
    Holds (end_of_line modes c s bpt).1 (end_of_line modes c s bpt).2 (d.ended modes c) := by
  rw [end_of_line, Draft.ended, holds.slnch]
  split
  · exact upstream_holds holds
  · exact holds.flags false _

theorem add_holds (holds : Holds s bpt d) : ∃ r, add_char modes c s bpt = some r ∧
    Holds r.1 r.2 (Draft.ended modes c { d with line := d.line ++ [c] }) := by
  obtain ⟨l, whole⟩ := holds.whole
  rw [add_char]
  split
  case isTrue full =>
    obtain ⟨short, last, same⟩ := another_short whole holds.last full
    obtain ⟨stored, same'⟩ := store_whole (c := c) short last
    refine ⟨_, by rw [holds.last]; rfl, ended_holds ⟨⟨_, stored⟩, last, ?_, ?_, ?_⟩⟩
    · exact same'.1.trans (same.1.trans holds.slnch)
    · exact same'.2.1.trans (same.2.1.trans holds.quot)
    · exact same'.2.2.trans (same.2.2.trans holds.sent)
  case isFalse =>
    obtain ⟨stored, same⟩ := store_whole (c := c) whole.short holds.last
    refine ⟨_, rfl, ended_holds ⟨⟨_, stored⟩, holds.last, ?_, ?_, ?_⟩⟩
    · exact same.1.trans holds.slnch
    · exact same.2.1.trans holds.quot
    · exact same.2.2.trans holds.sent

theorem escaped_holds (modes : Modes) (c : UInt8) (holds : Holds s bpt d) :
    ∃ r, escaped modes c s bpt = some r ∧ Holds r.1 r.2 (d.escaped modes c) := by
  obtain ⟨l, whole⟩ := holds.whole
  rw [escaped, Draft.escaped, whole.count]
  split
  · split
    · exact ⟨_, rfl, holds⟩
    · obtain ⟨empty, same⟩ := newmsg_whole (s := { s with t_message := none, t_endmsg := none, t_msglen := 0, slnch := false }) rfl rfl
        whole.room
      have fresh : Holds (newmsg { s with t_message := none, t_endmsg := none, t_msglen := 0, slnch := false }).1
          (newmsg { s with t_message := none, t_endmsg := none, t_msglen := 0, slnch := false }).2 { d with line := [], slnch := false } :=
        ⟨⟨_, empty⟩, empty.last, same.1, same.2.1.trans holds.quot, same.2.2.trans holds.sent⟩
      exact add_holds fresh
  · exact add_holds holds

theorem edited_holds (holds : Holds s bpt d) (whole : Whole s' l line) (same : Same s s') :
    ∃ r, edited s' = some r ∧ Holds r.1 r.2 { d with line := line } := by
  obtain ⟨bpt', last⟩ := whole_last whole
  refine ⟨(s', bpt'), by rw [edited, last]; rfl, ⟨_, whole⟩, last, ?_, ?_, ?_⟩
  · exact same.1.trans holds.slnch
  · exact same.2.1.trans holds.quot
  · exact same.2.2.trans holds.sent

theorem replace_holds (holds : Holds s bpt d) : ∃ r, replace modes c s = some r ∧ Holds r.1 r.2 (d.replace modes c) := by
  obtain ⟨l, whole⟩ := holds.whole
  obtain ⟨s', l', erase, whole', same⟩ := erase_whole whole
  obtain ⟨⟨s'', bpt'⟩, edit, holds'⟩ := edited_holds holds whole' same
  obtain ⟨last', last, equal⟩ := Option.map_eq_some_iff.mp edit
  cases equal
  obtain ⟨r, step, holds''⟩ := escaped_holds modes c holds'
  refine ⟨r, ?_, holds''⟩
  rw [replace, erase, Option.bind_some, last]
  exact step

theorem branch_holds {p q : Prop} [Decidable p] [Decidable q] {x y : Option (LdtermState × Nat)} {d' : Draft} (same : p ↔ q)
    (yes : ∃ r, x = some r ∧ Holds r.1 r.2 d) (no : ∃ r, y = some r ∧ Holds r.1 r.2 d') :
    ∃ r, (if p then x else y) = some r ∧ Holds r.1 r.2 (if q then d else d') := by
  by_cases way : p
  · rw [if_pos way, if_pos (same.mp way)]
    exact yes
  · rw [if_neg way, if_neg (fun other => way (same.mpr other))]
    exact no

theorem typed_holds (modes : Modes) (c : UInt8) (holds : Holds s bpt d) :
    ∃ r, ldterm_docanon modes c s bpt = some r ∧ Holds r.1 r.2 (d.typed modes c) := by
  obtain ⟨l, whole⟩ := holds.whole
  have slnch : s.slnch = true ↔ d.slnch = true := by rw [holds.slnch]
  have quot : s.quot = true ↔ d.quot = true := by rw [holds.quot]
  have unquoted : Holds { s with quot := false } bpt { d with quot := false } :=
    ⟨⟨l, { whole with }⟩, holds.last, holds.slnch, rfl, holds.sent⟩
  have literal : Holds { s with slnch := true } bpt { d with slnch := true } :=
    ⟨⟨l, { whole with }⟩, holds.last, rfl, holds.quot, holds.sent⟩
  have erased : ∃ r, (ldterm_erase s).bind edited = some r ∧ Holds r.1 r.2 { d with line := d.line.dropLast } := by
    obtain ⟨s', l', erase, whole', same⟩ := erase_whole whole
    rw [erase]
    exact edited_holds holds whole' same
  have werased : ∃ r, (ldterm_werase s).bind edited = some r ∧ Holds r.1 r.2 { d with line := without_word d.line } := by
    obtain ⟨s', l', erase, whole', same⟩ := werase_whole whole
    rw [erase]
    exact edited_holds holds whole' same
  have killed : ∃ r, (ldterm_kill s).bind edited = some r ∧ Holds r.1 r.2 { d with line := [], quot := false, slnch := false } := by
    obtain ⟨s', l', erase, whole', slnch', quot', sent'⟩ := kill_whole whole
    obtain ⟨bpt', last⟩ := whole_last whole'
    rw [erase]
    exact ⟨(s', bpt'), by rw [Option.bind_some, edited, last]; rfl, ⟨_, whole'⟩, last, slnch', quot', sent'.trans holds.sent⟩
  rw [ldterm_docanon, Draft.typed]
  apply branch_holds slnch (escaped_holds modes c holds)
  apply branch_holds Iff.rfl (escaped_holds modes c unquoted)
  apply branch_holds Iff.rfl ⟨_, rfl, literal⟩
  apply branch_holds Iff.rfl (branch_holds quot (replace_holds holds) erased)
  apply branch_holds Iff.rfl werased
  apply branch_holds Iff.rfl (branch_holds quot (replace_holds holds) killed)
  apply branch_holds Iff.rfl ⟨_, rfl, holds⟩
  apply branch_holds quot
  · apply branch_holds Iff.rfl (replace_holds unquoted)
    exact branch_holds Iff.rfl (replace_holds unquoted) (escaped_holds modes c unquoted)
  · exact branch_holds Iff.rfl ⟨_, rfl, upstream_holds holds⟩ (escaped_holds modes c holds)

/-- The reference editor. `literal` tells that the next byte is to be taken literally, and
`quoting` that the byte before was a backslash, is on the line and was not literal itself. -/
structure Editor where
  line : List UInt8
  literal : Bool
  quoting : Bool
  sent : List (List UInt8)
  deriving DecidableEq

/-- What a byte does: it edits, or goes to the end of a line. -/
inductive Effect
  | edits (e : Editor)
  | puts (c : UInt8) (line : List UInt8)

namespace Editor

/-- The byte goes to the end of the line, which is delivered if the byte ends it. -/
def append (modes : Modes) (c : UInt8) (e : Editor) : Editor :=
  if ¬ e.literal ∧ ends_line modes c then ⟨[], false, false, e.sent ++ [e.line ++ [c]]⟩
  else ⟨e.line ++ [c], false, c = 92 ∧ ¬ e.literal, e.sent⟩

/-- A line at its maximum length takes only the bytes that end it: another one is refused,
or starts a new line. -/
def put (modes : Modes) (c : UInt8) (e : Editor) : Editor :=
  if full modes e.line.length ∧ ¬ (¬ e.literal ∧ ends_line modes c) then
    if modes.imaxbel then { e with literal := false, quoting := false } else append modes c { e with line := [] }
  else append modes c e

def effect (modes : Modes) (c : UInt8) (e : Editor) : Effect :=
  let plain : Editor := { e with quoting := false }
  if e.literal then .puts c e.line
  else if c = 0 then .puts c e.line
  else if modes.iexten ∧ c = modes.vlnext then .edits { plain with literal := true }
  else if c = modes.verase then if e.quoting then .puts c e.line.dropLast else .edits { plain with line := e.line.dropLast }
  else if modes.iexten ∧ c = modes.vwerase then .edits { plain with line := without_word e.line }
  else if c = modes.vkill then if e.quoting then .puts c e.line.dropLast else .edits { plain with line := [] }
  else if modes.iexten ∧ c = modes.vreprint then .edits plain
  else if c = modes.veof then
    if e.quoting then .puts c e.line.dropLast else .edits { plain with line := [], sent := e.sent ++ [e.line] }
  else if modes.xcase ∧ e.quoting ∧ imaptab c ≠ 0 then .puts (imaptab c) e.line.dropLast
  else .puts c e.line

def after (modes : Modes) (e : Editor) : Effect → Editor
  | .edits edited => edited
  | .puts c line => put modes c { e with line := line }

def typed (modes : Modes) (c : UInt8) (e : Editor) : Editor := e.after modes (e.effect modes c)

def start : Editor := ⟨[], false, false, []⟩

end Editor

def type_all : List (Modes × UInt8) → Editor → Editor
  | [], e => e
  | (modes, c) :: rest, e => type_all rest (e.typed modes c)

def escapable (modes : Modes) (c : UInt8) : Bool :=
  c = modes.verase ∨ c = modes.vkill ∨ c = modes.veof ∨ (modes.xcase ∧ imaptab c ≠ 0)

def editing (modes : Modes) (c : UInt8) : Bool :=
  c ≠ 0 ∧ (c = modes.verase ∨ c = modes.vkill ∨ (modes.iexten ∧ (c = modes.vlnext ∨ c = modes.vwerase ∨ c = modes.vreprint)))

/-- A line at its maximum length does not get a byte that ends it, nor a literal one that the
bell refuses. -/
def fits (modes : Modes) (e : Editor) : Effect → Bool
  | .edits _ => true
  | .puts c line => full modes line.length → ¬ ends_line modes c ∧ ¬ (e.literal ∧ modes.imaxbel)

/-- Whether a backslash is the byte that a line got last; `kept` if the line gets none now. -/
def backslash (modes : Modes) (e : Editor) (kept : Bool) : Effect → Bool
  | .edits _ => kept
  | .puts c line => if full modes line.length ∧ modes.imaxbel ∨ ¬ e.literal ∧ ends_line modes c then kept else c = 92

/-- The byte is not one that the code takes in another way. `last` tells that a line got a
backslash last, perhaps a literal one, and only bytes for editing have come since. -/
def careful (modes : Modes) (c : UInt8) (e : Editor) (last : Bool) : Bool :=
  fits modes e (e.effect modes c) ∧ (¬ e.literal → escapable modes c → last → e.quoting)

def clean : List (Modes × UInt8) → Editor → Bool → Bool
  | [], _, _ => true
  | (modes, c) :: rest, e, last =>
    careful modes c e last && clean rest (e.typed modes c) (backslash modes e (last && editing modes c) (e.effect modes c))

structure Agrees (d : Draft) (e : Editor) (last : Bool) : Prop where
  line : d.line = e.line
  literal : d.slnch = e.literal
  quot : d.quot = last
  quoting : e.quoting = true → last = true
  sent : d.sent = e.sent

variable {e : Editor} {last kept : Bool} {x x' : Effect}

theorem append_agrees {literal quoting quot : Bool} {sent : List (List UInt8)} (c : UInt8)
    (same : literal = false → quot = kept) :
    Agrees (Draft.ended modes c ⟨line ++ [c], literal, quot, sent⟩) (Editor.append modes c ⟨line, literal, quoting, sent⟩)
      (if ¬ literal ∧ ends_line modes c then kept else c = 92) := by
  rw [Draft.ended, Editor.append]
  dsimp only
  split
  case isTrue ends =>
    have plain : literal = false := Bool.eq_false_iff.mpr ends.1
    exact ⟨rfl, plain, same plain, fun no => Bool.noConfusion no, rfl⟩
  case isFalse =>
    refine ⟨rfl, rfl, rfl, fun quoting => ?_, rfl⟩
    simpa using (of_decide_eq_true quoting).1

theorem put_agrees {literal quoting quot : Bool} {sent : List (List UInt8)} (c : UInt8)
    (same : literal = false → quot = kept) (old : List UInt8)
    (fit : fits modes ⟨old, literal, quoting, sent⟩ (.puts c line) = true) :
    Agrees (Draft.escaped modes c ⟨line, literal, quot, sent⟩) (Editor.after modes ⟨old, literal, quoting, sent⟩ (.puts c line))
      (backslash modes ⟨old, literal, quoting, sent⟩ kept (.puts c line)) := by
  have fit := of_decide_eq_true fit
  rw [Draft.escaped, Editor.after, Editor.put, backslash]
  dsimp only at fit ⊢
  cases long : full modes line.length with
  | false =>
    simp only [Bool.false_eq_true, false_and, if_false, false_or]
    exact append_agrees c same
  | true =>
    obtain ⟨goes_on, bell⟩ := fit long
    simp only [goes_on, Bool.false_eq_true, and_false, not_false_eq_true, and_true, if_true, true_and, or_false]
    split
    · next refused =>
      have plain : literal = false := Bool.eq_false_iff.mpr fun given => bell ⟨given, refused⟩
      exact ⟨rfl, plain, same plain, fun no => Bool.noConfusion no, rfl⟩
    · rw [Draft.ended, Editor.append]
      simp only [goes_on, Bool.false_eq_true, and_false, if_false]
      exact ⟨rfl, rfl, rfl, fun quoting => by simpa using (of_decide_eq_true quoting).1, rfl⟩

def Follows (modes : Modes) (e : Editor) (kept : Bool) (d : Draft) (x : Effect) : Prop :=
  fits modes e x = true → Agrees d (e.after modes x) (backslash modes e kept x)

theorem branch_follows {p q : Prop} [Decidable p] [Decidable q] {d' : Draft} (same : p ↔ q) (yes : p → Follows modes e kept d x)
    (no : ¬ p → Follows modes e kept d' x') : Follows modes e kept (if p then d else d') (if q then x else x') := by
  by_cases way : p
  · rw [if_pos way, if_pos (same.mp way)]
    exact yes way
  · rw [if_neg way, if_neg (fun other => way (same.mpr other))]
    exact no way

theorem typed_agrees (agrees : Agrees d e last) (care : careful modes c e last = true) :
    Agrees (d.typed modes c) (e.typed modes c) (backslash modes e (last && editing modes c) (e.effect modes c)) := by
  obtain ⟨fit, fresh⟩ := of_decide_eq_true care
  refine (show Follows modes e (last && editing modes c) (d.typed modes c) (e.effect modes c) from ?_) fit
  obtain ⟨line, slnch, quot, sent⟩ := d
  obtain ⟨line', literal, quoting, sent'⟩ := e
  obtain ⟨rfl, rfl, rfl, quoted, rfl⟩ := agrees
  cases slnch with
  | true =>
    rw [Draft.typed, Editor.effect]
    simp only [if_true]
    exact put_agrees c (fun no => Bool.noConfusion no) line
  | false =>
    have putting : ∀ line' quot' c', quot' = (quot && editing modes c) →
        Follows modes ⟨line, false, quoting, sent⟩ (quot && editing modes c) (Draft.escaped modes c' ⟨line', false, quot', sent⟩) (.puts c' line') :=
      fun line' quot' c' same => put_agrees c' (fun _ => same) line
    have edits : ∀ line' sent' literal, quot = (quot && editing modes c) →
        Follows modes ⟨line, false, quoting, sent⟩ (quot && editing modes c) ⟨line', literal, quot, sent'⟩ (.edits ⟨line', literal, false, sent'⟩) :=
      fun _ _ _ same _ => ⟨rfl, rfl, same, fun no => Bool.noConfusion no, rfl⟩
    have escapes : escapable modes c = true → (quot = true ↔ quoting = true) :=
      fun special => ⟨fresh (by simp) special, quoted⟩
    have edited : editing modes c = true → quot = (quot && editing modes c) := by
      intro editing
      rw [editing, Bool.and_true]
    have plain : editing modes c = false → false = (quot && editing modes c) := by
      intro other
      rw [other, Bool.and_false]
    rw [Draft.typed, Editor.effect]
    simp only [Bool.false_eq_true, if_false]
    apply branch_follows Iff.rfl
    · rintro rfl
      exact putting line false 0 (plain (by simp [editing]))
    intro some_
    apply branch_follows Iff.rfl
    · intro next
      exact edits line sent true (edited (decide_eq_true ⟨some_, .inr (.inr ⟨next.1, .inl next.2⟩)⟩))
    intro lnext
    apply branch_follows Iff.rfl
    · intro erase
      have special : escapable modes c = true := decide_eq_true (.inl erase)
      have same := edited (decide_eq_true ⟨some_, .inl erase⟩)
      exact branch_follows (escapes special) (fun _ => putting line.dropLast quot c same) (fun _ => edits line.dropLast sent false same)
    intro erase
    apply branch_follows Iff.rfl
    · intro werase
      exact edits (without_word line) sent false (edited (decide_eq_true ⟨some_, .inr (.inr ⟨werase.1, .inr (.inl werase.2)⟩)⟩))
    intro werase
    apply branch_follows Iff.rfl
    · intro kill
      have special : escapable modes c = true := decide_eq_true (.inr (.inl kill))
      have same := edited (decide_eq_true ⟨some_, .inr (.inl kill)⟩)
      refine branch_follows (escapes special) (fun _ => putting line.dropLast quot c same) (fun unquoted => ?_)
      obtain rfl : quot = false := by simpa using unquoted
      exact edits [] sent false same
    intro kill
    apply branch_follows Iff.rfl
    · intro reprint
      exact edits line sent false (edited (decide_eq_true ⟨some_, .inr (.inr ⟨reprint.1, .inr (.inr reprint.2)⟩)⟩))
    intro reprint
    have other : editing modes c = false := by
      refine decide_eq_false ?_
      rintro ⟨-, same | same | ⟨iexten, same | same | same⟩⟩
      · exact erase same
      · exact kill same
      · exact lnext ⟨iexten, same⟩
      · exact werase ⟨iexten, same⟩
      · exact reprint ⟨iexten, same⟩
    by_cases eof : c = modes.veof
    · have special : escapable modes c = true := decide_eq_true (.inr (.inr (.inl eof)))
      simp only [eof, if_true]
      rw [← eof]
      refine branch_follows (escapes special) (fun _ => putting line.dropLast false c (plain other)) (fun unquoted => ?_)
      obtain rfl : quot = false := by simpa using unquoted
      exact edits [] (sent ++ [line]) false rfl
    · simp only [eof, if_false]
      by_cases mapped : modes.xcase = true ∧ imaptab c ≠ 0
      · have special : escapable modes c = true := decide_eq_true (.inr (.inr (.inr mapped)))
        simp only [mapped.1, mapped.2, ne_eq, not_false_eq_true, and_self, and_true, true_and, if_true]
        refine branch_follows (escapes special) (fun _ => putting line.dropLast false (imaptab c) (plain other)) (fun unquoted => ?_)
        obtain rfl : quot = false := by simpa using unquoted
        exact putting line false c rfl
      · have unmapped : ¬ (modes.xcase = true ∧ quoting = true ∧ imaptab c ≠ 0) := fun all => mapped ⟨all.1, all.2.2⟩
        rw [if_neg mapped, if_neg unmapped]
        split
        · exact putting line false c (plain other)
        · next unquoted =>
          obtain rfl : quot = false := by simpa using unquoted
          exact putting line false c rfl

def draft_all : List (Modes × UInt8) → Draft → Draft
  | [], d => d
  | (modes, c) :: rest, d => draft_all rest (d.typed modes c)

theorem all_typed (inputs : List (Modes × UInt8)) (e : Editor) (last : Bool) (holds : Holds s bpt d) :
    ∃ s' bpt', docanon_all inputs s bpt = some (s', bpt') ∧ Holds s' bpt' (draft_all inputs d) ∧
      (clean inputs e last = true → Agrees d e last → ∃ last', Agrees (draft_all inputs d) (type_all inputs e) last') := by
  induction inputs generalizing s bpt d e last with
  | nil => exact ⟨s, bpt, rfl, holds, fun _ agrees => ⟨last, agrees⟩⟩
  | cons input rest ih =>
    obtain ⟨modes, c⟩ := input
    obtain ⟨r, step, holds'⟩ := typed_holds modes c holds
    obtain ⟨s', bpt', run, after, same⟩ := ih (e.typed modes c) (backslash modes e (last && editing modes c) (e.effect modes c)) holds'
    refine ⟨s', bpt', ?_, after, ?_⟩
    · simp only [docanon_all, step, Option.bind_some]
      exact run
    · intro care agrees
      simp only [clean, Bool.and_eq_true] at care
      exact same care.2 (typed_agrees agrees care.1)

/-- The terminal when the first block has been allocated. -/
def opened (mblk : Nat → Mblk) (lim : Nat) : LdtermState × Nat := newmsg (ldtermopen mblk lim)

theorem opened_holds (mblk : Nat → Mblk) {lim : Nat} (room : 0 < lim) :
    Holds (opened mblk lim).1 (opened mblk lim).2 ⟨[], false, false, []⟩ := by
  obtain ⟨whole, same⟩ := newmsg_whole (s := ldtermopen mblk lim) rfl rfl room
  exact ⟨⟨_, whole⟩, whole.last, same.1, same.2.1, same.2.2⟩

/-- Whatever is typed, the blocks are a chain of the line's bytes; and with care the lines
sent upstream are those of the editor. -/
theorem canonical_lines (inputs : List (Modes × UInt8)) (mblk : Nat → Mblk) (lim : Nat) (room : 0 < lim) :
    ∃ s bpt, docanon_all inputs (opened mblk lim).1 (opened mblk lim).2 = some (s, bpt) ∧
      (∃ l, Whole s l (text s.mblk s.fresh s.t_message)) ∧
      (clean inputs Editor.start false = true →
        s.sent = (type_all inputs Editor.start).sent ∧ text s.mblk s.fresh s.t_message = (type_all inputs Editor.start).line) := by
  obtain ⟨s, bpt, run, holds, same⟩ := all_typed inputs Editor.start false (opened_holds mblk room)
  obtain ⟨l, whole⟩ := holds.whole
  have bytes : text s.mblk s.fresh s.t_message = (draft_all inputs ⟨[], false, false, []⟩).line :=
    (text_linked whole.linked whole.length_le).trans whole.holds
  refine ⟨s, bpt, run, ⟨l, by rw [bytes]; exact whole⟩, ?_⟩
  intro care
  obtain ⟨_, agrees⟩ := same care ⟨rfl, rfl, rfl, fun no => Bool.noConfusion no, rfl⟩
  exact ⟨holds.sent.trans agrees.sent, bytes.trans agrees.line⟩

def usual : Modes := ⟨8, 23, 21, 18, 22, 4, 0, 0, true, false, true, 1⟩

private def blocks : Nat → Mblk := fun _ => ⟨fun _ => 0, 0, none⟩

/-- An erase character behind a backslash, a literal backslash behind which a letter is erased, and a newline. -/
theorem canonical_lines_typed : ∃ s bpt, docanon_all ([97, 92, 8, 22, 92, 98, 8, 8, 10].map (usual, ·)) (opened blocks 2).1 (opened blocks 2).2 =
    some (s, bpt) ∧ s.sent = [[97, 8, 10]] := by
  obtain ⟨s, bpt, run, -, same⟩ := canonical_lines ([97, 92, 8, 22, 92, 98, 8, 8, 10].map (usual, ·)) blocks 2 (by decide)
  exact ⟨s, bpt, run, (same (by decide)).1⟩

def Differs (inputs : List UInt8) : Prop :=
  ∃ s bpt, docanon_all (inputs.map (usual, ·)) (opened blocks 64).1 (opened blocks 64).2 = some (s, bpt) ∧
    s.sent ≠ (type_all (inputs.map (usual, ·)) Editor.start).sent

theorem differs_draft {inputs : List UInt8}
    (differ : (draft_all (inputs.map (usual, ·)) ⟨[], false, false, []⟩).sent ≠ (type_all (inputs.map (usual, ·)) Editor.start).sent) :
    Differs inputs := by
  obtain ⟨s, bpt, run, holds, -⟩ := all_typed (inputs.map (usual, ·)) Editor.start false (opened_holds blocks (show 0 < 64 by decide))
  exact ⟨s, bpt, run, by rwa [holds.sent]⟩

/-- An erase character behind a literal backslash, and behind a backslash and a reprint; a
literal byte that is refused, and a newline that is. -/
theorem flags_out_of_date : Differs [97, 22, 92, 8, 10] ∧ Differs [97, 92, 18, 8, 10] ∧
    Differs (List.replicate 257 97 ++ [22, 97, 8, 8, 10]) ∧ Differs (List.replicate 257 97 ++ [10]) := by
  refine ⟨differs_draft ?_, differs_draft ?_, differs_draft ?_, differs_draft ?_⟩ <;> decide +kernel

end Svr4.Proofs.LdtermLines
