import Svr4.Gmatch
import Svr4.Library.Faults

/-! What the patterns mean, and that `gmatch` accepts exactly that. -/

namespace Svr4.Proofs.GmatchLanguage
open Gmatch Faults

variable {members : List Member} {p rest s t t' : List UInt8} {time : Nat} {last : Option UInt8} {c : UInt8}

inductive Literal : List UInt8 → UInt8 → List UInt8 → Prop where
  | plain {c : UInt8} {rest : List UInt8} (other : c ≠ backslash) : Literal (c :: rest) c rest
  | quoted (c : UInt8) (rest : List UInt8) : Literal (backslash :: c :: rest) c rest

inductive Member where
  | char (c : UInt8)
  | range (lo hi : UInt8)

def Member.Has (x : UInt8) : Member → Prop
  | .char c => x = c
  | .range lo hi => lo ≤ x ∧ x ≤ hi

def Ranging : List UInt8 → Prop
  | c :: next :: _ => c = hyphen ∧ next ≠ closing
  | _ => False

/-- What a bracket lists, when `last` is the character before, and what is behind the bracket. A
bracket does not end before its first character, and the end of a range is listed itself. -/
inductive Bracket : Option UInt8 → List UInt8 → List Member → List UInt8 → Prop where
  | close (last : UInt8) (rest : List UInt8) : Bracket (some last) (closing :: rest) [] rest
  | range {lo hi : UInt8} {text text' rest : List UInt8} {members : List Member} (ranging : Ranging (hyphen :: text))
      (literal : Literal text hi text') (more : Bracket (some hi) text' members rest) :
      Bracket (some lo) (hyphen :: text) (.range lo hi :: .char hi :: members) rest
  | char {last : Option UInt8} {c : UInt8} {text text' rest : List UInt8} {members : List Member}
      (inner : last ≠ none → text.head? ≠ some closing ∧ ¬ Ranging text)
      (literal : Literal text c text') (more : Bracket (some c) text' members rest) :
      Bracket last text (.char c :: members) rest

inductive Matches : List UInt8 → List UInt8 → Prop where
  | done : Matches [] []
  | any (s : List UInt8) {p t : List UInt8} (more : Matches p t) : Matches (asterisk :: p) (s ++ t)
  | one (c : UInt8) {p s : List UInt8} (more : Matches p s) : Matches (question :: p) (c :: s)
  | among {c : UInt8} {p rest s : List UInt8} {members : List Member} (plain : p.head? ≠ some exclamation)
      (bracket : Bracket none p members rest) (listed : ∃ m ∈ members, m.Has c) (more : Matches rest s) :
      Matches (opening :: p) (c :: s)
  | except {c : UInt8} {p rest s : List UInt8} {members : List Member}
      (bracket : Bracket none p members rest) (unlisted : ∀ m ∈ members, ¬ m.Has c) (more : Matches rest s) :
      Matches (opening :: exclamation :: p) (c :: s)
  | quoted (c : UInt8) {p s : List UInt8} (more : Matches p s) : Matches (backslash :: c :: p) (c :: s)
  | plain {c : UInt8} {p s : List UInt8} (other : c ∉ [asterisk, question, opening, backslash]) (more : Matches p s) :
      Matches (c :: p) (c :: s)

def Text (s : List UInt8) : Prop := ∀ c ∈ s, c ≠ 0

theorem Text.tail (text : Text (c :: s)) : Text s := fun _ inside => text _ (by simp [inside])

theorem Text.head (text : Text (c :: s)) : c ≠ 0 := text c (by simp)

def memory (s : List UInt8) : List UInt8 := s ++ [0]

@[simp] theorem memory_cons (c : UInt8) (s : List UInt8) : memory (c :: s) = c :: memory s := rfl
@[simp] theorem memory_nil : memory [] = [0] := rfl
theorem deref_cons (c : UInt8) (s : List UInt8) : deref (c :: s) = .ok c := rfl

theorem Literal.text (literal : Literal t c t') (text : Text t) : c ≠ 0 ∧ Text t' ∧ t'.length < t.length := by
  cases literal with
  | plain other => exact ⟨text.head, text.tail, by simp⟩
  | quoted c rest => exact ⟨text.tail.head, text.tail.tail, by simp⟩

def literal (p : List UInt8) : Except Stop (UInt8 × List UInt8) := popwchar p >>= fun x => unquote x.1 x.2

theorem literal_memory (text : Text t) (is_literal : Literal t c t') :
    literal (memory t) = .ok (c, memory t') := by
  cases is_literal with
  | plain other => simp [literal, popwchar, unquote, text.head, other, bind, Except.bind]
  | quoted c rest => simp [literal, popwchar, unquote, text.head, text.tail.head, bind, Except.bind]

theorem literal_cases (text : Text t) : literal (memory t) = .error .mismatch ∨ ∃ c t', Literal t c t' := by
  cases t with
  | nil => exact .inl rfl
  | cons c t =>
    by_cases quote : c = backslash
    · subst quote
      cases t with
      | nil => exact .inl (by simp [literal, popwchar, unquote, text.head, bind, Except.bind])
      | cons c t => exact .inr ⟨c, t, .quoted c t⟩
    · exact .inr ⟨c, t, .plain quote⟩

section
variable (scc : UInt8) (notflag : Bool)

instance (m : Member) : Decidable (m.Has scc) := by
  cases m <;> unfold Member.Has <;> infer_instance

def listed (ok : Nat) (members : List Member) : Except Stop Nat := members.foldlM (fun ok m => tally notflag (m.Has scc) ok) ok

theorem tally_cases (hit : Bool) (ok : Nat) : tally notflag hit ok = .error .mismatch ∨ ∃ k, tally notflag hit ok = .ok k := by
  cases notflag <;> cases hit <;> simp [tally]

def resume (time : Nat) (last : Option UInt8) (ok : Nat) (p : List UInt8) : Except Stop (Nat × List UInt8) := do
  let (c, p) ← popwchar p
  if c = closing ∧ last ≠ none then return (ok, p) else bracket scc notflag time (last.getD 0) ok c p

theorem rangeEnd_eq (lc : UInt8) (ok : Nat) (p : List UInt8) :
    rangeEnd scc notflag lc ok p = literal p >>= fun x =>
      tally notflag (Member.Has scc (.range lc x.1)) ok >>= fun ok => .ok (x.1, x.2, ok) := by
  simp only [rangeEnd, literal, bind_assoc]
  rfl

theorem bracket_succ (time : Nat) (lc : UInt8) (ok : Nat) (c : UInt8) (p : List UInt8) :
    bracket scc notflag (time + 1) lc ok c p = rangeOrChar scc notflag lc ok c p >>= fun x =>
      tally notflag (Member.Has scc (.char x.1)) x.2.2 >>= fun ok => resume scc notflag time (some x.1) ok x.2.1 := by
  simp only [bracket, resume, Member.Has, ne_eq, reduceCtorEq, not_false_eq_true, and_true, Option.getD_some]

variable {scc notflag}

def Between (last : Option UInt8) (c : UInt8) (text : List UInt8) : Prop := c = hyphen ∧ last ≠ none ∧ text.head? ≠ some closing

theorem isRange_memory (nonzero : ∀ c, last = some c → c ≠ 0) (c : UInt8) (text : List UInt8) :
    isRange c (last.getD 0) (memory text) = .ok true ∧ Between last c text ∨
      isRange c (last.getD 0) (memory text) = .ok false ∧ ¬ Between last c text := by
  cases last with
  | none => simp [isRange, Between]
  | some lo =>
    have other := nonzero lo rfl
    by_cases dash : c = hyphen
    · cases text with
      | nil => simp [isRange, Between, dash, other, deref, Except.map, closing]
      | cons next text =>
        by_cases closed : next = closing <;> simp [isRange, Between, dash, other, deref, Except.map, closed]
    · simp [isRange, Between, dash]

theorem range_round {lo : UInt8} {text : List UInt8} (ok : Nat) (nonzero : lo ≠ 0) (between : Between (some lo) c text) :
    rangeOrChar scc notflag lo ok c (memory text) = literal (memory text) >>= fun x =>
      tally notflag (Member.Has scc (.range lo x.1)) ok >>= fun ok => .ok (x.1, x.2, ok) := by
  obtain ⟨range, _⟩ | ⟨_, absent⟩ := @isRange_memory (some lo) (by rintro x ⟨⟩; exact nonzero) c text
  · rw [Option.getD_some] at range
    rw [← rangeEnd_eq, rangeOrChar, range, ok_bind, if_pos rfl]
  · exact absurd between absent

theorem char_round {text : List UInt8} (ok : Nat) (plain : Text (c :: text))
    (nonzero : ∀ c, last = some c → c ≠ 0) (single : ¬ Between last c text) :
    rangeOrChar scc notflag (last.getD 0) ok c (memory text) = literal (memory (c :: text)) >>= fun x => .ok (x.1, x.2, ok) := by
  obtain ⟨_, present⟩ | ⟨char, _⟩ := isRange_memory nonzero c text
  · exact absurd present single
  · have read : literal (memory (c :: text)) = unquote c (memory text) := by
      simp [literal, popwchar, plain.head, ok_bind]
    rw [read, rangeOrChar, char, ok_bind, if_neg (by simp)]
    rfl

theorem resume_cons {text : List UInt8} (plain : Text (c :: text))
    (more : ¬ (c = closing ∧ last ≠ none)) (time ok : Nat) :
    resume scc notflag time last ok (memory (c :: text)) = bracket scc notflag time (last.getD 0) ok c (memory text) := by
  simp [resume, popwchar, plain.head, more, ok_bind]

theorem resume_bracket {text : List UInt8} (bracket : Bracket last text members rest)
    (plain : Text text) (nonzero : ∀ c, last = some c → c ≠ 0) (enough : text.length ≤ time) (ok : Nat) :
    resume scc notflag time last ok (memory text) = listed scc notflag ok members >>= fun ok => .ok (ok, memory rest) := by
  induction bracket generalizing time ok with
  | close c rest => simp [resume, popwchar, closing, listed, bind, Except.bind, pure, Except.pure]
  | @range lo hi text text' rest members ranging is_literal more ih =>
    obtain ⟨hi_nonzero, plain', shorter⟩ := is_literal.text plain.tail
    obtain ⟨time, rfl⟩ : ∃ left, time = left + 1 := ⟨time - 1, by simp at enough; omega⟩
    have room : text'.length ≤ time := by simp at enough; omega
    have next := ih plain' (by rintro c ⟨⟩; exact hi_nonzero) room
    have between : Between (some lo) hyphen text := by
      cases text with
      | nil => exact ranging.elim
      | cons first text => exact ⟨rfl, by simp, by simpa using ranging.2⟩
    rw [resume_cons plain (fun both => absurd both.1 (by decide)), bracket_succ, Option.getD_some, range_round ok (nonzero lo rfl) between,
      literal_memory plain.tail is_literal]
    simp only [listed, List.foldlM_cons, bind_assoc, ok_bind] at next ⊢
    simp only [next]
  | @char last c text text' rest members inner is_literal more ih =>
    obtain ⟨first, text, rfl⟩ : ∃ first rest, text = first :: rest := by cases is_literal <;> exact ⟨_, _, rfl⟩
    obtain ⟨c_nonzero, plain', shorter⟩ := is_literal.text plain
    obtain ⟨time, rfl⟩ : ∃ left, time = left + 1 := ⟨time - 1, by simp at enough; omega⟩
    have room : text'.length ≤ time := by simp at enough shorter; omega
    have next := ih plain' (by rintro x ⟨⟩; exact c_nonzero) room
    have single : ¬ Between last first text := by
      rintro ⟨rfl, before, other⟩
      cases text with
      | nil =>
        -- nothing follows a hyphen at the end, so that the bracket is not closed
        cases is_literal
        cases more with
        | char _ is_literal _ => cases is_literal
      | cons next text => exact (inner before).2 ⟨rfl, by simpa using other⟩
    have entered : ¬ (first = closing ∧ last ≠ none) := fun ⟨same, before⟩ => (inner before).1 (by simp [same])
    rw [resume_cons plain entered, bracket_succ, char_round ok plain nonzero single, literal_memory plain is_literal]
    simp only [listed, List.foldlM_cons, bind_assoc, ok_bind] at next ⊢
    simp only [next]

theorem resume_cases {text : List UInt8} (plain : Text text) (nonzero : ∀ c, last = some c → c ≠ 0) (enough : text.length ≤ time) (ok : Nat) :
    resume scc notflag time last ok (memory text) = .error .mismatch ∨ ∃ members rest, Bracket last text members rest := by
  induction time generalizing last text ok with
  | zero =>
    obtain rfl := List.length_eq_zero_iff.mp (Nat.le_zero.mp enough)
    exact .inl rfl
  | succ time ih =>
    cases text with
    | nil => exact .inl rfl
    | cons c text =>
      by_cases ended : c = closing ∧ last ≠ none
      · obtain ⟨rfl, present⟩ := ended
        obtain ⟨before, rfl⟩ := Option.ne_none_iff_exists'.mp present
        exact .inr ⟨[], text, .close before text⟩
      rw [resume_cons plain ended, bracket_succ]
      by_cases between : Between last c text
      · obtain ⟨rfl, present, inside⟩ := id between
        obtain ⟨lo, rfl⟩ := Option.ne_none_iff_exists'.mp present
        rw [Option.getD_some, range_round ok (nonzero lo rfl) between]
        obtain failed | ⟨hi, text', is_literal⟩ := literal_cases plain.tail
        · exact .inl (by rw [failed]; rfl)
        obtain ⟨hi_nonzero, plain', shorter⟩ := is_literal.text plain.tail
        have room : text'.length ≤ time := by simp at enough; omega
        rw [literal_memory plain.tail is_literal, ok_bind]
        obtain failed | ⟨k, counted⟩ := tally_cases notflag (Member.Has scc (.range lo hi)) ok
        · exact .inl (by rw [failed]; rfl)
        obtain failed | ⟨k', counted'⟩ := tally_cases notflag (Member.Has scc (.char hi)) k
        · exact .inl (by simp only [counted, ok_bind, failed]; rfl)
        obtain failed | ⟨members, rest, bracket⟩ := @ih (some hi) text' plain' (by rintro x ⟨⟩; exact hi_nonzero) room k'
        · exact .inl (by simp only [counted, ok_bind, counted', failed])
        · have ranging : Ranging (hyphen :: text) := by
            cases text with
            | nil => cases is_literal
            | cons next text => exact ⟨rfl, by simpa using inside⟩
          exact .inr ⟨_, _, .range ranging is_literal bracket⟩
      · have inner : last ≠ none → (c :: text).head? ≠ some closing ∧ ¬ Ranging (c :: text) := by
          intro present
          refine ⟨fun same => ended ⟨by simpa using same, present⟩, ?_⟩
          cases text with
          | nil => exact id
          | cons next text => exact fun ⟨same, other⟩ => between ⟨same, present, by simpa using other⟩
        rw [char_round ok plain nonzero between]
        obtain failed | ⟨x, text', is_literal⟩ := literal_cases plain
        · exact .inl (by rw [failed]; rfl)
        obtain ⟨x_nonzero, plain', shorter⟩ := is_literal.text plain
        have room : text'.length ≤ time := by simp at enough shorter; omega
        rw [literal_memory plain is_literal, ok_bind]
        obtain failed | ⟨k, counted⟩ := tally_cases notflag (Member.Has scc (.char x)) ok
        · exact .inl (by simp only [ok_bind, failed]; rfl)
        obtain failed | ⟨members, rest, bracket⟩ := @ih (some x) text' plain' (by rintro y ⟨⟩; exact x_nonzero) room k
        · exact .inl (by simp only [ok_bind, counted, failed])
        · exact .inr ⟨_, _, .char inner is_literal bracket⟩

end

theorem listed_plain (scc : UInt8) (ok : Nat) (members : List Member) :
    ∃ k, listed scc false ok members = .ok k ∧ (k ≠ 0 ↔ ok ≠ 0 ∨ ∃ m ∈ members, m.Has scc) := by
  induction members generalizing ok with
  | nil => exact ⟨ok, rfl, by simp⟩
  | cons m members ih =>
    obtain ⟨k, counted, exact_⟩ := ih (if m.Has scc then ok + 1 else ok)
    refine ⟨k, by simpa [listed, tally, ok_bind] using counted, exact_.trans ?_⟩
    by_cases hit : m.Has scc <;> simp [hit]

theorem listed_negated (scc : UInt8) (ok : Nat) (members : List Member) :
    (∃ m ∈ members, m.Has scc) ∧ listed scc true ok members = .error .mismatch ∨
      (∀ m ∈ members, ¬ m.Has scc) ∧ listed scc true ok members = .ok (ok + members.length) := by
  induction members generalizing ok with
  | nil => exact .inr ⟨by simp, rfl⟩
  | cons m members ih =>
    by_cases hit : m.Has scc
    · exact .inl ⟨⟨m, by simp, hit⟩, by simp [listed, tally, hit]; rfl⟩
    · have step : listed scc true ok (m :: members) = listed scc true (ok + 1) members := by simp [listed, tally, hit, ok_bind]
      obtain ⟨⟨m', inside, has⟩, same⟩ | ⟨without, same⟩ := ih (ok + 1)
      · exact .inl ⟨⟨m', by simp [inside], has⟩, step.trans same⟩
      · refine .inr ⟨by simpa [hit] using without, ?_⟩
        rw [step, same, List.length_cons]
        congr 1
        omega

theorem Bracket.text {text : List UInt8} (bracket : Bracket last text members rest)
    (plain : Text text) : Text rest ∧ rest.length < text.length := by
  induction bracket with
  | close c rest => exact ⟨plain.tail, by simp⟩
  | range _ is_literal _ ih =>
    obtain ⟨_, plain', shorter⟩ := is_literal.text plain.tail
    obtain ⟨plain'', shorter'⟩ := ih plain'
    exact ⟨plain'', by simp; omega⟩
  | char _ is_literal _ ih =>
    obtain ⟨_, plain', shorter⟩ := is_literal.text plain
    obtain ⟨plain'', shorter'⟩ := ih plain'
    exact ⟨plain'', by omega⟩

def Accepts (time : Nat) (s p : List UInt8) : Prop :=
  ∃ accepted, gmatch time (memory s) (memory p) = .ok accepted ∧ (accepted = true ↔ Matches p s)

def Right (time : Nat) : Prop := ∀ s p, Text s → Text p → p.length < time → Accepts time s p

def onward (time : Nat) (s : List UInt8) (x : Nat × List UInt8) : Except Stop Bool :=
  if x.1 = 0 then .ok false else gmatch time s x.2

theorem gmatch_bracket (nonzero : c ≠ 0) :
    gmatch (time + 1) (memory (c :: s)) (memory (opening :: p)) = answer (inBracket time c (memory p) >>= onward time (memory s)) := by
  simp only [memory_cons, gmatch, deref, ok_bind, List.tail_cons, nonzero, if_false, pure, Except.pure]
  rfl

theorem inBracket_plain (plain : p.head? ≠ some exclamation) (time : Nat) (scc : UInt8) :
    inBracket time scc (memory p) = resume scc false time none 0 (memory p) := by
  have positive : negation (memory p) = .ok (false, memory p) := by
    cases p with
    | nil => simp [negation, deref, Except.map, exclamation]
    | cons c p => simpa [negation, deref, Except.map] using plain
  simp [inBracket, positive, ok_bind, resume]

theorem inBracket_negated (p : List UInt8) (time : Nat) (scc : UInt8) :
    inBracket time scc (memory (exclamation :: p)) = resume scc true time none 0 (memory p) := by
  simp [inBracket, negation, deref, Except.map, ok_bind, resume]

theorem Literal.unique {t'' : List UInt8} {c' : UInt8} (first : Literal t c t') (second : Literal t c' t'') : c = c' ∧ t' = t'' := by
  cases first with
  | plain other =>
    cases second with
    | plain => exact ⟨rfl, rfl⟩
    | quoted => exact absurd rfl other
  | quoted c rest =>
    cases second with
    | plain other => exact absurd rfl other
    | quoted => exact ⟨rfl, rfl⟩

theorem Bracket.unique {text rest' : List UInt8} {members' : List Member}
    (first : Bracket last text members rest) (second : Bracket last text members' rest') : members = members' ∧ rest = rest' := by
  induction first generalizing members' rest' with
  | close c rest =>
    cases second with
    | close => exact ⟨rfl, rfl⟩
    | char inner => simp at inner
  | range ranging is_literal more ih =>
    cases second with
    | range ranging' is_literal' more' =>
      obtain ⟨rfl, rfl⟩ := is_literal.unique is_literal'
      obtain ⟨rfl, rfl⟩ := ih more'
      exact ⟨rfl, rfl⟩
    | char inner => exact absurd ranging (inner (by simp)).2
  | char inner is_literal more ih =>
    cases second with
    | close => simp at inner
    | range ranging => exact absurd ranging (inner (by simp)).2
    | char _ is_literal' more' =>
      obtain ⟨rfl, rfl⟩ := is_literal.unique is_literal'
      obtain ⟨rfl, rfl⟩ := ih more'
      exact ⟨rfl, rfl⟩

theorem accepts_among (right : Right time) (plain_s : Text (c :: s)) (plain : Text p)
    (enough : p.length < time) (positive : p.head? ≠ some exclamation) : Accepts (time + 1) (c :: s) (opening :: p) := by
  unfold Accepts
  rw [gmatch_bracket plain_s.head, inBracket_plain positive]
  have back : Matches (opening :: p) (c :: s) → ∃ members rest, Bracket none p members rest ∧ (∃ m ∈ members, m.Has c) ∧ Matches rest s := by
    intro matching
    cases matching with
    | among _ bracket has more => exact ⟨_, _, bracket, has, more⟩
    | except => simp at positive
    | plain other _ => simp at other
  have parse {members : List Member} {rest : List UInt8} (bracket : Bracket none p members rest) :=
    @resume_bracket members rest time none c false p bracket plain (by simp) enough.le 0
  obtain failed | ⟨members, rest, bracket⟩ := @resume_cases time none c false p plain (by simp) enough.le 0
  · refine ⟨false, by rw [failed]; rfl, by simp, fun matching => ?_⟩
    obtain ⟨members, rest, bracket, _⟩ := back matching
    obtain ⟨k, counted, _⟩ := listed_plain c 0 members
    rw [parse bracket, counted] at failed
    cases failed
  · obtain ⟨k, counted, hit⟩ := listed_plain c 0 members
    rw [parse bracket, counted, ok_bind, ok_bind, onward]
    by_cases none_fits : k = 0
    · refine ⟨false, by simp [none_fits, answer], by simp, fun matching => ?_⟩
      obtain ⟨members', rest', bracket', has, _⟩ := back matching
      obtain ⟨rfl, rfl⟩ := bracket.unique bracket'
      exact absurd none_fits (hit.mpr (.inr has))
    · obtain ⟨plain_rest, shorter⟩ := bracket.text plain
      obtain ⟨b, run, exact_⟩ := right s rest plain_s.tail plain_rest (by omega)
      refine ⟨b, by simp [none_fits, run, answer], exact_.trans ⟨fun more => ?_, fun matching => ?_⟩⟩
      · exact .among positive bracket ((hit.mp none_fits).resolve_left (by simp)) more
      · obtain ⟨members', rest', bracket', _, more⟩ := back matching
        obtain ⟨rfl, rfl⟩ := bracket.unique bracket'
        exact more

theorem accepts_except (right : Right time) (plain_s : Text (c :: s)) (plain : Text p)
    (enough : p.length < time) : Accepts (time + 1) (c :: s) (opening :: exclamation :: p) := by
  unfold Accepts
  rw [gmatch_bracket plain_s.head, inBracket_negated]
  have back : Matches (opening :: exclamation :: p) (c :: s) →
      ∃ members rest, Bracket none p members rest ∧ (∀ m ∈ members, ¬ m.Has c) ∧ Matches rest s := by
    intro matching
    cases matching with
    | among positive => simp at positive
    | except bracket without more => exact ⟨_, _, bracket, without, more⟩
    | plain other _ => simp at other
  have parse {members : List Member} {rest : List UInt8} (bracket : Bracket none p members rest) :=
    @resume_bracket members rest time none c true p bracket plain (by simp) enough.le 0
  obtain failed | ⟨members, rest, bracket⟩ := @resume_cases time none c true p plain (by simp) enough.le 0
  · refine ⟨false, by rw [failed]; rfl, by simp, fun matching => ?_⟩
    obtain ⟨members, rest, bracket, without, _⟩ := back matching
    obtain ⟨⟨m, inside, has⟩, _⟩ | ⟨_, counted⟩ := listed_negated c 0 members
    · exact (without m inside has).elim
    · rw [parse bracket, counted] at failed
      cases failed
  · obtain ⟨⟨m, inside, has⟩, stopped⟩ | ⟨without, counted⟩ := listed_negated c 0 members
    · refine ⟨false, by rw [parse bracket, stopped]; rfl, by simp, fun matching => ?_⟩
      obtain ⟨members', rest', bracket', without, _⟩ := back matching
      obtain ⟨rfl, rfl⟩ := bracket.unique bracket'
      exact (without m inside has).elim
    · have some_listed : members ≠ [] := by
        cases bracket
        simp
      obtain ⟨plain_rest, shorter⟩ := bracket.text plain
      obtain ⟨b, run, exact_⟩ := right s rest plain_s.tail plain_rest (by omega)
      refine ⟨b, ?_, exact_.trans ⟨fun more => .except bracket without more, fun matching => ?_⟩⟩
      · simp [parse bracket, counted, ok_bind, onward, some_listed, run, answer]
      · obtain ⟨members', rest', bracket', _, more⟩ := back matching
        obtain ⟨rfl, rfl⟩ := bracket.unique bracket'
        exact more

theorem accepts_bracket (right : Right time) (plain_s : Text s) (plain : Text p) (enough : p.length < time) :
    Accepts (time + 1) s (opening :: p) := by
  cases s with
  | nil => exact ⟨false, by simp [gmatch, deref, opening, answer, ok_bind, pure, Except.pure], by simp; rintro ⟨⟩⟩
  | cons c s =>
    by_cases negated : p.head? = some exclamation
    · obtain ⟨p, rfl⟩ := List.head?_eq_some_iff.mp negated
      exact accepts_except right plain_s plain.tail (by simp at enough; omega)
    · exact accepts_among right plain_s plain enough negated

theorem drop_stars : Matches (asterisk :: p) s ↔ Matches (asterisk :: p.dropWhile (· = asterisk)) s := by
  induction p generalizing s with
  | nil => simp
  | cons c p ih =>
    by_cases more : c = asterisk
    · subst more
      have merged : Matches (asterisk :: asterisk :: p) s ↔ Matches (asterisk :: p) s := by
        constructor
        · intro matching
          cases matching with
          | any u more => cases more with
            | any v more => exact List.append_assoc u v _ ▸ .any (u ++ v) more
            | plain other _ => simp at other
          | plain other _ => simp at other
        · exact fun matching => .any [] matching
      rw [merged, ih, List.dropWhile_cons_of_pos (by simp)]
    · rw [List.dropWhile_cons_of_neg (by simpa using more)]

theorem memory_dropWhile (p : List UInt8) : (memory p).dropWhile (· = asterisk) = memory (p.dropWhile (· = asterisk)) := by
  induction p with
  | nil => simp [asterisk]
  | cons c p ih => by_cases more : c = asterisk <;> simp [more, ih]

theorem anySuffix_memory {matching : List UInt8 → Except Stop Bool} {P : List UInt8 → Prop} (plain : Text s)
    (each : ∀ t, t <:+ s → ∃ b, matching (memory t) = .ok b ∧ (b = true ↔ P t)) :
    ∃ b, anySuffix matching (memory s) = .ok b ∧ (b = true ↔ ∃ t, t ≠ [] ∧ t <:+ s ∧ P t) := by
  induction s with
  | nil => exact ⟨false, rfl, by simp⟩
  | cons c s ih =>
    obtain ⟨b, here, exact_⟩ := each _ (List.suffix_refl _)
    cases b with
    | true =>
      refine ⟨true, ?_, by simpa using ⟨c :: s, by simp, List.suffix_refl _, exact_.mp rfl⟩⟩
      rw [memory_cons] at here ⊢
      simp [anySuffix, plain.head, here, ok_bind, pure, Except.pure]
    | false =>
      obtain ⟨b, later, exact_'⟩ := ih plain.tail fun t suffix => each t (suffix.trans (List.suffix_cons c s))
      refine ⟨b, ?_, exact_'.trans ?_⟩
      · rw [memory_cons] at here ⊢
        simpa [anySuffix, plain.head, here, ok_bind] using later
      · constructor
        · exact fun ⟨t, present, suffix, holds⟩ => ⟨t, present, suffix.trans (List.suffix_cons c s), holds⟩
        · rintro ⟨t, present, suffix, holds⟩
          obtain rfl | inside := List.suffix_cons_iff.mp suffix
          · exact absurd (exact_.mpr holds) (by simp)
          · exact ⟨t, present, inside, holds⟩

theorem matches_nil (matching : Matches p s) (empty : s = []) : p = [] ∨ p.head? = some asterisk := by
  cases matching with
  | done => exact .inl rfl
  | any => exact .inr rfl
  | _ => cases empty

theorem accepts_star (right : Right time) (plain_s : Text s) (plain : Text p) (enough : p.length < time) :
    Accepts (time + 1) s (asterisk :: p) := by
  unfold Accepts
  rw [drop_stars]
  obtain ⟨rest, skipped⟩ : ∃ rest, p.dropWhile (· = asterisk) = rest := ⟨_, rfl⟩
  have suffix : rest <:+ p := skipped ▸ List.dropWhile_suffix _
  have plain_rest : Text rest := fun c inside => plain c (suffix.subset inside)
  have starts : rest.head? ≠ some asterisk := by
    have first := List.head?_dropWhile_not (fun c => decide (c = asterisk)) p
    rw [skipped] at first
    intro same
    simp [same] at first
  have back : Matches (asterisk :: rest) s → ∃ t, t <:+ s ∧ Matches rest t := by
    intro matching
    cases matching with
    | any u more => exact ⟨_, List.suffix_append _ _, more⟩
    | plain other _ => simp at other
  have run : gmatch (time + 1) (memory s) (memory (asterisk :: p)) = answer (deref (memory rest) >>= fun next =>
      if next = 0 then .ok true else anySuffix (fun s => gmatch time s (memory rest)) (memory s)) := by
    have first : ∃ c, deref (memory s) = .ok c := by cases s <;> exact ⟨_, rfl⟩
    obtain ⟨c, first⟩ := first
    rw [← skipped, ← memory_dropWhile]
    simp only [gmatch, first, deref_cons, ok_bind, memory_cons, List.tail_cons, pure, Except.pure]
    rw [if_neg (by decide), if_neg (by decide), if_neg (by decide), if_pos trivial]
  rw [skipped, run]
  cases rest with
  | nil =>
    have whole := Matches.any s .done
    rw [List.append_nil] at whole
    exact ⟨true, rfl, fun _ => whole, fun _ => rfl⟩
  | cons c rest =>
    obtain ⟨b, found, exact_⟩ := @anySuffix_memory s (fun s => gmatch time s (memory (c :: rest))) (Matches (c :: rest)) plain_s
      fun t suffix_t => right t (c :: rest) (fun x inside => plain_s x (suffix_t.subset inside)) plain_rest (suffix.length_le.trans_lt enough)
    refine ⟨b, ?_, exact_.trans ⟨?_, fun matching => ?_⟩⟩
    · simp only [memory_cons] at found ⊢
      simp [deref, ok_bind, plain_rest.head, found, answer]
    · rintro ⟨t, _, ⟨u, rfl⟩, more⟩
      exact .any u more
    · obtain ⟨t, suffix_t, more⟩ := back matching
      refine ⟨t, ?_, suffix_t, more⟩
      rintro rfl
      obtain empty | starred := matches_nil more rfl
      · cases empty
      · exact starts starred

theorem accepts_question (right : Right time) (plain_s : Text s) (plain : Text p) (enough : p.length < time) :
    Accepts (time + 1) s (question :: p) := by
  cases s with
  | nil => exact ⟨false, by simp [gmatch, deref, question, opening, answer, ok_bind, pure, Except.pure], by simp; rintro ⟨⟩⟩
  | cons c s =>
    obtain ⟨b, run, exact_⟩ := right s p plain_s.tail plain enough
    refine ⟨b, ?_, exact_.trans ⟨.one c, ?_⟩⟩
    · simp [gmatch, deref, question, opening, ok_bind, plain_s.head, run, answer]
    · intro matching
      cases matching with
      | one _ more => exact more
      | plain other _ => simp at other

theorem accepts_literal {p' : List UInt8} {x : UInt8} (right : Right time) (plain_s : Text s) (plain : Text (c :: p))
    (enough : p.length < time) (other : c ∉ [asterisk, question, opening]) (is_literal : Literal (c :: p) x p') :
    Accepts (time + 1) s (c :: p) := by
  obtain ⟨nonzero, plain', shorter⟩ := is_literal.text plain
  have read : unquote c (memory p) = .ok (x, memory p') := by
    have whole := literal_memory plain is_literal
    simpa [literal, popwchar, plain.head, ok_bind] using whole
  have back : Matches (c :: p) s → ∃ t, s = x :: t ∧ Matches p' t := by
    intro matching
    cases matching with
    | any => simp at other
    | one => simp at other
    | among => simp at other
    | except => simp at other
    | quoted y more =>
      obtain ⟨rfl, rfl⟩ := is_literal.unique (.quoted y _)
      exact ⟨_, rfl, more⟩
    | plain special more =>
      obtain ⟨rfl, rfl⟩ := is_literal.unique (.plain fun same => special (by simp [same]))
      exact ⟨_, rfl, more⟩
  have forward {t : List UInt8} (more : Matches p' t) : Matches (c :: p) (x :: t) := by
    cases is_literal with
    | plain unquoted => exact .plain (by simpa [unquoted] using other) more
    | quoted => exact .quoted x more
  simp only [List.mem_cons, List.not_mem_nil, or_false, not_or] at other
  cases s with
  | nil =>
    refine ⟨false, ?_, by simp, fun matching => ?_⟩
    · simp [gmatch, deref, ok_bind, plain.head, other, read, nonzero, answer, pure, Except.pure]
    · obtain ⟨t, same, _⟩ := back matching
      cases same
  | cons y s =>
    by_cases same : x = y
    · subst same
      obtain ⟨b, run, exact_⟩ := right s p' plain_s.tail plain' (by simp at shorter; omega)
      refine ⟨b, ?_, exact_.trans ⟨forward, fun matching => ?_⟩⟩
      · simp [gmatch, deref, ok_bind, plain.head, other, read, nonzero, run, answer]
      · obtain ⟨t, same, more⟩ := back matching
        cases same
        exact more
    · refine ⟨false, ?_, by simp, fun matching => ?_⟩
      · simp [gmatch, deref, ok_bind, plain.head, other, read, same, answer, pure, Except.pure]
      · obtain ⟨t, equal, _⟩ := back matching
        cases equal
        exact absurd rfl same

theorem accepts_nothing (plain : Text (c :: p))
    (other : c ∉ [asterisk, question, opening]) (stuck : literal (memory (c :: p)) = .error .mismatch) :
    Accepts (time + 1) s (c :: p) := by
  have failed : unquote c (memory p) = .error .mismatch := by simpa [literal, popwchar, plain.head, ok_bind] using stuck
  have absent {x : UInt8} {p' : List UInt8} : ¬ Literal (c :: p) x p' := by
    intro is_literal
    rw [literal_memory plain is_literal] at stuck
    cases stuck
  refine ⟨false, ?_, by simp, fun matching => ?_⟩
  · have first : ∃ y, deref (memory s) = .ok y := by cases s <;> exact ⟨_, rfl⟩
    obtain ⟨y, first⟩ := first
    simp only [List.mem_cons, List.not_mem_nil, or_false, not_or] at other
    simp only [gmatch, first, deref_cons, ok_bind, memory_cons, List.tail_cons, failed, plain.head, other, if_false]
    rfl
  · cases matching with
    | any => simp at other
    | one => simp at other
    | among => simp at other
    | except => simp at other
    | quoted y => exact (absent (.quoted y _)).elim
    | plain special => exact (absent (.plain fun same => special (by simp [same]))).elim

theorem right_all (time : Nat) : Right time := by
  induction time with
  | zero => exact fun _ _ _ _ short => absurd short (Nat.not_lt_zero _)
  | succ time ih =>
    intro s p plain_s plain enough
    cases p with
    | nil =>
      refine ⟨s = [], ?_, ?_⟩
      · cases s with
        | nil => rfl
        | cons c s => simp [gmatch, deref, ok_bind, answer, plain_s.head, pure, Except.pure]
      · cases s with
        | nil => simpa using Matches.done
        | cons c s => simp; rintro ⟨⟩
    | cons c p =>
      have enough : p.length < time := by simpa using enough
      by_cases starred : c = asterisk
      · exact starred ▸ accepts_star ih plain_s plain.tail enough
      by_cases questioned : c = question
      · exact questioned ▸ accepts_question ih plain_s plain.tail enough
      by_cases opened : c = opening
      · exact opened ▸ accepts_bracket ih plain_s plain.tail enough
      have other : c ∉ [asterisk, question, opening] := by simp [starred, questioned, opened]
      obtain stuck | ⟨x, p', is_literal⟩ := literal_cases plain
      · exact accepts_nothing plain other stuck
      · exact accepts_literal ih plain_s plain enough other is_literal

/-- The comparison ends with enough time, reads nothing outside of the two strings, and accepts the
strings that the pattern stands for. -/
theorem gmatch_accepts (s p : List UInt8) (plain_s : ∀ c ∈ s, c ≠ 0) (plain : ∀ c ∈ p, c ≠ 0) :
    ∃ accepted, (∀ time, p.length < time → gmatch time (s ++ [0]) (p ++ [0]) = .ok accepted) ∧ (accepted = true ↔ Matches p s) := by
  classical
  refine ⟨decide (Matches p s), fun time enough => ?_, by simp⟩
  obtain ⟨b, run, exact_⟩ := right_all time s p plain_s plain enough
  have same : b = decide (Matches p s) := Bool.eq_iff_iff.mpr (exact_.trans decide_eq_true_iff.symm)
  exact same ▸ run

/-- A bracket with a range, a quoted hyphen and a hyphen at its end. -/
theorem gmatch_accepts_bracket : ∃ accepted,
    (∀ time, 8 < time → gmatch time ([98] ++ [0]) ([91, 97, 45, 122, 92, 45, 45, 93] ++ [0]) = .ok accepted) ∧
      (accepted = true ↔ Matches [91, 97, 45, 122, 92, 45, 45, 93] [98]) :=
  gmatch_accepts [98] [91, 97, 45, 122, 92, 45, 45, 93] (by simp) (by simp)

end Svr4.Proofs.GmatchLanguage
