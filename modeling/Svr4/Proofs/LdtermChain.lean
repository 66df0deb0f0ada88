import Svr4.Ldterm

/-! The chain of blocks as a line of bytes: what each of the editing routines does to the
bytes, and that only a line without bytes has an empty block. -/

namespace Svr4.Proofs.LdtermChain
open Function Chain Ldterm

variable {s s' : LdtermState} {l l' pre : List Nat} {line front : List UInt8} {b bpt time : Nat} {c : UInt8} {modes : Modes}

structure Whole (s : LdtermState) (l : List Nat) (line : List UInt8) : Prop where
  linked : Linked (fun b => (s.mblk b).cont) s.t_message l
  last : s.t_endmsg = l.getLast?
  present : l ≠ []
  old : ∀ b ∈ l, b < s.fresh
  holds : l.flatMap (fun b => (s.mblk b).bytes) = line
  count : s.t_msglen = line.length
  filled : ∀ b ∈ l, (s.mblk b).wptr = 0 → l = [b]
  room : 0 < s.lim

def Same (s s' : LdtermState) : Prop := s'.slnch = s.slnch ∧ s'.quot = s.quot ∧ s'.sent = s.sent

theorem Same.refl (s : LdtermState) : Same s s := ⟨rfl, rfl, rfl⟩

theorem Same.trans {s'' : LdtermState} (first : Same s s') (second : Same s' s'') : Same s s'' :=
  ⟨second.1.trans first.1, second.2.1.trans first.2.1, second.2.2.trans first.2.2⟩

theorem bytes_length (m : Mblk) : m.bytes.length = m.wptr := by simp [Mblk.bytes]

theorem bytes_empty {m : Mblk} : m.bytes = [] ↔ m.wptr = 0 := by
  rw [← List.length_eq_zero_iff, bytes_length]

theorem bytes_succ (m : Mblk) (some : m.wptr ≠ 0) :
    m.bytes = ({ m with wptr := m.wptr - 1 } : Mblk).bytes ++ [m.buf (m.wptr - 1)] := by
  obtain ⟨n, size⟩ := Nat.exists_eq_succ_of_ne_zero some
  simp only [Mblk.bytes, size, Nat.succ_eq_add_one, Nat.add_sub_cancel, List.range_succ, List.map_append, List.map_cons, List.map_nil]

theorem bytes_store (m : Mblk) (c : UInt8) :
    ({ m with buf := update m.buf m.wptr c, wptr := m.wptr + 1 } : Mblk).bytes = m.bytes ++ [c] := by
  simp only [Mblk.bytes, List.range_succ, List.map_append, List.map_cons, List.map_nil, update_self]
  congr 1
  apply List.map_congr_left
  intro i member
  exact update_of_ne (List.mem_range.mp member).ne _ _

theorem Whole.shape (whole : Whole s l line) : ∃ pre bpt, l = pre ++ [bpt] ∧ s.t_endmsg = some bpt := by
  obtain ⟨pre, bpt, rfl⟩ := List.eq_nil_or_concat' l |>.resolve_left whole.present
  exact ⟨pre, bpt, rfl, by rw [whole.last, List.getLast?_concat]⟩

theorem Whole.empty (whole : Whole s (pre ++ [bpt]) []) : pre = [] ∧ (s.mblk bpt).wptr = 0 := by
  have none_ := List.flatMap_eq_nil_iff.mp whole.holds bpt (by simp)
  have zero := bytes_empty.mp none_
  have alone := whole.filled bpt (by simp) zero
  have length := congrArg List.length alone
  simp only [List.length_append, List.length_cons, List.length_nil] at length
  exact ⟨List.eq_nil_of_length_eq_zero (by omega), zero⟩

theorem Whole.last_byte (whole : Whole s (pre ++ [bpt]) (front ++ [c])) : (s.mblk bpt).wptr ≠ 0 ∧
    (s.mblk bpt).buf ((s.mblk bpt).wptr - 1) = c ∧
    pre.flatMap (fun b => (s.mblk b).bytes) ++ ({ s.mblk bpt with wptr := (s.mblk bpt).wptr - 1 } : Mblk).bytes = front := by
  have text := whole.holds
  rw [List.flatMap_append, List.flatMap_singleton] at text
  have some_ : (s.mblk bpt).wptr ≠ 0 := by
    intro zero
    have alone := whole.filled bpt (by simp) zero
    have none_ : pre = [] := by simpa using alone
    rw [none_, bytes_empty.mpr zero] at text
    simp at text
  rw [bytes_succ _ some_, ← List.append_assoc] at text
  obtain ⟨same, byte⟩ := List.append_inj' text rfl
  exact ⟨some_, List.head_eq_of_cons_eq byte, same⟩

theorem unget_none (whole : Whole s l []) : ldterm_unget s = (s, none) := by
  obtain ⟨pre, bpt, rfl, last⟩ := whole.shape
  have zero := whole.empty.2
  simp only [ldterm_unget, last, zero, if_true]

theorem previous_found {mblk : Nat → Mblk} {p : Option Nat} (linked : Linked (fun b => (mblk b).cont) p (pre ++ b :: [bpt]))
    (enough : pre.length < time) : ∃ first, p = some first ∧ previous mblk bpt time first = some b := by
  induction pre generalizing p time with
  | nil =>
    obtain ⟨start, next, -⟩ := linked
    obtain ⟨time, rfl⟩ := Nat.exists_eq_add_of_lt enough
    have cont : (mblk b).cont = some bpt := next
    refine ⟨b, start, ?_⟩
    simp only [previous, cont, if_true]
  | cons a pre ih =>
    obtain ⟨start, rest⟩ := linked
    obtain ⟨time, rfl⟩ := Nat.exists_eq_add_of_lt enough
    have rest : Linked (fun b => (mblk b).cont) (mblk a).cont (pre ++ b :: [bpt]) := rest
    have once := rest.nodup
    have enough : pre.length < (a :: pre).length + time := by
      rw [List.length_cons]
      omega
    obtain ⟨first, cont, found⟩ := ih rest enough
    have head := rest.head
    have other : first ≠ bpt := by
      rintro rfl
      rw [cont, show pre ++ b :: [first] = (pre ++ [b]) ++ [first] by simp, List.head?_append_of_ne_nil _ (by simp)] at head
      rw [show pre ++ b :: [first] = (pre ++ [b]) ++ [first] by simp] at once
      have again : first ∈ pre ++ [b] := List.mem_of_mem_head? head.symm
      exact (List.nodup_append.mp once).2.2 first again first (by simp) rfl
    refine ⟨a, start, ?_⟩
    simp only [previous, cont, other, if_false]
    exact found

theorem cont_update (mblk : Nat → Mblk) (b : Nat) (m : Mblk) :
    (fun a => (update mblk b m a).cont) = update (fun a => (mblk a).cont) b m.cont := by
  funext a
  by_cases same : a = b
  · subst same
    rw [update_self, update_self]
  · rw [update_of_ne same, update_of_ne same]

theorem cont_same (mblk : Nat → Mblk) (b : Nat) (m : Mblk) (same : m.cont = (mblk b).cont) :
    (fun a => (update mblk b m a).cont) = fun a => (mblk a).cont := by
  rw [cont_update, same]
  exact update_eq_self b _

theorem flatMap_outside {mblk : Nat → Mblk} {m : Mblk} (outside : b ∉ l) :
    l.flatMap (fun a => (update mblk b m a).bytes) = l.flatMap (fun a => (mblk a).bytes) := by
  apply List.flatMap_congr
  intro a member
  rw [update_of_ne]
  rintro rfl
  exact outside member

theorem Whole.length_le (whole : Whole s l line) : l.length ≤ s.fresh := by
  have inside : l ⊆ List.range s.fresh := fun b member => List.mem_range.mpr (whole.old b member)
  have shorter := (whole.linked.nodup.subperm inside).length_le
  rwa [List.length_range] at shorter

theorem Whole.last_fresh (whole : Whole s (pre ++ [bpt]) line) : bpt ∉ pre := by
  intro member
  exact (List.nodup_append.mp whole.linked.nodup).2.2 bpt member bpt (by simp) rfl

theorem bytes_relink (mblk : Nat → Mblk) (b : Nat) (next : Option Nat) :
    (fun a => (update mblk b { mblk b with cont := next } a).bytes) = fun a => (mblk a).bytes := by
  funext a
  by_cases same : a = b
  · subst same
    rw [update_self]
    rfl
  · rw [update_of_ne same]

theorem wptr_relink (mblk : Nat → Mblk) (b a : Nat) (next : Option Nat) :
    (update mblk b { mblk b with cont := next } a).wptr = (mblk a).wptr := by
  by_cases same : a = b
  · subst same
    rw [update_self]
  · rw [update_of_ne same]

structure Short (s : LdtermState) (l : List Nat) (line : List UInt8) : Prop where
  linked : Linked (fun b => (s.mblk b).cont) s.t_message l
  last : s.t_endmsg = l.getLast?
  present : l ≠ []
  old : ∀ b ∈ l, b < s.fresh
  holds : l.flatMap (fun b => (s.mblk b).bytes) = line
  count : s.t_msglen = line.length
  filled : ∀ b ∈ l, (s.mblk b).wptr = 0 → l = [b] ∨ s.t_endmsg = some b
  room : 0 < s.lim

theorem unget_some (whole : Whole s l (front ++ [c])) :
    ∃ s1, ldterm_unget s = (s1, some c) ∧ put_back s1 = some s ∧ Short s1 l front ∧ Same s s1 := by
  obtain ⟨pre, bpt, rfl, last⟩ := whole.shape
  obtain ⟨some_, byte, front_eq⟩ := whole.last_byte
  have length := whole.count
  obtain ⟨m, less⟩ : ∃ m, ({ s.mblk bpt with wptr := (s.mblk bpt).wptr - 1 } : Mblk) = m := ⟨_, rfl⟩
  have cont : m.cont = (s.mblk bpt).cont := by rw [← less]
  rw [less] at front_eq
  have size : s.t_msglen - 1 = front.length := by
    rw [length, List.length_append]
    exact Nat.add_sub_cancel ..
  refine ⟨{ s with t_msglen := s.t_msglen - 1, mblk := update s.mblk bpt m }, ?_, ?_, ?_, rfl, rfl, rfl⟩
  · simp only [ldterm_unget, last, some_, if_false, byte, less]
  · have again : ({ m with wptr := m.wptr + 1 } : Mblk) = s.mblk bpt := by
      rw [← less]
      show ({ s.mblk bpt with wptr := (s.mblk bpt).wptr - 1 + 1 } : Mblk) = s.mblk bpt
      rw [Nat.sub_add_cancel (Nat.pos_of_ne_zero some_)]
    have count : s.t_msglen - 1 + 1 = s.t_msglen := by
      rw [size, length, List.length_append]
      rfl
    simp only [put_back, last, Option.map_some, update_self, again, update_idem, update_eq_self, count]
    rw [← last]
  · refine ⟨?_, whole.last, whole.present, whole.old, ?_, size, ?_, whole.room⟩
    · rw [cont_same _ _ _ cont]
      exact whole.linked
    · rw [List.flatMap_append, flatMap_outside whole.last_fresh, List.flatMap_singleton]
      show pre.flatMap (fun b => (s.mblk b).bytes) ++ (update s.mblk bpt m bpt).bytes = front
      rw [update_self]
      exact front_eq
    · intro b member empty
      by_cases same : b = bpt
      · rw [same]
        exact .inr last
      · have empty : (update s.mblk bpt m b).wptr = 0 := empty
        rw [update_of_ne same] at empty
        exact .inl (whole.filled b member empty)

theorem trim_short (short : Short s l line) : ∃ s' l', ldterm_trim s = some s' ∧ Whole s' l' line ∧ Same s s' := by
  obtain ⟨pre, bpt, rfl⟩ := (List.eq_nil_or_concat' l).resolve_left short.present
  have last : s.t_endmsg = some bpt := by rw [short.last, List.getLast?_concat]
  have once := short.linked.nodup
  have message := short.linked.head
  obtain ⟨first, start⟩ : ∃ first, s.t_message = some first := ⟨_, message.trans (List.head?_eq_some_head (by simp))⟩
  by_cases zero : (s.mblk bpt).wptr = 0
  · rcases List.eq_nil_or_concat' pre with rfl | ⟨pre, b, rfl⟩
    · have alone : first = bpt := Option.some.inj (start.symm.trans message)
      refine ⟨s, [bpt], ?_, { short with filled := ?_ }, Same.refl s⟩
      · simp only [ldterm_trim, last, start, zero, if_true, alone, ne_eq, not_true, if_false]
      · intro b member _
        rw [List.mem_singleton.mp member]
    · have shape : pre ++ [b] ++ [bpt] = pre ++ b :: [bpt] := by simp
      have linked : Linked (fun b => (s.mblk b).cont) s.t_message (pre ++ b :: [bpt]) := shape ▸ short.linked
      have enough : pre.length < s.fresh := by
        have inside : pre ++ b :: [bpt] ⊆ List.range s.fresh := fun a member => List.mem_range.mpr (short.old a (shape ▸ member))
        have shorter := (linked.nodup.subperm inside).length_le
        rw [List.length_range] at shorter
        simp only [List.length_append, List.length_cons] at shorter
        omega
      obtain ⟨first', start', found⟩ := previous_found linked enough
      obtain rfl : first = first' := Option.some.inj (start.symm.trans start')
      have inside : first ∈ pre ++ [b] := by
        apply List.mem_of_mem_head?
        rw [← List.head?_append_of_ne_nil _ (show pre ++ [b] ≠ [] by simp), ← message, start]
        rfl
      have other : first ≠ bpt := fun same => (List.nodup_append.mp once).2.2 first inside bpt (by simp) same
      have end_ : (s.mblk bpt).cont = none := short.linked.next_eq
      have cut := linked.unlink
      rw [end_, ← cont_update s.mblk b { s.mblk b with cont := none }] at cut
      have filled : ∀ a ∈ pre ++ [b], (s.mblk a).wptr = 0 → pre ++ [b] = [a] := by
        intro a member empty
        rcases short.filled a (by simp at member ⊢; tauto) empty with alone | same
        · have length := congrArg List.length alone
          simp at length
        · rw [last] at same
          cases same
          exact absurd rfl ((List.nodup_append.mp once).2.2 bpt member bpt (by simp))
      refine ⟨{ s with mblk := update s.mblk b { s.mblk b with cont := none }, t_endmsg := some b }, pre ++ [b], ?_,
        ⟨cut, (List.getLast?_concat ..).symm, by simp, fun a member => short.old a (List.mem_append_left _ member), ?_, short.count, ?_,
          short.room⟩, rfl, rfl, rfl⟩
      · simp only [ldterm_trim, last, start, zero, if_true, ne_eq, other, not_false_eq_true, found, Option.map_some]
      · have holds := short.holds
        rw [List.flatMap_append, List.flatMap_singleton, bytes_empty.mpr zero, List.append_nil] at holds
        rw [← holds]
        exact congrArg (List.flatMap · (pre ++ [b])) (bytes_relink s.mblk b none)
      · intro a member empty
        exact filled a member ((wptr_relink s.mblk b a none).symm.trans empty)
  · refine ⟨s, pre ++ [bpt], ?_, { short with filled := ?_ }, Same.refl s⟩
    · simp only [ldterm_trim, last, start, zero, if_false]
    · intro b member empty
      rcases short.filled b member empty with alone | same
      · exact alone
      · rw [last] at same
        cases same
        exact absurd empty zero

theorem erase_whole (whole : Whole s l line) : ∃ s' l', ldterm_erase s = some s' ∧ Whole s' l' line.dropLast ∧ Same s s' := by
  rcases List.eq_nil_or_concat' line with rfl | ⟨front, c, rfl⟩
  · refine ⟨s, l, ?_, whole, Same.refl s⟩
    simp only [ldterm_erase, unget_none whole]
  · obtain ⟨s1, unget, -, short, same⟩ := unget_some whole
    obtain ⟨s2, l2, trim, whole', same'⟩ := trim_short short
    refine ⟨s2, l2, ?_, ?_, same.trans same'⟩
    · simp only [ldterm_erase, unget, trim]
    · rw [List.dropLast_concat]
      exact whole'

theorem unget_while_whole (pass : UInt8 → Bool) (whole : Whole s l line) (enough : line.length < time) : ∃ s' l',
    unget_while pass time (ldterm_unget s) = some (ldterm_unget s') ∧ Whole s' l' (line.rdropWhile pass) ∧ Same s s' := by
  induction time generalizing s l line with
  | zero => exact absurd enough (Nat.not_lt_zero _)
  | succ time ih =>
    rcases List.eq_nil_or_concat' line with rfl | ⟨front, c, rfl⟩
    · refine ⟨s, l, ?_, whole, Same.refl s⟩
      rw [unget_none whole]
      rfl
    · obtain ⟨s1, unget, -, short, same⟩ := unget_some whole
      cases passes : pass c with
      | true =>
        obtain ⟨s2, l2, trim, whole', same'⟩ := trim_short short
        obtain ⟨s3, l3, rest, whole'', same''⟩ := ih whole' (by simp at enough; omega)
        refine ⟨s3, l3, ?_, ?_, (same.trans same').trans same''⟩
        · rw [unget]
          simp only [unget_while, passes, if_true, trim, Option.bind_some]
          exact rest
        · rw [List.rdropWhile_concat_pos _ _ _ passes]
          exact whole''
      | false =>
        refine ⟨s, l, ?_, ?_, Same.refl s⟩
        · rw [unget]
          simp only [unget_while, passes, Bool.false_eq_true, if_false]
        · rw [List.rdropWhile_concat_neg _ _ _ (by simp [passes])]
          exact whole

def without_word (line : List UInt8) : List UInt8 := (line.rdropWhile blank).rdropWhile (fun c => !blank c)

theorem werase_whole (whole : Whole s l line) : ∃ s' l', ldterm_werase s = some s' ∧ Whole s' l' (without_word line) ∧ Same s s' := by
  have count := whole.count
  have shorter := (List.rdropWhile_prefix blank line).length_le
  have enough : line.length < s.t_msglen + 1 := by omega
  obtain ⟨s1, l1, first, whole1, same1⟩ := unget_while_whole blank whole enough
  obtain ⟨s2, l2, second, whole2, same2⟩ := unget_while_whole (fun c => !blank c) whole1 (shorter.trans_lt enough)
  refine ⟨s2, l2, ?_, whole2, same1.trans same2⟩
  rw [ldterm_werase]
  simp only [first, Option.bind_some, second]
  rcases List.eq_nil_or_concat' (without_word line) with none_ | ⟨front, c, more⟩
  · have whole2 : Whole s2 l2 (without_word line) := whole2
    rw [none_] at whole2
    simp only [unget_none whole2]
  · have whole2 : Whole s2 l2 (without_word line) := whole2
    rw [more] at whole2
    obtain ⟨s3, unget, back, -⟩ := unget_some whole2
    simp only [unget, back]

theorem kill_whole (whole : Whole s l line) : ∃ s' l', ldterm_kill s = some s' ∧ Whole s' l' [] ∧
    s'.slnch = false ∧ s'.quot = false ∧ s'.sent = s.sent := by
  have count := whole.count
  have enough : line.length < s.t_msglen + 1 := by omega
  obtain ⟨s1, l1, first, whole1, same1⟩ := unget_while_whole (fun _ => true) whole enough
  have all : line.rdropWhile (fun _ => true) = [] := by
    apply List.rdropWhile_eq_nil_iff.mpr
    intro _ _
    rfl
  rw [all] at whole1
  refine ⟨{ s1 with quot := false, slnch := false }, l1, ?_, { whole1 with }, rfl, rfl, same1.2.2⟩
  simp only [ldterm_kill, first, Option.map_some, unget_none whole1]

theorem text_linked {mblk : Nat → Mblk} {p : Option Nat} (linked : Linked (fun b => (mblk b).cont) p l) (enough : l.length ≤ time) :
    text mblk time p = l.flatMap (fun b => (mblk b).bytes) := by
  induction l generalizing p time with
  | nil =>
    obtain rfl : p = none := linked
    cases time <;> rfl
  | cons a l ih =>
    obtain ⟨rfl, rest⟩ := linked
    obtain ⟨time, rfl⟩ := Nat.exists_eq_add_of_le' (show 1 ≤ time by simp at enough; omega)
    simp only [text, List.flatMap_cons]
    rw [ih rest (by simp at enough; omega)]

theorem newmsg_whole (none_ : s.t_endmsg = none) (zero : s.t_msglen = 0) (room : 0 < s.lim) :
    Whole (newmsg s).1 [(newmsg s).2] [] ∧ Same s (newmsg s).1 := by
  have new : newmsg s = ({ (allocb s).1 with t_message := some s.fresh, t_endmsg := some s.fresh }, s.fresh) := by
    simp only [newmsg, none_]
    rfl
  rw [new]
  have block : (allocb s).1.mblk s.fresh = { s.mblk s.fresh with wptr := 0, cont := none } := update_self ..
  refine ⟨⟨⟨rfl, ?_⟩, rfl, by simp, ?_, ?_, zero, ?_, room⟩, rfl, rfl, rfl⟩
  · exact congrArg Mblk.cont block
  · intro b member
    rw [List.mem_singleton.mp member]
    exact Nat.lt_succ_self _
  · rw [List.flatMap_singleton]
    exact bytes_empty.mpr (congrArg Mblk.wptr block)
  · intro b member _
    rw [List.mem_singleton.mp member]

theorem upstream_whole (whole : Whole s l line) : (ldterm_msg_upstream s).t_endmsg = none ∧ (ldterm_msg_upstream s).t_msglen = 0 ∧
    (ldterm_msg_upstream s).lim = s.lim ∧ (ldterm_msg_upstream s).slnch = s.slnch ∧ (ldterm_msg_upstream s).quot = s.quot ∧
    (ldterm_msg_upstream s).sent = s.sent ++ [line] := by
  have message := whole.linked.head
  obtain ⟨first, start⟩ : ∃ first, s.t_message = some first := ⟨_, message.trans (List.head?_eq_some_head whole.present)⟩
  have bytes := text_linked whole.linked whole.length_le
  rw [whole.holds, start] at bytes
  refine ⟨rfl, rfl, rfl, rfl, rfl, ?_⟩
  simp only [ldterm_msg_upstream, start, bytes]

theorem store_whole (short : Short s l line) (last : s.t_endmsg = some bpt) :
    Whole (store c s bpt) l (line ++ [c]) ∧ Same s (store c s bpt) := by
  obtain ⟨pre, b, rfl⟩ := (List.eq_nil_or_concat' l).resolve_left short.present
  obtain rfl : b = bpt := by
    have same := short.last
    rw [List.getLast?_concat, last] at same
    exact (Option.some.inj same).symm
  have outside : b ∉ pre := fun member => (List.nodup_append.mp short.linked.nodup).2.2 b member b (by simp) rfl
  obtain ⟨m, more⟩ : ∃ m, ({ s.mblk b with buf := update (s.mblk b).buf (s.mblk b).wptr c, wptr := (s.mblk b).wptr + 1 } : Mblk) = m :=
    ⟨_, rfl⟩
  have cont : m.cont = (s.mblk b).cont := by rw [← more]
  have bytes : m.bytes = (s.mblk b).bytes ++ [c] := by
    rw [← more]
    exact bytes_store _ c
  have stored : store c s b = { s with mblk := update s.mblk b m, t_msglen := s.t_msglen + 1 } := by
    rw [← more]
    rfl
  rw [stored]
  refine ⟨⟨?_, short.last, short.present, short.old, ?_, ?_, ?_, short.room⟩, rfl, rfl, rfl⟩
  · rw [cont_same _ _ _ cont]
    exact short.linked
  · have holds := short.holds
    rw [List.flatMap_append, List.flatMap_singleton] at holds
    rw [List.flatMap_append, flatMap_outside outside, List.flatMap_singleton]
    show pre.flatMap (fun b => (s.mblk b).bytes) ++ (update s.mblk b m b).bytes = line ++ [c]
    rw [update_self, bytes, ← List.append_assoc, holds]
  · rw [List.length_append, ← short.count]
    rfl
  · intro a member empty
    have empty : (update s.mblk b m a).wptr = 0 := empty
    by_cases same : a = b
    · subst same
      rw [update_self] at empty
      rw [bytes_empty.mpr empty] at bytes
      simp at bytes
    · rw [update_of_ne same] at empty
      rcases short.filled a member empty with alone | equal
      · exact alone
      · rw [last] at equal
        exact absurd (Option.some.inj equal).symm same

theorem Whole.short (whole : Whole s l line) : Short s l line :=
  { whole with filled := fun b member empty => .inl (whole.filled b member empty) }

theorem another_short (whole : Whole s l line) (last : s.t_endmsg = some bpt) (full : (s.mblk bpt).wptr ≥ s.lim) :
    Short (another s bpt).1 (l ++ [(another s bpt).2]) line ∧ (another s bpt).1.t_endmsg = some (another s bpt).2 ∧
      Same s (another s bpt).1 := by
  obtain ⟨pre, b, rfl, last'⟩ := whole.shape
  obtain rfl : b = bpt := Option.some.inj (last'.symm.trans last)
  have room := whole.room
  have outside : s.fresh ∉ pre ++ [b] := fun member => lt_irrefl _ (whole.old _ member)
  have other : b ≠ s.fresh := fun same => outside (by simp [same])
  obtain ⟨mblk, new⟩ : ∃ mblk, update s.mblk s.fresh { s.mblk s.fresh with wptr := 0, cont := none } = mblk := ⟨_, rfl⟩
  have shape : another s b = ({ s with
      mblk := update mblk b { mblk b with cont := some s.fresh }, fresh := s.fresh + 1
      t_endmsg := some s.fresh }, s.fresh) := by
    rw [← new]
    rfl
  have kept : ∀ a ∈ pre ++ [b], mblk a = s.mblk a := by
    intro a member
    rw [← new, update_of_ne]
    rintro rfl
    exact outside member
  have cont : (fun a => (mblk a).cont) = update (fun a => (s.mblk a).cont) s.fresh none := by
    rw [← new, cont_update]
  rw [shape]
  refine ⟨⟨?_, ?_, by simp, ?_, ?_, whole.count, ?_, room⟩, rfl, rfl, rfl, rfl⟩
  · rw [cont_update, cont]
    exact whole.linked.push_back outside
  · exact (List.getLast?_concat ..).symm
  · intro a member
    rcases List.mem_append.mp member with old | single
    · exact (whole.old a old).trans (Nat.lt_succ_self _)
    · rw [List.mem_singleton.mp single]
      exact Nat.lt_succ_self _
  · have empty : (mblk s.fresh).bytes = [] := by
      rw [← new, update_self]
      rfl
    have same : (pre ++ [b] ++ [s.fresh]).flatMap (fun a => (update mblk b { mblk b with cont := some s.fresh } a).bytes) =
        (pre ++ [b] ++ [s.fresh]).flatMap (fun a => (mblk a).bytes) := by
      rw [bytes_relink]
    refine same.trans ?_
    rw [List.flatMap_append, List.flatMap_singleton, empty, List.append_nil, ← whole.holds]
    apply List.flatMap_congr
    intro a member
    rw [kept a member]
  · intro a member empty
    have empty : (mblk a).wptr = 0 := (wptr_relink mblk b a _).symm.trans empty
    rcases List.mem_append.mp member with old | single
    · rw [kept a old] at empty
      have alone := whole.filled a old empty
      have same : b = a := by
        have inside : b ∈ [a] := alone ▸ List.mem_append_right pre (List.mem_singleton_self b)
        exact List.mem_singleton.mp inside
      subst same
      omega
    · rw [List.mem_singleton.mp single]
      exact .inr rfl

end Svr4.Proofs.LdtermChain
