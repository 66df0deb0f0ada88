import Svr4.Proofs.DeltaWeave

/-! What `delta` writes for each change of a difference in the normal format, and that the
changes together make the edited version. -/

namespace Svr4.Proofs.DeltaEdit
open Function Decimal Delta DeltaRead DeltaWeave

variable {maxser n time linenum num j : Nat} {A : Nat → Bool} {inside : Bool} {pkt : Packet} {q : List Queue} {l str : Line}
  {body w input diffin more new seen ahead rest out : List Line}

structure Stage (body : List Line) (maxser n : Nat) (A : Nat → Bool) (inside : Bool) (pkt : Packet) (input w : List Line) (q : List Queue)
    (seen ahead out : List Line) : Prop where
  max : pkt.maxser = maxser
  applied : pkt.apply = A
  p_upd : pkt.p_upd = true
  here : At pkt q
  ahead : reads maxser A q input = some ([], ahead)
  glnno : pkt.p_glnno = seen.length
  whole : body = w ++ input
  woven : Woven maxser n A inside w q seen (settled pkt) out

structure Pending (body : List Line) (maxser n : Nat) (A : Nat → Bool) (inside : Bool) (pkt : Packet) (l : Line) (input w : List Line) (q : List Queue)
    (seen ahead out : List Line) : Prop where
  max : pkt.maxser = maxser
  applied : pkt.apply = A
  p_upd : pkt.p_upd = true
  here : At pkt q
  line : pkt.p_line = l
  pending : pkt.p_wrttn = false
  alone : reads maxser A q [l] = some (q, [l])
  ahead : reads maxser A q input = some ([], ahead)
  glnno : pkt.p_glnno = seen.length + 1
  whole : body = w ++ l :: input
  woven : Woven maxser n A inside w q seen pkt.xfile out

theorem read_pending (stage : Stage body maxser n A inside pkt input w q seen (l :: ahead) out) (old : maxser < n) :
    ∃ pkt' input' w' q', readmod input pkt = some (pkt', input', true) ∧ Pending body maxser n A inside pkt' l input' w' q' seen ahead out := by
  obtain ⟨rfl, rfl, upd, here, next, glnno, whole, woven⟩ := stage
  obtain ⟨skipped, pkt1, q1, rest, rfl, passed, alone, next', here', step⟩ := readmod_found here next
  obtain ⟨same, -, -, glnno', line, pending⟩ := getline_same pkt1 l
  have both := passed.same.trans same
  have weaves := woven.extend old passed.nothing
  rw [List.append_nil, ite_self, List.append_nil, ← passed.settles upd] at weaves
  refine ⟨_, rest, w ++ skipped, q1, step, both.maxser, both.apply, both.p_upd.trans upd, ⟨here'.queue, here'.keep⟩, line,
    pending, alone, next', ?_, ?_, ?_⟩
  · show (getline pkt1 l).p_glnno + 1 = seen.length + 1
    rw [glnno', passed.glnno, glnno]
  · rw [whole, List.append_assoc]
  · show Woven _ n _ inside _ q1 seen (getline pkt1 l).xfile out
    rw [getline_xfile (passed.same.p_upd.trans upd)]
    exact weaves

theorem Pending.passes (pending : Pending body maxser n A inside pkt l input w q seen ahead out) (old : maxser < n) :
    Stage body maxser n A inside pkt input (w ++ [l]) q (seen ++ [l]) ahead (out ++ if inside then [] else [l]) := by
  refine ⟨pending.max, pending.applied, pending.p_upd, pending.here, pending.ahead, ?_, ?_, ?_⟩
  · rw [pending.glnno, List.length_append]
    rfl
  · rw [pending.whole, List.append_assoc, List.singleton_append]
  · rw [settled, pending.pending, if_neg Bool.false_ne_true, pending.line]
    exact pending.woven.extend old pending.alone

theorem Pending.deletes (pending : Pending body maxser n A false pkt l input w q seen ahead out) (old : maxser < n) :
    Pending body maxser n A true (putline pkt (ctl DEL n)) l input w q seen ahead out := by
  obtain ⟨max, apply, upd, here, line, wrttn, alone, next, glnno, whole, woven⟩ := pending
  rw [putline, if_pos upd]
  exact ⟨max, apply, upd, ⟨here.queue, here.keep⟩, line, wrttn, alone, next, glnno, whole, woven.opened old⟩

theorem before_enough (enough : linenum ≤ pkt.p_glnno) : before time input pkt linenum = some (pkt, input) := by
  cases time with
  | zero => rw [before, if_neg (by omega)]
  | succ time => rw [before, if_neg (by omega)]

theorem before_step {pkt' : Packet} {input' : List Line} (short : pkt.p_glnno < linenum) (step : readmod input pkt = some (pkt', input', true)) :
    before (time + 1) input pkt linenum = before time input' pkt' linenum := by
  rw [before, if_pos short, step, Option.bind_some, if_pos rfl]

theorem before_lines (time : Nat) (stage : Stage body maxser n A inside pkt input w q seen (rest ++ ahead) out) (old : maxser < n)
    (enough : rest.length ≤ time) (wanted : seen.length + rest.length ≤ linenum) :
    ∃ pkt' input' w' q', before time input pkt linenum = before (time - rest.length) input' pkt' linenum ∧
      Stage body maxser n A inside pkt' input' w' q' (seen ++ rest) ahead (out ++ if inside then [] else rest) := by
  induction rest generalizing pkt input w q seen out time with
  | nil =>
    rw [List.append_nil, ite_self, List.append_nil]
    exact ⟨pkt, input, w, q, rfl, stage⟩
  | cons l rest ih =>
    obtain ⟨pkt1, input1, w1, q1, step, pending⟩ := read_pending stage old
    rw [List.length_cons] at enough wanted
    obtain ⟨time, rfl⟩ : ∃ t, time = t + 1 := ⟨time - 1, by omega⟩
    have wanted' : (seen ++ [l]).length + rest.length ≤ linenum := by
      rw [List.length_append, List.length_singleton]
      omega
    obtain ⟨pkt', input', w', q', steps, stage'⟩ := ih time (pending.passes old) (by omega) wanted'
    refine ⟨pkt', input', w', q', ?_, ?_⟩
    · rw [before_step (by rw [stage.glnno]; omega) step, steps, List.length_cons, Nat.add_sub_add_right]
    · rw [List.append_assoc, List.append_assoc, List.singleton_append] at stage'
      cases inside <;> exact stage'

theorem before_pending (stage : Stage body maxser n A inside pkt input w q seen (rest ++ l :: ahead) out) (old : maxser < n)
    (wanted : seen.length + rest.length + 1 = linenum) :
    ∃ pkt' input' w' q', before linenum input pkt linenum = some (pkt', input') ∧
      Pending body maxser n A inside pkt' l input' w' q' (seen ++ rest) ahead (out ++ if inside then [] else rest) := by
  have reach : seen.length + rest.length ≤ linenum := by omega
  obtain ⟨pkt1, input1, w1, q1, steps, stage1⟩ := before_lines linenum stage old (by omega) reach
  obtain ⟨pkt', input', w', q', step, pending⟩ := read_pending stage1 old
  refine ⟨pkt', input', w', q', ?_, pending⟩
  have glnno := stage1.glnno
  have glnno' := pending.glnno
  rw [List.length_append] at glnno glnno'
  obtain ⟨time, same⟩ : ∃ t, linenum - rest.length = t + 1 := by
    refine ⟨linenum - rest.length - 1, ?_⟩
    omega
  have short : pkt1.p_glnno < linenum := by omega
  have enough : linenum ≤ pkt'.p_glnno := by omega
  rw [steps, same, before_step short step, before_enough enough]

theorem put_current_stage (stage : Stage body maxser n A inside pkt input w q seen ahead out) :
    Stage body maxser n A inside (put_current pkt) input w q seen ahead out ∧ (put_current pkt).p_wrttn = true := by
  rw [put_current]
  split
  case isTrue pending =>
    refine ⟨⟨stage.max, stage.applied, stage.p_upd, ⟨stage.here.queue, stage.here.keep⟩, stage.ahead, stage.glnno, stage.whole, ?_⟩, rfl⟩
    have woven := stage.woven
    rw [settled, if_neg pending.2] at woven
    exact woven
  case isFalse other => exact ⟨stage, by simpa [stage.p_upd] using other⟩

theorem after_lines (stage : Stage body maxser n A inside pkt input w q seen (rest ++ ahead) out) (old : maxser < n)
    (wanted : seen.length + rest.length = linenum) :
    ∃ pkt' input' w' q', after input pkt linenum = some (pkt', input') ∧ pkt'.p_wrttn = true ∧
      Stage body maxser n A inside pkt' input' w' q' (seen ++ rest) ahead (out ++ if inside then [] else rest) := by
  obtain ⟨pkt1, input1, w1, q1, steps, stage1⟩ := before_lines linenum stage old (by omega) wanted.le
  have glnno := stage1.glnno
  rw [List.length_append, wanted] at glnno
  obtain ⟨stage2, written⟩ := put_current_stage stage1
  refine ⟨_, input1, w1, q1, ?_, written, stage2⟩
  rw [after, steps, before_enough glnno.ge, Option.map_some, if_pos glnno]

theorem after_past (written : pkt.p_wrttn = true) (past : linenum ≤ pkt.p_glnno) : after input pkt linenum = some (pkt, input) := by
  have still : put_current pkt = pkt := if_neg fun both => both.2 written
  rw [after, before_enough past, Option.map_some, still, ite_self]

def appended (pkt : Packet) (new : List Line) : Packet := { pkt with xfile := pkt.xfile ++ new }

theorem putline_appended (upd : pkt.p_upd = true) (l : Line) : putline pkt l = appended pkt [l] := if_pos upd

theorem appended_appended (pkt : Packet) : appended (appended pkt new) more = appended pkt (new ++ more) := by
  simp only [appended, List.append_assoc]

theorem appended_stage (stage : Stage body maxser n A inside pkt input w q seen ahead out) (written : pkt.p_wrttn = true) {inside' : Bool}
    (weaves : Woven maxser n A inside' w q seen (settled pkt ++ new) more) :
    Stage body maxser n A inside' (appended pkt new) input w q seen ahead more := by
  refine ⟨stage.max, stage.applied, stage.p_upd, ⟨stage.here.queue, stage.here.keep⟩, stage.ahead, stage.glnno, stage.whole, ?_⟩
  rw [settled, if_pos written] at weaves
  rw [settled, if_pos (show (appended pkt new).p_wrttn = true from written)]
  exact weaves

/-- The lines of the old file have the mark `< ` in a difference, those of the new one `> `. -/
def marked (mark : UInt8) (l : Line) : Line := [mark, 32] ++ l

theorem rddiff_line (newline : l.getLast? = some 10) : rddiff (l :: diffin) str = some (diffin, l) := by
  rw [rddiff, if_pos newline]

theorem marked_newline (mark : UInt8) (newline : l.getLast? = some 10) : (marked mark l).getLast? = some 10 := by
  rw [marked, List.getLast?_append, newline]
  rfl

theorem copy_lines_marked (upd : pkt.p_upd = true) (newlines : ∀ l ∈ new, l.getLast? = some 10) :
    copy_lines new.length (new.map (marked 62) ++ diffin) str pkt = some (diffin, appended pkt new) := by
  induction new generalizing pkt str with
  | nil => simp [copy_lines, appended]
  | cons l new ih =>
    have newline := marked_newline 62 (newlines l (by simp))
    rw [List.length_cons, copy_lines, List.map_cons, List.cons_append, rddiff_line newline, Option.bind_some, putline_appended upd]
    show copy_lines new.length (new.map (marked 62) ++ diffin) (marked 62 l) (appended pkt [l]) = some (diffin, appended pkt (l :: new))
    have steps := @ih (appended pkt [l]) (marked 62 l) upd fun m member => newlines m (List.mem_cons_of_mem _ member)
    rw [steps, appended_appended]
    rfl

theorem skipline_marked (newlines : ∀ l ∈ new, l.getLast? = some 10) :
    ∃ lp, skipline new.length (new.map (marked 60) ++ diffin) str = some (diffin, lp) := by
  induction new generalizing str with
  | nil => exact ⟨str, rfl⟩
  | cons l new ih =>
    have newline := marked_newline 60 (newlines l (by simp))
    rw [List.length_cons, skipline, List.map_cons, List.cons_append, rddiff_line newline, Option.bind_some]
    exact ih fun m member => newlines m (List.mem_cons_of_mem _ member)

theorem insert_stage (diffin : List Line) {pkt1 : Packet} {input1 : List Line} (arrives : after input pkt linenum = some (pkt1, input1))
    (stage : Stage body maxser n A false pkt1 input1 w q seen ahead out) (written : pkt1.p_wrttn = true) (old : maxser < n)
    (texts : ∀ l ∈ new, IsText l) :
    ∃ pkt', insert input (new.map (marked 62) ++ diffin) pkt linenum new.length n = some (pkt', input1, diffin) ∧
      Stage body maxser n A false pkt' input1 w q seen ahead (out ++ new) := by
  have newlines : ∀ l ∈ new, l.getLast? = some 10 := fun l member => (texts l member).2
  refine ⟨appended pkt1 (block n new), ?_, appended_stage stage written (stage.woven.inserted old texts)⟩
  rw [Delta.insert, arrives, Option.bind_some, putline_appended stage.p_upd, copy_lines_marked (by exact stage.p_upd) newlines,
    Option.map_some, appended_appended, putline_appended (by exact stage.p_upd), appended_appended]
  rfl

theorem delete_stage (stage : Stage body maxser n A false pkt input w q seen (rest ++ l :: new ++ ahead) out) (old : maxser < n)
    (wanted : seen.length + rest.length + 1 = linenum) (lines : new.length + 1 = num) :
    ∃ pkt' input' w' q', delete input pkt linenum num n = some (pkt', input') ∧ pkt'.p_wrttn = true ∧
      Stage body maxser n A false pkt' input' w' q' (seen ++ rest ++ l :: new) ahead (out ++ rest) := by
  rw [List.append_assoc, List.cons_append] at stage
  obtain ⟨pkt1, input1, w1, q1, arrives, pending⟩ := before_pending stage old wanted
  have stage1 := (pending.deletes old).passes old
  have wanted' : (seen ++ rest ++ [l]).length + new.length = linenum + num - 1 := by
    simp only [List.length_append, List.length_singleton]
    omega
  obtain ⟨pkt2, input2, w2, q2, leaves, written, stage2⟩ := after_lines stage1 old wanted'
  have closed := stage2.woven.closed old
  rw [if_pos rfl, List.append_nil, if_neg Bool.false_ne_true, if_pos rfl, List.append_nil] at closed
  refine ⟨appended pkt2 [ctl END n], input2, w2, q2, ?_, written, ?_⟩
  · rw [delete, arrives, Option.bind_some, leaves, Option.map_some, putline_appended stage2.p_upd]
  · rw [List.append_assoc (seen ++ rest), List.singleton_append] at stage2 closed
    exact appended_stage stage2 written closed

end Svr4.Proofs.DeltaEdit

/-! A new version leaves the others as they are: `delta` rewrites the body, and `readmod` finds
every version in the new body. -/

namespace Svr4.Proofs.DeltaVersions
open Function Decimal Delta DeltaRead DeltaWeave DeltaEdit

variable {maxser n time a b m k j first last : Nat} {A : Nat → Bool} {pkt : Packet} {q q' : List Queue} {l : Line}
  {w input diffin drop new seen ahead rest out old edited keep body : List Line} {o o' : Nat → Bool}

def range (first last : Nat) : Line := if first = last then digits first else digits first ++ 44 :: digits last

/-- The lines of a difference for a change of the lines `drop` into the lines `new`, behind the
line `a` of the old and the line `b` of the new file. -/
def change_lines (a b : Nat) (drop new : List Line) : List Line :=
  if drop = [] then (digits a ++ 97 :: (range (b + 1) (b + new.length) ++ [10])) :: new.map (marked 62)
  else if new = [] then (range (a + 1) (a + drop.length) ++ 100 :: (digits b ++ [10])) :: drop.map (marked 60)
  else (range (a + 1) (a + drop.length) ++ 99 :: (range (b + 1) (b + new.length) ++ [10])) ::
    (drop.map (marked 60) ++ [45, 45, 45, 10] :: new.map (marked 62))

/-- What a difference in the normal format says about two files, of which `k` and `j` lines
have gone by. -/
inductive Describes : Nat → Nat → List Line → List Line → List Line → Prop
  | same (k j : Nat) (rest : List Line) : Describes k j [] rest rest
  | change {k j : Nat} {diffin old edited : List Line} (keep drop new : List Line) (some_change : drop ≠ [] ∨ new ≠ [])
      (further : Describes (k + keep.length + drop.length) (j + keep.length + new.length) diffin old edited) :
      Describes k j (change_lines (k + keep.length) (j + keep.length) drop new ++ diffin) (keep ++ drop ++ old) (keep ++ new ++ edited)

theorem stops {c : UInt8} (number : numeric c = false) (rest : Line) : ∀ d ∈ (c :: rest).head?, numeric d = false := by
  intro d member
  cases member
  exact number

theorem linerange_one {c : UInt8} (number : numeric c = false) (comma : c ≠ 44) (rest : Line) :
    linerange (digits a ++ c :: rest) = (a, a, c :: rest) := by
  rw [linerange, satoi, read_digits (stops number rest)]
  split
  case h_1 p equal => exact absurd (List.cons.inj equal).1 comma
  case h_2 => rfl

theorem linerange_range {c : UInt8} (number : numeric c = false) (comma : c ≠ 44) (rest : Line) :
    linerange (range first last ++ c :: rest) = (first, last, c :: rest) := by
  rw [range]
  split
  case isTrue same => rw [same, linerange_one number comma]
  case isFalse =>
    rw [List.append_assoc, List.cons_append, linerange, satoi, read_digits (stops (by decide) _)]
    show (first, satoi (digits last ++ c :: rest)) = (first, last, c :: rest)
    rw [satoi, read_digits (stops number rest)]

theorem digits_no_dash (a : Nat) (rest : Line) : ¬ (digits a ++ rest).head? = some 45 := by
  obtain ⟨c, p, same, number⟩ := digits_head a
  rw [same]
  intro dash
  obtain rfl : c = 45 := Option.some.inj dash
  exact absurd number (by decide)

theorem range_no_dash (rest : Line) : ¬ (range first last ++ rest).head? = some 45 := by
  rw [range]
  split
  · exact digits_no_dash first rest
  · rw [List.append_assoc]
    exact digits_no_dash first _

theorem ends_newline (left : Line) (c : UInt8) (right : Line) : (left ++ c :: (right ++ [10])).getLast? = some 10 := by
  rw [List.getLast?_append, ← List.cons_append, List.getLast?_append]
  rfl

theorem getdiff_dash (chg_num chg_ln : Nat) :
    getdiff ⟨[45, 45, 45, 10] :: diffin, chg_num, chg_ln⟩ = some (⟨diffin, chg_num, chg_ln⟩, some ⟨INS, chg_ln, chg_num⟩) := rfl

theorem getdiff_append (some_new : 0 < m) (chg_num chg_ln : Nat) :
    getdiff ⟨(digits a ++ 97 :: (range (b + 1) (b + m) ++ [10])) :: diffin, chg_num, chg_ln⟩ =
      some (⟨diffin, chg_num, chg_ln⟩, some ⟨INS, a, m⟩) := by
  have number : b + m - (b + 1) + 1 = m := by omega
  simp only [getdiff, rddiff_line (ends_newline _ _ _), Option.bind_some, digits_no_dash, if_false, linerange_one (show numeric 97 = false by decide)
    (show (97 : UInt8) ≠ 44 by decide), linerange_range (show numeric 10 = false by decide) (show (10 : UInt8) ≠ 44 by decide), number]
  rfl

theorem getdiff_delete (some_old : drop ≠ []) (newlines : ∀ l ∈ drop, l.getLast? = some 10) (chg_num chg_ln : Nat) :
    getdiff ⟨(range (a + 1) (a + drop.length) ++ 100 :: (digits b ++ [10])) :: (drop.map (marked 60) ++ diffin), chg_num, chg_ln⟩ =
      some (⟨diffin, chg_num, chg_ln⟩, some ⟨DEL, a + 1, drop.length⟩) := by
  have positive := List.length_pos_of_ne_nil some_old
  have number : a + drop.length - (a + 1) + 1 = drop.length := by omega
  obtain ⟨lp, skipped⟩ := @skipline_marked (range (a + 1) (a + drop.length) ++ 100 :: (digits b ++ [10])) diffin drop newlines
  simp only [getdiff, rddiff_line (ends_newline _ _ _), Option.bind_some, range_no_dash, if_false, linerange_range (show numeric 100 = false by decide)
    (show (100 : UInt8) ≠ 44 by decide), number, skipped, if_true, Option.map_some]

theorem getdiff_change (some_old : drop ≠ []) (some_new : 0 < m) (newlines : ∀ l ∈ drop, l.getLast? = some 10) (chg_num chg_ln : Nat) :
    getdiff ⟨(range (a + 1) (a + drop.length) ++ 99 :: (range (b + 1) (b + m) ++ [10])) :: (drop.map (marked 60) ++ diffin), chg_num, chg_ln⟩ =
      some (⟨diffin, m, a + 1⟩, some ⟨DEL, a + 1, drop.length⟩) := by
  have positive := List.length_pos_of_ne_nil some_old
  have number : a + drop.length - (a + 1) + 1 = drop.length := by omega
  have number' : b + m - (b + 1) + 1 = m := by omega
  obtain ⟨lp, skipped⟩ := @skipline_marked (range (a + 1) (a + drop.length) ++ 99 :: (range (b + 1) (b + m) ++ [10])) diffin drop newlines
  simp only [getdiff, rddiff_line (ends_newline _ _ _), Option.bind_some, range_no_dash, if_false, linerange_range (show numeric 99 = false by decide)
    (show (99 : UInt8) ≠ 44 by decide), linerange_range (show numeric 10 = false by decide) (show (10 : UInt8) ≠ 44 by decide), number,
    number', skipped, if_true, Option.map_some]
  rfl

theorem rewrite_end (chg_num chg_ln : Nat) : rewrite_body n (time + 1) input pkt ⟨[], chg_num, chg_ln⟩ =
    (readmod_all (input.length + 1) input pkt).map (·.1) := rfl

theorem rewrite_insert {d d' : Differ} (found : getdiff d = some (d', some ⟨INS, a, m⟩)) (some_new : m ≠ 0) :
    rewrite_body n (time + 1) input pkt d = (Delta.insert input d'.diffin pkt a m n).bind fun done =>
      rewrite_body n time done.2.1 done.1 { d' with diffin := done.2.2 } := by
  rw [rewrite_body, found, Option.bind_some]
  show (if m = 0 then _ else if INS = INS then _ else _) = _
  rw [if_neg some_new, if_pos rfl]

theorem rewrite_delete {d d' : Differ} (found : getdiff d = some (d', some ⟨DEL, a, m⟩)) (some_old : m ≠ 0) :
    rewrite_body n (time + 1) input pkt d = (delete input pkt a m n).bind fun done => rewrite_body n time done.2 done.1 d' := by
  rw [rewrite_body, found, Option.bind_some]
  show (if m = 0 then _ else if DEL = INS then _ else _) = _
  rw [if_neg some_old, if_neg (by decide)]

theorem rewrite_describes (describes : Describes k j diffin ahead edited) (stage : Stage body maxser n A false pkt input w q seen ahead out)
    (old : maxser < n) (gone : seen.length = k) (texts : ∀ l ∈ edited, IsText l) (newlines : ∀ l ∈ ahead, l.getLast? = some 10)
    (enough : diffin.length < time) (chg_num chg_ln : Nat) :
    ∃ pkt', rewrite_body n time input pkt ⟨diffin, chg_num, chg_ln⟩ = some pkt' ∧
      Woven maxser n A false body [] (seen ++ ahead) pkt'.xfile (out ++ edited) := by
  induction describes generalizing pkt input w q seen out time chg_num chg_ln with
  | same k j rest =>
    obtain ⟨time, rfl⟩ := Nat.exists_eq_add_of_lt enough
    obtain ⟨rfl, rfl, upd, here, next, glnno, rfl, woven⟩ := stage
    obtain ⟨pkt', all, xfile⟩ := readmod_all_lines here next (Nat.lt_succ_self _)
    refine ⟨pkt', ?_, ?_⟩
    · rw [rewrite_end, all, Option.map_some]
    · rw [xfile upd]
      exact woven.extend old next
  | @change k j diffin ahead edited keep drop new some_change further ih =>
    have texts_new : ∀ l ∈ new, IsText l := fun l member => texts l (by simp [member])
    have texts_edited : ∀ l ∈ edited, IsText l := fun l member => texts l (by simp [member])
    have newlines_drop : ∀ l ∈ drop, l.getLast? = some 10 := fun l member => newlines l (by simp [member])
    have newlines_ahead : ∀ l ∈ ahead, l.getLast? = some 10 := fun l member => newlines l (by simp [member])
    rw [List.length_append] at enough
    obtain ⟨time, rfl⟩ : ∃ t, time = t + 1 := by
      refine ⟨time - 1, ?_⟩
      omega
    cases drop with
    | nil =>
      have some_new : new ≠ [] := some_change.resolve_left (fun none => none rfl)
      have positive := List.length_pos_of_ne_nil some_new
      have lines : change_lines (k + keep.length) (j + keep.length) [] new =
          (digits (k + keep.length) ++ 97 :: (range (j + keep.length + 1) (j + keep.length + new.length) ++ [10])) :: new.map (marked 62) := rfl
      have wanted : seen.length + keep.length = k + keep.length := by rw [gone]
      rw [lines, List.length_cons] at enough
      rw [List.append_nil] at stage
      obtain ⟨pkt1, input1, w1, q1, arrives, written, stage1⟩ := after_lines stage old wanted
      obtain ⟨pkt2, inserted, stage2⟩ := insert_stage diffin arrives stage1 written old texts_new
      have gone' : (seen ++ keep).length = k + keep.length + ([] : List Line).length := by
        rw [List.length_append, wanted]
        rfl
      obtain ⟨pkt', done, woven⟩ := ih stage2 gone' texts_edited newlines_ahead (show diffin.length < time by omega) chg_num chg_ln
      refine ⟨pkt', ?_, ?_⟩
      · rw [lines, List.cons_append, rewrite_insert (getdiff_append positive chg_num chg_ln) positive.ne', inserted, Option.bind_some]
        exact done
      · simpa only [List.append_assoc, List.append_nil, List.nil_append, Bool.false_eq_true, if_false] using woven
    | cons l drop =>
      have some_old : l :: drop ≠ [] := List.cons_ne_nil _ _
      have number : (l :: drop).length ≠ 0 := Nat.succ_ne_zero _
      have wanted : seen.length + keep.length + 1 = k + keep.length + 1 := by rw [gone]
      obtain ⟨pkt1, input1, w1, q1, deleted, written, stage1⟩ := delete_stage stage old wanted (show drop.length + 1 = (l :: drop).length from rfl)
      have gone' : (seen ++ keep ++ l :: drop).length = k + keep.length + (l :: drop).length := by
        rw [List.length_append, List.length_append, gone]
      by_cases none : new = []
      · have lines : change_lines (k + keep.length) (j + keep.length) (l :: drop) new =
            (range (k + keep.length + 1) (k + keep.length + (l :: drop).length) ++ 100 :: (digits (j + keep.length) ++ [10])) ::
              (l :: drop).map (marked 60) := by
          rw [change_lines, if_neg some_old, if_pos none]
        rw [lines, List.length_cons] at enough
        obtain ⟨pkt', done, woven⟩ := ih stage1 gone' texts_edited newlines_ahead (show diffin.length < time by omega) chg_num chg_ln
        refine ⟨pkt', ?_, ?_⟩
        · rw [lines, List.cons_append, rewrite_delete (getdiff_delete some_old newlines_drop chg_num chg_ln) number, deleted, Option.bind_some]
          exact done
        · subst none
          simpa only [List.append_assoc, List.append_nil] using woven
      · have positive := List.length_pos_of_ne_nil none
        have lines : change_lines (k + keep.length) (j + keep.length) (l :: drop) new =
            (range (k + keep.length + 1) (k + keep.length + (l :: drop).length) ++
                99 :: (range (j + keep.length + 1) (j + keep.length + new.length) ++ [10])) ::
              ((l :: drop).map (marked 60) ++ [45, 45, 45, 10] :: new.map (marked 62)) := by
          rw [change_lines, if_neg some_old, if_neg none]
        rw [lines, List.length_cons, List.length_append, List.length_cons] at enough
        obtain ⟨time, rfl⟩ : ∃ t, time = t + 1 := by
          refine ⟨time - 1, ?_⟩
          omega
        have past : k + keep.length + 1 ≤ pkt1.p_glnno := by
          rw [stage1.glnno, gone', List.length_cons]
          omega
        obtain ⟨pkt2, inserted, stage2⟩ := insert_stage diffin (after_past written past) stage1 written old texts_new
        obtain ⟨pkt', done, woven⟩ := ih stage2 gone' texts_edited newlines_ahead (show diffin.length < time by omega) new.length
          (k + keep.length + 1)
        refine ⟨pkt', ?_, ?_⟩
        · rw [lines, List.cons_append, List.append_assoc, List.cons_append,
            rewrite_delete (getdiff_change some_old positive newlines_drop chg_num chg_ln) number, deleted, Option.bind_some,
            rewrite_insert (getdiff_dash new.length (k + keep.length + 1)) positive.ne', inserted, Option.bind_some]
          exact done
        · simpa only [List.append_assoc] using woven

theorem reads_lines (done : reads maxser A q w = some (q', out)) : ∀ l ∈ out, l ∈ w := by
  induction w generalizing q out with
  | nil =>
    cases done
    exact fun _ => id
  | cons l w ih =>
    cases l with
    | nil => cases done
    | cons c p =>
      by_cases text : c ≠ CTLCHAR
      · rw [reads_text text] at done
        obtain ⟨⟨q1, more⟩, rest, equal⟩ := Option.map_eq_some_iff.mp done
        simp only [Prod.mk.injEq] at equal
        obtain ⟨queue, rfl⟩ := equal
        subst queue
        intro l member
        split at member
        · rcases List.mem_cons.mp member with rfl | later
          · exact List.mem_cons_self
          · exact List.mem_cons_of_mem _ (ih rest l later)
        · exact List.mem_cons_of_mem _ (ih rest l member)
      · obtain rfl : c = CTLCHAR := not_not.mp text
        rw [reads_control] at done
        obtain ⟨q1, -, rest⟩ := Option.bind_eq_some_iff.mp done
        exact fun l member => List.mem_cons_of_mem _ (ih rest l member)

theorem scan_newlines (formed : scan maxser o w = some o') : ∀ l ∈ w, l.getLast? = some 10 := by
  induction w generalizing o with
  | nil => exact fun l member => absurd member List.not_mem_nil
  | cons l w ih =>
    cases l with
    | nil => cases formed
    | cons c p =>
      rw [scan] at formed
      split at formed
      case isTrue => cases formed
      case isFalse newline =>
        have further : ∃ o1, scan maxser o1 w = some o' := by
          split at formed
          case isTrue => exact ⟨o, formed⟩
          case isFalse =>
            obtain ⟨r, -, formed⟩ := Option.bind_eq_some_iff.mp formed
            obtain ⟨o1, -, formed⟩ := Option.bind_eq_some_iff.mp formed
            exact ⟨o1, formed⟩
        obtain ⟨o1, formed⟩ := further
        intro l member
        rcases List.mem_cons.mp member with rfl | later
        · exact not_not.mp newline
        · exact ih formed l later

theorem at_body_stage (here : reads maxser A [] body = some ([], old)) :
    Stage body maxser n A false (at_body maxser A true) body [] [] [] old [] :=
  ⟨rfl, rfl, rfl, ⟨rfl, by simp [at_body, setkeep]⟩, here, rfl, rfl, woven_start maxser n A⟩

/-- The new version is in the body that `delta` writes, and every other one still is. -/
theorem weave_keeps_versions (formed : WellFormed maxser body) (newer : maxser < n) (retrieved : retrieve maxser A body = some old)
    (describes : Describes 0 0 diffin old edited) (texts : ∀ l ∈ edited, IsText l) :
    ∃ body', delta maxser A n body diffin = some body' ∧ retrieve n (update A n true) body' = some edited ∧
      (∀ B, B n = false → retrieve n B body' = retrieve maxser B body) ∧ WellFormed n body' := by
  obtain ⟨lines, here⟩ := @formed_reads maxser A body formed
  obtain rfl : lines = old := Option.some.inj ((retrieve_reads here).symm.trans retrieved)
  have newlines : ∀ l ∈ lines, l.getLast? = some 10 := fun l member => scan_newlines formed l (reads_lines here l member)
  obtain ⟨pkt', done, woven⟩ := rewrite_describes describes (at_body_stage here) newer rfl texts newlines (Nat.lt_succ_self _) 0 0
  refine ⟨pkt'.xfile, ?_, retrieve_reads woven.new, fun B without => ?_, ?_⟩
  · rw [delta, done, Option.map_some]
  · obtain ⟨k, other⟩ := @formed_reads maxser B body formed
    rw [retrieve_reads other]
    exact retrieve_reads (woven.old B without [] k other)
  · have new_formed := woven.formed _ formed
    rwa [update_eq_self_iff.mpr rfl] at new_formed

/-- Two lines are the first version, and in the second one the last line is another. -/
theorem weave_keeps_versions_twice : ∃ body',
    delta 1 (fun s => s = 1) 2 (block 1 [[97, 10], [98, 10]]) (change_lines 1 1 [[98, 10]] [[99, 10]]) = some body' ∧
      retrieve 2 (update (fun s => s = 1) 2 true) body' = some [[97, 10], [99, 10]] ∧
      (∀ B, B 2 = false → retrieve 2 B body' = retrieve 1 B (block 1 [[97, 10], [98, 10]])) ∧ WellFormed 2 body' := by
  have texts : ∀ c : UInt8, c ≠ CTLCHAR → IsText [c, 10] := fun c text => ⟨⟨c, [10], rfl, text⟩, rfl⟩
  have first : ∀ l ∈ ([[97, 10], [98, 10]] : List Line), IsText l := by
    simpa using ⟨texts 97 (by decide), texts 98 (by decide)⟩
  have second : ∀ l ∈ ([[97, 10], [99, 10]] : List Line), IsText l := by
    simpa using ⟨texts 97 (by decide), texts 99 (by decide)⟩
  have formed : WellFormed 1 (block 1 [[97, 10], [98, 10]]) := by
    have region := @scan_block 1 [[97, 10], [98, 10]] (fun _ => false) (by decide) first
    rwa [update_eq_self_iff.mpr rfl] at region
  have here := retrieve_reads (@reads_block 1 (fun s => s = 1) [] [[97, 10], [98, 10]] (by decide) below_nil first)
  exact weave_keeps_versions formed (by decide) here (.change [[97, 10]] [[98, 10]] [[99, 10]] (.inl (List.cons_ne_nil _ _)) (.same 2 2 [])) second

end Svr4.Proofs.DeltaVersions
