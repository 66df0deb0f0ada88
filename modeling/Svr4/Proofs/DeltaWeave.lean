import Svr4.Delta

/-! What `readmod` finds in a piece of a body, as a function of the queue it starts with. -/

namespace Svr4.Proofs.DeltaRead
open Decimal Delta

variable {p : Line} {iord : UInt8} {r : UInt8 × Nat}

variable {maxser n ser time : Nat} {apply : Nat → Bool} {q q' qf : List Queue} {l : Line} {body input rest lines : List Line}
  {pkt : Packet}

def reads (maxser : Nat) (apply : Nat → Bool) : List Queue → List Line → Option (List Queue × List Line)
  | q, [] => some (q, [])
  | _, [] :: _ => none
  | q, (c :: p) :: rest =>
    if c ≠ CTLCHAR then (reads maxser apply q rest).map fun r => (r.1, if setkeep q = .yes then (c :: p) :: r.2 else r.2)
    else (control maxser apply q p).bind fun q => reads maxser apply q rest

theorem reads_append (first second : List Line) : reads maxser apply q (first ++ second) =
    (reads maxser apply q first).bind fun r => (reads maxser apply r.1 second).map fun s => (s.1, r.2 ++ s.2) := by
  induction first generalizing q with
  | nil =>
    show reads maxser apply q second = (reads maxser apply q second).map fun s => (s.1, [] ++ s.2)
    cases reads maxser apply q second <;> rfl
  | cons l first ih =>
    cases l with
    | nil => rfl
    | cons c p =>
      by_cases text : c ≠ CTLCHAR
      · simp only [List.cons_append, reads, text, ne_eq, not_false_eq_true, if_true, ih]
        cases reads maxser apply q first with
        | none => rfl
        | some r =>
          simp only [Option.bind_some, Option.map_some, Option.map_map]
          congr 1
          funext s
          simp only [Function.comp_apply]
          split <;> rfl
      · simp only [List.cons_append, reads, text, if_false]
        cases control maxser apply q p with
        | none => rfl
        | some q => exact ih

theorem reads_text {c : UInt8} (text : c ≠ CTLCHAR) : reads maxser apply q ((c :: p) :: rest) =
    (reads maxser apply q rest).map fun r => (r.1, if setkeep q = .yes then (c :: p) :: r.2 else r.2) := by
  rw [reads, if_pos text]

theorem reads_control : reads maxser apply q ((CTLCHAR :: p) :: rest) =
    (control maxser apply q p).bind fun q => reads maxser apply q rest := by
  rw [reads, if_neg (not_not.mpr rfl)]

def settled (pkt : Packet) : List Line := if pkt.p_wrttn then pkt.xfile else pkt.xfile ++ [pkt.p_line]

structure At (pkt : Packet) (q : List Queue) : Prop where
  queue : pkt.p_q = q
  keep : pkt.p_keep = .yes ↔ setkeep q = .yes

structure Same (pkt pkt' : Packet) : Prop where
  maxser : pkt'.maxser = pkt.maxser
  apply : pkt'.apply = pkt.apply
  p_upd : pkt'.p_upd = pkt.p_upd

theorem Same.refl (pkt : Packet) : Same pkt pkt := ⟨rfl, rfl, rfl⟩

theorem Same.trans {pkt' pkt'' : Packet} (first : Same pkt pkt') (second : Same pkt' pkt'') : Same pkt pkt'' :=
  ⟨second.maxser.trans first.maxser, second.apply.trans first.apply, second.p_upd.trans first.p_upd⟩

theorem put_current_settled (upd : pkt.p_upd = true) : (put_current pkt).xfile = settled pkt := by
  rw [put_current, settled, upd]
  cases pkt.p_wrttn <;> rfl

theorem getline_same (pkt : Packet) (l : Line) : Same pkt (getline pkt l) ∧ (getline pkt l).p_q = pkt.p_q ∧
    (getline pkt l).p_keep = pkt.p_keep ∧ (getline pkt l).p_glnno = pkt.p_glnno ∧ (getline pkt l).p_line = l ∧
    (getline pkt l).p_wrttn = false := by
  rw [getline, put_current]
  split
  · exact ⟨⟨rfl, rfl, rfl⟩, rfl, rfl, rfl, rfl, rfl⟩
  · split
    · exact ⟨⟨rfl, rfl, rfl⟩, rfl, rfl, rfl, rfl, rfl⟩
    · exact ⟨⟨rfl, rfl, rfl⟩, rfl, rfl, rfl, rfl, rfl⟩

theorem getline_xfile (upd : pkt.p_upd = true) (l : Line) : (getline pkt l).xfile = settled pkt := by
  rw [getline]
  split
  case isTrue written => rw [settled, if_pos written]
  case isFalse =>
    show (put_current pkt).xfile = settled pkt
    exact put_current_settled upd

structure Passed (pkt : Packet) (q : List Queue) (skipped : List Line) (pkt' : Packet) (q' : List Queue) : Prop where
  same : Same pkt pkt'
  glnno : pkt'.p_glnno = pkt.p_glnno
  here : At pkt' q'
  nothing : reads pkt.maxser pkt.apply q skipped = some (q', [])
  settles : pkt.p_upd = true → settled pkt' = settled pkt ++ skipped

theorem Passed.trans {pkt' pkt'' : Packet} {q'' : List Queue} {first second : List Line} (one : Passed pkt q first pkt' q')
    (two : Passed pkt' q' second pkt'' q'') : Passed pkt q (first ++ second) pkt'' q'' := by
  refine ⟨one.same.trans two.same, two.glnno.trans one.glnno, two.here, ?_, ?_⟩
  · have nothing := two.nothing
    rw [one.same.maxser, one.same.apply] at nothing
    rw [reads_append, one.nothing, Option.bind_some, nothing]
    rfl
  · intro upd
    rw [two.settles (one.same.p_upd.trans upd), one.settles upd, List.append_assoc]

theorem first_line {first : Line} (here : At pkt q) (ahead : reads pkt.maxser pkt.apply q (first :: input) = some (qf, lines)) :
    (∃ more, lines = first :: more ∧ reads pkt.maxser pkt.apply q [first] = some (q, [first]) ∧
        reads pkt.maxser pkt.apply q input = some (qf, more) ∧ At (getline pkt first) q ∧
        readmod (first :: input) pkt = some (count_line (getline pkt first), input, true)) ∨
    ∃ pkt' q', Passed pkt q [first] pkt' q' ∧ reads pkt.maxser pkt.apply q' input = some (qf, lines) ∧
      readmod (first :: input) pkt = readmod input pkt' := by
  obtain ⟨same, queue, keep, glnno, line, pending⟩ := getline_same pkt first
  have settles : pkt.p_upd = true → settled (getline pkt first) = settled pkt ++ [first] := by
    intro upd
    rw [settled, if_neg (by simp [pending]), line, getline_xfile upd]
  have here' : At (getline pkt first) q := ⟨queue.trans here.queue, by rw [keep]; exact here.keep⟩
  cases first with
  | nil => cases ahead
  | cons c p =>
    by_cases text : c ≠ CTLCHAR
    · rw [reads_text text] at ahead
      obtain ⟨⟨qf', more⟩, next, equal⟩ := Option.map_eq_some_iff.mp ahead
      simp only [Prod.mk.injEq] at equal
      obtain ⟨rfl, equal⟩ := equal
      have alone : reads pkt.maxser pkt.apply q [c :: p] = some (q, if setkeep q = .yes then [c :: p] else []) := by
        rw [reads_text text]
        rfl
      by_cases kept : setkeep q = .yes
      · rw [if_pos kept] at equal alone
        refine .inl ⟨more, equal.symm, alone, next, here', ?_⟩
        have now : (getline pkt (c :: p)).p_keep = .yes := keep.trans (here.keep.mpr kept)
        simp only [readmod, text, ne_eq, not_false_eq_true, if_true, now]
      · rw [if_neg kept] at equal alone
        subst equal
        have not_now : ¬ (getline pkt (c :: p)).p_keep = .yes := fun now => kept (here.keep.mp (keep.symm.trans now))
        refine .inr ⟨getline pkt (c :: p), q, ⟨same, glnno, here', alone, settles⟩, next, ?_⟩
        simp only [readmod, text, ne_eq, not_false_eq_true, if_true, not_now, if_false]
    · obtain rfl : c = CTLCHAR := not_not.mp text
      rw [reads_control] at ahead
      obtain ⟨q', step, next⟩ := Option.bind_eq_some_iff.mp ahead
      refine .inr ⟨{ getline pkt (CTLCHAR :: p) with p_q := q', p_keep := setkeep q' }, q', ⟨?_, glnno, ⟨rfl, Iff.rfl⟩, ?_, settles⟩, next, ?_⟩
      · exact ⟨same.maxser, same.apply, same.p_upd⟩
      · rw [reads_control, step]
        rfl
      · have step' : control (getline pkt (CTLCHAR :: p)).maxser (getline pkt (CTLCHAR :: p)).apply (getline pkt (CTLCHAR :: p)).p_q p =
            some q' := by
          rw [same.maxser, same.apply, here'.queue]
          exact step
        simp only [readmod, ne_eq, not_true, if_false, step', Option.bind_some]

theorem readmod_found (here : At pkt q) (ahead : reads pkt.maxser pkt.apply q input = some (qf, l :: lines)) :
    ∃ skipped pkt1 q1 rest, input = skipped ++ l :: rest ∧ Passed pkt q skipped pkt1 q1 ∧
      reads pkt.maxser pkt.apply q1 [l] = some (q1, [l]) ∧ reads pkt.maxser pkt.apply q1 rest = some (qf, lines) ∧
      At (getline pkt1 l) q1 ∧ readmod input pkt = some (count_line (getline pkt1 l), rest, true) := by
  induction input generalizing pkt q with
  | nil => cases ahead
  | cons first input ih =>
    rcases first_line here ahead with ⟨more, equal, alone, next, here', step⟩ | ⟨pkt', q', passed, next, step⟩
    · obtain ⟨rfl, rfl⟩ := List.cons.inj equal
      exact ⟨[], pkt, q, input, rfl, ⟨Same.refl pkt, rfl, here, rfl, fun _ => (List.append_nil _).symm⟩, alone, next, here', step⟩
    · rw [← passed.same.maxser, ← passed.same.apply] at next
      obtain ⟨skipped, pkt1, q1, rest, rfl, passed', alone, next', here', step'⟩ := ih passed.here next
      rw [passed.same.maxser, passed.same.apply] at alone next'
      refine ⟨first :: skipped, pkt1, q1, rest, rfl, passed.trans passed', alone, next', here', ?_⟩
      rw [step, step']

theorem readmod_end (here : At pkt q) (ahead : reads pkt.maxser pkt.apply q input = some ([], [])) :
    ∃ pkt1, Passed pkt q input pkt1 [] ∧ readmod input pkt = some (getline_eof pkt1, [], false) := by
  induction input generalizing pkt q with
  | nil =>
    obtain ⟨rfl, -⟩ := Prod.mk.inj (Option.some.inj ahead)
    refine ⟨pkt, ⟨Same.refl pkt, rfl, here, rfl, fun _ => (List.append_nil _).symm⟩, ?_⟩
    rw [readmod, if_pos here.queue]
  | cons first input ih =>
    rcases first_line here ahead with ⟨more, equal, -⟩ | ⟨pkt', q', passed, next, step⟩
    · cases equal
    · rw [← passed.same.maxser, ← passed.same.apply] at next
      obtain ⟨pkt1, passed', step'⟩ := ih passed.here next
      exact ⟨pkt1, passed.trans passed', step.trans step'⟩

theorem getline_eof_xfile (upd : pkt.p_upd = true) : (getline_eof pkt).xfile = settled pkt := by
  rw [getline_eof]
  split
  case isTrue written => rw [settled, if_pos written]
  case isFalse => exact put_current_settled upd

theorem readmod_all_lines (here : At pkt q) (ahead : reads pkt.maxser pkt.apply q input = some ([], lines)) (enough : input.length < time) :
    ∃ pkt', readmod_all time input pkt = some (pkt', lines) ∧ (pkt.p_upd = true → pkt'.xfile = settled pkt ++ input) := by
  induction lines generalizing pkt q input time with
  | nil =>
    obtain ⟨time, rfl⟩ := Nat.exists_eq_add_of_lt enough
    obtain ⟨pkt1, passed, step⟩ := readmod_end here ahead
    refine ⟨getline_eof pkt1, ?_, fun upd => ?_⟩
    · simp only [readmod_all, step, Option.bind_some, Bool.false_eq_true, if_false]
    · rw [getline_eof_xfile (passed.same.p_upd.trans upd), passed.settles upd]
  | cons l lines ih =>
    obtain ⟨skipped, pkt1, q1, rest, rfl, passed, alone, next, here', step⟩ := readmod_found here ahead
    obtain ⟨same, -, -, glnno, line, pending⟩ := getline_same pkt1 l
    obtain ⟨time, rfl⟩ := Nat.exists_eq_add_of_lt enough
    have here'' : At (count_line (getline pkt1 l)) q1 := ⟨here'.queue, here'.keep⟩
    have both := passed.same.trans same
    have next' : reads (count_line (getline pkt1 l)).maxser (count_line (getline pkt1 l)).apply q1 rest = some ([], lines) := by
      rw [← both.maxser, ← both.apply] at next
      exact next
    have shorter : rest.length < (skipped ++ l :: rest).length + time := by
      simp only [List.length_append, List.length_cons]
      omega
    obtain ⟨pkt', all, xfile⟩ := ih here'' next' shorter
    refine ⟨pkt', ?_, fun upd => ?_⟩
    · simp only [readmod_all, step, Option.bind_some, if_true, all, Option.map_some]
      rw [show (count_line (getline pkt1 l)).p_line = l from line]
    · rw [xfile (both.p_upd.trans upd)]
      have now : settled (count_line (getline pkt1 l)) = settled pkt ++ skipped ++ [l] := by
        rw [settled, show (count_line (getline pkt1 l)).p_wrttn = false from pending, if_neg Bool.false_ne_true]
        show (getline pkt1 l).xfile ++ [(getline pkt1 l).p_line] = settled pkt ++ skipped ++ [l]
        rw [line, getline_xfile (passed.same.p_upd.trans upd), passed.settles upd]
      rw [now]
      simp

theorem retrieve_reads (ahead : reads maxser apply [] body = some ([], lines)) : retrieve maxser apply body = some lines := by
  have here : At (at_body maxser apply false) [] := ⟨rfl, by simp [at_body, setkeep]⟩
  obtain ⟨pkt', all, -⟩ := readmod_all_lines here ahead (Nat.lt_succ_self _)
  rw [retrieve, all]
  rfl

end Svr4.Proofs.DeltaRead

/-! What the control lines of a new serial do to the versions: its own regions are on top of
all others, so they decide for it, and change nothing for the others. -/

namespace Svr4.Proofs.DeltaWeave
open Function Decimal Delta DeltaRead

variable {maxser n ser : Nat} {apply apply' A B : Nat → Bool} {q q' : List Queue} {e : Queue} {l : Line} {k new w w' x out : List Line}
  {o o' : Nat → Bool} {inside : Bool}

def IsText (l : Line) : Prop := (∃ c p, l = c :: p ∧ c ≠ CTLCHAR) ∧ l.getLast? = some 10

def region (maxser : Nat) : Line → Option (UInt8 × Nat)
  | [] => none
  | iord :: p =>
    let ser := (satoi (nonblank p)).1
    if (iord = INS ∨ iord = DEL ∨ iord = END) ∧ ser > 0 ∧ ser ≤ maxser then some (iord, ser) else none

/-- A region of a serial begins when none is open, and ends when one is. -/
def toggle (o : Nat → Bool) (r : UInt8 × Nat) : Option (Nat → Bool) :=
  if r.1 = END then
    if o r.2 then some (update o r.2 false) else none
  else if o r.2 then none
  else some (update o r.2 true)

/-- The regions that are open behind a piece of a body, if those of each serial alternate
with their ends. -/
def scan (maxser : Nat) : (Nat → Bool) → List Line → Option (Nat → Bool)
  | o, [] => some o
  | _, [] :: _ => none
  | o, (c :: p) :: rest =>
    if (c :: p).getLast? ≠ some 10 then none
    else if c ≠ CTLCHAR then scan maxser o rest
    else (region maxser p).bind fun r => (toggle o r).bind fun o => scan maxser o rest

def WellFormed (maxser : Nat) (body : List Line) : Prop := scan maxser (fun _ => false) body = some fun _ => false

theorem control_region (p : Line) : Delta.control maxser apply q p =
    (region maxser p).bind fun r =>
      if r.1 = END then remq r.2 q
      else if apply r.2 then addq ⟨r.2, if r.1 = INS then .yes else .no, r.1⟩ q
      else addq ⟨r.2, if r.1 = INS then .no else .null, r.1⟩ q := by
  cases p with
  | nil => rfl
  | cons iord p =>
    simp only [Delta.control, region]
    by_cases kind : iord = INS ∨ iord = DEL ∨ iord = END
    · by_cases range : (satoi (nonblank p)).1 > 0 ∧ (satoi (nonblank p)).1 ≤ maxser
      · rw [if_neg (not_not.mpr kind), if_neg (not_not.mpr range), if_pos (And.intro kind range), Option.bind_some]
      · rw [if_neg (not_not.mpr kind), if_pos range, if_neg (fun both => range both.2)]
        rfl
    · rw [if_pos kind, if_neg (fun both => kind both.1)]
      rfl

theorem region_bound (found : region maxser p = some r) : 0 < r.2 ∧ r.2 ≤ maxser := by
  cases p with
  | nil => cases found
  | cons iord p =>
    simp only [region] at found
    split at found
    case isTrue valid =>
      cases found
      exact valid.2
    case isFalse => cases found

theorem region_more (more : maxser ≤ n) (found : region maxser p = some r) : region n p = some r := by
  cases p with
  | nil => cases found
  | cons iord p =>
    simp only [region] at found ⊢
    split at found
    case isTrue valid => rw [if_pos ⟨valid.1, valid.2.1, valid.2.2.trans more⟩, found]
    case isFalse => cases found

def Below (n : Nat) (q : List Queue) : Prop := ∀ e ∈ q, e.q_sernum < n

theorem addq_front (below : Below e.q_sernum q) : addq e q = some (e :: q) := by
  cases q with
  | nil => rfl
  | cons cur q =>
    have less := below cur (by simp)
    rw [addq, if_pos less.le, if_neg less.ne]

theorem addq_under {new : Queue} (less : new.q_sernum < e.q_sernum) : addq new (e :: q) = (addq new q).map (e :: ·) := by
  rw [addq, if_neg (by omega)]

theorem remq_under (less : ser < e.q_sernum) : remq ser (e :: q) = (remq ser q).map (e :: ·) := by
  rw [remq, if_neg (by omega)]

theorem addq_mem {new : Queue} (added : addq new q = some q') : ∀ f ∈ q', f = new ∨ f ∈ q := by
  induction q generalizing q' with
  | nil =>
    cases added
    simp
  | cons cur q ih =>
    rw [addq] at added
    split at added
    · split at added
      · cases added
      · cases added
        intro f member
        exact (List.mem_cons.mp member)
    · obtain ⟨q1, step, rfl⟩ := Option.map_eq_some_iff.mp added
      intro f member
      rcases List.mem_cons.mp member with rfl | rest
      · exact .inr (by simp)
      · exact (ih step f rest).imp_right (List.mem_cons_of_mem _)

theorem remq_mem (removed : remq ser q = some q') : ∀ f ∈ q', f ∈ q := by
  induction q generalizing q' with
  | nil => cases removed
  | cons cur q ih =>
    rw [remq] at removed
    split at removed
    · cases removed
      exact fun f => List.mem_cons_of_mem _
    · obtain ⟨q1, step, rfl⟩ := Option.map_eq_some_iff.mp removed
      intro f member
      rcases List.mem_cons.mp member with rfl | rest
      · simp
      · exact List.mem_cons_of_mem _ (ih step f rest)

theorem control_below (below : Below n q) (old : maxser < n) (step : control maxser apply q p = some q') : Below n q' := by
  rw [control_region] at step
  obtain ⟨⟨iord, ser⟩, found, step⟩ := Option.bind_eq_some_iff.mp step
  have bound := (region_bound found).2
  have added : ∀ new : Queue, new.q_sernum = ser → addq new q = some q' → Below n q' := by
    intro new same added f member
    rcases addq_mem added f member with rfl | rest
    · rw [same]
      exact bound.trans_lt old
    · exact below f rest
  simp only at step
  split at step
  · exact fun f member => below f (remq_mem step f member)
  · split at step
    · exact added _ rfl step
    · exact added _ rfl step

theorem reads_below (below : Below n q) (old : maxser < n) (done : reads maxser apply q w = some (q', k)) : Below n q' := by
  induction w generalizing q k with
  | nil =>
    cases done
    exact below
  | cons l w ih =>
    cases l with
    | nil => cases done
    | cons c p =>
      by_cases text : c ≠ CTLCHAR
      · rw [reads_text text] at done
        obtain ⟨⟨q1, k1⟩, rest, equal⟩ := Option.map_eq_some_iff.mp done
        simp only [Prod.mk.injEq] at equal
        obtain ⟨rfl, -⟩ := equal
        exact ih below rest
      · obtain rfl : c = CTLCHAR := not_not.mp text
        rw [reads_control] at done
        obtain ⟨q1, step, rest⟩ := Option.bind_eq_some_iff.mp done
        exact ih (control_below below old step) rest

theorem control_under (top : e.q_sernum = n) (old : maxser < n) (same : ∀ s, s ≤ maxser → apply' s = apply s)
    (step : control maxser apply q p = some q') : control n apply' (e :: q) p = some (e :: q') := by
  rw [control_region] at step ⊢
  obtain ⟨⟨iord, ser⟩, found, step⟩ := Option.bind_eq_some_iff.mp step
  have bound := (region_bound found).2
  have less : ser < e.q_sernum := by omega
  rw [region_more old.le found, Option.bind_some]
  simp only at step ⊢
  rw [same ser bound]
  split at step
  case isTrue ends => rw [if_pos ends, remq_under less, step, Option.map_some]
  case isFalse begins =>
    rw [if_neg begins]
    split at step
    case isTrue applied => rw [if_pos applied, addq_under less, step, Option.map_some]
    case isFalse other => rw [if_neg other, addq_under less, step, Option.map_some]

theorem control_same (old : maxser < n) (same : ∀ s, s ≤ maxser → apply' s = apply s)
    (step : control maxser apply q p = some q') : control n apply' q p = some q' := by
  rw [control_region] at step ⊢
  obtain ⟨⟨iord, ser⟩, found, step⟩ := Option.bind_eq_some_iff.mp step
  rw [region_more old.le found, Option.bind_some, same ser (region_bound found).2]
  exact step

theorem reads_same (old : maxser < n) (same : ∀ s, s ≤ maxser → apply' s = apply s) (done : reads maxser apply q w = some (q', k)) :
    reads n apply' q w = some (q', k) := by
  induction w generalizing q k with
  | nil => exact done
  | cons l w ih =>
    cases l with
    | nil => cases done
    | cons c p =>
      by_cases text : c ≠ CTLCHAR
      · rw [reads_text text] at done ⊢
        obtain ⟨⟨q1, k1⟩, rest, equal⟩ := Option.map_eq_some_iff.mp done
        simp only [Prod.mk.injEq] at equal
        obtain ⟨queue, rfl⟩ := equal
        subst queue
        rw [ih rest, Option.map_some]
      · obtain rfl : c = CTLCHAR := not_not.mp text
        rw [reads_control] at done ⊢
        obtain ⟨q1, step, rest⟩ := Option.bind_eq_some_iff.mp done
        rw [control_same old same step, Option.bind_some]
        exact ih rest

theorem reads_under (top : e.q_sernum = n) (old : maxser < n) (same : ∀ s, s ≤ maxser → apply' s = apply s) (not_yes : e.q_keep ≠ .yes)
    (done : reads maxser apply q w = some (q', k)) :
    reads n apply' (e :: q) w = some (e :: q', if e.q_keep = .null then k else []) := by
  induction w generalizing q k with
  | nil =>
    cases done
    rw [reads, ite_self]
  | cons l w ih =>
    cases l with
    | nil => cases done
    | cons c p =>
      by_cases text : c ≠ CTLCHAR
      · rw [reads_text text] at done ⊢
        obtain ⟨⟨q1, k1⟩, rest, equal⟩ := Option.map_eq_some_iff.mp done
        simp only [Prod.mk.injEq] at equal
        obtain ⟨queue, rfl⟩ := equal
        subst queue
        rw [ih rest, Option.map_some]
        by_cases null : e.q_keep = .null
        · rw [setkeep, if_neg (not_not.mpr null), if_pos null, if_pos null]
        · rw [setkeep, if_pos null, if_neg not_yes, if_neg null, if_neg null]
      · obtain rfl : c = CTLCHAR := not_not.mp text
        rw [reads_control] at done ⊢
        obtain ⟨q1, step, rest⟩ := Option.bind_eq_some_iff.mp done
        rw [control_under top old same step, Option.bind_some]
        exact ih rest

theorem reads_texts (texts : ∀ l ∈ new, IsText l) : reads maxser apply q new = some (q, if setkeep q = .yes then new else []) := by
  induction new with
  | nil => rw [reads, ite_self]
  | cons l new ih =>
    obtain ⟨⟨c, p, rfl, text⟩, -⟩ := texts l (by simp)
    rw [reads_text text, ih fun m member => texts m (List.mem_cons_of_mem _ member), Option.map_some]
    split <;> rfl

theorem nonblank_digits : nonblank (32 :: (digits n ++ [10])) = digits n ++ [10] := by
  obtain ⟨c, p, same, number⟩ := digits_head n
  have not_blank : ¬ (c = 32 ∨ c = 9) := by
    rintro (rfl | rfl) <;> exact absurd number (by decide)
  rw [nonblank, if_pos (.inl rfl), same, List.cons_append, nonblank, if_neg not_blank]

theorem region_ctl (kind : iord = INS ∨ iord = DEL ∨ iord = END) (positive : 0 < n) :
    region n (iord :: 32 :: (digits n ++ [10])) = some (iord, n) := by
  have value : (satoi (nonblank (32 :: (digits n ++ [10])))).1 = n := by
    have stop : ∀ c ∈ ([10] : Line).head?, numeric c = false := by
      intro c member
      cases member
      decide
    rw [nonblank_digits, satoi, read_digits stop]
  rw [region, value, if_pos ⟨kind, positive, le_rfl⟩]

theorem ctl_line (iord : UInt8) : ctl iord n = CTLCHAR :: iord :: 32 :: (digits n ++ [10]) := rfl

theorem reads_opened (kind : iord = INS ∨ iord = DEL) (positive : 0 < n) (below : Below n q) :
    reads n apply q [ctl iord n] = some
      (⟨n, if apply n then (if iord = INS then .yes else .no) else (if iord = INS then .no else .null), iord⟩ :: q, []) := by
  have starts : ¬ iord = END := by
    rcases kind with rfl | rfl <;> decide
  have entered : ∀ e : Queue, e.q_sernum = n → addq e q = some (e :: q) := fun e same => addq_front (by rwa [same])
  rw [ctl_line, reads_control, control_region, region_ctl (by tauto) positive, Option.bind_some]
  simp only [if_neg starts]
  split
  · rw [entered _ rfl]
    rfl
  · rw [entered _ rfl]
    rfl

theorem reads_closed (positive : 0 < n) (top : e.q_sernum = n) : reads n apply (e :: q) [ctl END n] = some (q, []) := by
  rw [ctl_line, reads_control, control_region, region_ctl (by tauto) positive, Option.bind_some]
  simp only [if_true]
  rw [remq, if_pos top]
  rfl

def block (n : Nat) (new : List Line) : List Line := ctl INS n :: new ++ [ctl END n]

theorem reads_block (positive : 0 < n) (below : Below n q) (texts : ∀ l ∈ new, IsText l) :
    reads n apply q (block n new) = some (q, if apply n then new else []) := by
  rw [block, ← List.singleton_append, reads_append, reads_append, reads_opened (.inl rfl) positive below, Option.bind_some,
    reads_texts texts, Option.map_some, Option.bind_some, reads_closed positive rfl, Option.map_some]
  cases apply n <;> simp [setkeep]

theorem scan_append (first second : List Line) : scan maxser o (first ++ second) = (scan maxser o first).bind fun o => scan maxser o second := by
  induction first generalizing o with
  | nil => rfl
  | cons l first ih =>
    cases l with
    | nil => rfl
    | cons c p =>
      rw [List.cons_append, scan, scan]
      by_cases newline : (c :: p).getLast? ≠ some 10
      · rw [if_pos newline, if_pos newline]
        rfl
      · rw [if_neg newline, if_neg newline]
        by_cases text : c ≠ CTLCHAR
        · rw [if_pos text, if_pos text]
          exact ih
        · rw [if_neg text, if_neg text]
          cases region maxser p with
          | none => rfl
          | some r =>
            simp only [Option.bind_some]
            cases toggle o r with
            | none => rfl
            | some o => exact ih

theorem toggle_under {inside : Bool} (other : r.2 ≠ n) (step : toggle o r = some o') :
    toggle (update o n inside) r = some (update o' n inside) := by
  have unseen : update o n inside r.2 = o r.2 := update_of_ne other inside o
  rw [toggle] at step ⊢
  rw [unseen]
  split at step
  case isTrue ends =>
    split at step
    case isTrue opened =>
      cases step
      rw [if_pos ends, if_pos opened, update_comm other]
    case isFalse => cases step
  case isFalse begins =>
    split at step
    case isTrue => cases step
    case isFalse closed =>
      cases step
      rw [if_neg begins, if_neg closed, update_comm other]

theorem scan_under (old : maxser < n) (done : scan maxser o x = some o') :
    scan n (update o n inside) x = some (update o' n inside) := by
  induction x generalizing o with
  | nil =>
    cases done
    rfl
  | cons l x ih =>
    cases l with
    | nil => cases done
    | cons c p =>
      rw [scan] at done ⊢
      split at done
      case isTrue => cases done
      case isFalse newline =>
        rw [if_neg newline]
        split at done
        case isTrue text =>
          rw [if_pos text]
          exact ih done
        case isFalse text =>
          obtain ⟨r, found, done⟩ := Option.bind_eq_some_iff.mp done
          obtain ⟨o1, step, done⟩ := Option.bind_eq_some_iff.mp done
          have other : r.2 ≠ n := by
            have bound := (region_bound found).2
            omega
          rw [if_neg text, region_more old.le found, Option.bind_some, toggle_under other step, Option.bind_some]
          exact ih done

theorem scan_texts (texts : ∀ l ∈ new, IsText l) : scan maxser o new = some o := by
  induction new with
  | nil => rfl
  | cons l new ih =>
    obtain ⟨⟨c, p, rfl, text⟩, newline⟩ := texts l (by simp)
    rw [scan, if_neg (not_not.mpr newline), if_pos text]
    exact ih fun m member => texts m (List.mem_cons_of_mem _ member)

theorem scan_ctl (kind : iord = INS ∨ iord = DEL ∨ iord = END) (positive : 0 < n) :
    scan n o [ctl iord n] = toggle o (iord, n) := by
  have newline : (ctl iord n).getLast? = some 10 := by rw [ctl, List.getLast?_append]; rfl
  rw [ctl_line] at newline ⊢
  rw [scan, if_neg (not_not.mpr newline), if_neg (by simp), region_ctl kind positive, Option.bind_some]
  cases toggle o (iord, n) <;> rfl

theorem scan_opened (kind : iord = INS ∨ iord = DEL) (positive : 0 < n) :
    scan n (update o n false) [ctl iord n] = some (update o n true) := by
  have starts : ¬ iord = END := by
    rcases kind with rfl | rfl <;> decide
  rw [scan_ctl (by tauto) positive, toggle, if_neg starts, if_neg (by simp), update_idem]

theorem scan_closed (positive : 0 < n) : scan n (update o n true) [ctl END n] = some (update o n false) := by
  rw [scan_ctl (by tauto) positive, toggle, if_pos rfl, if_pos (update_self ..), update_idem]

theorem scan_block (positive : 0 < n) (texts : ∀ l ∈ new, IsText l) : scan n (update o n false) (block n new) = some (update o n false) := by
  rw [block, ← List.singleton_append, scan_append, scan_append, scan_opened (.inl rfl) positive, Option.bind_some, scan_texts texts,
    Option.bind_some, scan_closed positive]

structure Open (q : List Queue) (o : Nat → Bool) : Prop where
  once : (q.map Queue.q_sernum).Nodup
  serials : ∀ s, s ∈ q.map Queue.q_sernum ↔ o s = true

theorem addq_perm {new : Queue} (fresh : new.q_sernum ∉ q.map Queue.q_sernum) : ∃ q', addq new q = some q' ∧ q'.Perm (new :: q) := by
  induction q with
  | nil => exact ⟨[new], rfl, .refl _⟩
  | cons cur q ih =>
    rw [List.map_cons, List.mem_cons, not_or] at fresh
    by_cases less : cur.q_sernum ≤ new.q_sernum
    · refine ⟨new :: cur :: q, ?_, .refl _⟩
      rw [addq, if_pos less, if_neg (Ne.symm fresh.1)]
    · obtain ⟨q', step, same⟩ := ih fresh.2
      refine ⟨cur :: q', ?_, (same.cons cur).trans (.swap new cur q)⟩
      rw [addq, if_neg less, step, Option.map_some]

theorem remq_perm (known : ser ∈ q.map Queue.q_sernum) : ∃ q' e, remq ser q = some q' ∧ e.q_sernum = ser ∧ q.Perm (e :: q') := by
  induction q with
  | nil => cases known
  | cons cur q ih =>
    by_cases equal : cur.q_sernum = ser
    · refine ⟨q, cur, ?_, equal, .refl _⟩
      rw [remq, if_pos equal]
    · have further : ser ∈ q.map Queue.q_sernum := by
        rw [List.map_cons, List.mem_cons] at known
        exact known.resolve_left (Ne.symm equal)
      obtain ⟨q', e, step, top, same⟩ := ih further
      refine ⟨cur :: q', e, ?_, top, (same.cons cur).trans (.swap e cur q')⟩
      rw [remq, if_neg equal, step, Option.map_some]

theorem open_add {new : Queue} (here : Open q o) (closed : ¬ o new.q_sernum = true) (same : q'.Perm (new :: q)) :
    Open q' (update o new.q_sernum true) := by
  have serials := same.map Queue.q_sernum
  rw [List.map_cons] at serials
  refine ⟨serials.nodup_iff.mpr (List.nodup_cons.mpr ⟨fun known => closed ((here.serials _).mp known), here.once⟩), fun s => ?_⟩
  rw [serials.mem_iff, List.mem_cons, here.serials]
  by_cases equal : s = new.q_sernum
  · simp [equal]
  · simp [equal, update_of_ne]

theorem open_remove (here : Open q o) (same : q.Perm (e :: q')) : Open q' (update o e.q_sernum false) := by
  have serials := same.map Queue.q_sernum
  rw [List.map_cons] at serials
  obtain ⟨fresh, once⟩ := List.nodup_cons.mp (serials.nodup_iff.mp here.once)
  refine ⟨once, fun s => ?_⟩
  by_cases equal : s = e.q_sernum
  · subst equal
    simp [fresh]
  · rw [update_of_ne equal, ← here.serials, serials.mem_iff, List.mem_cons]
    simp [equal]

theorem control_formed (here : Open q o) (found : region maxser p = some r) (step : toggle o r = some o') :
    ∃ q', control maxser apply q p = some q' ∧ Open q' o' := by
  have added : ¬ o r.2 = true → ∀ e : Queue, e.q_sernum = r.2 → ∃ q', addq e q = some q' ∧ Open q' (update o r.2 true) := by
    intro closed e same
    rw [← same] at closed ⊢
    obtain ⟨q', accepted, perm⟩ := addq_perm fun known => closed ((here.serials _).mp known)
    exact ⟨q', accepted, open_add here closed perm⟩
  rw [control_region, found, Option.bind_some]
  rw [toggle] at step
  split at step
  case isTrue ends =>
    split at step
    case isTrue opened =>
      cases step
      obtain ⟨q', e, removed, same, perm⟩ := remq_perm ((here.serials _).mpr opened)
      refine ⟨q', ?_, same ▸ open_remove here perm⟩
      rw [if_pos ends, removed]
    case isFalse => cases step
  case isFalse begins =>
    split at step
    case isTrue => cases step
    case isFalse closed =>
      cases step
      rw [if_neg begins]
      split
      · exact added closed _ rfl
      · exact added closed _ rfl

theorem reads_formed (here : Open q o) (done : scan maxser o w = some o') : ∃ q' k, reads maxser apply q w = some (q', k) ∧ Open q' o' := by
  induction w generalizing q o with
  | nil =>
    cases done
    exact ⟨q, [], rfl, here⟩
  | cons l w ih =>
    cases l with
    | nil => cases done
    | cons c p =>
      rw [scan] at done
      split at done
      case isTrue => cases done
      case isFalse =>
        split at done
        case isTrue text =>
          obtain ⟨q', k, rest, there⟩ := ih here done
          rw [reads_text text, rest]
          exact ⟨q', _, rfl, there⟩
        case isFalse text =>
          obtain rfl : c = CTLCHAR := not_not.mp text
          obtain ⟨r, found, done⟩ := Option.bind_eq_some_iff.mp done
          obtain ⟨o1, step, done⟩ := Option.bind_eq_some_iff.mp done
          obtain ⟨q1, control, between⟩ := control_formed here found step
          rw [reads_control, control, Option.bind_some]
          exact ih between done

theorem formed_reads (formed : WellFormed maxser w) : ∃ k, reads maxser apply [] w = some ([], k) := by
  obtain ⟨q, k, done, there⟩ := reads_formed (q := []) ⟨List.nodup_nil, by simp⟩ formed
  cases q with
  | nil => exact ⟨k, done⟩
  | cons e q => exact absurd ((there.serials e.q_sernum).mp (by simp)) Bool.false_ne_true

structure Woven (maxser n : Nat) (A : Nat → Bool) (inside : Bool) (w : List Line) (q : List Queue) (seen w' out : List Line) : Prop where
  here : reads maxser A [] w = some (q, seen)
  old : ∀ B, B n = false → ∀ q k, reads maxser B [] w = some (q, k) →
    reads n B [] w' = some (if inside then ⟨n, .null, DEL⟩ :: q else q, k)
  new : reads n (update A n true) [] w' = some (if inside then ⟨n, .no, DEL⟩ :: q else q, out)
  formed : ∀ o, scan maxser (fun _ => false) w = some o → scan n (fun _ => false) w' = some (update o n inside)

theorem below_nil : Below n [] := fun _ member => absurd member List.not_mem_nil

theorem woven_start (maxser n : Nat) (A : Nat → Bool) : Woven maxser n A false [] [] [] [] [] := by
  refine ⟨rfl, fun B _ q k done => ?_, rfl, fun o done => ?_⟩
  · cases done
    rfl
  · cases done
    rw [scan, update_eq_self_iff.mpr rfl]

theorem Woven.extend (weaves : Woven maxser n A inside w q k w' out) (old : maxser < n) (more : reads maxser A q x = some (q', new)) :
    Woven maxser n A inside (w ++ x) q' (k ++ new) (w' ++ x) (out ++ if inside then [] else new) := by
  refine ⟨?_, fun B without q1 k1 done => ?_, ?_, fun o done => ?_⟩
  · rw [reads_append, weaves.here, Option.bind_some, more, Option.map_some]
  · rw [reads_append] at done ⊢
    obtain ⟨⟨q2, k2⟩, first, done⟩ := Option.bind_eq_some_iff.mp done
    obtain ⟨⟨q3, k3⟩, second, equal⟩ := Option.map_eq_some_iff.mp done
    simp only [Prod.mk.injEq] at equal second
    obtain ⟨queue, rfl⟩ := equal
    subst queue
    rw [weaves.old B without q2 k2 first, Option.bind_some]
    cases inside with
    | false => rw [if_neg Bool.false_ne_true, if_neg Bool.false_ne_true, reads_same old (fun _ _ => rfl) second, Option.map_some]
    | true =>
      rw [if_pos rfl, if_pos rfl, reads_under (e := ⟨n, .null, DEL⟩) rfl old (fun _ _ => rfl) Keep.noConfusion second, Option.map_some]
      rfl
  · have same : ∀ s, s ≤ maxser → update A n true s = A s := fun s bound => update_of_ne (by omega) _ _
    rw [reads_append, weaves.new, Option.bind_some]
    cases inside with
    | false => rw [if_neg Bool.false_ne_true, if_neg Bool.false_ne_true, if_neg Bool.false_ne_true, reads_same old same more, Option.map_some]
    | true =>
      rw [if_pos rfl, if_pos rfl, if_pos rfl, reads_under (e := ⟨n, .no, DEL⟩) rfl old same Keep.noConfusion more, Option.map_some]
      rfl
  · rw [scan_append] at done ⊢
    obtain ⟨o1, first, second⟩ := Option.bind_eq_some_iff.mp done
    rw [weaves.formed o1 first, Option.bind_some, scan_under old second]

theorem Woven.opened (weaves : Woven maxser n A false w q k w' out) (old : maxser < n) :
    Woven maxser n A true w q k (w' ++ [ctl DEL n]) out := by
  have positive : 0 < n := by omega
  refine ⟨weaves.here, fun B without q1 k1 done => ?_, ?_, fun o done => ?_⟩
  · rw [reads_append, weaves.old B without q1 k1 done, Option.bind_some, if_neg Bool.false_ne_true,
      reads_opened (.inr rfl) positive (reads_below below_nil old done), Option.map_some, without, List.append_nil]
    rfl
  · rw [reads_append, weaves.new, Option.bind_some, if_neg Bool.false_ne_true,
      reads_opened (.inr rfl) positive (reads_below below_nil old weaves.here), Option.map_some, update_self, List.append_nil]
    rfl
  · rw [scan_append, weaves.formed o done, Option.bind_some, scan_opened (.inr rfl) positive]

theorem Woven.closed (weaves : Woven maxser n A true w q k w' out) (old : maxser < n) :
    Woven maxser n A false w q k (w' ++ [ctl END n]) out := by
  have positive : 0 < n := by omega
  refine ⟨weaves.here, fun B without q1 k1 done => ?_, ?_, fun o done => ?_⟩
  · rw [reads_append, weaves.old B without q1 k1 done, Option.bind_some, if_pos rfl, reads_closed positive rfl, Option.map_some,
      List.append_nil]
    rfl
  · rw [reads_append, weaves.new, Option.bind_some, if_pos rfl, reads_closed positive rfl, Option.map_some, List.append_nil]
    rfl
  · rw [scan_append, weaves.formed o done, Option.bind_some, scan_closed positive]

theorem Woven.inserted (weaves : Woven maxser n A false w q k w' out) (old : maxser < n) (texts : ∀ l ∈ new, IsText l) :
    Woven maxser n A false w q k (w' ++ block n new) (out ++ new) := by
  have positive : 0 < n := by omega
  refine ⟨weaves.here, fun B without q1 k1 done => ?_, ?_, fun o done => ?_⟩
  · rw [reads_append, weaves.old B without q1 k1 done, Option.bind_some, if_neg Bool.false_ne_true,
      reads_block positive (reads_below below_nil old done) texts, Option.map_some, without, if_neg Bool.false_ne_true, List.append_nil]
  · rw [reads_append, weaves.new, Option.bind_some, if_neg Bool.false_ne_true,
      reads_block positive (reads_below below_nil old weaves.here) texts, Option.map_some, update_self, if_pos rfl]
  · rw [scan_append, weaves.formed o done, Option.bind_some, scan_block positive texts]

end Svr4.Proofs.DeltaWeave
