import Svr4.Proofs.DeltaWeave

/-! What `rmdel` leaves of a body: it drops all that stands in an insertion of the delta, which is
right as long as no later delta inserted something there. -/

namespace Svr4.Proofs.DeltaRemove
open Function Delta DeltaRead DeltaWeave

variable {p : Line} {s : Nat} {e new : Queue}

def kind (maxser : Nat) : Line → Option (UInt8 × Nat)
  | c :: p => if c = CTLCHAR then region maxser p else none
  | [] => none

/-- The regions that are open behind a line, with their kinds. -/
def advance (maxser : Nat) (o : Nat → Option UInt8) (l : Line) : Nat → Option UInt8 :=
  (kind maxser l).elim o fun r => update o r.2 (if r.1 = END then none else some r.1)

def Inserted (maxser : Nat) (o : Nat → Option UInt8) (ser : Nat) : Prop :=
  o ser = some INS ∧ ∀ t ∈ List.range (maxser + 1), o t = some INS → t ≤ ser

instance (maxser : Nat) (o : Nat → Option UInt8) (ser : Nat) : Decidable (Inserted maxser o ser) := inferInstanceAs (Decidable (_ ∧ _))

def others (maxser ser : Nat) : (Nat → Option UInt8) → List Line → List Line
  | _, [] => []
  | o, l :: rest =>
    let gone : Bool := (kind maxser l).elim (Inserted maxser o ser) fun r => r.2 = ser
    (if gone then [] else [l]) ++ others maxser ser (advance maxser o l) rest

def remains (maxser ser : Nat) : (Nat → Option UInt8) → List Line → List Line
  | _, [] => []
  | o, l :: rest =>
    let gone : Bool := (kind maxser l).elim (o ser = some INS) fun r => r.2 = ser
    (if gone then [] else [l]) ++ remains maxser ser (advance maxser o l) rest

/-- No later delta inserted lines in an insertion of this one. -/
def Alone (maxser ser : Nat) (o : Nat → Option UInt8) (body : List Line) : Prop :=
  ∀ before l after, body = before ++ l :: after → kind maxser l = none → before.foldl (advance maxser) o ser = some INS →
    ∀ t ∈ List.range (maxser + 1), before.foldl (advance maxser) o t = some INS → t ≤ ser

/-- The number in a control line ends the line, as in those that `delta` writes. -/
def Legible (body : List Line) : Prop := ∀ iord p, CTLCHAR :: iord :: p ∈ body → (satoi (nonblank p)).2 = [10]

variable {maxser ser : Nat} {apply : Nat → Bool} {o : Nat → Option UInt8} {open_ open' : Nat → Bool} {l : Line} {k rest body w : List Line}
  {q q' qf : List Queue}

theorem scan_cons (done : scan maxser open_ (l :: rest) = some open') :
    (∃ c p, l = c :: p ∧ c ≠ CTLCHAR ∧ scan maxser open_ rest = some open') ∨
      ∃ iord p between, l = CTLCHAR :: iord :: p ∧ (iord = INS ∨ iord = DEL ∨ iord = END) ∧
        region maxser (iord :: p) = some (iord, (satoi (nonblank p)).1) ∧
        toggle open_ (iord, (satoi (nonblank p)).1) = some between ∧ scan maxser between rest = some open' := by
  cases l with
  | nil => cases done
  | cons c p =>
    rw [scan] at done
    split at done
    case isTrue => cases done
    case isFalse =>
      split at done
      case isTrue text => exact .inl ⟨c, p, rfl, text, done⟩
      case isFalse text =>
        obtain rfl : c = CTLCHAR := not_not.mp text
        obtain ⟨r, found, more⟩ := Option.bind_eq_some_iff.mp done
        obtain ⟨between, step, last⟩ := Option.bind_eq_some_iff.mp more
        cases p with
        | nil => cases found
        | cons iord p =>
          have valid := found
          simp only [region] at valid
          obtain ⟨iord', number⟩ := r
          split at valid
          case isTrue both =>
            cases valid
            exact .inr ⟨iord, p, between, rfl, both.1, found, step, last⟩
          case isFalse => cases valid

theorem scan_newline (done : scan maxser open_ (l :: rest) = some open') : l.getLast? = some 10 := by
  cases l with
  | nil => cases done
  | cons c p =>
    rw [scan] at done
    split at done
    case isTrue => cases done
    case isFalse newline => exact not_not.mp newline

theorem toggle_own {r : UInt8 × Nat} (own : r.2 = ser) (step : toggle open_ r = some open') : update open' ser false = update open_ ser false := by
  subst own
  rw [toggle] at step
  split at step
  · split at step
    · cases step
      exact update_idem _ _ _
    · cases step
  · split at step
    · cases step
    · cases step
      exact update_idem _ _ _

theorem kind_text {c : UInt8} (text : c ≠ CTLCHAR) : kind maxser (c :: p) = none := if_neg text

theorem kind_control : kind maxser (CTLCHAR :: p) = region maxser p := by rw [kind, if_pos rfl]

theorem advance_text (text : kind maxser l = none) : advance maxser o l = o := by rw [advance, text, Option.elim_none]

theorem advance_control {r : UInt8 × Nat} (control : kind maxser l = some r) :
    advance maxser o l = update o r.2 (if r.1 = END then none else some r.1) := by rw [advance, control, Option.elim_some]

theorem remains_text (text : kind maxser l = none) :
    remains maxser ser o (l :: rest) = (if o ser = some INS then [] else [l]) ++ remains maxser ser o rest := by
  simp only [remains, text, advance_text text, Option.elim_none, decide_eq_true_eq]

theorem remains_control {r : UInt8 × Nat} (control : kind maxser l = some r) : remains maxser ser o (l :: rest) =
    (if r.2 = ser then [] else [l]) ++ remains maxser ser (update o r.2 (if r.1 = END then none else some r.1)) rest := by
  simp only [remains, control, advance_control control, Option.elim_some, decide_eq_true_eq]

theorem others_text (text : kind maxser l = none) :
    others maxser ser o (l :: rest) = (if Inserted maxser o ser then [] else [l]) ++ others maxser ser o rest := by
  simp only [others, text, advance_text text, Option.elim_none, decide_eq_true_eq]

theorem others_control {r : UInt8 × Nat} (control : kind maxser l = some r) : others maxser ser o (l :: rest) =
    (if r.2 = ser then [] else [l]) ++ others maxser ser (update o r.2 (if r.1 = END then none else some r.1)) rest := by
  simp only [others, control, advance_control control, Option.elim_some, decide_eq_true_eq]

theorem rmchg_remains (ser : Nat) {r : Removal} (formed : scan maxser open_ body = some open') (legible : Legible body) (upd : r.pkt.p_upd = true)
    (dropping : r.keep = .no ↔ o ser = some INS) : ∃ r', body.foldlM (rmchg_line ser) r = some r' ∧ r'.pkt.p_upd = true ∧
      settled r'.pkt = settled r.pkt ++ remains maxser ser o body := by
  induction body generalizing open_ o r with
  | nil => exact ⟨r, rfl, upd, (List.append_nil _).symm⟩
  | cons l rest ih =>
    obtain ⟨same, -, -, -, line, pending⟩ := getline_same r.pkt l
    have upd' : (getline r.pkt l).p_upd = true := same.p_upd.trans upd
    have shown_ : settled (getline r.pkt l) = settled r.pkt ++ [l] := by
      rw [settled, pending, if_neg Bool.false_ne_true, line, getline_xfile upd]
    have hidden : (getline r.pkt l).xfile = settled r.pkt := getline_xfile upd l
    have legible' : Legible rest := fun iord p member => legible iord p (List.mem_cons_of_mem _ member)
    rw [List.foldlM_cons]
    rcases scan_cons formed with ⟨c, p, rfl, text, formed'⟩ | ⟨iord, p, between, rfl, valid, found, step, formed'⟩
    · rw [remains_text (kind_text text)]
      have here : rmchg_line ser r (c :: p) = some (if r.keep = .no then { r with pkt := { getline r.pkt (c :: p) with p_wrttn := true } }
          else { r with pkt := getline r.pkt (c :: p) }) := if_neg text
      rw [here]
      by_cases drop : r.keep = .no
      · rw [if_pos drop, if_pos (dropping.mp drop)]
        obtain ⟨r', run, last, written⟩ := ih formed' legible' (r := { r with pkt := { getline r.pkt (c :: p) with p_wrttn := true } }) upd' dropping
        refine ⟨r', run, last, written.trans ?_⟩
        rw [← hidden]
        rfl
      · rw [if_neg drop, if_neg fun inside => drop (dropping.mpr inside)]
        obtain ⟨r', run, last, written⟩ := ih formed' legible' (r := { r with pkt := getline r.pkt (c :: p) }) upd' dropping
        refine ⟨r', run, last, written.trans ?_⟩
        rw [← List.append_assoc, ← shown_]
    · have ends : (satoi (nonblank p)).2 = [10] := legible iord p (by simp)
      rw [remains_control (kind_control.trans found)]
      by_cases own : (satoi (nonblank p)).1 = ser
      · rw [if_pos own, List.nil_append]
        let next : Removal :=
          { pkt := { getline r.pkt (CTLCHAR :: iord :: p) with p_wrttn := true }
            keep := if iord = INS then .no else .yes
            found := r.found || iord = INS
            numdelts := if iord = INS then r.numdelts + 1 else r.numdelts }
        have here : rmchg_line ser r (CTLCHAR :: iord :: p) = some next := by
          simp only [rmchg_line, if_true, rmchg_control, ends, own]
          rfl
        rw [here]
        have dropping' : next.keep = .no ↔
            update o (satoi (nonblank p)).1 (if iord = END then none else some iord) ser = some INS := by
          rw [own, update_self]
          show (if iord = INS then Keep.no else .yes) = .no ↔ _
          rcases valid with rfl | rfl | rfl <;> decide
        obtain ⟨r', run, last, written⟩ := ih formed' legible' (r := next) upd' dropping'
        refine ⟨r', run, last, written.trans ?_⟩
        rw [← hidden]
        rfl
      · rw [if_neg own]
        let next : Removal :=
          { r with
            pkt := getline r.pkt (CTLCHAR :: iord :: p)
            numdelts := if iord = INS then r.numdelts + 1 else r.numdelts }
        have here : rmchg_line ser r (CTLCHAR :: iord :: p) = some next := by
          simp only [rmchg_line, if_true, rmchg_control, ends, own, if_false]
          rfl
        rw [here]
        have dropping' : next.keep = .no ↔ update o (satoi (nonblank p)).1 (if iord = END then none else some iord) ser = some INS := by
          rw [update_of_ne (Ne.symm own)]
          exact dropping
        obtain ⟨r', run, last, written⟩ := ih formed' legible' (r := next) upd' dropping'
        refine ⟨r', run, last, written.trans ?_⟩
        rw [← List.append_assoc, ← shown_]

theorem rmchg_body_remains (ser : Nat) (formed : WellFormed maxser body) (legible : Legible body) :
    ∃ r, rmchg_body ser maxser body = some r ∧ r.pkt.xfile = remains maxser ser (fun _ => none) body := by
  obtain ⟨r, run, upd, written⟩ := rmchg_remains ser (o := fun _ => none)
    (r := ⟨at_body maxser (fun _ => false) true, .yes, false, 0⟩) formed legible rfl (by simp)
  refine ⟨{ r with pkt := getline_eof r.pkt }, ?_, (getline_eof_xfile upd).trans written⟩
  rw [rmchg_body, run, Option.map_some]

theorem remains_formed (ser : Nat) (o : Nat → Option UInt8) (formed : scan maxser open_ body = some open') :
    scan maxser (update open_ ser false) (remains maxser ser o body) = some (update open' ser false) := by
  induction body generalizing open_ o with
  | nil =>
    cases formed
    rfl
  | cons l rest ih =>
    have newline : l.getLast? = some 10 := scan_newline formed
    rcases scan_cons formed with ⟨c, p, rfl, text, formed'⟩ | ⟨iord, p, between, rfl, valid, found, step, formed'⟩
    · rw [remains_text (kind_text text)]
      split_ifs
      · exact ih _ formed'
      · rw [List.singleton_append, scan, if_neg (not_not.mpr newline), if_pos text]
        exact ih _ formed'
    · rw [remains_control (kind_control.trans found)]
      by_cases own : (satoi (nonblank p)).1 = ser
      · rw [if_pos own, List.nil_append]
        have same : update between ser false = update open_ ser false := toggle_own own step
        rw [← same]
        exact ih _ formed'
      · rw [if_neg own, List.singleton_append, scan, if_neg (not_not.mpr newline), if_neg (not_not.mpr rfl), found, Option.bind_some,
          toggle_under own step, Option.bind_some]
        exact ih _ formed'

def without (ser : Nat) (q : List Queue) : List Queue := q.filter fun e => e.q_sernum ≠ ser

def Descending (q : List Queue) : Prop := q.Pairwise fun e f => f.q_sernum < e.q_sernum

theorem without_own (own : e.q_sernum = ser) : without ser (e :: q) = without ser q := List.filter_cons_of_neg (by simp [own])

theorem without_other (other : e.q_sernum ≠ ser) : without ser (e :: q) = e :: without ser q := List.filter_cons_of_pos (by simp [other])

theorem addq_descending (descending : Descending q) (added : addq new q = some q') : Descending q' := by
  induction q generalizing q' with
  | nil =>
    cases added
    exact List.pairwise_singleton _ _
  | cons cur q ih =>
    obtain ⟨first, rest⟩ := List.pairwise_cons.mp descending
    rw [addq] at added
    split at added
    case isTrue less =>
      split at added
      case isTrue => cases added
      case isFalse other =>
        cases added
        have below : cur.q_sernum < new.q_sernum := by omega
        exact List.pairwise_cons.mpr ⟨fun f member => (List.mem_cons.mp member).elim (fun same => same ▸ below)
          fun later => (first f later).trans below, descending⟩
    case isFalse less =>
      obtain ⟨q1, step, rfl⟩ := Option.map_eq_some_iff.mp added
      refine List.pairwise_cons.mpr ⟨fun f member => ?_, ih rest step⟩
      rcases addq_mem step f member with rfl | old
      · omega
      · exact first f old

theorem remq_sublist (removed : remq s q = some q') : q'.Sublist q := by
  induction q generalizing q' with
  | nil => cases removed
  | cons cur q ih =>
    rw [remq] at removed
    split at removed
    · cases removed
      exact List.sublist_cons_self cur _
    · obtain ⟨q1, step, rfl⟩ := Option.map_eq_some_iff.mp removed
      exact (ih step).cons_cons cur

theorem addq_own (own : new.q_sernum = ser) (added : addq new q = some q') : without ser q' = without ser q := by
  induction q generalizing q' with
  | nil =>
    cases added
    exact without_own own
  | cons cur q ih =>
    rw [addq] at added
    split at added
    · split at added
      · cases added
      · cases added
        exact without_own own
    · obtain ⟨q1, step, rfl⟩ := Option.map_eq_some_iff.mp added
      by_cases here : cur.q_sernum = ser
      · rw [without_own here, without_own here, ih step]
      · rw [without_other here, without_other here, ih step]

theorem addq_without (other : new.q_sernum ≠ ser) (descending : Descending q) (added : addq new q = some q') :
    addq new (without ser q) = some (without ser q') := by
  induction q generalizing q' with
  | nil =>
    cases added
    rw [without_other other]
    rfl
  | cons cur q ih =>
    obtain ⟨first, rest⟩ := List.pairwise_cons.mp descending
    rw [addq] at added
    split at added
    case isTrue less =>
      split at added
      case isTrue => cases added
      case isFalse distinct =>
        cases added
        have below : Below new.q_sernum (without ser (cur :: q)) := fun f member => by
          rcases List.mem_cons.mp (List.mem_of_mem_filter member) with rfl | later
          · omega
          · have := first f later
            omega
        rw [addq_front below, without_other other]
    case isFalse less =>
      obtain ⟨q1, step, rfl⟩ := Option.map_eq_some_iff.mp added
      by_cases here : cur.q_sernum = ser
      · rw [without_own here, without_own here, ih rest step]
      · rw [without_other here, without_other here, addq_under (by omega), ih rest step, Option.map_some]

theorem remq_own (removed : remq ser q = some q') : without ser q' = without ser q := by
  induction q generalizing q' with
  | nil => cases removed
  | cons cur q ih =>
    rw [remq] at removed
    split at removed
    case isTrue own =>
      cases removed
      exact (without_own own).symm
    case isFalse other =>
      obtain ⟨q1, step, rfl⟩ := Option.map_eq_some_iff.mp removed
      rw [without_other other, without_other other, ih step]

theorem remq_without (other : s ≠ ser) (removed : remq s q = some q') : remq s (without ser q) = some (without ser q') := by
  induction q generalizing q' with
  | nil => cases removed
  | cons cur q ih =>
    rw [remq] at removed
    split at removed
    case isTrue own =>
      cases removed
      rw [without_other (own ▸ other), remq, if_pos own]
    case isFalse distinct =>
      obtain ⟨q1, step, rfl⟩ := Option.map_eq_some_iff.mp removed
      by_cases here : cur.q_sernum = ser
      · rw [without_own here, without_own here, ih step]
      · rw [without_other here, without_other here, remq, if_neg distinct, ih step, Option.map_some]

theorem setkeep_without (idle : ∀ e ∈ q, e.q_sernum = ser → e.q_keep = .null) : setkeep (without ser q) = setkeep q := by
  induction q with
  | nil => rfl
  | cons cur q ih =>
    have rest := ih fun e member => idle e (List.mem_cons_of_mem _ member)
    by_cases here : cur.q_sernum = ser
    · rw [without_own here, rest, setkeep, if_neg (not_not.mpr (idle cur (by simp) here))]
    · rw [without_other here, setkeep, setkeep, rest]

theorem setkeep_hidden (descending : Descending q) (member : e ∈ q) (hides : e.q_keep = .no)
    (later : ∀ f ∈ q, e.q_sernum < f.q_sernum → f.q_keep ≠ .yes) : setkeep q ≠ .yes := by
  induction q with
  | nil => cases member
  | cons cur q ih =>
    obtain ⟨first, rest⟩ := List.pairwise_cons.mp descending
    rw [setkeep]
    rcases List.mem_cons.mp member with rfl | further
    · rw [if_pos (by rw [hides]; decide), hides]
      decide
    · split
      · exact later cur (by simp) (first e further)
      · exact ih rest further fun f member => later f (List.mem_cons_of_mem _ member)

def keepOf (apply : Nat → Bool) (ser : Nat) (iord : UInt8) : Keep :=
  if apply ser then (if iord = INS then .yes else .no) else (if iord = INS then .no else .null)

structure Stacked (maxser : Nat) (apply : Nat → Bool) (o : Nat → Option UInt8) (q : List Queue) : Prop where
  descending : Descending q
  entries : ∀ t iord, o t = some iord ↔ ∃ e ∈ q, e.q_sernum = t ∧ e.q_iord = iord
  keeps : ∀ e ∈ q, e.q_keep = keepOf apply e.q_sernum e.q_iord ∧ e.q_sernum ≤ maxser

theorem addq_members (added : addq new q = some q') : (∀ e ∈ q, e.q_sernum ≠ new.q_sernum) → ∀ e, e ∈ q' ↔ e = new ∨ e ∈ q := by
  intro fresh e
  have unknown : new.q_sernum ∉ q.map Queue.q_sernum := fun known => by
    obtain ⟨e, member, same⟩ := List.mem_map.mp known
    exact fresh e member same
  obtain ⟨q1, step, perm⟩ := addq_perm unknown
  obtain rfl : q' = q1 := Option.some.inj (added.symm.trans step)
  rw [perm.mem_iff, List.mem_cons]

theorem addq_fresh (descending : Descending q) (added : addq new q = some q') : ∀ e ∈ q, e.q_sernum ≠ new.q_sernum := by
  induction q generalizing q' with
  | nil => simp
  | cons cur q ih =>
    obtain ⟨first, rest⟩ := List.pairwise_cons.mp descending
    rw [addq] at added
    split at added
    case isTrue less =>
      split at added
      case isTrue => cases added
      case isFalse distinct =>
        intro e member
        rcases List.mem_cons.mp member with rfl | later
        · exact distinct
        · have := first e later
          omega
    case isFalse less =>
      obtain ⟨q1, step, rfl⟩ := Option.map_eq_some_iff.mp added
      intro e member
      rcases List.mem_cons.mp member with rfl | later
      · omega
      · exact ih rest step e later

theorem remq_members (descending : Descending q) (removed : remq s q = some q') : ∀ e, e ∈ q' ↔ e ∈ q ∧ e.q_sernum ≠ s := by
  induction q generalizing q' with
  | nil => cases removed
  | cons cur q ih =>
    obtain ⟨first, rest⟩ := List.pairwise_cons.mp descending
    rw [remq] at removed
    intro e
    split at removed
    case isTrue own =>
      cases removed
      rw [List.mem_cons]
      constructor
      · intro member
        have := first e member
        exact ⟨.inr member, by omega⟩
      · rintro ⟨rfl | member, other⟩
        · exact absurd own other
        · exact member
    case isFalse distinct =>
      obtain ⟨q1, step, rfl⟩ := Option.map_eq_some_iff.mp removed
      rw [List.mem_cons, List.mem_cons, ih rest step e]
      constructor
      · rintro (rfl | ⟨member, other⟩)
        · exact ⟨.inl rfl, distinct⟩
        · exact ⟨.inr member, other⟩
      · rintro ⟨rfl | member, other⟩
        · exact .inl rfl
        · exact .inr ⟨member, other⟩

theorem Stacked.added (stacked : Stacked maxser apply o q) (keep : new.q_keep = keepOf apply new.q_sernum new.q_iord)
    (bound : new.q_sernum ≤ maxser) (step : addq new q = some q') : Stacked maxser apply (update o new.q_sernum (some new.q_iord)) q' := by
  have fresh := addq_fresh stacked.descending step
  have members := addq_members step fresh
  refine ⟨addq_descending stacked.descending step, fun t iord => ?_, fun e member => ?_⟩
  · by_cases own : t = new.q_sernum
    · subst own
      rw [update_self]
      constructor
      · intro same
        exact ⟨new, (members new).mpr (.inl rfl), rfl, Option.some.inj same⟩
      · rintro ⟨e, member, same, kind⟩
        rcases (members e).mp member with rfl | old
        · rw [kind]
        · exact absurd same (fresh e old)
    · rw [update_of_ne own, stacked.entries]
      constructor
      · rintro ⟨e, member, both⟩
        exact ⟨e, (members e).mpr (.inr member), both⟩
      · rintro ⟨e, member, same, kind⟩
        rcases (members e).mp member with rfl | old
        · exact absurd same.symm own
        · exact ⟨e, old, same, kind⟩
  · rcases (members e).mp member with rfl | old
    · exact ⟨keep, bound⟩
    · exact stacked.keeps e old

theorem Stacked.removed (stacked : Stacked maxser apply o q) (step : remq s q = some q') :
    Stacked maxser apply (update o s none) q' := by
  have members := remq_members stacked.descending step
  refine ⟨stacked.descending.sublist (remq_sublist step), fun t iord => ?_, fun e member => stacked.keeps e ((members e).mp member).1⟩
  by_cases own : t = s
  · subst own
    rw [update_self]
    constructor
    · intro none_
      cases none_
    · rintro ⟨e, member, same, -⟩
      exact absurd same ((members e).mp member).2
  · rw [update_of_ne own, stacked.entries]
    constructor
    · rintro ⟨e, member, rfl, kind⟩
      exact ⟨e, (members e).mpr ⟨member, own⟩, rfl, kind⟩
    · rintro ⟨e, member, both⟩
      exact ⟨e, ((members e).mp member).1, both⟩

theorem control_entry {r : UInt8 × Nat} (found : region maxser p = some r) : Delta.control maxser apply q p =
    if r.1 = END then remq r.2 q else addq ⟨r.2, keepOf apply r.2 r.1, r.1⟩ q := by
  rw [control_region, found, Option.bind_some, keepOf]
  split_ifs <;> rfl

theorem control_without {r : UInt8 × Nat} (ser : Nat) (stacked : Stacked maxser apply o q) (found : region maxser p = some r)
    (step : Delta.control maxser apply q p = some q') :
    Stacked maxser apply (update o r.2 (if r.1 = END then none else some r.1)) q' ∧
      (if r.2 = ser then without ser q' = without ser q else Delta.control maxser apply (without ser q) p = some (without ser q')) := by
  rw [control_entry found] at step ⊢
  split at step
  case isTrue ends =>
    rw [if_pos ends, if_pos ends]
    refine ⟨stacked.removed step, ?_⟩
    split
    case isTrue own =>
      subst own
      exact remq_own step
    case isFalse other => exact remq_without other step
  case isFalse begins =>
    rw [if_neg begins, if_neg begins]
    refine ⟨stacked.added rfl (region_bound found).2 step, ?_⟩
    split
    case isTrue own => exact addq_own own step
    case isFalse other => exact addq_without other stacked.descending step

theorem alone_cons : Alone maxser ser o (l :: rest) ↔
    (kind maxser l = none → o ser = some INS → ∀ t ∈ List.range (maxser + 1), o t = some INS → t ≤ ser) ∧
      Alone maxser ser (advance maxser o l) rest := by
  constructor
  · exact fun alone => ⟨alone [] l rest rfl, fun before l' after same => alone (l :: before) l' after (by rw [same]; rfl)⟩
  · rintro ⟨here, further⟩ before l' after same
    cases before with
    | nil =>
      obtain ⟨rfl, rfl⟩ := List.cons.inj same
      exact here
    | cons first before =>
      obtain ⟨rfl, later⟩ := List.cons.inj same
      exact further before l' after later

theorem reads_remains (idle : apply ser = false) (stacked : Stacked maxser apply o q) (alone : Alone maxser ser o body)
    (done : reads maxser apply q body = some (qf, k)) :
    reads maxser apply (without ser q) (remains maxser ser o body) = some (without ser qf, k) := by
  induction body generalizing o q k with
  | nil =>
    cases done
    rfl
  | cons l rest ih =>
    obtain ⟨here, further⟩ := alone_cons.mp alone
    cases l with
    | nil => cases done
    | cons c p =>
      by_cases text : c ≠ CTLCHAR
      · have plain : kind maxser (c :: p) = none := kind_text text
        rw [reads_text text] at done
        obtain ⟨⟨qf', k'⟩, later, equal⟩ := Option.map_eq_some_iff.mp done
        simp only [Prod.mk.injEq] at equal
        obtain ⟨rfl, rfl⟩ := equal
        rw [advance_text plain] at further
        rw [remains_text plain]
        by_cases inside : o ser = some INS
        · obtain ⟨e, member, own, kind⟩ := (stacked.entries ser INS).mp inside
          have hides : e.q_keep = .no := by
            rw [(stacked.keeps e member).1, own, kind, keepOf, idle]
            rfl
          have hidden : setkeep q ≠ .yes := setkeep_hidden stacked.descending member hides fun f member' after shows => by
            obtain ⟨keep, bound⟩ := stacked.keeps f member'
            have inserts : f.q_iord = INS := by
              rw [keep, keepOf] at shows
              by_contra other
              rw [if_neg other, if_neg other] at shows
              split at shows <;> cases shows
            have := here plain inside f.q_sernum (List.mem_range.mpr (by omega)) ((stacked.entries _ _).mpr ⟨f, member', rfl, inserts⟩)
            omega
          rw [if_pos inside, List.nil_append, if_neg hidden]
          exact ih stacked further later
        · have same : setkeep (without ser q) = setkeep q := setkeep_without fun e member own => by
            have other : e.q_iord ≠ INS := fun inserts => inside ((stacked.entries ser INS).mpr ⟨e, member, own, inserts⟩)
            rw [(stacked.keeps e member).1, own, keepOf, idle, if_neg Bool.false_ne_true, if_neg other]
          rw [if_neg inside, List.singleton_append, reads_text text, ih stacked further later, Option.map_some, same]
      · obtain rfl : c = CTLCHAR := not_not.mp text
        rw [reads_control] at done
        obtain ⟨q1, step, later⟩ := Option.bind_eq_some_iff.mp done
        obtain ⟨r, found⟩ : ∃ r, region maxser p = some r := by
          rw [control_region] at step
          obtain ⟨r, found, -⟩ := Option.bind_eq_some_iff.mp step
          exact ⟨r, found⟩
        have control := kind_control.trans found
        obtain ⟨stacked', both⟩ := control_without ser stacked found step
        rw [advance_control control] at further
        rw [remains_control control]
        by_cases own : r.2 = ser
        · rw [if_pos own] at both ⊢
          rw [List.nil_append, ← both]
          exact ih stacked' further later
        · rw [if_neg own] at both ⊢
          rw [List.singleton_append, reads_control, both, Option.bind_some]
          exact ih stacked' further later

theorem remains_sublist (maxser ser : Nat) (o : Nat → Option UInt8) (body : List Line) :
    (remains maxser ser o body).Sublist (others maxser ser o body) := by
  induction body generalizing o with
  | nil => exact List.Sublist.refl _
  | cons l rest ih =>
    cases found : kind maxser l with
    | none =>
      rw [remains_text found, others_text found]
      refine List.Sublist.append ?_ (ih o)
      split_ifs with inside inserted inserted
      · exact List.Sublist.refl _
      · exact List.nil_sublist _
      · exact absurd inserted.1 inside
      · exact List.Sublist.refl _
    | some r =>
      rw [remains_control found, others_control found]
      exact List.Sublist.append (List.Sublist.refl _) (ih _)

theorem remains_others : remains maxser ser o body = others maxser ser o body ↔ Alone maxser ser o body := by
  induction body generalizing o with
  | nil => exact iff_of_true rfl fun before l after same => absurd same (by simp)
  | cons l rest ih =>
    rw [alone_cons]
    cases found : kind maxser l with
    | none =>
      rw [remains_text found, others_text found, advance_text found, ← ih]
      by_cases inside : o ser = some INS
      · by_cases latest : ∀ t ∈ List.range (maxser + 1), o t = some INS → t ≤ ser
        · rw [if_pos inside, if_pos ⟨inside, latest⟩, List.append_cancel_left_eq]
          exact ⟨fun same => ⟨fun _ _ => latest, same⟩, fun both => both.2⟩
        · rw [if_pos inside, if_neg fun inserted => latest inserted.2]
          refine iff_of_false (fun same => ?_) fun both => latest (both.1 rfl inside)
          have shorter := (remains_sublist maxser ser o rest).length_le
          have := congrArg List.length same
          rw [List.nil_append, List.singleton_append, List.length_cons] at this
          omega
      · rw [if_neg inside, if_neg fun inserted => inside inserted.1, List.append_cancel_left_eq]
        exact ⟨fun same => ⟨fun _ inserts => absurd inserts inside, same⟩, fun both => both.2⟩
    | some r =>
      rw [remains_control found, others_control found, advance_control found, List.append_cancel_left_eq, ih]
      exact ⟨fun alone => ⟨fun text => (by cases text), alone⟩, fun both => both.2⟩

structure Removed (maxser ser : Nat) (body xfile : List Line) : Prop where
  exactly : xfile = others maxser ser (fun _ => none) body
  formed : WellFormed maxser xfile
  versions : ∀ apply, apply ser = false → retrieve maxser apply xfile = retrieve maxser apply body

theorem stacked_nil : Stacked maxser apply (fun _ => none) [] := ⟨List.Pairwise.nil, by simp, by simp⟩

/-- `rmdel` removes the delta, and nothing else, exactly when no later one inserted lines among its own. -/
theorem rmdel_removes (maxser ser : Nat) (body : List Line) (formed : WellFormed maxser body) (legible : Legible body) :
    (∃ r, rmchg_body ser maxser body = some r ∧ Removed maxser ser body r.pkt.xfile) ↔ Alone maxser ser (fun _ => none) body := by
  obtain ⟨r, run, written⟩ := rmchg_body_remains ser formed legible
  constructor
  · rintro ⟨r', run', removed⟩
    obtain rfl : r = r' := Option.some.inj (run.symm.trans run')
    exact remains_others.mp (written.symm.trans removed.exactly)
  · intro alone
    refine ⟨r, run, written.trans (remains_others.mpr alone), ?_, fun apply idle => ?_⟩
    · have left_ := remains_formed ser (fun _ => none) formed
      rw [update_eq_self_iff.mpr rfl] at left_
      rw [written]
      exact left_
    · obtain ⟨k, here⟩ := @formed_reads maxser apply body formed
      rw [written, retrieve_reads here]
      exact retrieve_reads (reads_remains idle stacked_nil alone here)

/-- The second delta inserts two lines between those of the first, and the third, which includes it, one line between these. -/
def mixed : List Line :=
  [[1, 73, 32, 49, 10], [97, 10], [1, 73, 32, 50, 10], [120, 10], [1, 73, 32, 51, 10], [122, 10], [1, 69, 32, 51, 10], [121, 10],
    [1, 69, 32, 50, 10], [98, 10], [1, 69, 32, 49, 10]]

theorem mixed_formed : WellFormed 3 mixed := by
  have steps : scan 3 (fun _ => false) mixed =
      some (update (update (update (update (update (update (fun _ => false) 1 true) 2 true) 3 true) 3 false) 2 false) 1 false) := rfl
  rw [WellFormed, steps]
  congr 1
  funext s
  simp only [update_apply]
  split_ifs <;> rfl

theorem mixed_legible : Legible mixed := by
  intro iord p member
  simp only [mixed, List.mem_cons, List.cons.injEq, List.not_mem_nil, or_false] at member
  rcases member with ⟨-, rfl, rfl⟩ | ⟨clash, -⟩ | ⟨-, rfl, rfl⟩ | ⟨clash, -⟩ | ⟨-, rfl, rfl⟩ | ⟨clash, -⟩ | ⟨-, rfl, rfl⟩ | ⟨clash, -⟩ |
    ⟨-, rfl, rfl⟩ | ⟨clash, -⟩ | ⟨-, rfl, rfl⟩
  all_goals first | rfl | exact absurd clash (by decide)

theorem rmdel_removes_third : (∃ r, rmchg_body 3 3 mixed = some r ∧ Removed 3 3 mixed r.pkt.xfile) ↔ Alone 3 3 (fun _ => none) mixed :=
  rmdel_removes 3 3 mixed mixed_formed mixed_legible

/-- With the second delta goes the line of the third one. -/
theorem rmdel_takes_more : WellFormed 3 mixed ∧ Legible mixed ∧
    (rmchg_body 2 3 mixed).map (fun r => r.pkt.xfile) =
      some [[1, 73, 32, 49, 10], [97, 10], [1, 73, 32, 51, 10], [1, 69, 32, 51, 10], [98, 10], [1, 69, 32, 49, 10]] ∧
    retrieve 3 (fun s => s ≠ 2) mixed = some [[97, 10], [122, 10], [98, 10]] ∧
    retrieve 3 (fun s => s ≠ 2) [[1, 73, 32, 49, 10], [97, 10], [1, 73, 32, 51, 10], [1, 69, 32, 51, 10], [98, 10], [1, 69, 32, 49, 10]] =
      some [[97, 10], [98, 10]] :=
  ⟨mixed_formed, mixed_legible, by decide +kernel, by decide +kernel, by decide +kernel⟩

end Svr4.Proofs.DeltaRemove
