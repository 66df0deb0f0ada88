import Svr4.Proofs.SemUndo

/-! `semop` is all or nothing: a pass over the list applies every operation, or
`semundo` brings back every value and every undo entry. -/

namespace Svr4.Proofs.SemAtomic
open Function Sem SemUndo

def values (s : State) (j : Nat) : UInt16 := (s.sem j).semval

structure Like (info : Seminfo) (slot : Nat) (s t : State) : Prop where
  valid : Valid info t
  sema : t.sema = s.sema
  values : values t = values s
  entries : entries t = entries s
  owned : s.semUndo slot ≠ none → t.semUndo slot ≠ none

namespace Like
variable {info : Seminfo} {slot : Nat} {s t w : State}

theorem refl (valid : Valid info s) : Like info slot s s := ⟨valid, rfl, rfl, rfl, fun owned => owned⟩

theorem trans (first : Like info slot s t) (second : Like info slot t w) : Like info slot s w :=
  ⟨second.valid, second.sema.trans first.sema, second.values.trans first.values, second.entries.trans first.entries,
    fun owned => second.owned (first.owned owned)⟩

end Like

structure SameUndo (s t : State) : Prop where
  semUndo : t.semUndo = s.semUndo
  semu : t.semu = s.semu
  semunp : t.semunp = s.semunp
  semfup : t.semfup = s.semfup

namespace SameUndo
variable {info : Seminfo} {s t w : State}

theorem trans (first : SameUndo s t) (second : SameUndo t w) : SameUndo s w :=
  ⟨second.semUndo.trans first.semUndo, second.semu.trans first.semu, second.semunp.trans first.semunp,
    second.semfup.trans first.semfup⟩

theorem valid (same : SameUndo s t) (valid : Valid info s) : Valid info t := by
  obtain ⟨semUndo, semu, semunp, semfup⟩ := same
  refine ⟨?_, ?_, ?_, ?_, ?_, ?_⟩
  · exact semu ▸ valid.tables
  · exact semUndo ▸ valid.own
  · rw [semfup, semu, semUndo]
    exact valid.free
  · exact semfup ▸ valid.freeOnce
  · rw [semunp, semu]
    exact valid.active
  · exact semunp ▸ valid.activeOnce

theorem entries (same : SameUndo s t) : entries t = entries s := by
  funext slot
  simp only [SemUndo.entries, same.semUndo, same.semu]

theorem like (same : SameUndo s t) (valid : Valid info s) (slot : Nat) (sema : t.sema = s.sema)
    (kept : values t = values s) : Like info slot s t :=
  ⟨same.valid valid, sema, kept, same.entries, fun owned => by rwa [same.semUndo]⟩

end SameUndo

theorem setSem_same (s : State) (j : Nat) (semp : Semaphore) : SameUndo s (setSem s j semp) := ⟨rfl, rfl, rfl, rfl⟩

theorem values_setSem (s : State) (j : Nat) (semp : Semaphore) :
    values (setSem s j semp) = update (values s) j semp.semval := by
  funext i
  by_cases same : i = j
  · subst same
    simp [values, setSem]
  · simp [values, setSem, update_of_ne same]

theorem wake_same (s : State) (j : Nat) :
    (SameUndo s (wakeNcnt s j) ∧ (wakeNcnt s j).sema = s.sema ∧ values (wakeNcnt s j) = values s) ∧
      SameUndo s (wakeZcnt s j) ∧ (wakeZcnt s j).sema = s.sema ∧ values (wakeZcnt s j) = values s := by
  have kept : ∀ semp : Semaphore, semp.semval = (s.sem j).semval → values (setSem s j semp) = values s := by
    intro semp same
    rw [values_setSem, same]
    exact update_eq_self j (values s)
  constructor
  · unfold wakeNcnt
    split
    · exact ⟨⟨rfl, rfl, rfl, rfl⟩, rfl, kept _ rfl⟩
    · exact ⟨⟨rfl, rfl, rfl, rfl⟩, rfl, rfl⟩
  · unfold wakeZcnt
    split
    · exact ⟨⟨rfl, rfl, rfl, rfl⟩, rfl, kept _ rfl⟩
    · exact ⟨⟨rfl, rfl, rfl, rfl⟩, rfl, rfl⟩

def flagged (op : Sembuf) : Prop := op.semFlg &&& SEM_UNDO ≠ 0

instance (op : Sembuf) : Decidable (flagged op) := inferInstanceAs (Decidable (_ ≠ _))

structure Entered (info : Seminfo) (c : Caller) (op : Sembuf) (s s' : State) : Prop where
  others : ∀ p, p ≠ c.slot → entries s' p = entries s p
  balance : ∀ id num, aoe (entries s' c.slot) id num = aoe (entries s c.slot) id num -
    if id = c.semid ∧ num = op.semNum ∧ flagged op then op.semOp.toInt else 0

def Undoes (info : Seminfo) (c : Caller) (op : Sembuf) (s s' : State) : Prop :=
  ∀ t, Like info c.slot s' t → Like info c.slot s (undoOp info c.slot c.semid (base s c) op t)

/-- Booking for an operation succeeds or fails; either way nothing else changes,
and booking the opposite restores the entries. -/
theorem record_spec {info : Seminfo} {s : State} (valid : Valid info s) (c : Caller) (op : Sembuf) (nonzero : op.semOp.toInt ≠ 0) :
    (∃ error s', record info s c op = (some error, s') ∧ Like info c.slot s s') ∨
      ∃ s', record info s c op = (none, s') ∧ Valid info s' ∧ Frame s s' ∧ Entered info c op s s' ∧
        (s.semUndo c.slot ≠ none → s'.semUndo c.slot ≠ none) ∧
        ∀ t, Valid info t → entries t = entries s' → (s'.semUndo c.slot ≠ none → t.semUndo c.slot ≠ none) →
          ∃ t', (if flagged op then (semaoe info t c.slot (short (-op.semOp.toInt)) c.semid op.semNum).2 else t) = t' ∧
            Valid info t' ∧ Frame t t' ∧ entries t' = entries s ∧
            (s.semUndo c.slot ≠ none → t'.semUndo c.slot ≠ none) := by
  unfold record
  by_cases flag : flagged op
  · rw [if_pos (show op.semFlg &&& SEM_UNDO ≠ 0 from flag)]
    rcases semaoe_spec valid c.slot c.semid op.semNum nonzero with ⟨error, s', failed, valid', same, owned, sema, sem, woken⟩ |
      ⟨s', done, booked, low, high⟩
    · refine .inl ⟨error, s', failed, valid', sema, ?_, same, owned⟩
      funext j
      simp only [values, sem]
    · refine .inr ⟨s', done, booked.valid, booked.frame, ⟨booked.others, ?_⟩, fun _ => booked.owned, ?_⟩
      · intro id num
        rw [booked.balance]
        simp [flag]
      · intro t validT same owned
        have limit := info.aemLimit
        obtain ⟨t', undone, validT', back, ownedT, frame⟩ :=
          semaoe_undoes valid booked nonzero low high validT same (owned booked.owned)
        refine ⟨t', ?_, validT', frame, back, fun _ => ownedT⟩
        rw [if_pos flag, short_self (by omega) (by omega), undone]
  · rw [if_neg (show ¬ op.semFlg &&& SEM_UNDO ≠ 0 from flag)]
    refine .inr ⟨s, rfl, valid, ⟨rfl, rfl, rfl⟩, ⟨fun _ _ => rfl, ?_⟩, fun owned => owned, ?_⟩
    · intro id num
      simp [flag]
    · intro t validT same owned
      refine ⟨t, if_neg flag, validT, ⟨rfl, rfl, rfl⟩, same, owned⟩

def Permitted (info : Seminfo) (val op : Int) : Prop :=
  (0 < op → op + val ≤ info.semvmx) ∧ (op < 0 → 0 ≤ val + op) ∧ (op = 0 → val = 0)

structure Performed (info : Seminfo) (c : Caller) (op : Sembuf) (s s' : State) : Prop where
  valid : Valid info s'
  sema : s'.sema = s.sema
  permitted : Permitted info (values s (base s c + op.semNum)).toNat op.semOp.toInt
  values : ∀ j, ((values s' j).toNat : Int) = (values s j).toNat + if j = base s c + op.semNum then op.semOp.toInt else 0
  entered : Entered info c op s s'
  undoes : Undoes info c op s s'

private theorem toNat_add (val op : BitVec 16) (low : 0 ≤ (val.toNat : Int) + op.toInt)
    (high : (val.toNat : Int) + op.toInt < 65536) : ((val + op).toNat : Int) = val.toNat + op.toInt := by
  have signed := BitVec.toInt_eq_toNat_bmod op
  simp only [Int.bmod_def] at signed
  rw [BitVec.toNat_add]
  omega

private theorem performed {info : Seminfo} {s s₁ s' : State} {c : Caller} {op : Sembuf} (valid : Valid info s)
    (nonzero : op.semOp.toInt ≠ 0)
    (permitted : Permitted info (values s (base s c + op.semNum)).toNat op.semOp.toInt)
    (recorded : record info s c op = (none, s₁))
    (same : SameUndo s₁ s') (sema : s'.sema = s₁.sema)
    (stored : values s' = update (values s₁) (base s c + op.semNum) ((values s₁ (base s c + op.semNum)) + op.semOp.toUInt16)) :
    Performed info c op s s' := by
  rcases record_spec valid c op nonzero with ⟨error, s'', failed, _⟩ | ⟨s'', done, valid₁, frame, entered, owned, restores⟩
  · rw [recorded] at failed
    cases failed
  · rw [recorded] at done
    cases done
    obtain ⟨sema₁, sem₁, woken₁⟩ := frame
    have kept : values s₁ = values s := by
      funext j
      simp only [values, sem₁]
    refine ⟨same.valid valid₁, sema.trans sema₁, permitted, ?_, ⟨?_, ?_⟩, ?_⟩
    · intro j
      rw [stored, kept]
      by_cases here : j = base s c + op.semNum
      · subst here
        rw [update_self, if_pos rfl]
        have limit := info.vmxLimit
        have small := (values s (base s c + op.semNum)).toNat_lt
        obtain ⟨up, down, _⟩ := permitted
        apply toNat_add
        · change 0 ≤ ((values s (base s c + op.semNum)).toNat : Int) + op.semOp.toInt
          omega
        · change ((values s (base s c + op.semNum)).toNat : Int) + op.semOp.toInt < 65536
          omega
      · rw [update_of_ne here, if_neg here, add_zero]
    · rw [same.entries]
      exact entered.others
    · rw [same.entries]
      exact entered.balance
    · intro t like
      have back : values t (base s c + op.semNum) - op.semOp.toUInt16 = values s (base s c + op.semNum) := by
        rw [like.values, stored, kept, update_self, add_sub_cancel_right]
      have notZero : op.semOp ≠ 0 := by
        intro zero
        rw [zero] at nonzero
        exact nonzero rfl
      set t₁ := setSem t (base s c + op.semNum) { t.sem (base s c + op.semNum) with
        semval := (t.sem (base s c + op.semNum)).semval - op.semOp.toUInt16 } with eq
      have tables : SameUndo t t₁ := ⟨rfl, rfl, rfl, rfl⟩
      have restored : values t₁ = values s := by
        rw [eq, values_setSem]
        change update (values t) _ (values t (base s c + op.semNum) - op.semOp.toUInt16) = _
        rw [back, like.values, stored, kept, update_idem, update_eq_self]
      obtain ⟨t', result, validT, ⟨sema', sem', _⟩, entries', ownedT⟩ := restores t₁ (tables.valid like.valid)
        (by rw [tables.entries, like.entries, same.entries])
        (fun held => by rw [tables.semUndo]; exact like.owned (by rwa [same.semUndo]))
      have undone : undoOp info c.slot c.semid (base s c) op t = t' := by
        rw [undoOp, if_neg notZero]
        exact result
      rw [undone]
      refine ⟨validT, ?_, ?_, entries', ownedT⟩
      · rw [sema', ← sema₁, ← sema]
        exact like.sema
      · rw [← restored]
        funext j
        simp only [values, sem']

theorem doOp_spec {info : Seminfo} {s : State} (valid : Valid info s) (c : Caller) (op : Sembuf) :
    (∃ s', doOp info s c op = (.next, s') ∧ Performed info c op s s') ∨
      ∃ turn s', doOp info s c op = (turn, s') ∧ turn ≠ .next ∧ Like info c.slot s s' := by
  have zero_iff : op.semOp.toInt = 0 ↔ op.semOp = 0 :=
    ⟨fun zero => Int16.toInt_inj.mp (by simpa using zero), fun zero => by rw [zero]; rfl⟩
  simp only [doOp]
  split
  · next positive =>
    split
    · exact .inr ⟨_, s, rfl, by simp, .refl valid⟩
    · next fits =>
      rcases record_spec valid c op (by omega) with ⟨error, s', failed, like⟩ | ⟨s₁, done, _⟩
      · rw [failed]
        exact .inr ⟨_, s', rfl, by simp, like⟩
      · rw [done]
        refine .inl ⟨_, rfl, performed valid (by omega) ⟨?_, ?_, ?_⟩ done ?_ ?_ ?_⟩
        · intro _
          exact not_lt.mp fits
        · omega
        · omega
        · exact ((setSem_same _ _ _).trans (wake_same _ _).1.1).trans (wake_same _ _).2.1
        · rw [(wake_same _ _).2.2.1, (wake_same _ _).1.2.1]
          rfl
        · rw [(wake_same _ _).2.2.2, (wake_same _ _).1.2.2, values_setSem]
          rfl
  · split
    · next negative =>
      split
      · next enough =>
        rcases record_spec valid c op (by omega) with ⟨error, s', failed, like⟩ | ⟨s₁, done, _⟩
        · rw [failed]
          exact .inr ⟨_, s', rfl, by simp, like⟩
        · rw [done]
          refine .inl ⟨_, rfl, performed valid (by omega) ⟨?_, ?_, ?_⟩ done ?_ ?_ ?_⟩
          · omega
          · intro _
            simp only [values]
            omega
          · omega
          · exact (setSem_same _ _ _).trans (wake_same _ _).2.1
          · rw [(wake_same _ _).2.2.1]
            rfl
          · rw [(wake_same _ _).2.2.2, values_setSem]
            rfl
      · exact .inr ⟨_, s, rfl, by simp, .refl valid⟩
    · split
      · exact .inr ⟨_, s, rfl, by simp, .refl valid⟩
      · next nothing negative zero =>
        have same : op.semOp = 0 := zero_iff.mp (by omega)
        have none_ : op.semOp.toInt = 0 := zero_iff.mpr same
        refine .inl ⟨s, rfl, valid, rfl, ⟨by omega, by omega, fun _ => ?_⟩, ?_, ⟨fun _ _ => rfl, ?_⟩, ?_⟩
        · simp only [values]
          simp only [ne_eq, not_not] at zero
          rw [zero]
          rfl
        · simp [none_]
        · simp [none_]
        · intro t like
          rw [undoOp, if_pos same]
          exact like

def level (s : State) (j : Nat) : Int := (values s j).toNat

/-- The operations applied in order, each one permitted when its turn comes. -/
inductive Applied (info : Seminfo) (base : Nat) : List Sembuf → (Nat → Int) → (Nat → Int) → Prop
  | nil (v : Nat → Int) : Applied info base [] v v
  | snoc {ops : List Sembuf} {v v' : Nat → Int} {op : Sembuf} (before : Applied info base ops v v')
      (permitted : Permitted info (v' (base + op.semNum)) op.semOp.toInt) :
      Applied info base (ops ++ [op]) v (update v' (base + op.semNum) (v' (base + op.semNum) + op.semOp.toInt))

def recorded (ops : List Sembuf) (num : Nat) : Int :=
  ((ops.filter (fun op => op.semNum = num ∧ flagged op)).map (fun op => op.semOp.toInt)).sum

structure Progress (info : Seminfo) (c : Caller) (s : State) (ops : List Sembuf) (t : State) : Prop where
  valid : Valid info t
  sema : t.sema = s.sema
  applied : Applied info (base s c) ops (level s) (level t)
  others : ∀ p, p ≠ c.slot → entries t p = entries s p
  balance : ∀ id num, aoe (entries t c.slot) id num =
    aoe (entries s c.slot) id num - if id = c.semid then recorded ops num else 0
  restores : ∀ w, Like info c.slot t w → Like info c.slot s (semundo info c.slot c.semid (base s c) ops w)

namespace Progress
variable {info : Seminfo} {c : Caller} {s t w : State} {ops : List Sembuf} {op : Sembuf}

theorem start (valid : Valid info s) : Progress info c s [] s := by
  refine ⟨valid, rfl, .nil _, fun _ _ => rfl, ?_, fun w like => like⟩
  intro id num
  simp [recorded]

theorem base_eq (progress : Progress info c s ops t) : base t c = base s c := by
  simp only [base, progress.sema]

theorem step (progress : Progress info c s ops t) (performed : Performed info c op t w) :
    Progress info c s (ops ++ [op]) w := by
  have same := progress.base_eq
  refine ⟨performed.valid, performed.sema.trans progress.sema, ?_, ?_, ?_, ?_⟩
  · have permitted := performed.permitted
    have moved : level w = update (level t) (base s c + op.semNum) (level t (base s c + op.semNum) + op.semOp.toInt) := by
      funext j
      have change_ := performed.values j
      rw [same] at change_
      by_cases here : j = base s c + op.semNum
      · subst here
        rw [update_self]
        simpa [level] using change_
      · rw [update_of_ne here]
        simpa [level, here] using change_
    rw [same] at permitted
    rw [moved]
    exact progress.applied.snoc permitted
  · intro p other
    rw [performed.entered.others p other, progress.others p other]
  · intro id num
    rw [performed.entered.balance, progress.balance]
    simp only [recorded, List.filter_append, List.map_append, List.sum_append]
    by_cases hit : op.semNum = num ∧ flagged op
    · obtain ⟨rfl, flag⟩ := hit
      simp only [flag, List.filter_cons, List.filter_nil, and_self, and_true, decide_true, if_true]
      split
      · simp
        omega
      · simp
    · have miss : ¬ (id = c.semid ∧ num = op.semNum ∧ flagged op) := fun wrong => hit ⟨wrong.2.1.symm, wrong.2.2⟩
      rw [if_neg miss]
      simp [hit]
  · intro x like
    have back := performed.undoes x like
    rw [same] at back
    simp only [semundo, List.foldr_append, List.foldr_cons, List.foldr_nil]
    exact progress.restores _ back

end Progress

theorem bumpWaiters_like {info : Seminfo} {s : State} (valid : Valid info s) (slot : Nat) (channel : Channel) :
    Like info slot s (bumpWaiters s channel) := by
  cases channel <;>
  · refine (setSem_same _ _ _).like valid slot rfl ?_
    rw [values_setSem]
    exact update_eq_self _ (values s)

theorem Progress.rollback {info : Seminfo} {c : Caller} {s t w : State} {ops : List Sembuf} {i : Nat}
    (progress : Progress info c s (ops.take i) t) (like : Like info c.slot t w) :
    Like info c.slot s (if i ≠ 0 then semundo info c.slot c.semid (base w c) (ops.take i) w else w) := by
  have same : base w c = base s c := by simp only [base, like.sema, progress.sema]
  have back := progress.restores w like
  split
  · rwa [same]
  · next first =>
    simp only [ne_eq, not_not] at first
    subst first
    simpa [semundo] using back

theorem semopLoop_spec {info : Seminfo} {c : Caller} {ops : List Sembuf} {s : State} (i : Nat) (t : State)
    (progress : Progress info c s (ops.take i) t) :
    (∃ t', semopLoop info c ops i t = (.done, t') ∧ Progress info c s ops t') ∨
      ∃ outcome t', semopLoop info c ops i t = (outcome, t') ∧ outcome ≠ .done ∧ Like info c.slot s t' := by
  induction left : ops.length - i generalizing i t with
  | zero =>
    unfold semopLoop
    rw [dif_neg (by omega)]
    rw [List.take_of_length_le (by omega)] at progress
    exact .inl ⟨t, rfl, progress⟩
  | succ n ih =>
    have inside : i < ops.length := by omega
    unfold semopLoop
    rw [dif_pos inside]
    rcases doOp_spec progress.valid c ops[i] with ⟨w, went, performed⟩ | ⟨turn, w, stopped, other, like⟩
    · simp only [went]
      have next_ := progress.step performed
      rw [List.take_append_getElem inside] at next_
      exact ih (i + 1) w next_ (by omega)
    · simp only [stopped]
      have back := progress.rollback like
      cases turn with
      | next => exact absurd rfl other
      | fail error => exact .inr ⟨_, _, rfl, by simp, back⟩
      | block channel =>
        simp only
        split
        · exact .inr ⟨_, _, rfl, by simp, back⟩
        · exact .inr ⟨_, _, rfl, by simp, back.trans (bumpWaiters_like back.valid c.slot channel)⟩

end Svr4.Proofs.SemAtomic

/-! Semaphores over any history: the undo tables stay well formed whatever the
processes do, so each call of `semop` is all or nothing. -/

namespace Svr4.Proofs.SemHistory
open Function Sem SemUndo SemAtomic Ledger

structure Done (info : Seminfo) (c : Caller) (ops : List Sembuf) (s t : State) : Prop where
  applied : Applied info (base s c) ops (level s) (level t)
  others : ∀ p, p ≠ c.slot → entries t p = entries s p
  balance : ∀ id num, aoe (entries t c.slot) id num =
    aoe (entries s c.slot) id num - if id = c.semid then recorded ops num else 0

/-- All of the operations when the stretch of the call returns 0, and else nothing. -/
structure AllOrNothing (info : Seminfo) (c : Caller) (ops : List Sembuf) (s : State) (result : Outcome × State) : Prop where
  valid : Valid info result.2
  all : result.1 = .done → Done info c ops s result.2
  nothing : result.1 ≠ .done → values result.2 = values s ∧ entries result.2 = entries s

theorem Like.nothing {info : Seminfo} {c : Caller} {ops : List Sembuf} {s t : State} {outcome : Outcome}
    (like : Like info c.slot s t) (other : outcome ≠ .done) : AllOrNothing info c ops s (outcome, t) :=
  ⟨like.valid, fun done => absurd done other, fun _ => ⟨like.values, like.entries⟩⟩

theorem stamp_same (s : State) (c : Caller) (ops : List Sembuf) (now : Int) :
    SameUndo s (stamp s c ops now) ∧ values (stamp s c ops now) = values s := by
  have loop : ∀ (ops : List Sembuf) (t : State) (j : Nat),
      let t' := ops.foldl (fun s op => setSem s (j + op.semNum) { s.sem (j + op.semNum) with sempid := c.pid }) t
      SameUndo t t' ∧ values t' = values t := by
    intro ops
    induction ops with
    | nil => exact fun t j => ⟨⟨rfl, rfl, rfl, rfl⟩, rfl⟩
    | cons op ops ih =>
      intro t j
      obtain ⟨same, kept⟩ := ih (setSem t (j + op.semNum) { t.sem (j + op.semNum) with sempid := c.pid }) j
      refine ⟨(setSem_same _ _ _).trans same, kept.trans ?_⟩
      rw [values_setSem]
      exact update_eq_self _ (values t)
  obtain ⟨same, kept⟩ := loop ops s (base s c)
  exact ⟨same.trans ⟨rfl, rfl, rfl, rfl⟩, kept⟩

theorem check_spec {info : Seminfo} {s : State} (valid : Valid info s) (c : Caller) (ops : List Sembuf) (now : Int) :
    AllOrNothing info c ops s (check info s c ops now) := by
  simp only [check]
  rcases semopLoop_spec 0 s (.start valid : Progress info c s (ops.take 0) s) with ⟨t, done, progress⟩ |
    ⟨outcome, t, stopped, other, like⟩
  · rw [done]
    obtain ⟨same, kept⟩ := stamp_same t c ops now
    refine ⟨same.valid progress.valid, fun _ => ⟨?_, ?_, ?_⟩, fun wrong => absurd rfl wrong⟩
    · have levels : level (stamp t c ops now) = level t := by
        funext j
        simp only [level, kept]
      rw [levels]
      exact progress.applied
    · rw [same.entries]
      exact progress.others
    · rw [same.entries]
      exact progress.balance
  · rw [stopped]
    cases outcome with
    | done => exact absurd rfl other
    | error error => exact Like.nothing like other
    | asleep i channel => exact Like.nothing like other

theorem semop_spec {info : Seminfo} {s : State} (valid : Valid info s) (slot : Nat) (pid semid : Int) (nsops : Nat)
    (cred : Cred) (copyin : Option (List Sembuf)) (now : Int) :
    ∃ sp ops, AllOrNothing info ⟨slot, pid, semid, sp⟩ ops s (semop info s slot pid semid nsops cred copyin now) ∧
      ((semop info s slot pid semid nsops cred copyin now).1 = .done →
        semconv info s semid = .ok sp ∧ copyin = some ops) := by
  have refused : ∀ error sp, AllOrNothing info ⟨slot, pid, semid, sp⟩ [] s (.error error, s) := fun error sp =>
    Like.nothing (.refl valid) (by simp)
  simp only [semop]
  cases set_ : semconv info s semid with
  | error error => exact ⟨0, [], refused error 0, by simp⟩
  | ok sp =>
    simp only
    split
    · exact ⟨sp, [], refused _ sp, by simp⟩
    · cases copyin with
      | none => exact ⟨sp, [], refused _ sp, by simp⟩
      | some ops =>
        simp only
        cases verify s sp cred ops with
        | some error => exact ⟨sp, [], refused error sp, by simp⟩
        | none => exact ⟨sp, ops, check_spec valid _ ops now, fun _ => ⟨rfl, rfl⟩⟩

theorem resume_spec {info : Seminfo} {s : State} (valid : Valid info s) (c : Caller) (copyin : Option (List Sembuf))
    (now : Int) :
    ∃ ops, AllOrNothing info c ops s (resume info s c copyin now) ∧
      ((resume info s c copyin now).1 = .done → copyin = some ops) := by
  have refused : ∀ error, AllOrNothing info c [] s (.error error, s) := fun error => Like.nothing (.refl valid) (by simp)
  simp only [resume]
  cases semconv info s c.semid with
  | error error => exact ⟨[], refused _, by simp⟩
  | ok sp =>
    cases copyin with
    | none => exact ⟨[], refused _, by simp⟩
    | some ops => exact ⟨ops, check_spec valid c ops now, fun _ => rfl⟩

theorem interrupted_spec {info : Seminfo} {s : State} (valid : Valid info s) (slot : Nat) (channel : Channel) :
    ∃ t, interrupted s channel = (.error .EINTR, t) ∧ Like info slot s t := by
  have kept : ∀ (j : Nat) (semp : Semaphore), semp.semval = (s.sem j).semval → values (setSem s j semp) = values s := by
    intro j semp same
    rw [values_setSem, same]
    exact update_eq_self j (values s)
  have twice : ∀ (j : Nat) (semp semp' : Semaphore), semp.semval = (s.sem j).semval → semp'.semval = (s.sem j).semval →
      values (setSem (setSem s j semp) j semp') = values s := by
    intro j semp semp' same same'
    rw [values_setSem, kept j semp same, same']
    exact update_eq_self j (values s)
  cases channel <;>
  · refine ⟨_, rfl, ?_⟩
    simp only
    split
    · refine SameUndo.like ?_ valid slot rfl ?_
      · exact ⟨rfl, rfl, rfl, rfl⟩
      · exact twice _ _ _ rfl (by simp [setSem])
    · refine SameUndo.like ?_ valid slot rfl ?_
      · exact ⟨rfl, rfl, rfl, rfl⟩
      · exact kept _ _ rfl

theorem exitEntry_same (info : Seminfo) (uup : Undo) (s : State) : SameUndo s (exitEntry info uup s) := by
  unfold exitEntry
  split
  · exact ⟨rfl, rfl, rfl, rfl⟩
  · next sp _ =>
    simp only
    split
    · exact ⟨rfl, rfl, rfl, rfl⟩
    · split
      · exact ((setSem_same _ _ _).trans (wake_same _ _).2.1).trans (wake_same _ _).1.1
      · exact (setSem_same _ _ _).trans (wake_same _ _).2.1

theorem exitEntries_same (info : Seminfo) (ent : List Undo) (s : State) : SameUndo s (ent.foldr (exitEntry info) s) := by
  induction ent with
  | nil => exact ⟨rfl, rfl, rfl, rfl⟩
  | cons uup ent ih => exact ih.trans (exitEntry_same info uup _)

theorem semexit_valid {info : Seminfo} {s : State} (valid : Valid info s) (slot : Nat) : Valid info (semexit info s slot) := by
  unfold semexit
  cases held : s.semUndo slot with
  | none => exact valid
  | some up =>
    simp only
    have emptied : ∃ t : State, (if (s.semu up).length = 0 then s
        else { setUndo ((s.semu up).foldr (exitEntry info) s) up [] with
          semunp := (setUndo ((s.semu up).foldr (exitEntry info) s) up []).semunp.erase up }) = t ∧
        t.semu = update s.semu up [] ∧ t.semunp = s.semunp.erase up ∧ t.semUndo = s.semUndo ∧ t.semfup = s.semfup := by
      refine ⟨_, rfl, ?_⟩
      split
      · next idle =>
        have none_ := List.length_eq_zero_iff.mp idle
        have off : up ∉ s.semunp := by
          rw [valid.active up]
          simpa using none_
        refine ⟨?_, (List.erase_of_not_mem off).symm, rfl, rfl⟩
        rw [← none_, update_eq_self]
      · obtain ⟨semUndo, semu, semunp, semfup⟩ := exitEntries_same info (s.semu up) s
        refine ⟨?_, ?_, semUndo, semfup⟩
        · simp only [setUndo, semu]
        · simp only [setUndo, semunp]
    obtain ⟨t, result, semu, semunp, semUndo, semfup⟩ := emptied
    rw [result]
    have spare : up ∉ s.semfup := fun member => (valid.free up member).2 slot held
    refine ⟨?_, ?_, ?_, ?_, ?_, ?_⟩
    · intro u
      simp only [semu]
      by_cases same : u = up
      · subst same
        rw [update_self]
        exact ⟨List.Pairwise.nil, by simp, by simp, by simp⟩
      · rw [update_of_ne same]
        exact valid.tables u
    · intro p q u first second
      simp only [semUndo] at first second
      by_cases p_ : p = slot <;> by_cases q_ : q = slot
      · exact p_.trans q_.symm
      · simp [p_] at first
      · simp [q_] at second
      · rw [update_of_ne p_] at first
        rw [update_of_ne q_] at second
        exact valid.own p q u first second
    · intro u member
      simp only [semfup, List.mem_cons] at member
      simp only [semu, semUndo]
      rcases member with rfl | old
      · refine ⟨update_self .., fun p => ?_⟩
        by_cases p_ : p = slot
        · simp [p_]
        · rw [update_of_ne p_]
          exact fun wrong => p_ (valid.own p slot _ wrong held)
      · have older := valid.free u old
        have other : u ≠ up := fun same => spare (same ▸ old)
        refine ⟨by rw [update_of_ne other]; exact older.1, fun p => ?_⟩
        by_cases p_ : p = slot
        · simp [p_]
        · rw [update_of_ne p_]
          exact older.2 p
    · simp only [semfup]
      exact List.nodup_cons.mpr ⟨spare, valid.freeOnce⟩
    · intro u
      simp only [semu, semunp]
      rw [valid.activeOnce.mem_erase_iff]
      by_cases same : u = up
      · simp [same]
      · simp [same, valid.active u]
    · simp only [semunp]
      exact valid.activeOnce.erase up

theorem unrmScan_sublist (id : Int) (low high : Nat) (ent : List Undo) : (unrmScan id low high ent).Sublist ent := by
  induction ent with
  | nil => exact .refl _
  | cons uup ent ih =>
    unfold unrmScan
    split
    · exact .refl _
    · split
      · exact ih.cons_cons uup
      · split
        · exact .refl _
        · exact ih.cons uup

theorem semunrm_valid {info : Seminfo} {s : State} (valid : Valid info s) (id : Int) (low high : Nat) :
    Valid info (semunrm s id low high) := by
  have sub : ∀ u, ((semunrm s id low high).semu u).Sublist (s.semu u) := by
    intro u
    simp only [semunrm]
    split
    · exact unrmScan_sublist id low high _
    · exact .refl _
  refine ⟨?_, valid.own, ?_, valid.freeOnce, ?_, valid.activeOnce.filter _⟩
  · intro u
    have table := valid.tables u
    exact ⟨table.sorted.sublist (sub u), fun uup member => table.nonzero uup ((sub u).mem member),
      fun uup member => table.bounded uup ((sub u).mem member), (sub u).length_le.trans table.room⟩
  · intro u member
    obtain ⟨empty, unowned⟩ := valid.free u member
    refine ⟨?_, unowned⟩
    have := sub u
    rw [empty] at this
    exact List.sublist_nil.mp this
  · intro u
    simp only [semunrm, List.mem_filter, decide_eq_true_eq]
    by_cases active : u ∈ s.semunp
    · simp [active, List.length_eq_zero_iff]
    · have none_ : s.semu u = [] := by
        by_contra some_
        exact active ((valid.active u).mpr some_)
      simp [active, none_]

theorem seminit_valid (info : Seminfo) (sema : Nat → SemidDs) (sem : Nat → Semaphore) (semmnu : Nat) :
    Valid info (seminit sema sem semmnu) := by
  refine ⟨?_, ?_, ?_, List.nodup_range, ?_, List.nodup_nil⟩
  · exact fun _ => ⟨List.Pairwise.nil, by simp [seminit], by simp [seminit], by simp [seminit]⟩
  · simp [seminit]
  · simp [seminit]
  · simp [seminit]

/-- The states the system calls reach. `semctl` and `semget` also change sets and
values, in whatever way. -/
inductive Reachable (info : Seminfo) : State → Prop
  | seminit (sema : Nat → SemidDs) (sem : Nat → Semaphore) (semmnu : Nat) : Reachable info (seminit sema sem semmnu)
  | semop {s : State} (before : Reachable info s) (slot : Nat) (pid semid : Int) (nsops : Nat) (cred : Cred)
      (copyin : Option (List Sembuf)) (now : Int) : Reachable info (semop info s slot pid semid nsops cred copyin now).2
  | resume {s : State} (before : Reachable info s) (c : Caller) (copyin : Option (List Sembuf)) (now : Int) :
      Reachable info (resume info s c copyin now).2
  | interrupted {s : State} (before : Reachable info s) (channel : Channel) : Reachable info (interrupted s channel).2
  | semexit {s : State} (before : Reachable info s) (slot : Nat) : Reachable info (semexit info s slot)
  | semunrm {s : State} (before : Reachable info s) (id : Int) (low high : Nat) : Reachable info (semunrm s id low high)
  | semctl {s : State} (before : Reachable info s) (sema : Nat → SemidDs) (sem : Nat → Semaphore) (woken : List Channel) :
      Reachable info { s with sema, sem, woken }

theorem Reachable.valid {info : Seminfo} {s : State} (reached : Reachable info s) : Valid info s := by
  induction reached with
  | seminit sema sem semmnu => exact seminit_valid info sema sem semmnu
  | semop _ slot pid semid nsops cred copyin now ih =>
    obtain ⟨_, _, spec, _⟩ := semop_spec ih slot pid semid nsops cred copyin now
    exact spec.valid
  | resume _ c copyin now ih =>
    obtain ⟨_, spec, _⟩ := resume_spec ih c copyin now
    exact spec.valid
  | interrupted _ channel ih =>
    obtain ⟨t, result, like⟩ := interrupted_spec ih 0 channel
    rw [result]
    exact like.valid
  | semexit _ slot ih => exact semexit_valid ih slot
  | semunrm _ id low high ih => exact semunrm_valid ih id low high
  | semctl _ sema sem woken ih => exact ⟨ih.tables, ih.own, ih.free, ih.freeOnce, ih.active, ih.activeOnce⟩

/-- Every stretch of every call, from any state with well-formed undo tables, which
are all the states reached. -/
theorem semop_all_or_nothing (info : Seminfo) :
    (∀ s, Reachable info s → Valid info s) ∧
    ∀ s, Valid info s →
      (∀ slot pid semid nsops cred copyin now, ∃ sp ops,
        AllOrNothing info ⟨slot, pid, semid, sp⟩ ops s (semop info s slot pid semid nsops cred copyin now) ∧
        ((semop info s slot pid semid nsops cred copyin now).1 = .done →
          semconv info s semid = .ok sp ∧ copyin = some ops)) ∧
      (∀ c copyin now, ∃ ops, AllOrNothing info c ops s (resume info s c copyin now) ∧
        ((resume info s c copyin now).1 = .done → copyin = some ops)) ∧
      ∀ channel, (interrupted s channel).1 = .error .EINTR ∧
        values (interrupted s channel).2 = values s ∧ entries (interrupted s channel).2 = entries s := by
  refine ⟨fun s reached => reached.valid, fun s valid => ⟨?_, ?_, ?_⟩⟩
  · intro slot pid semid nsops cred copyin now
    exact semop_spec valid slot pid semid nsops cred copyin now
  · intro c copyin now
    exact resume_spec valid c copyin now
  · intro channel
    obtain ⟨t, result, like⟩ := interrupted_spec valid 0 channel
    rw [result]
    exact ⟨rfl, like.values, like.entries⟩

private theorem largest_vmx : 32767 ≤ 32767 := Nat.le_refl _

private theorem largest_aem : 16384 ≤ 16384 := Nat.le_refl _

private def limits : Seminfo := ⟨10, 10, 10, 32767, 16384, largest_vmx, largest_aem⟩

private def twoSemaphores : State :=
  seminit (fun _ => ⟨⟨0, 0, 0, 0, IPC_ALLOC, 0⟩, 0, 2, 0⟩) (fun j => ⟨if j = 0 then 1 else 0, 0, 0, 0⟩) 1

/-- The theorem at a call that takes the first of two semaphores, with `SEM_UNDO`,
and cannot have the second: the value and the undo entry are given back. -/
theorem semop_all_or_nothing_two :
    ∃ t, semop limits twoSemaphores 0 7 0 2 ⟨0, []⟩ (some [⟨0, -1, SEM_UNDO⟩, ⟨1, -1, IPC_NOWAIT⟩]) 0 =
      (.error .EAGAIN, t) ∧ values t 0 = 1 ∧ entries t 0 = [] := by
  obtain ⟨sp, ops, spec, _⟩ := ((semop_all_or_nothing limits).2 twoSemaphores (seminit_valid _ _ _ _)).1
    0 7 0 2 ⟨0, []⟩ (some [⟨0, -1, SEM_UNDO⟩, ⟨1, -1, IPC_NOWAIT⟩]) 0
  have outcome : (semop limits twoSemaphores 0 7 0 2 ⟨0, []⟩
      (some [⟨0, -1, SEM_UNDO⟩, ⟨1, -1, IPC_NOWAIT⟩]) 0).1 = .error .EAGAIN := by
    change (check limits twoSemaphores ⟨0, 7, 0, 0⟩ _ 0).1 = _
    unfold check semopLoop
    rw [dif_pos (by decide)]
    unfold semopLoop
    rfl
  obtain ⟨kept, same⟩ := spec.nothing (by rw [outcome]; simp)
  refine ⟨_, Prod.ext outcome rfl, ?_, ?_⟩
  · rw [kept]
    rfl
  · rw [same]
    rfl

end Svr4.Proofs.SemHistory
