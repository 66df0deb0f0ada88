import Svr4.Proofs.SemSleep

/-! The semaphores that `semop` touches. The list is verified when the call begins, and
not when it is copied in again after a sleep. -/

namespace Svr4.Proofs.SemBounds
open Function Sem SemAtomic SemHistory SemWatch SemSleep

variable {c : Caller} {ops : List Sembuf}

/-- The operations of a pass by which it indexes `sem_base`, up to the one it stops at. -/
def uses (info : Seminfo) (c : Caller) (ops : List Sembuf) (i : Nat) (s : State) : List Sembuf :=
  if inside : i < ops.length then
    ops[i] :: match doOp info s c ops[i] with
      | (.next, s) => uses info c ops (i + 1) s
      | _ => []
  else []
termination_by ops.length - i

theorem uses_subset (info : Seminfo) (c : Caller) (ops : List Sembuf) (i : Nat) (s : State) : uses info c ops i s ⊆ ops := by
  induction left : ops.length - i generalizing i s with
  | zero =>
    unfold uses
    rw [dif_neg (by omega)]
    exact List.nil_subset _
  | succ n ih =>
    unfold uses
    rw [dif_pos (by omega)]
    apply List.cons_subset.mpr
    refine ⟨List.getElem_mem _, ?_⟩
    split
    · exact ih _ _ (by omega)
    · exact List.nil_subset _

structure Only (j : Nat) (s t : State) : Prop where
  sema : t.sema = s.sema
  others : ∀ i, i ≠ j → t.sem i = s.sem i

namespace Only
variable {j : Nat} {s t w : State}

theorem trans (first : Only j s t) (second : Only j t w) : Only j s w :=
  ⟨second.sema.trans first.sema, fun i apart => (second.others i apart).trans (first.others i apart)⟩

theorem of_sameSem (same : SameSem s t) (j : Nat) : Only j s t := ⟨same.sema, fun i _ => by rw [same.sem]⟩

theorem setSem (s : State) (j : Nat) (semp : Semaphore) : Only j s (setSem s j semp) :=
  ⟨rfl, fun _ apart => update_of_ne apart _ _⟩

theorem refl (j : Nat) (s : State) : Only j s s := ⟨rfl, fun _ _ => rfl⟩

theorem wakeNcnt (s : State) (j : Nat) : Only j s (wakeNcnt s j) := by
  unfold Sem.wakeNcnt
  split
  · exact ⟨rfl, (Only.setSem s j _).others⟩
  · exact refl j s

theorem wakeZcnt (s : State) (j : Nat) : Only j s (wakeZcnt s j) := by
  unfold Sem.wakeZcnt
  split
  · exact ⟨rfl, (Only.setSem s j _).others⟩
  · exact refl j s

end Only

theorem doOp_only (info : Seminfo) (s : State) (c : Caller) (op : Sembuf) :
    Only (base s c + op.semNum) s (doOp info s c op).2 := by
  have recorded := record_sameSem info s c op
  simp only [doOp]
  split
  · split
    · exact .refl _ s
    · split
      · next error t failed =>
        rw [failed] at recorded
        exact .of_sameSem recorded _
      · next t done =>
        rw [done] at recorded
        exact (((Only.of_sameSem recorded _).trans (.setSem _ _ _)).trans (.wakeNcnt _ _)).trans (.wakeZcnt _ _)
  · split
    · split
      · split
        · next error t failed =>
          rw [failed] at recorded
          exact .of_sameSem recorded _
        · next t done =>
          rw [done] at recorded
          exact ((Only.of_sameSem recorded _).trans (.setSem _ _ _)).trans (.wakeZcnt _ _)
      · exact .refl _ s
    · split <;> exact .refl _ s

theorem undoOp_only (info : Seminfo) (slot : Nat) (id : Int) (first : Nat) (op : Sembuf) (s : State) :
    Only (first + op.semNum) s (undoOp info slot id first op s) := by
  unfold undoOp
  split
  · exact .refl _ s
  · simp only
    split
    · exact (Only.setSem _ _ _).trans (.of_sameSem (semaoe_sameSem ..) _)
    · exact .setSem _ _ _

def Beyond (j first : Nat) (ops : List Sembuf) : Prop := ∀ op ∈ ops, j ≠ first + op.semNum

theorem semundo_beyond (info : Seminfo) (slot : Nat) (id : Int) {first j : Nat} (beyond : Beyond j first ops)
    (s : State) : (semundo info slot id first ops s).sem j = s.sem j := by
  induction ops with
  | nil => rfl
  | cons op ops ih =>
    have last := (undoOp_only info slot id first op (semundo info slot id first ops s)).others j (beyond op List.mem_cons_self)
    exact last.trans (ih fun op member => beyond op (List.mem_cons_of_mem _ member))

theorem bumpWaiters_beyond {s : State} {channel : Channel} {v : Int} {op : Sembuf} {j first : Nat}
    (waits : Waits v op (first + op.semNum) channel) (apart : j ≠ first + op.semNum) :
    (bumpWaiters s channel).sem j = s.sem j := by
  cases channel with
  | ncnt i =>
    obtain ⟨rfl, _⟩ := waits
    exact update_of_ne apart _ _
  | zcnt i =>
    obtain ⟨rfl, _⟩ := waits
    exact update_of_ne apart _ _

theorem semopLoop_beyond (info : Seminfo) {j : Nat} (i : Nat) (s : State)
    (beyond : Beyond j (base s c) ops) : (semopLoop info c ops i s).2.sem j = s.sem j := by
  induction left : ops.length - i generalizing i s with
  | zero =>
    unfold semopLoop
    rw [dif_neg (by omega)]
  | succ n ih =>
    have inside : i < ops.length := by omega
    have only := doOp_only info s c ops[i]
    have here := beyond ops[i] (List.getElem_mem inside)
    have before : Beyond j (base s c) (ops.take i) := fun op member => beyond op (List.mem_of_mem_take member)
    unfold semopLoop
    rw [dif_pos inside]
    have undone : ∀ t, t.sema = s.sema → t.sem j = s.sem j →
        (if i ≠ 0 then semundo info c.slot c.semid (base t c) (ops.take i) t else t).sem j = s.sem j := by
      intro t sema sem
      have same : base t c = base s c := by simp only [base, sema]
      rw [same]
      split
      · exact (semundo_beyond info c.slot c.semid before t).trans sem
      · exact sem
    simp only
    split
    · next t went =>
      rw [went] at only
      have sema : t.sema = s.sema := only.sema
      have same : base t c = base s c := by simp only [base, sema]
      exact (ih (i + 1) t (same ▸ beyond) (by omega)).trans (only.others j here)
    · next error t failed =>
      rw [failed] at only
      exact undone t only.sema (only.others j here)
    · next channel t blocked =>
      obtain ⟨rfl, waits⟩ := doOp_block blocked
      split
      · exact undone t rfl rfl
      · exact (bumpWaiters_beyond waits here).trans (undone t rfl rfl)

theorem stamp_beyond {s : State} {j : Nat} (beyond : Beyond j (base s c) ops) (now : Int) :
    (stamp s c ops now).sem j = s.sem j := by
  have loop : ∀ (ops : List Sembuf) (t : State) (first : Nat), Beyond j first ops →
      (ops.foldl (fun s op => setSem s (first + op.semNum) { s.sem (first + op.semNum) with sempid := c.pid }) t).sem j = t.sem j := by
    intro ops
    induction ops with
    | nil => exact fun t first _ => rfl
    | cons op ops ih =>
      intro t first outside
      apply (ih _ first fun op member => outside op (List.mem_cons_of_mem _ member)).trans
      exact update_of_ne (outside op List.mem_cons_self) _ _
  exact loop ops s (base s c) beyond

def Inside (s t : State) (sp : Nat) : Prop :=
  ∀ j, (∀ num < (s.sema sp).semNsems, j ≠ (s.sema sp).semBase + num) → t.sem j = s.sem j

theorem check_inside {info : Seminfo} {s : State} (valid : SemUndo.Valid info s)
    (inRange : ∀ op ∈ ops, op.semNum < (s.sema c.sp).semNsems) (now : Int) : Inside s (check info s c ops now).2 c.sp := by
  intro j outside
  have beyond : Beyond j (base s c) ops := fun op member => outside op.semNum (inRange op member)
  have same := semopLoop_beyond info 0 s beyond
  unfold check
  rcases semopLoop_spec 0 s (.start valid : Progress info c s (ops.take 0) s) with ⟨t, done, progress⟩ |
    ⟨outcome, t, stopped, other, _⟩
  · rw [done] at same ⊢
    rw [← progress.base_eq] at beyond
    exact (stamp_beyond beyond now).trans same
  · rw [stopped] at same ⊢
    cases outcome with
    | done => exact absurd rfl other
    | error error => exact same
    | asleep i channel => exact same

/-- The set has as many semaphores as when the call began. The list that is copied in after a sleep
names none beyond those of the list that was verified then, and changes semaphores, or waits for
zero, only if that list did. -/
def Alike (k : System) : Event → Prop
  | .again pass => (k.state.sema pass.caller.sp).semNsems = pass.nsems ∧ ∀ op ∈ pass.ops,
      (∃ v ∈ pass.verified, op.semNum ≤ v.semNum) ∧ ∃ v ∈ pass.verified, v.semOp = 0 ↔ op.semOp = 0
  | _ => True

theorem Run.valid {info : Seminfo} {allowed : System → Event → Prop} {k : System} (run : Run info allowed k) :
    SemUndo.Valid info k.state := by
  induction run with
  | start sema sem semmnu => exact seminit_valid info sema sem semmnu
  | @step k k' event _ _ step valid =>
    have quiet : SemUndo.Valid info k.quiet :=
      ⟨valid.tables, valid.own, valid.free, valid.freeOnce, valid.active, valid.activeOnce⟩
    cases step with
    | @semop p idle pid semid nsops cred copyin now =>
      obtain ⟨_, _, spec, _⟩ := semop_spec quiet p pid semid nsops cred copyin now
      exact spec.valid
    | roused sleeping => exact valid
    | @resume p pass channel back copyin now =>
      obtain ⟨_, spec, _⟩ := resume_spec quiet pass.caller copyin now
      exact spec.valid
    | @interrupted p pass channel back =>
      obtain ⟨t, result, like⟩ := interrupted_spec quiet p channel
      simp only [System.settle, result]
      exact like.valid
    | semctl semid cmd cred pid => exact semctl_valid quiet semid cmd cred pid
    | @semexit p idle => exact semexit_valid quiet p
    | headers sema => exact ⟨valid.tables, valid.own, valid.free, valid.freeOnce, valid.active, valid.activeOnce⟩

/-- While each list that is copied in again is like the one that was verified, every pass indexes
within its set, with an access that was checked, and writes nothing outside it. -/
theorem semop_stays_in_set (info : Seminfo) (k : System) (run : Run info Alike k) :
    ∀ event k' pass, Alike k event → Step info k event k' → event.pass = some pass →
      (∀ op ∈ uses info pass.caller pass.ops 0 k.quiet,
        op.semNum < (k.state.sema pass.caller.sp).semNsems ∧ ∃ v ∈ pass.verified, needs v = needs op) ∧
      Inside k.state k'.state pass.caller.sp := by
  have valid := Run.valid run
  have quiet : SemUndo.Valid info k.quiet :=
    ⟨valid.tables, valid.own, valid.free, valid.freeOnce, valid.active, valid.activeOnce⟩
  intro event k' pass may step made
  -- It is enough that the whole list would pass the verification.
  have enough : ∀ now, k'.state = (check info k.quiet pass.caller pass.ops now).2 →
      (∀ op ∈ pass.ops, op.semNum < (k.state.sema pass.caller.sp).semNsems ∧ ∃ v ∈ pass.verified, needs v = needs op) →
      (∀ op ∈ uses info pass.caller pass.ops 0 k.quiet,
        op.semNum < (k.state.sema pass.caller.sp).semNsems ∧ ∃ v ∈ pass.verified, needs v = needs op) ∧
      Inside k.state k'.state pass.caller.sp := by
    intro now same good
    refine ⟨fun op member => good op (uses_subset _ _ _ _ _ member), ?_⟩
    rw [same]
    exact check_inside quiet (fun op member => (good op member).1) now
  cases step with
  | @semop p idle pid semid nsops cred copyin now =>
    rcases semop_entry info k.quiet p pid semid nsops cred copyin now with
      ⟨none_, _⟩ | ⟨sp, ops, verified, _, _, some_, called⟩
    · rw [none_] at made
      cases made
    · rw [some_] at made
      cases made
      apply enough now (congrArg Prod.snd called)
      intro op member
      exact ⟨((verify_spec _ _ _ _).mp verified op member).2, op, member, rfl⟩
  | @resume p pass' channel back copyin now =>
    rcases resume_again info k.quiet pass' copyin now with ⟨none_, _⟩ | ⟨ops, _, some_, called⟩
    · rw [none_] at made
      cases made
    · rw [some_] at made may
      cases made
      obtain ⟨size, alike⟩ := may
      refine enough now (congrArg Prod.snd called) fun op member => ?_
      obtain ⟨⟨v, inside, low⟩, w, inside', kind⟩ := alike op member
      refine ⟨?_, w, inside', by simp only [needs, ne_eq, kind]⟩
      rw [size]
      exact low.trans_lt (pass'.granted v inside).2
  | roused sleeping => cases made
  | interrupted back => cases made
  | semctl semid cmd cred pid => cases made
  | semexit idle => cases made
  | headers sema => cases made

private def reader : Cred := ⟨5, []⟩

private def readable : System :=
  ⟨seminit (fun _ => ⟨⟨0, 0, 0, 0, IPC_ALLOC + 0o444, 0⟩, 0, 1, 0⟩) (fun _ => ⟨1, 0, 0, 0⟩) 1, fun _ => .running⟩

private def asked : State := bumpWaiters readable.quiet (.zcnt 0)

private theorem asked_call : semop tunables readable.quiet 0 7 0 1 reader (some [⟨0, 0, 0⟩]) 0 = (.asleep 0 (.zcnt 0), asked) := by
  change check tunables readable.quiet ⟨0, 7, 0, 0⟩ [⟨0, 0, 0⟩] 0 = _
  unfold check semopLoop
  rfl

private def zeroed : State := (semctl tunables { asked with woken := [] } 0 (.SETVAL 0 0) root 8).2

private def added : State :=
  stamp (wakeZcnt (wakeNcnt (setSem { zeroed with woken := [] } 1 ⟨6, 0, 0, 0⟩) 1) 1) ⟨0, 7, 0, 0⟩ [⟨1, 5, 0⟩] 0

private theorem added_call : resume tunables { zeroed with woken := [] } ⟨0, 7, 0, 0⟩ (some [⟨1, 5, 0⟩]) 0 = (.done, added) := by
  change check tunables { zeroed with woken := [] } ⟨0, 7, 0, 0⟩ [⟨1, 5, 0⟩] 0 = _
  unfold check semopLoop
  rw [dif_pos (by decide)]
  unfold semopLoop
  rfl

private theorem verified : verify readable.quiet 0 reader [⟨0, 0, 0⟩] = none := by decide

/-- A user who may only read has waited for zero and has been woken. -/
private def woken : System := (readable.settle 0 (some (firstPass 0 7 0 verified)) (.asleep 0 (.zcnt 0), asked)).after zeroed

private theorem woken_run {allowed : System → Event → Prop} (may : ∀ k event, (∀ pass, event ≠ .again pass) → allowed k event) :
    Run tunables allowed woken := by
  have start : Run tunables allowed readable := .start _ _ _
  have entered : entryPass tunables readable.quiet 0 7 0 1 reader (some [⟨0, 0, 0⟩]) = some (firstPass 0 7 0 verified) := rfl
  have first := start.step (may _ _ (fun pass same => by rw [entered] at same; cases same)) (Step.semop (p := 0) rfl 7 0 1 reader (some [⟨0, 0, 0⟩]) 0)
  rw [asked_call, entered] at first
  exact first.step (may _ _ fun pass same => by cases same) (.semctl 0 (.SETVAL 0 0) root 8)

/-- When he goes on his list adds to a semaphore beyond the set, and that is done. -/
theorem semop_outside_set : ∃ k k' pass, Run tunables (fun _ _ => True) k ∧ Step tunables k (.again pass) k' ∧
    (∃ op ∈ uses tunables pass.caller pass.ops 0 k.quiet,
      ¬ op.semNum < (k.state.sema pass.caller.sp).semNsems ∧ ipcaccess pass.perm (needs op) pass.cred = some .EACCES) ∧
    (k'.state.sem 1).semval ≠ (k.state.sem 1).semval := by
  have third : Step tunables woken (.again _) _ :=
    .resume (show woken.phase 0 = .woken (firstPass 0 7 0 verified) (.zcnt 0) from rfl) (some [⟨1, 5, 0⟩]) 0
  have result : resume tunables woken.quiet (firstPass 0 7 0 verified).caller (some [⟨1, 5, 0⟩]) 0 = (.done, added) := added_call
  rw [result] at third
  refine ⟨_, _, _, woken_run fun _ _ _ => trivial, third, ⟨⟨1, 5, 0⟩, ?_, ?_⟩, ?_⟩
  · unfold uses
    exact List.mem_cons_self
  · constructor
    · have one : (zeroed.sema 0).semNsems = 1 := by decide
      change ¬ 1 < (zeroed.sema 0).semNsems
      rw [one]
      exact lt_irrefl 1
    · change ipcaccess ⟨0, 0, 0, 0, IPC_ALLOC + 0o444, 0⟩ (needs ⟨1, 5, 0⟩) reader = some .EACCES
      decide
  · change (added.sem 1).semval ≠ (zeroed.sem 1).semval
    decide

/-- The theorem when he goes on with a list that he has changed, to one that does not wait. -/
theorem semop_stays_in_set_again : ∃ k' pass, pass.ops = [⟨0, 0, IPC_NOWAIT⟩] ∧ pass.verified = [⟨0, 0, 0⟩] ∧ Step tunables woken (.again pass) k' ∧
    (∀ op ∈ uses tunables pass.caller pass.ops 0 woken.quiet,
      op.semNum < (woken.state.sema pass.caller.sp).semNsems ∧ ∃ v ∈ pass.verified, needs v = needs op) ∧
    Inside woken.state k'.state pass.caller.sp := by
  have step : Step tunables woken (.again _) _ :=
    .resume (show woken.phase 0 = .woken (firstPass 0 7 0 verified) (.zcnt 0) from rfl) (some [⟨0, 0, IPC_NOWAIT⟩]) 0
  have run : Run tunables Alike woken := woken_run fun _ event other => by
    cases event with
    | again pass => exact absurd rfl (other pass)
    | entry pass => trivial
    | other => trivial
  refine ⟨_, _, rfl, rfl, step, semop_stays_in_set tunables woken run (.again _) _ _ ?_ step rfl⟩
  refine ⟨by decide, fun op member => ?_⟩
  obtain rfl := List.mem_singleton.mp member
  exact ⟨⟨⟨0, 0, 0⟩, List.mem_cons_self, le_rfl⟩, ⟨0, 0, 0⟩, List.mem_cons_self, by decide⟩

end Svr4.Proofs.SemBounds
