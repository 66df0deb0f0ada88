import Svr4.Proofs.SemWatch

/-! The processes asleep in `semop`. Whatever changes what they wait for wakes them,
and the list they come back with is not verified again. -/

namespace Svr4.Proofs.SemSleep
open Function Sem SemUndo SemAtomic SemHistory SemWatch

/-- The operation on semaphore `j` has to wait on the channel while the value is `v`. -/
def Waits (v : Int) (op : Sembuf) (j : Nat) : Channel → Prop
  | .ncnt i => i = j ∧ op.semOp.toInt < 0 ∧ v + op.semOp.toInt < 0
  | .zcnt i => i = j ∧ op.semOp.toInt = 0 ∧ v ≠ 0

def net (ops : List Sembuf) (num : Nat) : Int :=
  ((ops.filter (fun op => op.semNum = num)).map (fun op => op.semOp.toInt)).sum

theorem net_append (ops : List Sembuf) (op : Sembuf) (num : Nat) :
    net (ops ++ [op]) num = net ops num + if op.semNum = num then op.semOp.toInt else 0 := by
  by_cases same : op.semNum = num <;> simp [net, List.filter_append, same]

theorem Applied.level {info : Seminfo} {first : Nat} {ops : List Sembuf} {v v' : Nat → Int}
    (applied : Applied info first ops v v') (num : Nat) : v' (first + num) = v (first + num) + net ops num := by
  induction applied with
  | nil v => simp [net]
  | @snoc ops v v' op before permitted ih =>
    rw [net_append]
    by_cases same : op.semNum = num
    · subst same
      rw [update_self, if_pos rfl, ih]
      omega
    · rw [update_of_ne (by omega), if_neg same, ih]
      omega

theorem Applied.permitted {info : Seminfo} {first : Nat} {ops : List Sembuf} {v v' : Nat → Int}
    (applied : Applied info first ops v v') {n : Nat} {op : Sembuf} (at_ : ops[n]? = some op) :
    Permitted info (v (first + op.semNum) + net (ops.take n) op.semNum) op.semOp.toInt := by
  induction applied with
  | nil v => simp at at_
  | @snoc ops v v' last before permitted ih =>
    by_cases inside : n < ops.length
    · rw [List.getElem?_append_left inside] at at_
      rw [List.take_append_of_le_length (by omega)]
      exact ih at_
    · have final : n = ops.length := by
        have := List.getElem?_eq_some_iff.mp at_
        obtain ⟨bound, _⟩ := this
        simp at bound
        omega
      subst final
      simp only [List.getElem?_concat_length, Option.some.injEq] at at_
      subst at_
      rw [List.take_left, ← Applied.level before]
      exact permitted

theorem doOp_block {info : Seminfo} {s t : State} {c : Caller} {op : Sembuf} {channel : Channel}
    (blocked : doOp info s c op = (.block channel, t)) :
    t = s ∧ Waits (level s (base s c + op.semNum)) op (base s c + op.semNum) channel := by
  simp only [doOp] at blocked
  split at blocked
  · split at blocked
    · cases blocked
    · split at blocked <;> cases blocked
  · next notPositive =>
    split at blocked
    · next negative =>
      split at blocked
      · split at blocked <;> cases blocked
      · next short_ =>
        cases blocked
        refine ⟨rfl, rfl, negative, ?_⟩
        simp only [level, values]
        omega
    · next notNegative =>
      split at blocked
      · next nonzero =>
        cases blocked
        refine ⟨rfl, rfl, by omega, ?_⟩
        simp only [level, values]
        intro zero
        exact nonzero (UInt16.toNat_inj.mp (by simpa using zero))
      · cases blocked

inductive Passed (info : Seminfo) (c : Caller) (s : State) (ops : List Sembuf) : Outcome × State → Prop
  | done {t : State} (progress : Progress info c s ops t) (watched : Watched s t) : Passed info c s ops (.done, t)
  | failed {error : Errno} {t : State} (like : Like info c.slot s t) (watched : Watched s t) :
      Passed info c s ops (.error error, t)
  | slept {n : Nat} {op : Sembuf} {w t : State} {channel : Channel} (at_ : ops[n]? = some op)
      (may : op.semFlg &&& IPC_NOWAIT = 0) (progress : Progress info c s (ops.take n) w)
      (waits : Waits (level w (base s c + op.semNum)) op (base s c + op.semNum) channel)
      (like : Like info c.slot s t) (watched : Watched s t) : Passed info c s ops (.asleep n channel, bumpWaiters t channel)

theorem unseen_watched {s w t : State} (watched : Watched s w) (unseen : Unseen w t) (same : values t = values s) :
    Watched s t := by
  refine ⟨by rw [unseen.woken]; exact watched.woken, fun channel => ?_⟩
  rw [unseen.counters, unseen.woken]
  rcases watched.kept channel with woken | ⟨counted, _⟩
  · exact .inl woken
  · exact .inr ⟨counted, fun _ _ => .of_values same channel⟩

theorem same_watched {s t w : State} (watched : Watched s w) (unseen : Unseen w t) (same : values t = values w) : Watched s t :=
  watched.trans (.of_same unseen.woken unseen.counters same)

theorem semopLoop_passed {info : Seminfo} {c : Caller} {s : State} {ops : List Sembuf} (i : Nat) (t : State)
    (progress : Progress info c s (ops.take i) t) (watched : Watched s t) :
    Passed info c s ops (semopLoop info c ops i t) := by
  induction left : ops.length - i generalizing i t with
  | zero =>
    unfold semopLoop
    rw [dif_neg (by omega)]
    rw [List.take_of_length_le (by omega)] at progress
    exact .done progress watched
  | succ n ih =>
    have inside : i < ops.length := by omega
    have seen := doOp_watched info t c ops[i]
    unfold semopLoop
    rw [dif_pos inside]
    rcases doOp_spec progress.valid c ops[i] with ⟨w, went, performed⟩ | ⟨turn, w, stopped, other, like⟩
    · rw [went] at seen
      simp only [went]
      have next_ := progress.step performed
      rw [List.take_append_getElem inside] at next_
      exact ih (i + 1) w next_ (watched.trans seen) (by omega)
    · rw [stopped] at seen
      simp only [stopped]
      have back := progress.rollback like
      have unseen : Unseen w (if i ≠ 0 then semundo info c.slot c.semid (base w c) (ops.take i) w else w) := by
        split
        · exact semundo_unseen ..
        · exact ⟨rfl, fun _ => rfl⟩
      have quiet := unseen_watched (watched.trans seen) unseen back.values
      cases turn with
      | next => exact absurd rfl other
      | fail error => exact .failed back quiet
      | block channel =>
        obtain ⟨rfl, waits⟩ := doOp_block stopped
        rw [progress.base_eq] at waits
        simp only
        split
        · exact .failed back quiet
        · next may =>
          simp only [ne_eq, not_not] at may
          exact .slept (List.getElem?_eq_getElem inside) may progress waits back quiet

def needs (op : Sembuf) : Nat := if op.semOp ≠ 0 then SEM_A else SEM_R

theorem verify_spec (s : State) (sp : Nat) (cred : Cred) (ops : List Sembuf) : verify s sp cred ops = none ↔
    ∀ op ∈ ops, ipcaccess (s.sema sp).semPerm (needs op) cred = none ∧ op.semNum < (s.sema sp).semNsems := by
  induction ops with
  | nil => simp [verify]
  | cons op ops ih =>
    simp only [verify, List.forall_mem_cons, needs]
    split
    · next error refused =>
      rw [refused]
      simp
    · next granted =>
      rw [granted]
      by_cases inside : op.semNum < (s.sema sp).semNsems
      · simp only [ge_iff_le, not_le.mpr inside, if_false, inside, and_self, true_and]
        exact ih
      · simp [not_lt.mp inside, inside]

/-- A pass over a list, with the list that the call verified when it began and the set as it was. -/
structure Pass where
  caller : Caller
  ops : List Sembuf
  perm : IpcPerm
  nsems : Nat
  cred : Cred
  verified : List Sembuf
  granted : ∀ op ∈ verified, ipcaccess perm (needs op) cred = none ∧ op.semNum < nsems

def firstPass {s : State} {sp : Nat} {cred : Cred} {ops : List Sembuf} (slot : Nat) (pid semid : Int)
    (verified : verify s sp cred ops = none) : Pass where
  caller := ⟨slot, pid, semid, sp⟩
  ops := ops
  perm := (s.sema sp).semPerm
  nsems := (s.sema sp).semNsems
  cred := cred
  verified := ops
  granted := (verify_spec s sp cred ops).mp verified

def entryPass (info : Seminfo) (s : State) (slot : Nat) (pid semid : Int) (nsops : Nat) (cred : Cred)
    (copyin : Option (List Sembuf)) : Option Pass :=
  match semconv info s semid with
  | .error _ => none
  | .ok sp =>
    if nsops > info.semopm then none
    else
      match copyin with
      | none => none
      | some ops => if verified : verify s sp cred ops = none then some (firstPass slot pid semid verified) else none

theorem semop_entry (info : Seminfo) (s : State) (slot : Nat) (pid semid : Int) (nsops : Nat) (cred : Cred)
    (copyin : Option (List Sembuf)) (now : Int) :
    (entryPass info s slot pid semid nsops cred copyin = none ∧
      ∃ error, semop info s slot pid semid nsops cred copyin now = (.error error, s)) ∨
    ∃ sp ops, ∃ verified : verify s sp cred ops = none, semconv info s semid = .ok sp ∧ copyin = some ops ∧
      entryPass info s slot pid semid nsops cred copyin = some (firstPass slot pid semid verified) ∧
      semop info s slot pid semid nsops cred copyin now = check info s ⟨slot, pid, semid, sp⟩ ops now := by
  unfold entryPass semop
  cases semconv info s semid with
  | error error => exact .inl ⟨rfl, _, rfl⟩
  | ok sp =>
    simp only
    split
    · exact .inl ⟨rfl, _, rfl⟩
    · cases copyin with
      | none => exact .inl ⟨rfl, _, rfl⟩
      | some ops =>
        simp only
        by_cases verified : verify s sp cred ops = none
        · refine .inr ⟨sp, ops, verified, rfl, rfl, dif_pos verified, ?_⟩
          rw [verified]
        · refine .inl ⟨dif_neg verified, ?_⟩
          obtain ⟨error, refused⟩ := Option.ne_none_iff_exists'.mp verified
          exact ⟨error, by rw [refused]⟩

def againPass (info : Seminfo) (s : State) (pass : Pass) (copyin : Option (List Sembuf)) : Option Pass :=
  match semconv info s pass.caller.semid with
  | .error _ => none
  | .ok _ => copyin.map fun ops => { pass with ops }

theorem resume_again (info : Seminfo) (s : State) (pass : Pass) (copyin : Option (List Sembuf)) (now : Int) :
    (againPass info s pass copyin = none ∧ ∃ error, resume info s pass.caller copyin now = (.error error, s)) ∨
    ∃ ops, copyin = some ops ∧ againPass info s pass copyin = some { pass with ops } ∧
      resume info s pass.caller copyin now = check info s pass.caller ops now := by
  unfold againPass resume
  cases semconv info s pass.caller.semid with
  | error error => exact .inl ⟨rfl, _, rfl⟩
  | ok sp =>
    cases copyin with
    | none => exact .inl ⟨rfl, _, rfl⟩
    | some ops => exact .inr ⟨ops, rfl, rfl, rfl⟩

/-- A process in `semop` sleeps at the `i`-th operation of its pass, while its set began at `first`,
or is off the sleep queue and not yet back. -/
inductive Phase
  | running
  | asleep (pass : Pass) (i first : Nat) (channel : Channel)
  | woken (pass : Pass) (channel : Channel)

structure System where
  state : State
  phase : Nat → Phase

def wakeprocs (woken : List Channel) (phase : Nat → Phase) (p : Nat) : Phase :=
  match phase p with
  | .asleep pass i first channel => if channel ∈ woken then .woken pass channel else .asleep pass i first channel
  | other => other

namespace System

def quiet (k : System) : State := { k.state with woken := [] }

def after (k : System) (t : State) : System := ⟨t, wakeprocs t.woken k.phase⟩

def settle (k : System) (p : Nat) (pass : Option Pass) (result : Outcome × State) : System :=
  ⟨result.2, update (k.after result.2).phase p (match result.1, pass with
    | .asleep i channel, some pass => .asleep pass i (base k.state pass.caller) channel
    | _, _ => .running)⟩

end System

/-- The pass that a step makes: the first of a call, or a later one. -/
inductive Event
  | entry (pass : Pass)
  | again (pass : Pass)
  | other

def Event.pass : Event → Option Pass
  | .entry pass => some pass
  | .again pass => some pass
  | .other => none

/-- Any process enters `semop`, `semctl` or `semexit`; a signal or a return of `sleep` before
its time takes a sleeper off the queue; a process that is off the queue goes on, or finds
a signal. `semget` and IPC_SET write headers. -/
inductive Step (info : Seminfo) (k : System) : Event → System → Prop
  | semop {p : Nat} (idle : k.phase p = .running) (pid semid : Int) (nsops : Nat) (cred : Cred)
      (copyin : Option (List Sembuf)) (now : Int) :
      Step info k ((entryPass info k.quiet p pid semid nsops cred copyin).elim .other .entry)
        (k.settle p (entryPass info k.quiet p pid semid nsops cred copyin)
          (semop info k.quiet p pid semid nsops cred copyin now))
  | roused {p i first : Nat} {pass : Pass} {channel : Channel} (sleeping : k.phase p = .asleep pass i first channel) :
      Step info k .other { k with phase := update k.phase p (.woken pass channel) }
  | resume {p : Nat} {pass : Pass} {channel : Channel} (back : k.phase p = .woken pass channel)
      (copyin : Option (List Sembuf)) (now : Int) :
      Step info k ((againPass info k.quiet pass copyin).elim .other .again)
        (k.settle p (againPass info k.quiet pass copyin) (resume info k.quiet pass.caller copyin now))
  | interrupted {p : Nat} {pass : Pass} {channel : Channel} (back : k.phase p = .woken pass channel) :
      Step info k .other (k.settle p none (interrupted k.quiet channel))
  | semctl (semid : Int) (cmd : Cmd) (cred : Cred) (pid : Int) :
      Step info k .other (k.after (semctl info k.quiet semid cmd cred pid).2)
  | semexit {p : Nat} (idle : k.phase p = .running) : Step info k .other (k.after (semexit info k.quiet p))
  | headers (sema : Nat → SemidDs) : Step info k .other { k with state := { k.state with sema } }

inductive Run (info : Seminfo) (allowed : System → Event → Prop) : System → Prop
  | start (sema : Nat → SemidDs) (sem : Nat → Semaphore) (semmnu : Nat) :
      Run info allowed ⟨seminit sema sem semmnu, fun _ => .running⟩
  | step {k k' : System} {event : Event} (before : Run info allowed k) (may : allowed k event)
      (step : Step info k event k') : Run info allowed k'

/-- The pass does not sleep at an operation whose semaphore the earlier operations of the
list have lowered, or, in a wait for zero, changed; nor on a full counter. -/
def Clear (info : Seminfo) (s : State) (pass : Pass) : Prop :=
  ∀ n op v channel, pass.ops[n]? = some op → op.semFlg &&& IPC_NOWAIT = 0 →
    Applied info (base s pass.caller) (pass.ops.take n) (level s) v →
    Waits (v (base s pass.caller + op.semNum)) op (base s pass.caller + op.semNum) channel →
    (op.semOp.toInt < 0 → 0 ≤ net (pass.ops.take n) op.semNum) ∧ (op.semOp.toInt = 0 → net (pass.ops.take n) op.semNum = 0) ∧
      counter s channel ≠ 65535

def Clears (info : Seminfo) (k : System) (event : Event) : Prop := ∀ pass, event.pass = some pass → Clear info k.state pass

/-- What a sleeper waits for is not there: the operation that it sleeps at cannot be done at the value
of its semaphore, nor can a pass over its list, and it is counted. -/
def Denied (info : Seminfo) (s : State) (pass : Pass) (i first : Nat) (channel : Channel) : Prop :=
  ∃ op, pass.ops[i]? = some op ∧ Waits (level s (first + op.semNum)) op (first + op.semNum) channel ∧ counter s channel ≠ 0 ∧
    (base s pass.caller = first → (semopLoop info pass.caller pass.ops 0 s).1 ≠ .done)

def Spares (s t : State) : Prop :=
  ∀ channel, channel ∉ t.woken → counter s channel ≠ 0 → counter t channel ≠ 0 ∧ Away s t channel

theorem watched_spares {s t : State} (watched : Watched s t) : Spares s t := by
  intro channel asleep counted
  rcases watched.kept channel with ⟨woken, _⟩ | ⟨same, away⟩
  · exact absurd woken asleep
  · exact ⟨by rwa [same], away not_false counted⟩

theorem bumpWaiters_counter (s : State) (channel other : Channel) : counter (bumpWaiters s channel) other =
    if other = channel then counter s channel + 1 else counter s other := by
  cases channel with
  | ncnt j => cases other with
    | ncnt i => by_cases here : i = j <;> simp [bumpWaiters, counter, setSem, here]
    | zcnt i => by_cases here : i = j <;> simp [bumpWaiters, counter, setSem, here]
  | zcnt j => cases other with
    | ncnt i => by_cases here : i = j <;> simp [bumpWaiters, counter, setSem, here]
    | zcnt i => by_cases here : i = j <;> simp [bumpWaiters, counter, setSem, here]

theorem bumpWaiters_values (s : State) (channel : Channel) : values (bumpWaiters s channel) = values s := by
  cases channel <;>
  · unfold bumpWaiters
    rw [values_setSem]
    exact update_eq_self _ (values s)

theorem bumpWaiters_woken (s : State) (channel : Channel) : (bumpWaiters s channel).woken = s.woken := by
  cases channel <;> rfl

private theorem succ_ne_zero {n : UInt16} (room : n ≠ 65535) : n + 1 ≠ 0 := by
  intro zero
  apply room
  have back : n = -1 := eq_neg_of_add_eq_zero_left zero
  exact back.trans (by decide)

theorem bumpWaiters_spares {s t : State} (watched : Watched s t) (channel : Channel) (room : counter s channel ≠ 65535) :
    counter (bumpWaiters t channel) channel ≠ 0 ∧ Spares s (bumpWaiters t channel) := by
  have one : counter (bumpWaiters t channel) channel ≠ 0 := by
    rw [bumpWaiters_counter, if_pos rfl]
    apply succ_ne_zero
    rcases watched.kept channel with ⟨_, zero⟩ | ⟨same, _⟩
    · rw [zero]
      decide
    · rwa [same]
  refine ⟨one, fun other asleep counted => ?_⟩
  rw [bumpWaiters_woken] at asleep
  obtain ⟨left, away⟩ := watched_spares watched other asleep counted
  refine ⟨?_, away.trans (.of_values (bumpWaiters_values t channel) other)⟩
  by_cases here : other = channel
  · rwa [here]
  · rwa [bumpWaiters_counter, if_neg here]

private theorem pred_ne_zero {n : UInt16} (more : ¬ n.toNat ≤ 1) : n - 1 ≠ 0 := by
  intro zero
  have back : n = 1 := sub_eq_zero.mp zero
  rw [back] at more
  exact more (by decide)

theorem interrupted_spares (s : State) (channel : Channel) : Spares s (interrupted s channel).2 := by
  intro other asleep counted
  cases channel with
  | ncnt j =>
    simp only [interrupted] at asleep ⊢
    split at asleep
    · next few =>
      simp only [few, if_true]
      cases other with
      | ncnt i =>
        have apart : i ≠ j := fun same => asleep (by simp [same])
        simpa [counter, setSem, Away, level, values, apart] using counted
      | zcnt i => by_cases here : i = j <;> simpa [counter, setSem, Away, level, values, here] using counted
    · next more =>
      simp only [more, if_false]
      cases other with
      | ncnt i =>
        by_cases here : i = j
        · simpa [counter, setSem, Away, level, values, here] using pred_ne_zero more
        · simpa [counter, setSem, Away, level, values, here] using counted
      | zcnt i => by_cases here : i = j <;> simpa [counter, setSem, Away, level, values, here] using counted
  | zcnt j =>
    simp only [interrupted] at asleep ⊢
    split at asleep
    · next few =>
      simp only [few, if_true]
      cases other with
      | zcnt i =>
        have apart : i ≠ j := fun same => asleep (by simp [same])
        simpa [counter, setSem, Away, level, values, apart] using counted
      | ncnt i => by_cases here : i = j <;> simpa [counter, setSem, Away, level, values, here] using counted
    · next more =>
      simp only [more, if_false]
      cases other with
      | zcnt i =>
        by_cases here : i = j
        · simpa [counter, setSem, Away, level, values, here] using pred_ne_zero more
        · simpa [counter, setSem, Away, level, values, here] using counted
      | ncnt i => by_cases here : i = j <;> simpa [counter, setSem, Away, level, values, here] using counted

structure Held (s : State) (pass : Pass) (n first : Nat) (channel : Channel) (op : Sembuf) : Prop where
  place : pass.ops[n]? = some op
  waits : Waits (level s (first + op.semNum) + net (pass.ops.take n) op.semNum) op (first + op.semNum) channel
  lowered : op.semOp.toInt < 0 → 0 ≤ net (pass.ops.take n) op.semNum
  changed : op.semOp.toInt = 0 → net (pass.ops.take n) op.semNum = 0
  counted : counter s channel ≠ 0

namespace Held
variable {info : Seminfo} {s t : State} {pass : Pass} {channel : Channel} {n first : Nat} {op : Sembuf}

theorem spared (held : Held s pass n first channel op) (spares : Spares s t) (asleep : channel ∉ t.woken) :
    Held t pass n first channel op := by
  obtain ⟨left, away⟩ := spares channel asleep held.counted
  refine ⟨held.place, ?_, held.lowered, held.changed, left⟩
  have waits := held.waits
  cases channel with
  | ncnt i =>
    obtain ⟨rfl, negative, short_⟩ := waits
    refine ⟨rfl, negative, ?_⟩
    have lower : level t (first + op.semNum) ≤ level s (first + op.semNum) := away
    omega
  | zcnt i =>
    obtain ⟨rfl, zero, nonzero⟩ := waits
    refine ⟨rfl, zero, ?_⟩
    rw [held.changed zero, add_zero] at nonzero ⊢
    exact away nonzero

theorem denied (held : Held s pass n first channel op) (valid : Valid info s) : Denied info s pass n first channel := by
  refine ⟨op, held.place, ?_, held.counted, fun here finished => ?_⟩
  · have waits := held.waits
    cases channel with
    | ncnt i =>
      obtain ⟨same, negative, short_⟩ := waits
      have low := held.lowered negative
      exact ⟨same, negative, by omega⟩
    | zcnt i =>
      obtain ⟨same, zero, nonzero⟩ := waits
      rw [held.changed zero, add_zero] at nonzero
      exact ⟨same, zero, nonzero⟩
  · rcases semopLoop_spec 0 s (.start valid : Progress info pass.caller s (pass.ops.take 0) s) with ⟨t, done, progress⟩ |
      ⟨outcome, t, stopped, other, _⟩
    · obtain ⟨_, down, zero⟩ := Applied.permitted progress.applied held.place
      rw [here] at down zero
      have waits := held.waits
      cases channel with
      | ncnt i =>
        obtain ⟨rfl, negative, short_⟩ := waits
        have := down negative
        omega
      | zcnt i =>
        obtain ⟨rfl, none_, nonzero⟩ := waits
        exact nonzero (zero none_)
    · rw [stopped] at finished
      exact other finished

end Held

theorem stamp_unseen (s : State) (c : Caller) (ops : List Sembuf) (now : Int) : Unseen s (stamp s c ops now) := by
  have loop : ∀ (ops : List Sembuf) (t : State) (j : Nat),
      Unseen t (ops.foldl (fun s op => setSem s (j + op.semNum) { s.sem (j + op.semNum) with sempid := c.pid }) t) := by
    intro ops
    induction ops with
    | nil => exact fun t j => ⟨rfl, fun _ => rfl⟩
    | cons op ops ih =>
      intro t j
      have rest := ih (setSem t (j + op.semNum) { t.sem (j + op.semNum) with sempid := c.pid }) j
      refine ⟨rest.woken, fun channel => ?_⟩
      apply (rest.counters channel).trans
      cases channel with
      | ncnt i => by_cases here : i = j + op.semNum <;> simp [counter, setSem, here]
      | zcnt i => by_cases here : i = j + op.semNum <;> simp [counter, setSem, here]
  have each := loop ops s (base s c)
  exact ⟨each.woken, each.counters⟩

theorem check_sleeps {info : Seminfo} {s : State} (valid : Valid info s) (pass : Pass) (clear : Clear info s pass) (now : Int) :
    Spares s (check info s pass.caller pass.ops now).2 ∧ ∀ n channel, (check info s pass.caller pass.ops now).1 = .asleep n channel →
      ∃ op, Held (check info s pass.caller pass.ops now).2 pass n (base s pass.caller) channel op := by
  have passed : Passed info pass.caller s pass.ops (semopLoop info pass.caller pass.ops 0 s) :=
    semopLoop_passed 0 s (.start valid) (.refl s)
  unfold check
  generalize semopLoop info pass.caller pass.ops 0 s = result at passed
  cases passed with
  | done progress watched =>
    refine ⟨watched_spares ?_, by simp⟩
    exact same_watched watched (stamp_unseen _ _ _ _) (stamp_same _ _ _ _).2
  | failed like watched => exact ⟨watched_spares watched, by simp⟩
  | @slept n op w t channel place may progress waits like watched =>
    obtain ⟨lowered, changed, room⟩ := clear n op (level w) channel place may progress.applied waits
    obtain ⟨counted, spares⟩ := bumpWaiters_spares watched channel room
    refine ⟨spares, fun m other same => ?_⟩
    cases same
    refine ⟨op, place, ?_, lowered, changed, counted⟩
    have same : level (bumpWaiters t channel) = level s := by
      funext j
      simp only [level, bumpWaiters_values, like.values]
    rw [same, ← Applied.level progress.applied]
    exact waits

structure Kept (info : Seminfo) (k : System) : Prop where
  valid : Valid info k.state
  held : ∀ p pass n first channel, k.phase p = .asleep pass n first channel → ∃ op, Held k.state pass n first channel op

namespace Kept
variable {info : Seminfo} {k : System} {t : State}

theorem quiet_valid (kept : Kept info k) : Valid info k.quiet :=
  ⟨kept.valid.tables, kept.valid.own, kept.valid.free, kept.valid.freeOnce, kept.valid.active, kept.valid.activeOnce⟩

theorem others (kept : Kept info k) (spares : Spares k.quiet t) {p n first : Nat} {pass : Pass} {channel : Channel}
    (asleep : (k.after t).phase p = .asleep pass n first channel) : ∃ op, Held t pass n first channel op := by
  simp only [System.after, wakeprocs] at asleep
  split at asleep
  · next old was =>
    split at asleep
    · cases asleep
    · next still =>
      cases asleep
      obtain ⟨op, held⟩ := kept.held p _ _ _ _ was
      refine ⟨op, Held.spared ?_ spares still⟩
      exact ⟨held.place, held.waits, held.lowered, held.changed, held.counted⟩
  · next awake =>
    exact absurd asleep (awake _ _ _ _)

theorem after (kept : Kept info k) (valid : Valid info t) (spares : Spares k.quiet t) : Kept info (k.after t) :=
  ⟨valid, fun _ _ _ _ _ asleep => kept.others spares asleep⟩

theorem settle (kept : Kept info k) (p : Nat) {pass : Option Pass} {result : Outcome × State} (valid : Valid info result.2)
    (spares : Spares k.quiet result.2)
    (sleeps : ∀ pass' n channel, pass = some pass' → result.1 = .asleep n channel →
      ∃ op, Held result.2 pass' n (base k.state pass'.caller) channel op) :
    Kept info (k.settle p pass result) := by
  refine ⟨valid, fun q pass' n first channel asleep => ?_⟩
  by_cases here : q = p
  · subst here
    simp only [System.settle, update_self] at asleep
    split at asleep
    · next outcome =>
      cases asleep
      exact sleeps _ _ _ rfl outcome
    · cases asleep
  · simp only [System.settle, update_of_ne here] at asleep
    exact kept.others spares asleep

end Kept

theorem semctl_valid {info : Seminfo} {s : State} (valid : Valid info s) (semid : Int) (cmd : Cmd) (cred : Cred) (pid : Int) :
    Valid info (semctl info s semid cmd cred pid).2 := by
  have store : ∀ t val j, Valid info t → Valid info (setSemval pid t j val) := by
    intro t val j before
    simp only [setSemval]
    split
    · exact ((setSem_same t j _).trans (wake_same _ _).1.1).valid before
    · exact ((setSem_same t j _).trans (wake_same _ _).2.1).valid before
  have remove : ∀ t j, Valid info t → Valid info (removeSem t j) := by
    intro t j before
    exact (((setSem_same t j _).trans (wake_same _ _).1.1).trans (wake_same _ _).2.1).valid before
  have fold : ∀ (place : State → Nat → State), (∀ t i, Valid info t → Valid info (place t i)) →
      ∀ (l : List Nat) t, Valid info t → Valid info (l.foldl place t) := by
    intro place each l
    induction l with
    | nil => exact fun t before => before
    | cons i l ih => exact fun t before => ih _ (each t i before)
  unfold semctl
  split
  · exact valid
  · next sp _ =>
    cases cmd with
    | IPC_RMID =>
      simp only
      split
      · exact valid
      · have removed := fold (fun t i => removeSem t ((s.sema sp).semBase + i)) (fun t i => remove t _)
          (List.range (s.sema sp).semNsems) _ (semunrm_valid valid semid 0 (s.sema sp).semNsems)
        exact ⟨removed.tables, removed.own, removed.free, removed.freeOnce, removed.active, removed.activeOnce⟩
    | SETVAL semnum arg =>
      simp only
      split
      · exact valid
      · split
        · exact valid
        · split
          · exact valid
          · exact semunrm_valid (store s _ _ valid) _ _ _
    | SETALL copyin =>
      simp only
      split
      · exact valid
      · cases copyin with
        | none => exact valid
        | some semvals =>
          simp only
          split
          · exact valid
          · exact fold _ (fun t i => store t _ _) _ _ (semunrm_valid valid _ _ _)

theorem step_kept {info : Seminfo} {k k' : System} {event : Event} (kept : Kept info k) (clears : Clears info k event)
    (step : Step info k event k') : Kept info k' := by
  have calm : ∀ s : State, Spares s s := fun s => watched_spares (.refl s)
  cases step with
  | @semop p idle pid semid nsops cred copyin now =>
    obtain ⟨sp, ops, spec, _⟩ := semop_spec kept.quiet_valid p pid semid nsops cred copyin now
    rcases semop_entry info k.quiet p pid semid nsops cred copyin now with
      ⟨none_, error, failed⟩ | ⟨sp', ops', verified, _, _, some_, called⟩
    · apply kept.settle p spec.valid
      · rw [failed]
        exact calm _
      · simp [none_]
    · have clear : Clear info k.quiet (firstPass p pid semid verified) := clears _ (by simp [some_, Event.pass])
      obtain ⟨spares, sleeps⟩ := check_sleeps kept.quiet_valid _ clear now
      apply kept.settle p spec.valid
      · rw [called]
        exact spares
      · intro pass' n channel same outcome
        rw [some_] at same
        cases same
        rw [called] at outcome ⊢
        exact sleeps n channel outcome
  | @roused p pass channel sleeping =>
    refine ⟨kept.valid, fun q pass' n first channel' asleep => ?_⟩
    by_cases here : q = p
    · simp [here] at asleep
    · simp only [update_of_ne here] at asleep
      exact kept.held q pass' n first channel' asleep
  | @resume p pass channel back copyin now =>
    obtain ⟨ops, spec, _⟩ := resume_spec kept.quiet_valid pass.caller copyin now
    rcases resume_again info k.quiet pass copyin now with ⟨none_, error, failed⟩ | ⟨ops', _, some_, called⟩
    · apply kept.settle p spec.valid
      · rw [failed]
        exact calm _
      · simp [none_]
    · have clear : Clear info k.quiet { pass with ops := ops' } := clears _ (by simp [some_, Event.pass])
      obtain ⟨spares, sleeps⟩ := check_sleeps kept.quiet_valid _ clear now
      apply kept.settle p spec.valid
      · rw [called]
        exact spares
      · intro pass' n channel same outcome
        rw [some_] at same
        cases same
        rw [called] at outcome ⊢
        exact sleeps n channel outcome
  | @interrupted p pass channel back =>
    obtain ⟨t, result, like⟩ := interrupted_spec kept.quiet_valid p channel
    apply kept.settle p
    · rw [result]
      exact like.valid
    · exact interrupted_spares k.quiet channel
    · simp
  | semctl semid cmd cred pid =>
    exact kept.after (semctl_valid kept.quiet_valid _ _ _ _) (watched_spares (semctl_watched ..))
  | @semexit p idle => exact kept.after (semexit_valid kept.quiet_valid p) (watched_spares (semexit_watched ..))
  | headers sema =>
    refine ⟨?_, fun q pass n first channel asleep => ?_⟩
    · exact ⟨kept.valid.tables, kept.valid.own, kept.valid.free, kept.valid.freeOnce, kept.valid.active, kept.valid.activeOnce⟩
    · obtain ⟨op, held⟩ := kept.held q pass n first channel asleep
      exact ⟨op, held.place, held.waits, held.lowered, held.changed, held.counted⟩

theorem Run.kept {info : Seminfo} {k : System} (run : Run info (Clears info) k) : Kept info k := by
  induction run with
  | start sema sem semmnu => exact ⟨seminit_valid info sema sem semmnu, by simp⟩
  | step _ may step ih => exact step_kept ih may step

/-- While no pass sleeps behind its own changes, a process asleep cannot do what it
waits for, so whatever lets it has woken it. -/
theorem sleepers_cannot_proceed (info : Seminfo) (k : System) (run : Run info (Clears info) k) :
    ∀ p pass i first channel, k.phase p = .asleep pass i first channel → Denied info k.state pass i first channel := by
  intro p pass i first channel asleep
  obtain ⟨op, held⟩ := run.kept.held p pass i first channel asleep
  exact held.denied run.kept.valid

def tunables : Seminfo := ⟨10, 10, 10, 32767, 16384, by decide, by decide⟩

def root : Cred := ⟨0, []⟩

def oneSemaphore (semval : UInt16) : System :=
  ⟨seminit (fun _ => ⟨⟨0, 0, 0, 0, IPC_ALLOC, 0⟩, 0, 1, 0⟩) (fun _ => ⟨semval, 0, 0, 0⟩) 1, fun _ => .running⟩

def call (k : System) (p : Nat) (ops : List Sembuf) : System :=
  k.settle p (entryPass tunables k.quiet p 7 0 1 root (some ops)) (semop tunables k.quiet p 7 0 1 root (some ops) 0)

theorem call_run {allowed : System → Event → Prop} {k : System} (run : Run tunables allowed k) (p : Nat)
    (idle : k.phase p = .running) (ops : List Sembuf)
    (may : allowed k ((entryPass tunables k.quiet p 7 0 1 root (some ops)).elim .other .entry)) :
    Run tunables allowed (call k p ops) :=
  run.step may (.semop idle 7 0 1 root (some ops) 0)

theorem call_asleep {k : System} {p i : Nat} {ops : List Sembuf} {channel : Channel} {t : State}
    (slept : semop tunables k.quiet p 7 0 1 root (some ops) 0 = (.asleep i channel, t)) :
    ∃ pass, pass.caller = ⟨p, 7, 0, 0⟩ ∧ pass.ops = ops ∧ (call k p ops).phase p = .asleep pass i (base k.state pass.caller) channel := by
  rcases semop_entry tunables k.quiet p 7 0 1 root (some ops) 0 with ⟨_, error, failed⟩ | ⟨sp, ops', verified, set_, same, entered, _⟩
  · rw [slept] at failed
    cases failed
  · cases same
    refine ⟨firstPass p 7 0 verified, ?_, rfl, ?_⟩
    · unfold semconv at set_
      simp only [lt_irrefl, if_false] at set_
      split at set_
      · cases set_
      · cases set_
        rfl
    · rw [call, slept, entered]
      simp only [System.settle, update_self]

private def takeThenZero : List Sembuf := [⟨0, -1, 0⟩, ⟨0, 0, 0⟩]

private def waiting : State :=
  bumpWaiters (semundo tunables 0 0 0 [⟨0, -1, 0⟩] (wakeZcnt (setSem (oneSemaphore 2).quiet 0 ⟨1, 0, 0, 0⟩) 0)) (.zcnt 0)

private theorem waiting_call : semop tunables (oneSemaphore 2).quiet 0 7 0 1 root (some takeThenZero) 0 = (.asleep 1 (.zcnt 0), waiting) := by
  change check tunables (oneSemaphore 2).quiet ⟨0, 7, 0, 0⟩ takeThenZero 0 = _
  unfold check semopLoop
  rw [dif_pos (by decide)]
  unfold semopLoop
  rfl

private theorem taken_call (k : System) (same : k.state = waiting) : ∃ t, semop tunables k.quiet 1 7 0 1 root (some [⟨0, -1, 0⟩]) 0 = (.done, t) ∧
    (semopLoop tunables ⟨0, 7, 0, 0⟩ takeThenZero 0 t).1 = .done ∧ t.woken = [] ∧ t.sema 0 = ⟨⟨0, 0, 0, 0, IPC_ALLOC, 0⟩, 0, 1, 0⟩ := by
  refine ⟨stamp (wakeZcnt (setSem k.quiet 0 ⟨1, 0, 0, 1⟩) 0) ⟨1, 7, 0, 0⟩ [⟨0, -1, 0⟩] 0, ?_, ?_, ?_⟩
  · unfold System.quiet
    rw [same]
    change check tunables { waiting with woken := [] } ⟨1, 7, 0, 0⟩ [⟨0, -1, 0⟩] 0 = _
    unfold check semopLoop
    rw [dif_pos (by decide)]
    unfold semopLoop
    rfl
  · unfold System.quiet
    rw [same]
    unfold semopLoop
    rw [dif_pos (by decide)]
    unfold semopLoop
    unfold semopLoop
    rfl
  · unfold System.quiet
    rw [same]
    exact ⟨rfl, rfl⟩

private def takeTwo : List Sembuf := [⟨0, -1, 0⟩, ⟨0, -1, 0⟩]

private def short_ : State :=
  bumpWaiters (semundo tunables 0 0 0 [⟨0, -1, 0⟩] (wakeZcnt (setSem (oneSemaphore 1).quiet 0 ⟨0, 0, 0, 0⟩) 0)) (.ncnt 0)

private theorem short_call : semop tunables (oneSemaphore 1).quiet 0 7 0 1 root (some takeTwo) 0 = (.asleep 1 (.ncnt 0), short_) := by
  change check tunables (oneSemaphore 1).quiet ⟨0, 7, 0, 0⟩ takeTwo 0 = _
  unfold check semopLoop
  rw [dif_pos (by decide)]
  unfold semopLoop
  rfl

/-- A process asleep for zero behind its own decrement: another process takes one, the list
could now be done from end to end, and nobody wakes the sleeper. And a process asleep
behind its own decrement although the value is what its operation asks for. -/
theorem semop_sleeper_stranded :
    (∃ k, Run tunables (fun _ _ => True) k ∧ ∃ pass, k.phase 0 = .asleep pass 1 0 (.zcnt 0) ∧
      (semopLoop tunables pass.caller pass.ops 0 k.state).1 = .done ∧ ¬ Denied tunables k.state pass 1 0 (.zcnt 0)) ∧
    ∃ k, Run tunables (fun _ _ => True) k ∧ ∃ pass, k.phase 0 = .asleep pass 1 0 (.ncnt 0) ∧
      level k.state 0 = 1 ∧ (∀ op ∈ pass.ops, op = ⟨0, -1, 0⟩) ∧ ¬ Denied tunables k.state pass 1 0 (.ncnt 0) := by
  constructor
  · have start : Run tunables (fun _ _ => True) (oneSemaphore 2) := .start _ _ _
    have first := call_run start 0 rfl takeThenZero trivial
    have shape : (call (oneSemaphore 2) 0 takeThenZero).state = waiting := congrArg Prod.snd waiting_call
    obtain ⟨pass, caller, ops, asleep⟩ : ∃ pass, _ ∧ _ ∧ (call (oneSemaphore 2) 0 takeThenZero).phase 0 = .asleep pass 1 0 (.zcnt 0) :=
      call_asleep waiting_call
    have awake : (call (oneSemaphore 2) 0 takeThenZero).phase 1 = .running := by
      simp only [call, System.settle, waiting_call, update_of_ne one_ne_zero]
      rfl
    obtain ⟨t, taken, could, quiet, same⟩ := taken_call _ shape
    have still : (call (call (oneSemaphore 2) 0 takeThenZero) 1 [⟨0, -1, 0⟩]).phase 0 = .asleep pass 1 0 (.zcnt 0) := by
      rw [call, taken]
      simp only [System.settle, update_of_ne zero_ne_one, System.after, wakeprocs, asleep, quiet, List.not_mem_nil, if_false]
    have final : (call (call (oneSemaphore 2) 0 takeThenZero) 1 [⟨0, -1, 0⟩]).state = t := by
      rw [call, taken]
      rfl
    refine ⟨_, call_run first 1 awake [⟨0, -1, 0⟩] trivial, pass, still, ?_, ?_⟩
    · rw [final, caller, ops]
      exact could
    · rw [final]
      rintro ⟨op, _, _, _, refused⟩
      rw [caller, ops] at refused
      exact refused (by simp [base, same]) could
  · have start : Run tunables (fun _ _ => True) (oneSemaphore 1) := .start _ _ _
    have first := call_run start 0 rfl takeTwo trivial
    have shape : (call (oneSemaphore 1) 0 takeTwo).state = short_ := congrArg Prod.snd short_call
    obtain ⟨pass, _, ops, asleep⟩ := call_asleep short_call
    have one : level (call (oneSemaphore 1) 0 takeTwo).state 0 = 1 := by
      rw [shape]
      rfl
    have same : ∀ op ∈ pass.ops, op = ⟨0, -1, 0⟩ := by
      rw [ops]
      decide
    refine ⟨_, first, pass, asleep, one, same, ?_⟩
    rintro ⟨op, place, ⟨_, _, low⟩, _⟩
    rw [same op (List.mem_of_getElem? place)] at low
    exact absurd (one ▸ low : (1 : Int) + (-1 : Int16).toInt < 0) (by decide)

theorem none_call : (semop tunables (oneSemaphore 0).quiet 0 7 0 1 root (some [⟨0, -1, 0⟩]) 0).1 = .asleep 0 (.ncnt 0) := by
  change (check tunables (oneSemaphore 0).quiet ⟨0, 7, 0, 0⟩ [⟨0, -1, 0⟩] 0).1 = _
  unfold check semopLoop
  rw [dif_pos (by decide)]
  rfl

/-- The theorem in a run where a process takes from a semaphore that has nothing. -/
theorem sleepers_cannot_proceed_one : ∃ (k : System) (pass : Pass), k.phase 0 = .asleep pass 0 0 (.ncnt 0) ∧
    Denied tunables k.state pass 0 0 (.ncnt 0) := by
  have start : Run tunables (Clears tunables) (oneSemaphore 0) := .start _ _ _
  obtain ⟨pass, _, _, asleep⟩ := call_asleep (k := oneSemaphore 0) (Prod.ext none_call rfl)
  refine ⟨_, pass, asleep, sleepers_cannot_proceed tunables _ (call_run start 0 rfl _ ?_) 0 pass 0 0 _ asleep⟩
  intro pass' made n op v channel place may applied waits
  have listed : pass'.ops = [⟨0, -1, 0⟩] := by
    rcases semop_entry tunables (oneSemaphore 0).quiet 0 7 0 1 root (some [⟨0, -1, 0⟩]) 0 with
      ⟨_, error, failed⟩ | ⟨sp, ops', verified, _, same, entered, _⟩
    · have outcome := none_call
      rw [failed] at outcome
      cases outcome
    · cases same
      rw [entered] at made
      cases made
      rfl
  rw [listed] at place ⊢
  obtain ⟨rfl, rfl⟩ : n = 0 ∧ op = ⟨0, -1, 0⟩ := by
    cases n with
    | zero => exact ⟨rfl, (Option.some.inj place).symm⟩
    | succ n => simp at place
  refine ⟨fun _ => le_refl 0, fun _ => rfl, ?_⟩
  cases channel with
  | ncnt j => simp [counter, oneSemaphore, seminit]
  | zcnt j => simp [counter, oneSemaphore, seminit]

end Svr4.Proofs.SemSleep
