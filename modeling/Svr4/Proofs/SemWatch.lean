import Svr4.Proofs.SemHistory

/-! What a call does to the sleepers on the semaphores: their counters stay and the
values move away from what they wait for, or they are woken. -/

namespace Svr4.Proofs.SemWatch
open Function Sem SemUndo SemAtomic SemHistory

def counter (s : State) : Channel → UInt16
  | .ncnt j => (s.sem j).semncnt
  | .zcnt j => (s.sem j).semzcnt

def Away (s t : State) : Channel → Prop
  | .ncnt j => level t j ≤ level s j
  | .zcnt j => level s j ≠ 0 → level t j ≠ 0

theorem Away.trans {s t w : State} {channel : Channel} (first : Away s t channel) (second : Away t w channel) :
    Away s w channel := by
  cases channel with
  | ncnt j => exact le_trans second first
  | zcnt j => exact fun nonzero => second (first nonzero)

theorem Away.of_values {s t : State} (same : values t = values s) (channel : Channel) : Away s t channel := by
  cases channel with
  | ncnt j => simp [Away, level, same]
  | zcnt j => simp [Away, level, same]

/-- Each channel is woken and its counter zero, or its counter is as it was and, when it
counts somebody, the value is no nearer. The channels that are due still have to be woken. -/
structure Watch (due : Channel → Prop) (s t : State) : Prop where
  woken : s.woken ⊆ t.woken
  kept : ∀ channel, (channel ∈ t.woken ∧ counter t channel = 0) ∨
    counter t channel = counter s channel ∧ (¬ due channel → counter s channel ≠ 0 → Away s t channel)

abbrev Watched : State → State → Prop := Watch fun _ => False

namespace Watch
variable {due : Channel → Prop} {s t w : State}

theorem trans (first : Watched s t) (second : Watched t w) : Watched s w := by
  refine ⟨fun _ member => second.woken (first.woken member), fun channel => ?_⟩
  rcases second.kept channel with woken | ⟨same₂, away₂⟩
  · exact .inl woken
  · rcases first.kept channel with ⟨member, zero⟩ | ⟨same₁, away₁⟩
    · exact .inl ⟨second.woken member, same₂.trans zero⟩
    · refine .inr ⟨same₂.trans same₁, fun idle counted => (away₁ idle counted).trans (away₂ idle ?_)⟩
      rwa [same₁]

theorem mono {due' : Channel → Prop} (watch : Watch due s t) (fewer : ∀ channel, due channel → due' channel) :
    Watch due' s t := by
  refine ⟨watch.woken, fun channel => ?_⟩
  rcases watch.kept channel with woken | ⟨same, away⟩
  · exact .inl woken
  · exact .inr ⟨same, fun idle => away fun still => idle (fewer channel still)⟩

theorem of_same (woken : t.woken = s.woken) (counters : ∀ channel, counter t channel = counter s channel)
    (same : values t = values s) : Watched s t := by
  refine ⟨?_, fun channel => .inr ⟨counters channel, fun _ _ => .of_values same channel⟩⟩
  rw [woken]
  exact fun _ member => member

theorem refl (s : State) : Watched s s := of_same rfl (fun _ => rfl) rfl

theorem store {j : Nat} {semp : Semaphore} (ncnt : semp.semncnt = (s.sem j).semncnt) (zcnt : semp.semzcnt = (s.sem j).semzcnt) :
    Watch (fun channel => (channel = .ncnt j ∧ (s.sem j).semval.toNat < semp.semval.toNat) ∨
      (channel = .zcnt j ∧ semp.semval = 0)) s (setSem s j semp) := by
  refine ⟨fun _ member => member, fun channel => .inr ?_⟩
  cases channel with
  | ncnt i =>
    by_cases here : i = j
    · subst here
      simp only [counter, Away, level, values, setSem, update_self]
      refine ⟨ncnt, fun idle _ => ?_⟩
      have low : ¬ (s.sem i).semval.toNat < semp.semval.toNat := fun high => idle (.inl ⟨trivial, high⟩)
      omega
    · simp [counter, Away, level, values, setSem, here]
  | zcnt i =>
    by_cases here : i = j
    · subst here
      simp only [counter, Away, level, values, setSem, update_self]
      refine ⟨zcnt, fun idle _ _ zero => idle (.inr ⟨trivial, UInt16.toNat_inj.mp ?_⟩)⟩
      simpa using zero
    · simp [counter, Away, level, values, setSem, here]

theorem wake (watch : Watch due s t) (channel : Channel) (woken : t.woken ⊆ w.woken) (same : values w = values t)
    (zero : counter w channel = 0) (member : counter t channel ≠ 0 → channel ∈ w.woken)
    (others : ∀ other, other ≠ channel → counter w other = counter t other) :
    Watch (fun other => due other ∧ other ≠ channel) s w := by
  refine ⟨fun _ old => woken (watch.woken old), fun other => ?_⟩
  by_cases here : other = channel
  · subst here
    by_cases counted : counter t other = 0
    · rcases watch.kept other with ⟨old, _⟩ | ⟨before, _⟩
      · exact .inl ⟨woken old, zero⟩
      · have idle : counter s other = 0 := before.symm.trans counted
        exact .inr ⟨zero.trans idle.symm, fun _ wrong => absurd idle wrong⟩
    · exact .inl ⟨member counted, zero⟩
  · rw [others other here]
    rcases watch.kept other with ⟨old, none_⟩ | ⟨before, away⟩
    · exact .inl ⟨woken old, none_⟩
    · exact .inr ⟨before, fun idle counted => (away (fun still => idle ⟨still, here⟩) counted).trans (.of_values same other)⟩

theorem wakeNcnt (watch : Watch due s t) (j : Nat) :
    Watch (fun channel => due channel ∧ channel ≠ .ncnt j) s (wakeNcnt t j) := by
  refine watch.wake (.ncnt j) ?_ (wake_same t j).1.2.2 ?_ ?_ ?_
  all_goals
    unfold Sem.wakeNcnt
    split
  · exact fun _ old => List.mem_cons_of_mem _ old
  · exact fun _ old => old
  · simp [counter, setSem]
  · next idle => simpa [counter] using idle
  · exact fun _ => List.mem_cons_self
  · next idle => exact fun counted => absurd counted idle
  · intro other apart
    cases other with
    | ncnt i => simp [counter, setSem, show i ≠ j from fun same => apart (by rw [same])]
    | zcnt i => by_cases here : i = j <;> simp [counter, setSem, here]
  · exact fun _ _ => rfl

theorem wakeZcnt (watch : Watch due s t) (j : Nat) (zeroed : due (.zcnt j) → (t.sem j).semval = 0) :
    Watch (fun channel => due channel ∧ channel ≠ .zcnt j) s (wakeZcnt t j) := by
  by_cases zero : (t.sem j).semval = 0
  · refine watch.wake (.zcnt j) ?_ (wake_same t j).2.2.2 ?_ ?_ ?_
    all_goals
      unfold Sem.wakeZcnt
      split
    · exact fun _ old => List.mem_cons_of_mem _ old
    · exact fun _ old => old
    · simp [counter, setSem]
    · next idle => simpa [counter, zero] using idle
    · exact fun _ => List.mem_cons_self
    · next idle => exact fun counted => absurd ⟨counted, zero⟩ idle
    · intro other apart
      cases other with
      | ncnt i => by_cases here : i = j <;> simp [counter, setSem, here]
      | zcnt i => simp [counter, setSem, show i ≠ j from fun same => apart (by rw [same])]
    · exact fun _ _ => rfl
  · have same : Sem.wakeZcnt t j = t := by
      unfold Sem.wakeZcnt
      exact if_neg fun hit => zero hit.2
    rw [same]
    apply watch.mono
    intro channel still
    exact ⟨still, fun here => zero (zeroed (here ▸ still))⟩

end Watch

theorem wakeNcnt_semval (s : State) (j : Nat) : ((wakeNcnt s j).sem j).semval = (s.sem j).semval :=
  congrFun (wake_same s j).1.2.2 j

theorem raised_watched (s : State) {j : Nat} {semp : Semaphore} (ncnt : semp.semncnt = (s.sem j).semncnt)
    (zcnt : semp.semzcnt = (s.sem j).semzcnt) : Watched s (wakeZcnt (wakeNcnt (setSem s j semp) j) j) := by
  apply (((Watch.store ncnt zcnt).wakeNcnt j).wakeZcnt j ?_).mono
  · rintro channel ⟨⟨⟨rfl, _⟩ | ⟨rfl, _⟩, notNcnt⟩, notZcnt⟩
    · exact notNcnt rfl
    · exact notZcnt rfl
  · rintro ⟨⟨wrong, _⟩ | ⟨_, zero⟩, _⟩
    · cases wrong
    · simpa [wakeNcnt_semval, setSem] using zero

theorem lowered_watched (s : State) {j : Nat} {semp : Semaphore} (ncnt : semp.semncnt = (s.sem j).semncnt)
    (zcnt : semp.semzcnt = (s.sem j).semzcnt) (lower : semp.semval.toNat ≤ (s.sem j).semval.toNat) :
    Watched s (wakeZcnt (setSem s j semp) j) := by
  apply ((Watch.store ncnt zcnt).wakeZcnt j ?_).mono
  · rintro channel ⟨⟨rfl, higher⟩ | ⟨rfl, _⟩, notZcnt⟩
    · omega
    · exact notZcnt rfl
  · rintro (⟨wrong, _⟩ | ⟨_, zero⟩)
    · cases wrong
    · simpa [setSem] using zero

theorem setSemval_watched (pid : Int) (s : State) (j : Nat) (val : UInt16) : Watched s (setSemval pid s j val) := by
  unfold setSemval
  simp only
  split
  · next nonzero =>
    apply ((Watch.store (by rfl) (by rfl)).wakeNcnt j).mono
    rintro channel ⟨⟨rfl, _⟩ | ⟨rfl, zero⟩, notNcnt⟩
    · exact notNcnt rfl
    · exact nonzero zero
  · next zero =>
    simp only [ne_eq, not_not] at zero
    exact lowered_watched s (by rfl) (by rfl) (by simp [zero])

theorem removeSem_watched (s : State) (j : Nat) : Watched s (removeSem s j) := raised_watched s rfl rfl

private theorem toNat_ofInt {v : Int} (low : 0 ≤ v) (high : v < 65536) : (UInt16.ofInt v).toNat = v.toNat := by
  rw [UInt16.ofInt, UInt16.toNat_ofNat']
  omega

theorem exitEntry_watched (info : Seminfo) (uup : Undo) (s : State) : Watched s (exitEntry info uup s) := by
  unfold exitEntry
  split
  · exact .refl s
  · next sp _ =>
    simp only
    split
    · exact .refl s
    · next inside =>
      simp only [not_or, not_lt] at inside
      split
      · next raise =>
        apply (((Watch.store (by rfl) (by rfl)).wakeZcnt _ ?_).wakeNcnt _).mono
        · rintro channel ⟨⟨⟨rfl, _⟩ | ⟨rfl, _⟩, notZcnt⟩, notNcnt⟩
          · exact notNcnt rfl
          · exact notZcnt rfl
        · rintro (⟨wrong, _⟩ | ⟨_, zero⟩)
          · cases wrong
          · simpa [setSem] using zero
      · next lower =>
        apply lowered_watched s (by rfl) (by rfl)
        have limit := info.vmxLimit
        simp only
        rw [toNat_ofInt inside.1 (by omega)]
        omega

theorem exitEntries_watched (info : Seminfo) (ent : List Undo) (s : State) : Watched s (ent.foldr (exitEntry info) s) := by
  induction ent with
  | nil => exact .refl s
  | cons uup ent ih => exact ih.trans (exitEntry_watched info uup _)

structure SameSem (s t : State) : Prop where
  sema : t.sema = s.sema
  sem : t.sem = s.sem
  woken : t.woken = s.woken

theorem SameSem.watched {s t : State} (same : SameSem s t) : Watched s t := by
  refine .of_same same.woken (fun channel => ?_) ?_
  · cases channel <;> simp [counter, same.sem]
  · funext j
    simp only [values, same.sem]

theorem semexit_watched (info : Seminfo) (s : State) (slot : Nat) : Watched s (semexit info s slot) := by
  unfold semexit
  split
  · exact .refl s
  · next up held =>
    simp only
    split
    · exact SameSem.watched ⟨rfl, rfl, rfl⟩
    · apply (exitEntries_watched info (s.semu up) s).trans
      exact SameSem.watched ⟨rfl, rfl, rfl⟩

theorem placed_watched (place : State → Nat → State) (each : ∀ s i, Watched s (place s i)) (l : List Nat) (s : State) :
    Watched s (l.foldl place s) := by
  induction l generalizing s with
  | nil => exact .refl s
  | cons i l ih => exact (each s i).trans (ih _)

theorem semctl_watched (info : Seminfo) (s : State) (semid : Int) (cmd : Cmd) (cred : Cred) (pid : Int) :
    Watched s (semctl info s semid cmd cred pid).2 := by
  have removed : ∀ (t : State) low high, Watched t (semunrm t semid low high) := fun t low high => SameSem.watched ⟨rfl, rfl, rfl⟩
  unfold semctl
  split
  · exact .refl s
  · next sp _ =>
    cases cmd with
    | IPC_RMID =>
      simp only
      split
      · exact .refl s
      · apply ((removed s _ _).trans (placed_watched _ (fun t i => removeSem_watched t _) _ _)).trans
        exact .of_same rfl (fun channel => by cases channel <;> rfl) rfl
    | SETVAL semnum arg =>
      simp only
      split
      · exact .refl s
      · split
        · exact .refl s
        · split
          · exact .refl s
          · exact (setSemval_watched pid s _ _).trans (removed _ _ _)
    | SETALL copyin =>
      simp only
      split
      · exact .refl s
      · cases copyin with
        | none => exact .refl s
        | some semvals =>
          simp only
          split
          · exact .refl s
          · apply (removed s _ _).trans
            exact placed_watched _ (fun t i => setSemval_watched pid t _ _) _ _

theorem SameSem.trans {s t w : State} (first : SameSem s t) (second : SameSem t w) : SameSem s w :=
  ⟨second.sema.trans first.sema, second.sem.trans first.sem, second.woken.trans first.woken⟩

theorem addEntry_sameSem (info : Seminfo) (s : State) (up i : Nat) (val id : Int) (num : Nat) :
    SameSem s (addEntry info s up i val id num).2 := by
  simp only [addEntry]
  split
  · exact ⟨rfl, rfl, rfl⟩
  · simp only [setUndo]
    split <;> exact ⟨rfl, rfl, rfl⟩

theorem changeEntry_sameSem (info : Seminfo) (s : State) (up i : Nat) (uup : Undo) (val : Int) :
    SameSem s (changeEntry info s up i uup val).2 := by
  simp only [changeEntry]
  split
  · exact ⟨rfl, rfl, rfl⟩
  · split
    · simp only [setUndo]
      split <;> exact ⟨rfl, rfl, rfl⟩
    · exact ⟨rfl, rfl, rfl⟩

theorem semaoe_sameSem (info : Seminfo) (s : State) (slot : Nat) (val id : Int) (num : Nat) :
    SameSem s (semaoe info s slot val id num).2 := by
  unfold semaoe
  split
  · exact ⟨rfl, rfl, rfl⟩
  · split
    · exact ⟨rfl, rfl, rfl⟩
    · split
      · exact ⟨rfl, rfl, rfl⟩
      · next up t own =>
        have taken : SameSem s t := by
          unfold undoOf at own
          split at own
          · cases own
            exact ⟨rfl, rfl, rfl⟩
          · split at own
            · cases own
            · cases own
              exact ⟨rfl, rfl, rfl⟩
        apply taken.trans
        unfold placeEntry
        simp only
        split
        · split
          · exact changeEntry_sameSem ..
          · exact addEntry_sameSem ..
        · exact addEntry_sameSem ..

theorem record_sameSem (info : Seminfo) (s : State) (c : Caller) (op : Sembuf) : SameSem s (record info s c op).2 := by
  unfold record
  split
  · exact semaoe_sameSem ..
  · exact ⟨rfl, rfl, rfl⟩

structure Unseen (s t : State) : Prop where
  woken : t.woken = s.woken
  counters : ∀ channel, counter t channel = counter s channel

theorem undoOp_unseen (info : Seminfo) (slot : Nat) (id : Int) (base : Nat) (op : Sembuf) (s : State) :
    Unseen s (undoOp info slot id base op s) := by
  unfold undoOp
  split
  · exact ⟨rfl, fun _ => rfl⟩
  · have stored : ∀ semval : UInt16, Unseen s (setSem s (base + op.semNum) { s.sem (base + op.semNum) with semval }) := by
      intro semval
      refine ⟨rfl, fun channel => ?_⟩
      cases channel with
      | ncnt i => by_cases here : i = base + op.semNum <;> simp [counter, setSem, here]
      | zcnt i => by_cases here : i = base + op.semNum <;> simp [counter, setSem, here]
    simp only
    split
    · obtain ⟨_, sem, woken⟩ := semaoe_sameSem info (setSem s (base + op.semNum)
        { s.sem (base + op.semNum) with semval := (s.sem (base + op.semNum)).semval - op.semOp.toUInt16 })
        slot (short (-op.semOp.toInt)) id op.semNum
      refine ⟨woken, fun channel => ?_⟩
      rw [← (stored ((s.sem (base + op.semNum)).semval - op.semOp.toUInt16)).counters channel]
      cases channel <;> simp only [counter, sem]
    · exact stored _

theorem semundo_unseen (info : Seminfo) (slot : Nat) (id : Int) (base : Nat) (ops : List Sembuf) (s : State) :
    Unseen s (semundo info slot id base ops s) := by
  induction ops with
  | nil => exact ⟨rfl, fun _ => rfl⟩
  | cons op ops ih =>
    have last := undoOp_unseen info slot id base op (semundo info slot id base ops s)
    exact ⟨last.woken.trans ih.woken, fun channel => (last.counters channel).trans (ih.counters channel)⟩

private theorem toNat_add_le (val : UInt16) (op : Int16) (negative : op.toInt < 0) (enough : (val.toNat : Int) ≥ -op.toInt) :
    (val + op.toUInt16).toNat ≤ val.toNat := by
  have small := val.toNat_lt
  have same : (op.toUInt16.toNat : Int) = op.toInt + 65536 := by
    have signed := BitVec.toInt_eq_toNat_bmod op.toBitVec
    have inside := op.toBitVec.isLt
    simp only [Int.bmod_def] at signed
    change (op.toBitVec.toNat : Int) = op.toInt + 65536
    change op.toInt = _ at signed
    omega
  rw [UInt16.toNat_add]
  omega

theorem doOp_watched (info : Seminfo) (s : State) (c : Caller) (op : Sembuf) : Watched s (doOp info s c op).2 := by
  have recorded := record_sameSem info s c op
  simp only [doOp]
  split
  · split
    · exact .refl s
    · split
      · next failed => exact (failed ▸ recorded).watched
      · next done =>
        rw [done] at recorded
        exact recorded.watched.trans (raised_watched _ (by rfl) (by rfl))
  · split
    · next negative =>
      split
      · next enough =>
        split
        · next failed => exact (failed ▸ recorded).watched
        · next t done =>
          rw [done] at recorded
          apply recorded.watched.trans (lowered_watched _ (by rfl) (by rfl) ?_)
          have sem : t.sem = s.sem := recorded.sem
          simp only [sem]
          exact toNat_add_le _ _ negative enough
      · exact .refl s
    · split <;> exact .refl s

end Svr4.Proofs.SemWatch
