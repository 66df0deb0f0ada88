import Svr4.Proofs.MsgSleep

/-! What each stretch of a call does to the queues, the sleepers and the space for text. -/

namespace Svr4.Proofs.MsgCalls
open Function Msg Chain MsgLists MsgSleep
open Sem (Cred IPC_ALLOC)

variable {mp time : Nat} {error : Option Errno} {new : Phase} {t : State}

def touched (s : State) (qp : Nat) (ds : MsqidDs) (lock : Bool) (woken : List Channel) (want : Nat) : State :=
  { s with
    msgque := update s.msgque qp ds
    msglock := update s.msglock qp lock
    msgmap := { s.msgmap with mapwant := want }
    woken }

section Touched
variable (s : State) (qp : Nat) (ds ds' : MsqidDs) (lock : Bool) (woken : List Channel) (want : Nat) (channel : Channel)

@[simp] theorem touched_msgque : (touched s qp ds lock woken want).msgque qp = ds := update_self ..

@[simp] theorem touched_msgh : (touched s qp ds lock woken want).msgh = s.msgh := rfl

@[simp] theorem touched_msgNext : (touched s qp ds lock woken want).msgNext = s.msgNext := rfl

@[simp] theorem touched_msgfp : (touched s qp ds lock woken want).msgfp = s.msgfp := rfl

@[simp] theorem touched_woken : (touched s qp ds lock woken want).woken = woken := rfl

@[simp] theorem unlock_touched :
    unlock (touched s qp ds lock woken want) qp = touched s qp ds false (.lock qp :: woken) want := by
  simp [unlock, wakeup, touched]

@[simp] theorem setQueue_touched :
    setQueue (touched s qp ds lock woken want) qp ds' = touched s qp ds' lock woken want := by
  simp [setQueue, touched]

@[simp] theorem wakeup_touched :
    wakeup (touched s qp ds lock woken want) channel = touched s qp ds lock (channel :: woken) want := rfl

@[simp] theorem touched_self : touched s qp (s.msgque qp) (s.msglock qp) s.woken s.msgmap.mapwant = s := by
  simp [touched]

end Touched

variable {info : Msginfo} {k : System} {event : Event} {place : Nat → Place} {queue : Nat → List Nat} {free : List Nat} {p qp : Nat}

@[simp] theorem quiet_msgque (k : System) : k.quiet.msgque = k.state.msgque := rfl

@[simp] theorem quiet_msgh (k : System) : k.quiet.msgh = k.state.msgh := rfl

@[simp] theorem quiet_msgNext (k : System) : k.quiet.msgNext = k.state.msgNext := rfl

@[simp] theorem quiet_msgfp (k : System) : k.quiet.msgfp = k.state.msgfp := rfl

@[simp] theorem quiet_msgmap (k : System) : k.quiet.msgmap = k.state.msgmap := rfl

@[simp] theorem quiet_woken (k : System) : k.quiet.woken = [] := rfl

theorem holds_inside (info : Msginfo) (phase : Phase) : phase.holds info ≠ some info.msgmni := by
  intro holds
  have bound : ∀ id, slot info id < info.msgmni := fun id => Nat.mod_lt _ info.someQueue
  cases phase with
  | copyout uap =>
    simp only [Phase.holds, Option.some.injEq] at holds
    exact absurd holds (bound _).ne
  | copyin uap =>
    simp only [Phase.holds, Option.some.injEq] at holds
    exact absurd holds (bound _).ne
  | running => simp [Phase.holds] at holds
  | findmsg => simp [Phase.holds] at holds
  | asleepRcv => simp [Phase.holds] at holds
  | getres => simp [Phase.holds] at holds
  | asleepSnd => simp [Phase.holds] at holds

theorem msgconv_spec (good : Good info k place queue free) {id : Int} (unlocked : k.unlocked info id) :
    (∃ error qp lock woken, msgconv info k.quiet id =
        (.error error, touched k.quiet qp (k.state.msgque qp) lock woken k.state.msgmap.mapwant) ∧
        ∀ p, (k.phase p).holds info ≠ some qp) ∨
      msgconv info k.quiet id = (.ok (slot info id),
        touched k.quiet (slot info id) (k.state.msgque (slot info id)) true [] k.state.msgmap.mapwant) ∧
        allocated k.state (slot info id) = true ∧ ∀ p, (k.phase p).holds info ≠ some (slot info id) := by
  by_cases negative : id < 0
  · refine .inl ⟨.EINVAL, info.msgmni, k.state.msglock info.msgmni, [], ?_, fun p => holds_inside info _⟩
    rw [msgconv, if_pos negative]
    congr 1
    exact (touched_self k.quiet info.msgmni).symm
  · have open_ : k.state.msglock (slot info id) = false := unlocked.resolve_left negative
    have alone : ∀ p, (k.phase p).holds info ≠ some (slot info id) := by
      intro p holds
      have locked := (good.locked p _ holds).1
      rw [open_] at locked
      cases locked
    have taken : { k.quiet with msglock := update k.quiet.msglock (slot info id) true } =
        touched k.quiet (slot info id) (k.state.msgque (slot info id)) true [] k.state.msgmap.mapwant := by
      simp [touched, System.quiet]
    rw [msgconv, if_neg negative]
    simp only [taken]
    split
    · exact .inl ⟨.EINVAL, slot info id, false, [.lock (slot info id)], by simp, alone⟩
    · next good_ =>
      refine .inr ⟨rfl, ?_, alone⟩
      simp only [not_or] at good_
      simpa [allocated] using good_.1

theorem Good.nobody (good : Good info k place queue free) (holds : (k.phase p).holds info = some qp) :
    ∀ p', p' ≠ p → (k.phase p').holds info ≠ some qp :=
  fun p' other also => other (good.alone p' p qp also holds)

structure Calm (info : Msginfo) (k : System) (event : Event) (queue : Nat → List Nat) (p qp : Nat) (ds : MsqidDs) (lock : Bool)
    (woken : List Channel) (new : Phase) : Prop where
  alone : ∀ p', p' ≠ p → (k.phase p').holds info ≠ some qp
  idle : (k.phase p).holds info = none ∨ ∃ uap spmp smp sz, k.phase p = .copyout uap spmp smp sz
  first : ds.msgFirst = (k.state.msgque qp).msgFirst
  last : ds.msgLast = (k.state.msgque qp).msgLast
  qnum : ds.msgQnum = (k.state.msgque qp).msgQnum
  cbytes : ds.msgCbytes = (k.state.msgque qp).msgCbytes
  spare : ds.msgPerm.mode &&& IPC_ALLOC = 0 → queue qp = [] ∧ ds.rwait = false ∧ ds.wwait = false
  locked : ∀ q, new.holds info = some q → q = qp ∧ lock = true ∧ ds.msgPerm.mode &&& IPC_ALLOC ≠ 0
  stays : ∀ uap mp spot, new ≠ .copyin uap mp spot
  chosen : ∀ uap spmp smp sz, new = .copyout uap spmp smp sz → Chosen k.state (queue qp) uap spmp smp sz
  receivers : (k.state.msgque qp).rwait = true → .qnum qp ∈ woken ∨ ds.rwait = true
  senders : Careful k event → ∀ p' uap, p' ≠ p → k.phase p' = .asleepSnd uap (.queue qp) → (k.state.msgque qp).wwait = true →
    .queue qp ∈ woken ∨ ds.wwait = true ∧ (uap.cnt + (k.state.msgque qp).msgCbytes > (k.state.msgque qp).msgQbytes →
      uap.cnt + (k.state.msgque qp).msgCbytes > ds.msgQbytes)
  sender : ∀ uap q, new = .asleepSnd uap (.queue q) → q = qp ∧ ds.wwait = true ∧
    uap.cnt + (k.state.msgque qp).msgCbytes > ds.msgQbytes
  receiver : ∀ uap, new = .asleepRcv uap → slot info uap.msqid = qp ∧ ds.rwait = true ∧
    ∀ m ∈ queue qp, ¬ Matches uap.msgtyp (k.state.msgh m).msgType

section
variable (good : Good info k place queue free)
include good

theorem Calm.does {ds : MsqidDs} {lock : Bool} {woken : List Channel}
    (calm : Calm info k event queue p qp ds lock woken new) (want : Nat) :
    Does info k event p (touched k.quiet qp ds lock woken want) new place queue := by
  have others : ∀ q, q ≠ qp → (touched k.quiet qp ds lock woken want).msgque q = k.state.msgque q :=
    fun q other => update_of_ne other _ _
  have notHeld : ∀ mp, place mp ≠ .held p := by
    intro mp held
    obtain ⟨uap, spot, at_⟩ := (good.held mp p).mp held
    rcases calm.idle with none_ | ⟨uap', spmp, smp, sz, other⟩
    · simp [at_, Phase.holds] at none_
    · simp [at_] at other
  refine ⟨qp, place, queue, free, ⟨?_, ?_, calm.alone, fun mp p' _ => .rfl, fun mp => ?_, fun q holds => ?_, ?_, ?_, fun mp => .rfl⟩,
    fun may => ⟨fun flag => ?_, fun p' uap other at_ flag => ?_⟩, ⟨fun uap q at_ => ?_,
      fun uap at_ => ?_⟩, .none rfl rfl rfl rfl (fun q => ?_) calm.idle calm.stays⟩
  · refine good.lists.congr rfl rfl fun q => ?_
    by_cases here : q = qp
    · subst here
      simp [calm.first, calm.last, calm.qnum]
    · simp [others q here]
  · exact ⟨others, fun q other => update_of_ne other _ _, fun _ _ => rfl, fun _ _ _ => rfl⟩
  · refine ⟨fun held => absurd held (notHeld mp), ?_⟩
    rintro ⟨uap, spot, at_⟩
    exact absurd at_ (calm.stays uap mp spot)
  · obtain ⟨same, locked, alloc⟩ := calm.locked q holds
    refine ⟨same, ?_, ?_⟩
    · simp [touched, locked]
    · simpa [allocated] using alloc
  · intro uap spmp smp sz at_
    obtain ⟨place, size, fits⟩ := calm.chosen uap spmp smp sz at_
    exact ⟨place, size, fits⟩
  · intro empty
    simp only [touched_msgque]
    apply calm.spare
    simpa [allocated] using empty
  · rcases calm.receivers flag with awake | flag
    · exact .inl awake
    · refine .inr ⟨?_, fun m member => ⟨member, rfl⟩⟩
      simpa using flag
  · rcases calm.senders may p' uap other at_ flag with awake | kept
    · exact .inl awake
    · refine .inr ?_
      simpa [calm.cbytes] using kept
  · simpa [calm.cbytes] using calm.sender uap q at_
  · simpa using calm.receiver uap at_
  · by_cases here : q = qp
    · subst here
      simp [calm.cbytes]
    · rw [others q here]
      rfl

theorem Good.emptied (spare : (k.state.msgque qp).msgPerm.mode &&& IPC_ALLOC = 0) :
    queue qp = [] ∧ (k.state.msgque qp).rwait = false ∧ (k.state.msgque qp).wwait = false :=
  good.spare qp (by simp [allocated, spare])

theorem calm_same (alone : ∀ p', p' ≠ p → (k.phase p').holds info ≠ some qp)
    (idle : (k.phase p).holds info = none ∨ ∃ uap spmp smp sz, k.phase p = .copyout uap spmp smp sz) (lock : Bool)
    (woken : List Channel) (holds : new.holds info = none) (awake : ∀ q, new.channel info ≠ some (.qnum q))
    (apart : ∀ q, new.channel info ≠ some (.queue q)) : Calm info k event queue p qp (k.state.msgque qp) lock woken new where
  alone := alone
  idle := idle
  first := rfl
  last := rfl
  qnum := rfl
  cbytes := rfl
  spare := Good.emptied good
  locked q also := by simp [holds] at also
  stays uap mp spot at_ := by simp [at_, Phase.holds] at holds
  chosen uap spmp smp sz at_ := by simp [at_, Phase.holds] at holds
  receivers := .inr
  senders _ _ _ _ _ flag := .inr ⟨flag, id⟩
  sender uap q at_ := absurd (by simp [at_, Phase.channel]) (apart q)
  receiver uap at_ := absurd (by simp [at_, Phase.channel]) (awake (slot info uap.msqid))

theorem msgrcv_does (idle : k.phase p = .running) (uap : Rcv) (cred : Cred)
    (unlocked : k.unlocked info uap.msqid) :
    Does info k event p (msgrcv info k.quiet uap cred).2 (askedPhase uap (msgrcv info k.quiet uap cred).1) place queue := by
  have idle : (k.phase p).holds info = none := by simp [idle, Phase.holds]
  have asked : ∀ error : Option Errno, (askedPhase uap error).holds info = none ∧ (askedPhase uap error).channel info = none := by
    intro error
    cases error <;> exact ⟨rfl, rfl⟩
  have calm : ∀ qp lock woken error, (∀ p, (k.phase p).holds info ≠ some qp) →
      Calm info k event queue p qp (k.state.msgque qp) lock woken (askedPhase uap error) := by
    intro qp lock woken error alone
    apply calm_same good (fun p' _ => alone p') (.inl idle) lock woken (asked error).1
    · simp [(asked error).2]
    · simp [(asked error).2]
  rcases msgconv_spec good unlocked with ⟨error, qp, lock, woken, conv, alone⟩ | ⟨conv, _, alone⟩
  · simp only [msgrcv, conv]
    exact (calm qp lock woken (some error) alone).does good _
  · simp only [msgrcv, conv]
    split
    · simp only [unlock_touched]
      exact (calm _ _ _ (some .EACCES) alone).does good _
    · split
      · simp only [unlock_touched]
        exact (calm _ _ _ (some .EINVAL) alone).does good _
      · simp only [unlock_touched]
        exact (calm _ _ _ none alone).does good _

theorem findmsg_does {uap : Rcv} (at_ : k.phase p = .findmsg uap)
    (unlocked : k.unlocked info uap.msqid) {found : Found}
    (called : findmsg info time k.quiet uap = some (found, t)) : Does info k event p t (foundPhase uap found) place queue := by
  have idle : (k.phase p).holds info = none := by simp [at_, Phase.holds]
  have calm : ∀ qp lock woken error, (∀ p, (k.phase p).holds info ≠ some qp) →
      Calm info k event queue p qp (k.state.msgque qp) lock woken (foundPhase uap (.error error)) := by
    intro qp lock woken error alone
    refine calm_same good (fun p' _ => alone p') (.inl idle) lock woken rfl ?_ ?_ <;> simp [foundPhase, Phase.channel]
  rcases msgconv_spec good unlocked with ⟨error, qp, lock, woken, conv, alone⟩ | ⟨conv, alloc, alone⟩
  · simp only [findmsg, conv, Option.some.injEq, Prod.mk.injEq] at called
    obtain ⟨rfl, rfl⟩ := called
    exact (calm qp lock woken .EIDRM alone).does good _
  · have alloc : (k.state.msgque (slot info uap.msqid)).msgPerm.mode &&& IPC_ALLOC ≠ 0 := by simpa [allocated] using alloc
    simp only [findmsg, conv, Option.bind_eq_bind, Option.pure_def, touched_msgque, touched_msgh, unlock_touched,
      setQueue_touched] at called
    obtain ⟨smp, searched, called⟩ := Option.bind_eq_some_iff.mp called
    have best := search_best (s := touched ..) (good.lists.queues (slot info uap.msqid)) searched
    simp only [touched_msgh] at best
    cases smp with
    | none =>
      have nothing : ∀ m ∈ queue (slot info uap.msqid), ¬ Matches uap.msgtyp (k.state.msgh m).msgType := by
        rcases best with ⟨_, nothing⟩ | ⟨_, _, _, _, wrong, _⟩
        · exact nothing
        · cases wrong
      simp only at called
      split at called
      · cases called
        exact (calm _ _ _ .ENOMSG alone).does good _
      · cases called
        have sleeps : Calm info k event queue p (slot info uap.msqid) { k.state.msgque (slot info uap.msqid) with rwait := true } false
            [.lock (slot info uap.msqid)] (foundPhase uap .asleep) := by
          refine ⟨fun p' _ => alone p', .inl idle, rfl, rfl, rfl, rfl, fun spare => absurd spare alloc, ?_, ?_, ?_,
            fun _ => .inr rfl, fun _ p' uap _ _ flag => .inr ⟨flag, id⟩, ?_, ?_⟩
          · simp [foundPhase, Phase.holds]
          · simp [foundPhase]
          · simp [foundPhase]
          · simp [foundPhase]
          · intro uap' same
            simp only [foundPhase, Phase.asleepRcv.injEq] at same
            subst same
            exact ⟨rfl, rfl, nothing⟩
        exact sleeps.does good _
    | some found =>
      obtain ⟨spmp, smp⟩ := found
      have selected : ∃ before after, queue (slot info uap.msqid) = before ++ smp :: after ∧ spmp = before.getLast? ∧
          Selected k.state.msgh uap.msgtyp before smp after := by
        rcases best with ⟨wrong, _⟩ | ⟨before, mp, after, split, same, selected⟩
        · cases wrong
        · cases same
          exact ⟨before, after, split, rfl, selected⟩
      have copies : ∀ sz, sz = min uap.msgsz.toNat (k.state.msgh smp).msgTs →
          (uap.msgsz.toNat < (k.state.msgh smp).msgTs → uap.msgflg &&& MSG_NOERROR ≠ 0) →
          Calm info k event queue p (slot info uap.msqid) (k.state.msgque (slot info uap.msqid)) true []
            (foundPhase uap (.copyout spmp smp sz)) := by
        intro sz size fits
        refine ⟨fun p' _ => alone p', .inl idle, rfl, rfl, rfl, rfl, fun spare => absurd spare alloc, ?_, ?_, ?_, .inr,
          fun _ p' uap _ _ flag => .inr ⟨flag, id⟩, ?_, ?_⟩
        · intro q holds
          simp only [foundPhase, Phase.holds, Option.some.injEq] at holds
          exact ⟨holds.symm, rfl, alloc⟩
        · simp [foundPhase]
        · intro uap' spmp' smp' sz' same
          simp only [foundPhase, Phase.copyout.injEq] at same
          obtain ⟨rfl, rfl, rfl, rfl⟩ := same
          exact ⟨selected, size, fits⟩
        · simp [foundPhase]
        · simp [foundPhase]
      simp only at called
      split at called
      · next large =>
        split at called
        · cases called
          exact (calm _ _ _ .E2BIG alone).does good _
        · next noerror =>
          cases called
          exact (copies _ (min_eq_left large.le).symm fun _ => noerror).does good _
      · next small =>
        cases called
        exact (copies _ (min_eq_right (not_lt.mp small)).symm fun large => absurd large small).does good _

end

theorem unlock_eq (s : State) (qp : Nat) :
    unlock s qp = touched s qp (s.msgque qp) false (.lock qp :: s.woken) s.msgmap.mapwant := by
  simp [unlock, wakeup, touched]

theorem msgrcvEnd_does (good : Good info k place queue free) {uap : Rcv} {spmp : Option Nat} {smp sz : Nat}
    (at_ : k.phase p = .copyout uap spmp smp sz) {fault : Bool}
    (called : msgrcvEnd info k.quiet (slot info uap.msqid) spmp smp fault = some (error, t)) :
    Does info k event p t .running place queue := by
  have holds : (k.phase p).holds info = some (slot info uap.msqid) := by simp [at_, Phase.holds]
  have alone := Good.nobody good holds
  have alloc := (good.locked p _ holds).2
  obtain ⟨⟨before, after, split, rfl, selected⟩, size, fits⟩ := good.chosen p uap spmp smp sz at_
  generalize slot info uap.msqid = qp at *
  have notHeld : ∀ mp, place mp ≠ .held p := by
    intro mp held
    obtain ⟨uap', spot, other⟩ := (good.held mp p).mp held
    simp [at_] at other
  rw [msgrcvEnd] at called
  split at called
  · cases called
    rw [unlock_eq]
    refine (calm_same good alone (.inr ⟨_, _, _, _, at_⟩) false _ rfl ?_ ?_).does good _ <;> simp [Phase.channel]
  · simp only [Option.bind_eq_bind, Option.pure_def] at called
    obtain ⟨u, freed_, called⟩ := Option.bind_eq_some_iff.mp called
    cases called
    have lists : Lists (setQueue k.quiet qp { k.quiet.msgque qp with
        msgCbytes := (k.quiet.msgque qp).msgCbytes - (k.quiet.msgh smp).msgTs }) place queue free := by
      refine good.lists.congr rfl rfl fun q => ?_
      by_cases here : q = qp
      · subst here
        simp [setQueue]
      · simp [setQueue, here]
    obtain ⟨freed, released⟩ := msgfree_freed lists split freed_
    have was : place smp = .queued qp := (good.lists.inQueue qp smp).mp (by simp [split])
    have others : ∀ q, q ≠ qp → u.msgque q = k.state.msgque q :=
      fun q other => (freed.others q other).trans (update_of_ne other _ _)
    have here : u.msgque qp = { k.state.msgque qp with
        msgFirst := (before ++ after).head?, msgLast := (before ++ after).getLast?, msgQnum := (before ++ after).length
        msgCbytes := (k.state.msgque qp).msgCbytes - (k.state.msgh smp).msgTs, wwait := false } := by
      rw [freed.here]
      simp [setQueue]
    refine ⟨qp, update place smp .free, update queue qp (before ++ after), smp :: free,
      ⟨?_, ⟨others, fun q other => ?_, fun q other => update_of_ne other _ _, fun q m _ => ?_⟩, alone, fun m p' other => ?_,
        fun m => ?_, ?_, ?_, fun spare => ?_, fun m => ?_⟩, fun _ => ⟨fun flag => .inr ?_, fun p' uap' other asleep flag => .inl ?_⟩,
      ⟨?_, ?_⟩, ?_⟩
    · exact (lists.freed split freed).congr rfl rfl fun _ => ⟨rfl, rfl, rfl⟩
    · change update u.msglock qp false q = k.state.msglock q
      rw [update_of_ne other, freed.msglock]
      rfl
    · exact congrFun freed.msgh m
    · by_cases same : m = smp
      · simp [same, was]
      · simp [same]
    · by_cases same : m = smp
      · simp [same]
      · simp [same, notHeld m]
    · simp [Phase.holds]
    · simp
    · change allocated u qp = false at spare
      rw [allocated, here] at spare
      rw [allocated, spare] at alloc
      cases alloc
    · by_cases same : m = smp
      · simp [same, was]
      · simp [same]
    · refine ⟨?_, fun m member => ⟨?_, congrFun freed.msgh m⟩⟩
      · change (u.msgque qp).rwait = true
        rw [here]
        exact flag
      · rw [update_self] at member
        rw [split]
        simp only [List.mem_append, List.mem_cons] at member ⊢
        rcases member with old | old
        · exact .inl old
        · exact .inr (.inr old)
    · refine List.mem_cons_of_mem _ (freed.wakes ?_)
      simpa [setQueue] using flag
    · simp
    · simp
    · rw [at_]
      refine .freed split freed.msgh ?_ (fun q other => ?_) ⟨released.map, released.lost⟩
      · change (u.msgque qp).msgCbytes = _
        rw [here]
        rfl
      · change (u.msgque q).msgCbytes = _
        rw [others q other]
        rfl

theorem msgsnd_does (good : Good info k place queue free) (idle : k.phase p = .running) (msqid msgsz : Int) (msgflg : Nat)
    (type : Option Int) (cred : Cred) (unlocked : k.unlocked info msqid) :
    Does info k event p (msgsnd info k.quiet msqid msgsz msgflg type cred).2
      (sentPhase (msgsnd info k.quiet msqid msgsz msgflg type cred).1) place queue := by
  have idle : (k.phase p).holds info = none := by simp [idle, Phase.holds]
  have sent : ∀ answer : Except Errno Snd, (sentPhase answer).holds info = none ∧ (sentPhase answer).channel info = none := by
    intro answer
    cases answer <;> exact ⟨rfl, rfl⟩
  have calm : ∀ qp lock woken answer, (∀ p, (k.phase p).holds info ≠ some qp) →
      Calm info k event queue p qp (k.state.msgque qp) lock woken (sentPhase answer) := by
    intro qp lock woken answer alone
    apply calm_same good (fun p' _ => alone p') (.inl idle) lock woken (sent answer).1
    · simp [(sent answer).2]
    · simp [(sent answer).2]
  rcases msgconv_spec good unlocked with ⟨error, qp, lock, woken, conv, alone⟩ | ⟨conv, _, alone⟩
  · simp only [msgsnd, conv]
    exact (calm qp lock woken (.error error) alone).does good _
  · simp only [msgsnd, conv]
    split
    · simp only [unlock_touched]
      exact (calm _ _ _ (.error .EACCES) alone).does good _
    · split
      · simp only [unlock_touched]
        exact (calm _ _ _ (.error .EINVAL) alone).does good _
      · split
        · simp only [unlock_touched]
          exact (calm _ _ _ (.error .EFAULT) alone).does good _
        · split
          · simp only [unlock_touched]
            exact (calm _ _ _ (.error .EINVAL) alone).does good _
          · simp only [unlock_touched]
            exact (calm _ _ _ (.ok _) alone).does good _

theorem msgsndIntr_does (good : Good info k place queue free) {uap : Snd} {slept : Option Channel} (channel : Channel)
    (at_ : k.phase p = .getres uap slept) (unlocked : k.unlocked info uap.msqid) :
    Does info k event p (msgsndIntr info k.quiet uap channel).2 .running place queue := by
  have idle : (k.phase p).holds info = none := by simp [at_, Phase.holds]
  have calm : ∀ qp lock woken, (∀ p, (k.phase p).holds info ≠ some qp) →
      Calm info k event queue p qp (k.state.msgque qp) lock woken .running := by
    intro qp lock woken alone
    refine calm_same good (fun p' _ => alone p') (.inl idle) lock woken rfl ?_ ?_ <;> simp [Phase.channel]
  rcases msgconv_spec good unlocked with ⟨error, qp, lock, woken, conv, alone⟩ | ⟨conv, alloc, alone⟩
  · simp only [msgsndIntr, conv]
    exact (calm qp lock woken alone).does good _
  · have alloc : (k.state.msgque (slot info uap.msqid)).msgPerm.mode &&& IPC_ALLOC ≠ 0 := by simpa [allocated] using alloc
    simp only [msgsndIntr, conv]
    split
    · simp only [touched_msgque, setQueue_touched, wakeup_touched, unlock_touched]
      have wakes : Calm info k event queue p (slot info uap.msqid) { k.state.msgque (slot info uap.msqid) with wwait := false } false
          [.lock (slot info uap.msqid), .queue (slot info uap.msqid)] .running := by
        refine ⟨fun p' _ => alone p', .inl idle, rfl, rfl, rfl, rfl, fun spare => absurd spare alloc, ?_, ?_, ?_, .inr,
          fun _ p' uap _ _ _ => .inl ?_, ?_, ?_⟩ <;> simp [Phase.holds]
      exact wakes.does good _
    · simp only [unlock_touched]
      exact (calm _ _ _ alone).does good _

theorem putHeader_back (s : State) (qp : Nat) (ds : MsqidDs) (lock : Bool) (want : Nat) (first : s.msgfp = some mp) :
    unlock (putHeader { touched s qp ds lock [] want with msgfp := s.msgNext mp } mp) qp =
      touched s qp ds false (.lock qp :: if s.msgNext mp = none then [.msgfp] else []) want := by
  simp [putHeader, unlock, wakeup, touched, first]

theorem taken_does (good : Good info k place queue free) {uap : Snd} (idle : (k.phase p).holds info = none)
    (alloc : allocated k.state (slot info uap.msqid) = true) (alone : ∀ p, (k.phase p).holds info ≠ some (slot info uap.msqid))
    {spot : Nat} (first : k.state.msgfp = some mp) {map : Rmap.Map}
    (space : uap.cnt = 0 ∧ spot = 0 ∧ map = k.state.msgmap ∨
      uap.cnt ≠ 0 ∧ Rmap.rmalloc k.state.msgmap (btoq info uap.cnt) = some (spot + 1, map)) :
    Does info k event p { touched k.quiet (slot info uap.msqid) (k.state.msgque (slot info uap.msqid)) true [] k.state.msgmap.mapwant with
      msgfp := k.state.msgNext mp, msgmap := map } (.copyin uap mp spot) place queue := by
  generalize at_ : slot info uap.msqid = qp at *
  obtain ⟨rest, rfl, lists⟩ := good.lists.takeHeader first p
  have was : place mp = .free := (good.lists.inFree mp).mp List.mem_cons_self
  have same : update k.state.msgque qp (k.state.msgque qp) = k.state.msgque := update_eq_self ..
  have notHeld : ∀ m, place m ≠ .held p := by
    intro m held
    obtain ⟨uap', spot', other⟩ := (good.held m p).mp held
    simp [other, Phase.holds] at idle
  refine ⟨qp, update place mp (.held p), queue, rest,
    ⟨?_, ⟨fun q other => update_of_ne other _ _, fun q other => update_of_ne other _ _, fun _ _ => rfl, fun _ _ _ => rfl⟩,
      fun p' _ => alone p', fun m p' other => ?_, fun m => ?_, fun q holds => ?_, ?_, fun spare => ?_, fun m => ?_⟩,
    fun _ => ⟨fun flag => .inr ⟨?_, fun m member => ⟨member, rfl⟩⟩, fun p' uap' other asleep flag => .inr ?_⟩, ⟨?_, ?_⟩, ?_⟩
  · refine lists.congr rfl rfl fun q => ?_
    simp [touched]
  · by_cases here : m = mp
    · simp [here, was, Ne.symm other]
    · simp [here]
  · by_cases here : m = mp
    · simp [here]
    · simp [here, Ne.symm here, notHeld m]
  · simp only [Phase.holds, at_, Option.some.injEq] at holds
    refine ⟨holds.symm, update_self .., ?_⟩
    simpa [allocated, touched] using alloc
  · simp
  · simp only [allocated, touched, same, quiet_msgque] at spare alloc
    rw [spare] at alloc
    cases alloc
  · by_cases here : m = mp
    · simp [here, was]
    · simp [here]
  · simpa [touched] using flag
  · simpa [touched] using flag
  · simp
  · simp
  · refine .taken was rfl rfl (fun q => ?_) idle space
    simp [touched]

theorem getres_does (good : Good info k place queue free) {uap : Snd} {slept : Option Channel}
    (at_ : k.phase p = .getres uap slept) (unlocked : k.unlocked info uap.msqid) {got : Got}
    (called : getres info k.quiet uap = some (got, t)) : Does info k event p t (gotPhase uap got) place queue := by
  have idle : (k.phase p).holds info = none := by simp [at_, Phase.holds]
  have calm : ∀ qp lock woken error, (∀ p, (k.phase p).holds info ≠ some qp) →
      Calm info k event queue p qp (k.state.msgque qp) lock woken (gotPhase uap (.error error)) := by
    intro qp lock woken error alone
    refine calm_same good (fun p' _ => alone p') (.inl idle) lock woken rfl ?_ ?_ <;> simp [gotPhase, Phase.channel]
  have sleeps : ∀ qp lock woken channel, (∀ p, (k.phase p).holds info ≠ some qp) → (∀ q, channel ≠ .qnum q) →
      (∀ q, channel ≠ .queue q) → Calm info k event queue p qp (k.state.msgque qp) lock woken (gotPhase uap (.asleep channel)) := by
    intro qp lock woken channel alone apart apart'
    refine calm_same good (fun p' _ => alone p') (.inl idle) lock woken rfl ?_ ?_ <;>
      simpa [gotPhase, Phase.channel]
  rcases msgconv_spec good unlocked with ⟨error, qp, lock, woken, conv, alone⟩ | ⟨conv, alloc, alone⟩
  · simp only [getres, conv, Option.some.injEq, Prod.mk.injEq] at called
    obtain ⟨rfl, rfl⟩ := called
    exact (calm qp lock woken .EIDRM alone).does good _
  · have mode : (k.state.msgque (slot info uap.msqid)).msgPerm.mode &&& IPC_ALLOC ≠ 0 := by simpa [allocated] using alloc
    simp only [getres, conv, Option.bind_eq_bind, Option.pure_def, touched_msgque, touched_msgh, touched_msgfp, unlock_touched,
      setQueue_touched] at called
    split at called
    · next full =>
      split at called
      · cases called
        exact (calm _ _ _ .EAGAIN alone).does good _
      · cases called
        have waits : Calm info k event queue p (slot info uap.msqid) { k.state.msgque (slot info uap.msqid) with wwait := true } false
            [.lock (slot info uap.msqid)] (gotPhase uap (.asleep (.queue (slot info uap.msqid)))) := by
          refine ⟨fun p' _ => alone p', .inl idle, rfl, rfl, rfl, rfl, fun spare => absurd spare mode, ?_, ?_, ?_, .inr,
            fun _ p' uap _ _ _ => .inr ⟨rfl, id⟩, ?_, ?_⟩
          · simp [gotPhase, Phase.holds]
          · simp [gotPhase]
          · simp [gotPhase]
          · intro uap' q same
            simp only [gotPhase, Phase.asleepSnd.injEq, Channel.queue.injEq] at same
            obtain ⟨rfl, rfl⟩ := same
            exact ⟨rfl, rfl, full⟩
          · simp [gotPhase]
        exact waits.does good _
    · split at called
      · split at called
        · cases called
          exact (calm _ _ _ .EAGAIN alone).does good _
        · cases called
          exact (sleeps _ _ _ .msgfp alone (by simp) (by simp)).does good _
      · next mp first =>
        split at called
        · next empty =>
          cases called
          exact taken_does good idle alloc alone first (.inl ⟨empty, rfl, rfl⟩)
        · next text =>
          obtain ⟨⟨spot, map⟩, searched, called⟩ := Option.bind_eq_some_iff.mp called
          have back : ∀ {new : Phase} (want : Nat), (∀ woken, Calm info k event queue p (slot info uap.msqid)
              (k.state.msgque (slot info uap.msqid)) false woken new) →
              Does info k event p (unlock (putHeader { touched k.quiet (slot info uap.msqid) (k.state.msgque (slot info uap.msqid)) true []
                want with msgfp := k.quiet.msgNext mp } mp) (slot info uap.msqid)) new place queue := by
            intro new want calm
            rw [putHeader_back k.quiet _ _ true want first]
            exact (calm _).does good want
          simp only at called
          split at called
          · split at called
            · cases called
              exact back _ fun woken => calm _ _ woken .EAGAIN alone
            · cases called
              exact back (k.state.msgmap.mapwant + 1) fun woken => sleeps _ _ woken .msgmap alone (by simp) (by simp)
          · next some_ =>
            cases called
            obtain ⟨spot, rfl⟩ := Nat.exists_eq_add_one_of_ne_zero some_
            exact taken_does good idle alloc alone first (.inr ⟨text, searched⟩)

theorem msgsndEnd_does (good : Good info k place queue free) {uap : Snd} {spot : Nat} (at_ : k.phase p = .copyin uap mp spot)
    {fault : Bool}
    (called : msgsndEnd info k.quiet (slot info uap.msqid) uap mp spot fault = some (error, t)) :
    Does info k event p t .running place queue := by
  have holds : (k.phase p).holds info = some (slot info uap.msqid) := by simp [at_, Phase.holds]
  have alone := Good.nobody good holds
  have alloc := (good.locked p _ holds).2
  have was : place mp = .held p := (good.held mp p).mpr ⟨uap, spot, at_⟩
  -- The process had one header in its hands.
  have notHeld : ∀ m, m ≠ mp → place m ≠ .held p := by
    intro m other held
    obtain ⟨uap', spot', also⟩ := (good.held m p).mp held
    rw [at_] at also
    cases also
    exact other rfl
  generalize slot info uap.msqid = qp at *
  have lists : Lists k.quiet place queue free := good.lists.congr rfl rfl fun _ => ⟨rfl, rfl, rfl⟩
  rw [msgsndEnd] at called
  split at called
  · simp only [Option.bind_eq_bind, Option.pure_def] at called
    obtain ⟨u, freed, called⟩ := Option.bind_eq_some_iff.mp called
    cases called
    obtain ⟨⟨woken, _, same⟩, released⟩ := freeSpace_spec freed
    have lists : Lists u place queue free := by
      rw [same]
      exact lists.congr rfl rfl fun _ => ⟨rfl, rfl, rfl⟩
    have msgque : u.msgque = k.state.msgque := by rw [same]; rfl
    have msgh : u.msgh = k.state.msgh := by rw [same]; rfl
    have msglock : u.msglock = k.state.msglock := by rw [same]; rfl
    refine ⟨qp, update place mp .free, queue, mp :: free,
      ⟨(lists.putHeader was).congr rfl rfl fun _ => ⟨rfl, rfl, rfl⟩,
        ⟨fun q _ => congrFun msgque q, fun q other => ?_, fun _ _ => rfl, fun _ m _ => congrFun msgh m⟩, alone,
        fun m p' other => ?_, fun m => ?_, ?_, ?_, fun spare => ?_, fun m => ?_⟩,
      fun _ => ⟨fun flag => .inr ⟨?_, fun m member => ⟨member, congrFun msgh m⟩⟩, fun p' uap' other asleep flag => .inr ?_⟩, ⟨?_, ?_⟩, ?_⟩
    · change update u.msglock qp false q = k.state.msglock q
      rw [update_of_ne other, msglock]
    · by_cases here : m = mp
      · simp [here, was, Ne.symm other]
      · simp [here]
    · by_cases here : m = mp
      · simp [here]
      · simp [here, notHeld m here]
    · simp [Phase.holds]
    · simp
    · change allocated u qp = false at spare
      rw [allocated, msgque] at spare
      rw [allocated, spare] at alloc
      cases alloc
    · by_cases here : m = mp
      · simp [here, was]
      · simp [here]
    · change (u.msgque qp).rwait = true
      rw [msgque]
      exact flag
    · change (u.msgque qp).wwait = true ∧ (_ → uap'.cnt + (u.msgque qp).msgCbytes > (u.msgque qp).msgQbytes)
      rw [msgque]
      exact ⟨flag, id⟩
    · simp
    · simp
    · rw [at_]
      exact .returned was msgh (fun q => by change (u.msgque q).msgCbytes = _; rw [msgque]; rfl) ⟨released.map, released.lost⟩
  · obtain ⟨⟨next, shape⟩, lists'⟩ := enqueue_spec lists qp was uap spot
    simp only [Option.some.injEq, Prod.mk.injEq] at called
    obtain ⟨rfl, rfl⟩ := called
    have rwait : ((enqueue k.quiet qp uap mp spot).msgque qp).rwait = (k.state.msgque qp).rwait := by simp [shape]
    -- Whether there were receivers to wake or not, their flag is off.
    have after : (if ((enqueue k.quiet qp uap mp spot).msgque qp).rwait then
          wakeup (setQueue (enqueue k.quiet qp uap mp spot) qp { (enqueue k.quiet qp uap mp spot).msgque qp with rwait := false })
            (.qnum qp)
        else enqueue k.quiet qp uap mp spot) = { k.quiet with
        msgNext := next
        msgh := update k.state.msgh mp ⟨uap.type, uap.cnt % 2 ^ 16, if uap.cnt = 0 then -1 else short spot⟩
        msgque := update k.state.msgque qp { k.state.msgque qp with
          msgFirst := (queue qp ++ [mp]).head?, msgLast := some mp, msgQnum := (queue qp).length + 1
          msgCbytes := (k.state.msgque qp).msgCbytes + uap.cnt, rwait := false }
        woken := if (k.state.msgque qp).rwait then [.qnum qp] else [] } := by
      cases flag : (k.state.msgque qp).rwait with
      | false =>
        rw [flag] at rwait
        rw [rwait, shape]
        simp [flag, System.quiet]
      | true =>
        rw [flag] at rwait
        rw [rwait, shape]
        simp [setQueue, wakeup, System.quiet]
    rw [after]
    have off : ∀ q, mp ∉ queue q := fun q member => by simp [(lists.inQueue q mp).mp member] at was
    refine ⟨qp, update place mp (.queued qp), update queue qp (queue qp ++ [mp]), free,
      ⟨lists'.congr ?_ ?_ fun q => ?_, ⟨fun q other => update_of_ne other _ _, fun q other => ?_, fun q other => update_of_ne other _ _,
        fun q m member => ?_⟩, alone, fun m p' other => ?_, fun m => ?_, ?_, ?_, fun spare => ?_, fun m => ?_⟩,
      fun _ => ⟨fun flag => .inl ?_, fun p' uap' other asleep flag => .inr ⟨?_, fun full => ?_⟩⟩, ⟨?_, ?_⟩, ?_⟩
    · rw [shape]
      rfl
    · rw [shape]
      rfl
    · rw [shape]
      by_cases here : q = qp
      · simp [here, unlock, wakeup]
      · simp [here, unlock, wakeup]
    · exact update_of_ne other _ _
    · have apart : m ≠ mp := fun same => off q (same ▸ member)
      simp [unlock, wakeup, apart]
    · by_cases here : m = mp
      · simp [here, was, Ne.symm other]
      · simp [here]
    · by_cases here : m = mp
      · simp [here]
      · simp [here, notHeld m here]
    · simp [Phase.holds]
    · simp
    · simp only [allocated, unlock, wakeup, update_self] at spare alloc
      rw [spare] at alloc
      cases alloc
    · by_cases here : m = mp
      · simp [here, was]
      · simp [here]
    · simp [unlock, wakeup, flag]
    · simpa [unlock, wakeup] using flag
    · simp only [unlock, wakeup, update_self]
      omega
    · simp
    · simp
    · rw [at_]
      refine .queued was ?_ ?_ (fun q other => by simp [unlock, wakeup, other]) ?_ ?_ <;> simp [unlock, wakeup]

theorem Emptied.congr {h : Nat → Header} {l : List Nat} {s s' t' : State} (emptied : Emptied info h l s t)
    (before : s'.msgmap = s.msgmap) (warned : s'.lost = s.lost) (after : t'.msgmap = t.msgmap) (warned' : t'.lost = t.lost) :
    Emptied info h l s' t' := by
  induction emptied generalizing s' with
  | nil map lost => exact .nil ((after.trans map).trans before.symm) ((warned'.trans lost).trans warned.symm)
  | cons first rest ih => exact .cons ⟨before ▸ first.map, before ▸ warned ▸ first.lost⟩ (ih rfl rfl after warned')

structure AllFreed (info : Msginfo) (s t : State) (place : Nat → Place) (queue : Nat → List Nat) (qp : Nat) : Prop where
  lists : ∃ free, Lists t (fun mp => if mp ∈ queue qp then .free else place mp) (update queue qp []) free
  emptied : Emptied info s.msgh (queue qp) s t
  msgque : ∃ wwait, t.msgque = update s.msgque qp { s.msgque qp with msgFirst := none, msgLast := none, msgQnum := 0, wwait }
  msgh : t.msgh = s.msgh
  msglock : t.msglock = s.msglock
  woken : s.woken ⊆ t.woken
  wakes : (s.msgque qp).wwait = true → (t.msgque qp).wwait = true ∨ .queue qp ∈ t.woken

theorem allFreed_empty {s : State} (lists : Lists s place queue free) (empty : (s.msgque qp).msgFirst = none) :
    AllFreed info s s place queue qp := by
  have nothing : queue qp = [] := by
    have head := (lists.queues qp).head
    rw [empty] at head
    exact List.head?_eq_none_iff.mp head.symm
  have last := lists.last qp
  have qnum := lists.qnum qp
  rw [nothing] at last qnum
  refine ⟨⟨free, ?_⟩, ?_, ⟨(s.msgque qp).wwait, ?_⟩, rfl, rfl, fun _ => id, .inl⟩
  · have same : update queue qp [] = queue := by
      rw [← nothing]
      exact update_eq_self ..
    rw [same]
    simpa [nothing] using lists
  · rw [nothing]
    exact .nil rfl rfl
  · rw [eq_comm, update_eq_self_iff]
    rw [List.getLast?_nil] at last
    rw [List.length_nil] at qnum
    cases h : s.msgque qp
    simp_all

theorem freeAll_spec {s : State} (lists : Lists s place queue free)
    (result : freeAll info qp time s = some t) : AllFreed info s t place queue qp := by
  induction time generalizing s place queue free with
  | zero =>
    simp only [freeAll] at result
    split at result
    · next empty =>
      cases result
      exact allFreed_empty lists empty
    · cases result
  | succ time ih =>
    simp only [freeAll] at result
    split at result
    · next empty =>
      cases result
      exact allFreed_empty lists empty
    · next mp first =>
      obtain ⟨u, freed_, result⟩ := Option.bind_eq_some_iff.mp result
      have head := (lists.queues qp).head
      rw [first] at head
      obtain ⟨rest, all⟩ := List.head?_eq_some_iff.mp head.symm
      have split : queue qp = [] ++ mp :: rest := all
      obtain ⟨freed, released⟩ := msgfree_freed lists split freed_
      have lists' := lists.freed split freed
      obtain ⟨⟨free', lists''⟩, emptied, ⟨wwait, msgque⟩, msgh, msglock, woken, wakes⟩ := ih lists' result
      simp only [update_self, List.nil_append, update_idem] at emptied lists''
      have before : u.msgque = update s.msgque qp { s.msgque qp with
          msgFirst := rest.head?, msgLast := rest.getLast?, msgQnum := rest.length, wwait := false } := by
        funext q
        by_cases here : q = qp
        · subst here
          rw [freed.here, update_self]
          rfl
        · rw [freed.others q here, update_of_ne here]
      refine ⟨⟨free', ?_⟩, ?_, ⟨wwait, ?_⟩, msgh.trans freed.msgh, msglock.trans freed.msglock, fun _ old => woken (freed.woken old),
        fun flag => .inr (woken (freed.wakes flag))⟩
      · have places : (fun m => if m ∈ rest then Place.free else update place mp .free m) =
            fun m => if m ∈ queue qp then Place.free else place m := by
          funext m
          rw [all]
          by_cases here : m = mp
          · simp [here]
          · simp [here]
        rw [← places]
        exact lists''
      · rw [all]
        rw [freed.msgh] at emptied
        exact .cons released emptied
      · rw [msgque, before]
        simp

theorem alloc_kept (mode : Nat) {low : Nat} (small : low < 512) : (mode / 512 * 512 + low) &&& IPC_ALLOC = mode &&& IPC_ALLOC := by
  have bit : IPC_ALLOC = 2 ^ 15 := rfl
  have same : (mode / 512 * 512 + low) / 2 ^ 15 = mode / 2 ^ 15 := by omega
  rw [bit, Nat.and_two_pow, Nat.and_two_pow, Nat.testBit_eq_decide_div_mod_eq, Nat.testBit_eq_decide_div_mod_eq, same]

theorem removeQueue_does (good : Good info k place queue free) (idle : k.phase p = .running)
    (alone : ∀ p, (k.phase p).holds info ≠ some qp) {msgid : Int}
    (called : removeQueue info time (touched k.quiet qp (k.state.msgque qp) true [] k.state.msgmap.mapwant) qp msgid = some t) :
    Does info k event p (unlock t qp) .running place queue := by
  have notHeld : ∀ m, place m ≠ .held p := by
    intro m held
    obtain ⟨uap', spot', other⟩ := (good.held m p).mp held
    simp [idle] at other
  simp only [removeQueue, Option.bind_eq_bind, Option.pure_def] at called
  obtain ⟨u, emptied, called⟩ := Option.bind_eq_some_iff.mp called
  have same : touched k.quiet qp (k.state.msgque qp) true [] k.state.msgmap.mapwant =
      { k.quiet with msglock := update k.state.msglock qp true } := by simp [touched, System.quiet]
  rw [same] at emptied
  have lists : Lists { k.quiet with msglock := update k.state.msglock qp true } place queue free :=
    good.lists.congr rfl rfl fun _ => ⟨rfl, rfl, rfl⟩
  obtain ⟨⟨free', lists'⟩, gone, ⟨wwait, msgque⟩, msgh, msglock, _, wakes⟩ := freeAll_spec lists emptied
  have rwait : (u.msgque qp).rwait = (k.state.msgque qp).rwait := by simp [msgque]
  have others : ∀ q, q ≠ qp → u.msgque q = k.state.msgque q := by
    intro q other
    simp [msgque, other]
  have final : ∃ woken perm, t = { u with
      msgque := update u.msgque qp { u.msgque qp with msgCbytes := 0, msgPerm := perm, rwait := false, wwait := false }, woken } ∧
      perm.mode = 0 ∧ u.woken ⊆ woken ∧ ((u.msgque qp).rwait = true → .qnum qp ∈ woken) ∧
      ((u.msgque qp).wwait = true → .queue qp ∈ woken) := by
    cases called
    cases reads : (u.msgque qp).rwait <;> cases writes : (u.msgque qp).wwait <;>
      exact ⟨_, _, rfl, rfl, fun _ old => by simp [wakeup, old], by simp [wakeup], by simp [wakeup]⟩
  obtain ⟨woken, perm, rfl, mode, more, receivers, senders⟩ := final
  have off : perm.mode &&& IPC_ALLOC = 0 := by
    rw [mode]
    rfl
  refine ⟨qp, _, _, free', ⟨lists'.congr rfl rfl fun q => ?_, ⟨fun q other => ?_, fun q other => ?_, fun q other => update_of_ne other _ _,
      fun _ m _ => congrFun msgh m⟩, fun p' _ => alone p', fun m p' other => ?_, fun m => ?_, ?_, ?_, fun _ => ?_, fun m => ?_⟩,
    fun _ => ⟨fun flag => .inl ?_, fun p' uap' other asleep flag => .inl ?_⟩, ⟨?_, ?_⟩, ?_⟩
  · by_cases here : q = qp
    · simp [here, unlock, wakeup]
    · simp [here, unlock, wakeup]
  · simp [unlock, wakeup, other, others q other]
  · simp [unlock, wakeup, other, msglock, System.quiet]
  · by_cases member : m ∈ queue qp
    · simp [member, (good.lists.inQueue qp m).mp member]
    · simp [member]
  · by_cases member : m ∈ queue qp
    · simp [member]
    · simp [member, notHeld m]
  · simp [Phase.holds]
  · simp
  · simp [unlock, wakeup]
  · by_cases member : m ∈ queue qp
    · simp [member, (good.lists.inQueue qp m).mp member]
    · simp [member]
  · exact List.mem_cons_of_mem _ (receivers (rwait.trans flag))
  · rcases wakes flag with still | awake
    · exact List.mem_cons_of_mem _ (senders still)
    · exact List.mem_cons_of_mem _ (more awake)
  · simp
  · simp
  · rw [idle]
    refine .removed ?_ msgh ?_ (fun q other => ?_) fun _ => rfl
    · exact Emptied.congr gone rfl rfl rfl rfl
    · simp [unlock, wakeup]
    · simp [unlock, wakeup, other, others q other]

theorem msgctl_does (good : Good info k place queue free) (idle : k.phase p = .running) {msgid : Int}
    (unlocked : k.unlocked info msgid) {cmd : Cmd} {cred : Cred}
    (called : msgctl info time k.quiet msgid cmd cred = some (error, t)) :
    Does info k (setEvent info msgid cmd error) p t .running place queue := by
  have idle' : (k.phase p).holds info = none := by simp [idle, Phase.holds]
  have calm : ∀ event qp lock woken, (∀ p, (k.phase p).holds info ≠ some qp) →
      Calm info k event queue p qp (k.state.msgque qp) lock woken .running := by
    intro event qp lock woken alone
    refine calm_same good (fun p' _ => alone p') (.inl idle') lock woken rfl ?_ ?_ <;> simp [Phase.channel]
  rcases msgconv_spec good unlocked with ⟨error, qp, lock, woken, conv, alone⟩ | ⟨conv, alloc, alone⟩
  · simp only [msgctl, conv, Option.some.injEq, Prod.mk.injEq] at called
    obtain ⟨rfl, rfl⟩ := called
    exact (calm _ qp lock woken alone).does good _
  · have mode : (k.state.msgque (slot info msgid)).msgPerm.mode &&& IPC_ALLOC ≠ 0 := by simpa [allocated] using alloc
    simp only [msgctl, conv, touched_msgque, unlock_touched, setQueue_touched] at called
    split at called
    · cases called
      exact (calm _ _ _ _ alone).does good _
    · split at called
      · obtain ⟨u, removed, same⟩ := Option.map_eq_some_iff.mp called
        cases same
        exact removeQueue_does good idle alone removed
      · cases called
        exact (calm _ _ _ _ alone).does good _
      · next arg =>
        split at called
        · cases called
          exact (calm _ _ _ _ alone).does good _
        · split at called
          · cases called
            exact (calm _ _ _ _ alone).does good _
          · cases called
            have kept := alloc_kept (k.state.msgque (slot info msgid)).msgPerm.mode (Nat.mod_lt arg.mode (show 0 < 512 by decide))
            have sets : Calm info k (.set (slot info msgid) arg) queue p (slot info msgid)
                { k.state.msgque (slot info msgid) with
                  msgPerm := { (k.state.msgque (slot info msgid)).msgPerm with
                    uid := arg.uid.toNat, gid := arg.gid.toNat
                    mode := (k.state.msgque (slot info msgid)).msgPerm.mode / 512 * 512 + arg.mode % 512 }
                  msgQbytes := arg.msgQbytes } false [.lock (slot info msgid)] .running := by
              refine ⟨fun p' _ => alone p', .inl idle', rfl, rfl, rfl, rfl, fun spare => absurd (kept.symm.trans spare) mode, ?_, ?_,
                ?_, .inr, fun may p' uap _ asleep flag => .inr ⟨flag, fun _ => may p' uap asleep⟩, ?_, ?_⟩ <;> simp [Phase.holds]
            exact sets.does good _

theorem ipcget_spare {s : State} {key : Int} {flag : Nat} (entry : ipcget info s key flag = .ok (true, qp)) :
    allocated s qp = false := by
  have spare : ∀ {q}, (List.range info.msgmni).find? (fun qp => ¬ allocated s qp) = some q → allocated s q = false := by
    intro q found
    simpa using List.find?_some found
  simp only [ipcget] at entry
  split at entry
  · split at entry
    · next found =>
      cases entry
      exact spare found
    · cases entry
  · split at entry
    · split at entry
      · cases entry
      · split at entry <;> cases entry
    · split at entry
      · cases entry
      · split at entry
        · next found =>
          cases entry
          exact spare found
        · cases entry

theorem msgget_does (good : Good info k place queue free) (idle : k.phase p = .running) (key : Int) (msgflg uid gid : Nat) :
    Does info k event p (msgget info k.quiet key msgflg uid gid).2 .running place queue := by
  have idle : (k.phase p).holds info = none := by simp [idle, Phase.holds]
  have nothing : Does info k event p k.quiet .running place queue := by
    have calm : Calm info k event queue p info.msgmni (k.quiet.msgque info.msgmni) (k.quiet.msglock info.msgmni) [] .running := by
      refine calm_same good (fun p' _ => holds_inside info _) (.inl idle) _ _ rfl ?_ ?_ <;> simp [Phase.channel]
    have does := calm.does good k.quiet.msgmap.mapwant
    rwa [← quiet_woken k, touched_self] at does
  simp only [msgget]
  split
  · exact nothing
  · next new qp entry =>
    cases new with
    | false => exact nothing
    | true =>
      have free_ : allocated k.state qp = false := ipcget_spare entry
      have alone : ∀ p, (k.phase p).holds info ≠ some qp := by
        intro p holds
        rw [(good.locked p qp holds).2] at free_
        cases free_
      obtain ⟨empty, rwait, wwait⟩ := good.spare qp free_
      have first := (good.lists.queues qp).head
      have last := good.lists.last qp
      have qnum := good.lists.qnum qp
      rw [empty] at first last qnum
      simp only [if_true, quiet_msgque]
      have fresh : Calm info k event queue p qp
          { k.state.msgque qp with
            msgPerm := { (k.state.msgque qp).msgPerm with uid, cuid := uid, gid, cgid := gid, mode := IPC_ALLOC + msgflg % 512 }
            key, rwait := false, wwait := false
            msgFirst := none, msgLast := none, msgQnum := 0, msgQbytes := info.msgmnb % 2 ^ 16 }
          (k.state.msglock qp) [] .running := by
        refine ⟨fun p' _ => alone p', .inl idle, first.symm, last.symm, qnum.symm, rfl, fun _ => ⟨empty, rfl, rfl⟩, ?_, ?_, ?_,
          fun flag => ?_, fun _ p' uap _ _ flag => ?_, ?_, ?_⟩
        · simp [Phase.holds]
        · simp
        · simp
        · rw [rwait] at flag
          cases flag
        · rw [wwait] at flag
          cases flag
        · simp
        · simp
      have does := fresh.does good k.state.msgmap.mapwant
      simpa [touched, setQueue, System.quiet] using does

theorem Step.does (good : Good info k place queue free) {k' : System} (step : Step info k event k') :
    (∃ p t new, k' = k.settle info p t new ∧ Does info k event p t new place queue) ∨
      ∃ p new, k' = { k with phase := update k.phase p new } ∧ (k.phase p).holds info = none ∧ new.holds info = none ∧
        new.channel info = none := by
  cases step with
  | msgrcv idle uap cred unlocked => exact .inl ⟨_, _, _, rfl, msgrcv_does good idle uap cred unlocked⟩
  | findmsg at_ unlocked called => exact .inl ⟨_, _, _, rfl, findmsg_does good at_ unlocked called⟩
  | copiedOut at_ fault called => exact .inl ⟨_, _, _, rfl, msgrcvEnd_does good at_ called⟩
  | msgsnd idle msqid msgsz msgflg type cred unlocked =>
    exact .inl ⟨_, _, _, rfl, msgsnd_does good idle msqid msgsz msgflg type cred unlocked⟩
  | getres at_ unlocked called => exact .inl ⟨_, _, _, rfl, getres_does good at_ unlocked called⟩
  | copiedIn at_ fault called => exact .inl ⟨_, _, _, rfl, msgsndEnd_does good at_ called⟩
  | @roused p channel sleeping =>
    refine .inr ⟨p, _, rfl, ?_⟩
    cases h : k.phase p <;> simp [h, Phase.channel, Phase.holds, Phase.rouse] at sleeping ⊢
  | interrupted at_ unlocked => exact .inl ⟨_, _, _, rfl, msgsndIntr_does good _ at_ unlocked⟩
  | @aborted p waiting =>
    refine .inr ⟨p, _, rfl, ?_, rfl, rfl⟩
    rcases waiting with ⟨uap, at_⟩ | ⟨uap, slept, at_⟩ <;> simp [at_, Phase.holds]
  | msgctl idle unlocked cmd cred called => exact .inl ⟨_, _, _, rfl, msgctl_does good idle unlocked called⟩
  | msgget idle key msgflg uid gid => exact .inl ⟨_, _, _, rfl, msgget_does good idle key msgflg uid gid⟩

inductive Args
  | rcv (uap : Rcv)
  | snd (uap : Snd)

def callArgs : Phase → Option Args
  | .running => none
  | .findmsg uap => some (.rcv uap)
  | .asleepRcv uap => some (.rcv uap)
  | .copyout uap _ _ _ => some (.rcv uap)
  | .getres uap _ => some (.snd uap)
  | .asleepSnd uap _ => some (.snd uap)
  | .copyin uap _ _ => some (.snd uap)

theorem wakeprocs_args (info : Msginfo) (woken : List Channel) (phase : Nat → Phase) (p : Nat) :
    callArgs (wakeprocs info woken phase p) = callArgs (phase p) := by
  unfold wakeprocs
  split
  · cases phase p <;> rfl
  · rfl

theorem msgsnd_checks {s : State} {msqid msgsz : Int} {msgflg : Nat} {type : Option Int} {cred : Cred} {uap : Snd}
    (called : msgsnd info s msqid msgsz msgflg type cred = (.ok uap, t)) : uap.cnt ≤ info.msgmax := by
  simp only [msgsnd] at called
  split at called
  · cases called
  · split at called
    · cases called
    · split at called
      · cases called
      · next size =>
        split at called
        · cases called
        · split at called
          · cases called
          · cases called
            simp only
            omega

theorem Step.args {k' : System} (step : Step info k event k') (p : Nat) (arguments : Args) (at_ : callArgs (k'.phase p) = some arguments) :
    (∃ uap, arguments = .rcv uap ∧ event = .ask uap) ∨ (∃ uap, arguments = .snd uap ∧ uap.cnt ≤ info.msgmax) ∨
      callArgs (k.phase p) = some arguments := by
  have settled : ∀ {p' t new}, (callArgs new = some arguments → (∃ uap, arguments = .rcv uap ∧ event = .ask uap) ∨
        (∃ uap, arguments = .snd uap ∧ uap.cnt ≤ info.msgmax) ∨ callArgs (k.phase p') = some arguments) →
      callArgs ((k.settle info p' t new).phase p) = some arguments → (∃ uap, arguments = .rcv uap ∧ event = .ask uap) ∨
        (∃ uap, arguments = .snd uap ∧ uap.cnt ≤ info.msgmax) ∨ callArgs (k.phase p) = some arguments := by
    intro p' t new here at_
    by_cases same : p = p'
    · subst same
      simp only [System.settle, update_self] at at_
      exact here at_
    · simp only [System.settle, update_of_ne same, wakeprocs_args] at at_
      exact .inr (.inr at_)
  have turned : ∀ {p' new}, (callArgs new = some arguments → callArgs (k.phase p') = some arguments) →
      callArgs (update k.phase p' new p) = some arguments → callArgs (k.phase p) = some arguments := by
    intro p' new here at_
    by_cases same : p = p'
    · subst same
      rw [update_self] at at_
      exact here at_
    · rwa [update_of_ne same] at at_
  cases step with
  | msgrcv idle uap cred unlocked =>
    refine settled (fun same => .inl ?_) at_
    cases h : (msgrcv info k.quiet uap cred).1 <;> simp only [h, askedPhase, callArgs] at same <;> cases same
    exact ⟨uap, rfl, rfl⟩
  | findmsg at' unlocked called =>
    refine settled (fun same => .inr (.inr ?_)) at_
    next found t =>
    rw [at']
    cases found <;> simp only [foundPhase, callArgs] at same ⊢ <;> first | exact same | cases same
  | copiedOut at' fault called => exact settled (by simp [callArgs]) at_
  | msgsnd idle msqid msgsz msgflg type cred unlocked =>
    refine settled (fun same => .inr (.inl ?_)) at_
    cases h : (msgsnd info k.quiet msqid msgsz msgflg type cred).1 <;> simp only [h, sentPhase, callArgs] at same <;> cases same
    exact ⟨_, rfl, msgsnd_checks (Prod.ext h rfl)⟩
  | getres at' unlocked called =>
    refine settled (fun same => .inr (.inr ?_)) at_
    next got t =>
    rw [at']
    cases got <;> simp only [gotPhase, callArgs] at same ⊢ <;> first | exact same | cases same
  | copiedIn at' fault called => exact settled (by simp [callArgs]) at_
  | roused sleeping =>
    refine .inr (.inr (turned (fun same => ?_) at_))
    next p' channel => cases h : k.phase p' <;> simpa only [h, Phase.rouse, callArgs] using same
  | interrupted at' unlocked => exact settled (by simp [callArgs]) at_
  | aborted waiting => exact .inr (.inr (turned (by simp [callArgs]) at_))
  | msgctl idle unlocked cmd cred called => exact settled (by simp [callArgs]) at_
  | msgget idle key msgflg uid gid => exact settled (by simp [callArgs]) at_

theorem Good.turned (good : Good info k place queue free) (was : (k.phase p).holds info = none)
    (holds : new.holds info = none) : Good info { k with phase := update k.phase p new } place queue free := by
  have same : ∀ p', (update k.phase p new p').holds info = (k.phase p').holds info := by
    intro p'
    by_cases here : p' = p
    · subst here
      rw [update_self, was, holds]
    · rw [update_of_ne here]
  have kept : ∀ p' phase, phase.holds info ≠ none → (update k.phase p new p' = phase ↔ k.phase p' = phase) := by
    intro p' phase some_
    by_cases here : p' = p
    · subst here
      rw [update_self]
      constructor
      · rintro rfl
        exact absurd holds some_
      · rintro rfl
        exact absurd was some_
    · rw [update_of_ne here]
  refine ⟨good.lists, fun mp p' => ?_, fun p' q at_ => good.locked p' q (same p' ▸ at_),
    fun p₁ p₂ q first second => good.alone p₁ p₂ q (same p₁ ▸ first) (same p₂ ▸ second), fun p' uap spmp smp sz at_ => ?_, good.spare,
    good.outside⟩
  · rw [good.held]
    simp only [kept p' (.copyin _ mp _) (by simp [Phase.holds])]
  · exact good.chosen p' uap spmp smp sz ((kept p' _ (by simp [Phase.holds])).mp at_)

theorem msginit_good {s : State} (init : msginit info = some s) : ∃ place free, Good info ⟨s, fun _ => .running⟩ place (fun _ => []) free := by
  obtain ⟨⟨woken, _, same⟩, _⟩ := freeSpace_spec init
  rw [same]
  have chain : ∀ count first, first + count = info.msgtql →
      Seg (fun mp => if mp + 1 < info.msgtql then some (mp + 1) else none)
        (if first < info.msgtql then some first else none) (List.range' first count) none := by
    intro count
    induction count with
    | zero =>
      intro first all
      simp [Seg, ← all]
    | succ count ih =>
      intro first all
      rw [List.range'_succ, if_pos (by omega)]
      exact ⟨rfl, ih (first + 1) (by omega)⟩
  have all := chain info.msgtql 0 (by omega)
  rw [if_pos info.someHeader] at all
  refine ⟨fun mp => if mp < info.msgtql then .free else .outside, List.range' 0 info.msgtql,
    ⟨⟨all, fun _ => rfl, fun _ => rfl, fun _ => rfl, fun mp => ?_, fun qp mp => ?_⟩, fun mp p => ?_, ?_, ?_, ?_, fun _ _ => ⟨rfl, rfl, rfl⟩,
      fun mp => ?_⟩⟩
  · simp
  · by_cases inside : mp < info.msgtql <;> simp [inside]
  · by_cases inside : mp < info.msgtql <;> simp [inside]
  · simp [Phase.holds]
  · simp [Phase.holds]
  · simp
  · by_cases inside : mp < info.msgtql
    · simp [inside]
    · simp [inside, not_lt.mp inside]

theorem Run.good {allowed : System → Event → Prop} (run : Run info allowed k) : ∃ place queue free, Good info k place queue free := by
  induction run with
  | start init =>
    obtain ⟨place, free, good⟩ := msginit_good init
    exact ⟨place, _, free, good⟩
  | step before may step ih =>
    obtain ⟨place, queue, free, good⟩ := ih
    rcases Step.does good step with ⟨p, t, new, rfl, qp, place', queue', free', stretch, _⟩ | ⟨p, new, rfl, was, holds, _⟩
    · exact ⟨place', queue', free', good.settle stretch⟩
    · exact ⟨place, queue, free, Good.turned good was holds⟩

end Svr4.Proofs.MsgCalls
