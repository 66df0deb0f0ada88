import Svr4.Proofs.MsgLists

/-! The processes in `msgsnd` and `msgrcv`. Whatever changes a queue wakes who waits for
it, but for IPC_SET. -/

namespace Svr4.Proofs.MsgSleep
open Function Msg Chain MsgLists
open Sem (Cred)

/-- A process is in no call, about to lock its queue, asleep, or in `copyin` or `copyout`
with the queue locked. -/
inductive Phase
  | running
  | findmsg (uap : Rcv)
  | asleepRcv (uap : Rcv)
  | copyout (uap : Rcv) (spmp : Option Nat) (smp sz : Nat)
  | getres (uap : Snd) (slept : Option Channel)
  | asleepSnd (uap : Snd) (channel : Channel)
  | copyin (uap : Snd) (mp spot : Nat)

namespace Phase

def holds (info : Msginfo) : Phase → Option Nat
  | copyout uap _ _ _ => some (slot info uap.msqid)
  | copyin uap _ _ => some (slot info uap.msqid)
  | _ => none

def channel (info : Msginfo) : Phase → Option Channel
  | asleepRcv uap => some (.qnum (slot info uap.msqid))
  | asleepSnd _ channel => some channel
  | _ => none

def rouse : Phase → Phase
  | asleepRcv uap => findmsg uap
  | asleepSnd uap channel => getres uap (some channel)
  | other => other

end Phase

def wakeprocs (info : Msginfo) (woken : List Channel) (phase : Nat → Phase) (p : Nat) : Phase :=
  if ∃ channel ∈ woken, (phase p).channel info = some channel then (phase p).rouse else phase p

structure System where
  state : State
  phase : Nat → Phase

namespace System

def quiet (k : System) : State := { k.state with woken := [] }

/-- Process `p` did a stretch of its call, and has come to a new phase. -/
def settle (info : Msginfo) (k : System) (p : Nat) (t : State) (new : Phase) : System :=
  ⟨t, update (wakeprocs info t.woken k.phase) p new⟩

def unlocked (info : Msginfo) (k : System) (id : Int) : Prop := id < 0 ∨ k.state.msglock (slot info id) = false

end System

inductive Event
  | ask (uap : Rcv)
  | set (qp : Nat) (arg : SetArg)
  | other

def setEvent (info : Msginfo) (msgid : Int) : Cmd → Option Errno → Event
  | .IPC_SET (some arg), none => .set (slot info msgid) arg
  | _, _ => .other

def askedPhase (uap : Rcv) : Option Errno → Phase
  | some _ => .running
  | none => .findmsg uap

def sentPhase : Except Errno Snd → Phase
  | .error _ => .running
  | .ok uap => .getres uap none

def foundPhase (uap : Rcv) : Found → Phase
  | .error _ => .running
  | .asleep => .asleepRcv uap
  | .copyout spmp smp sz => .copyout uap spmp smp sz

def gotPhase (uap : Snd) : Got → Phase
  | .error _ => .running
  | .asleep channel => .asleepSnd uap channel
  | .copyin mp spot => .copyin uap mp spot

/-- A stretch of a call, from a point where it may have slept to the next such point; a
sleeper taken off its sleep queue by a signal, or early; a call that ends in its wait
for a lock, or with an interrupted sleep. -/
inductive Step (info : Msginfo) (k : System) : Event → System → Prop
  | msgrcv {p : Nat} (idle : k.phase p = .running) (uap : Rcv) (cred : Cred) (free : k.unlocked info uap.msqid) :
      Step info k (.ask uap) (k.settle info p (msgrcv info k.quiet uap cred).2
        (askedPhase uap (msgrcv info k.quiet uap cred).1))
  | findmsg {p : Nat} {uap : Rcv} (at_ : k.phase p = .findmsg uap) (free : k.unlocked info uap.msqid) {time : Nat}
      {found : Found} {t : State} (called : findmsg info time k.quiet uap = some (found, t)) :
      Step info k .other (k.settle info p t (foundPhase uap found))
  | copiedOut {p : Nat} {uap : Rcv} {spmp : Option Nat} {smp sz : Nat} (at_ : k.phase p = .copyout uap spmp smp sz)
      (fault : Bool) {error : Option Errno} {t : State}
      (called : msgrcvEnd info k.quiet (slot info uap.msqid) spmp smp fault = some (error, t)) :
      Step info k .other (k.settle info p t .running)
  | msgsnd {p : Nat} (idle : k.phase p = .running) (msqid msgsz : Int) (msgflg : Nat) (type : Option Int) (cred : Cred)
      (free : k.unlocked info msqid) :
      Step info k .other (k.settle info p (msgsnd info k.quiet msqid msgsz msgflg type cred).2
        (sentPhase (msgsnd info k.quiet msqid msgsz msgflg type cred).1))
  | getres {p : Nat} {uap : Snd} {slept : Option Channel} (at_ : k.phase p = .getres uap slept)
      (free : k.unlocked info uap.msqid) {got : Got} {t : State} (called : getres info k.quiet uap = some (got, t)) :
      Step info k .other (k.settle info p t (gotPhase uap got))
  | copiedIn {p : Nat} {uap : Snd} {mp spot : Nat} (at_ : k.phase p = .copyin uap mp spot) (fault : Bool)
      {error : Option Errno} {t : State}
      (called : msgsndEnd info k.quiet (slot info uap.msqid) uap mp spot fault = some (error, t)) :
      Step info k .other (k.settle info p t .running)
  | roused {p : Nat} {channel : Channel} (sleeping : (k.phase p).channel info = some channel) :
      Step info k .other { k with phase := update k.phase p (k.phase p).rouse }
  | interrupted {p : Nat} {uap : Snd} {channel : Channel} (at_ : k.phase p = .getres uap (some channel))
      (free : k.unlocked info uap.msqid) :
      Step info k .other (k.settle info p (msgsndIntr info k.quiet uap channel).2 .running)
  | aborted {p : Nat} (waiting : (∃ uap, k.phase p = .findmsg uap) ∨ ∃ uap slept, k.phase p = .getres uap slept) :
      Step info k .other { k with phase := update k.phase p .running }
  | msgctl {p : Nat} (idle : k.phase p = .running) {msgid : Int} (free : k.unlocked info msgid) (cmd : Cmd) (cred : Cred)
      {time : Nat} {error : Option Errno} {t : State} (called : msgctl info time k.quiet msgid cmd cred = some (error, t)) :
      Step info k (setEvent info msgid cmd error) (k.settle info p t .running)
  | msgget {p : Nat} (idle : k.phase p = .running) (key : Int) (msgflg uid gid : Nat) :
      Step info k .other (k.settle info p (msgget info k.quiet key msgflg uid gid).2 .running)

inductive Run (info : Msginfo) (allowed : System → Event → Prop) : System → Prop
  | start {s : State} (init : msginit info = some s) : Run info allowed ⟨s, fun _ => .running⟩
  | step {k k' : System} {event : Event} (before : Run info allowed k) (may : allowed k event)
      (step : Step info k event k') : Run info allowed k'

theorem wakeprocs_holds (info : Msginfo) (woken : List Channel) (phase : Nat → Phase) (p : Nat) :
    (wakeprocs info woken phase p).holds info = (phase p).holds info := by
  unfold wakeprocs
  split
  · cases phase p <;> rfl
  · rfl

theorem wakeprocs_copyin {info : Msginfo} {woken : List Channel} {phase : Nat → Phase} {p : Nat} {uap : Snd} {mp spot : Nat} :
    wakeprocs info woken phase p = .copyin uap mp spot ↔ phase p = .copyin uap mp spot := by
  unfold wakeprocs
  split
  · next hit =>
    obtain ⟨channel, _, same⟩ := hit
    cases h : phase p <;> simp [h, Phase.rouse, Phase.channel] at same ⊢
  · rfl

theorem wakeprocs_copyout {info : Msginfo} {woken : List Channel} {phase : Nat → Phase} {p : Nat} {uap : Rcv}
    {spmp : Option Nat} {smp sz : Nat} :
    wakeprocs info woken phase p = .copyout uap spmp smp sz ↔ phase p = .copyout uap spmp smp sz := by
  unfold wakeprocs
  split
  · next hit =>
    obtain ⟨channel, _, same⟩ := hit
    cases h : phase p <;> simp [h, Phase.rouse, Phase.channel] at same ⊢
  · rfl

theorem wakeprocs_asleep {info : Msginfo} {woken : List Channel} {phase : Nat → Phase} {p : Nat} {channel : Channel}
    (asleep : (wakeprocs info woken phase p).channel info = some channel) :
    wakeprocs info woken phase p = phase p ∧ channel ∉ woken := by
  unfold wakeprocs at asleep ⊢
  split at asleep
  · cases h : phase p <;> simp [h, Phase.rouse, Phase.channel] at asleep
  · next none_ =>
    rw [if_neg none_]
    exact ⟨rfl, fun member => none_ ⟨channel, member, asleep⟩⟩

structure Chosen (s : State) (l : List Nat) (uap : Rcv) (spmp : Option Nat) (smp sz : Nat) : Prop where
  place : ∃ before after, l = before ++ smp :: after ∧ spmp = before.getLast? ∧ Selected s.msgh uap.msgtyp before smp after
  size : sz = min uap.msgsz.toNat (s.msgh smp).msgTs
  fits : uap.msgsz.toNat < (s.msgh smp).msgTs → uap.msgflg &&& MSG_NOERROR ≠ 0

structure Good (info : Msginfo) (k : System) (place : Nat → Place) (queue : Nat → List Nat) (free : List Nat) : Prop where
  lists : Lists k.state place queue free
  held : ∀ mp p, place mp = .held p ↔ ∃ uap spot, k.phase p = .copyin uap mp spot
  locked : ∀ p qp, (k.phase p).holds info = some qp → k.state.msglock qp = true ∧ allocated k.state qp = true
  alone : ∀ p p' qp, (k.phase p).holds info = some qp → (k.phase p').holds info = some qp → p = p'
  chosen : ∀ p uap spmp smp sz, k.phase p = .copyout uap spmp smp sz →
    Chosen k.state (queue (slot info uap.msqid)) uap spmp smp sz
  spare : ∀ qp, allocated k.state qp = false → queue qp = [] ∧ (k.state.msgque qp).rwait = false ∧ (k.state.msgque qp).wwait = false
  outside : ∀ mp, place mp = .outside ↔ info.msgtql ≤ mp

structure Only (s t : State) (queue queue' : Nat → List Nat) (qp : Nat) : Prop where
  msgque : ∀ q, q ≠ qp → t.msgque q = s.msgque q
  msglock : ∀ q, q ≠ qp → t.msglock q = s.msglock q
  lists : ∀ q, q ≠ qp → queue' q = queue q
  msgh : ∀ q m, m ∈ queue q → t.msgh m = s.msgh m

structure Stretch (info : Msginfo) (k : System) (p qp : Nat) (t : State) (new : Phase) (place place' : Nat → Place)
    (queue queue' : Nat → List Nat) (free' : List Nat) : Prop where
  lists : Lists t place' queue' free'
  only : Only k.quiet t queue queue' qp
  alone : ∀ p', p' ≠ p → (k.phase p').holds info ≠ some qp
  others : ∀ mp p', p' ≠ p → (place' mp = .held p' ↔ place mp = .held p')
  held : ∀ mp, place' mp = .held p ↔ ∃ uap spot, new = .copyin uap mp spot
  locked : ∀ q, new.holds info = some q → q = qp ∧ t.msglock qp = true ∧ allocated t qp = true
  chosen : ∀ uap spmp smp sz, new = .copyout uap spmp smp sz → Chosen t (queue' qp) uap spmp smp sz
  spare : allocated t qp = false → queue' qp = [] ∧ (t.msgque qp).rwait = false ∧ (t.msgque qp).wwait = false
  outside : ∀ mp, place' mp = .outside ↔ place mp = .outside

theorem Good.settle {info : Msginfo} {k : System} {place place' : Nat → Place} {queue queue' : Nat → List Nat}
    {free free' : List Nat} {p qp : Nat} {t : State} {new : Phase} (good : Good info k place queue free)
    (stretch : Stretch info k p qp t new place place' queue queue' free') :
    Good info (k.settle info p t new) place' queue' free' := by
  have other : ∀ p', p' ≠ p → (k.settle info p t new).phase p' = wakeprocs info t.woken k.phase p' :=
    fun p' apart => update_of_ne apart _ _
  have self : (k.settle info p t new).phase p = new := update_self ..
  have away : ∀ p' q, p' ≠ p → (k.phase p').holds info = some q → q ≠ qp := by
    rintro p' q apart holds rfl
    exact stretch.alone p' apart holds
  refine ⟨stretch.lists, fun mp p' => ?_, fun p' q holds => ?_, fun p₁ p₂ q first second => ?_,
    fun p' uap spmp smp sz at_ => ?_, fun q spare => ?_, fun mp => (stretch.outside mp).trans (good.outside mp)⟩
  · by_cases here : p' = p
    · rw [here, self]
      exact stretch.held mp
    · rw [stretch.others mp p' here, other p' here, good.held]
      simp only [wakeprocs_copyin]
  · by_cases here : p' = p
    · rw [here, self] at holds
      obtain ⟨rfl, lock, alloc⟩ := stretch.locked q holds
      exact ⟨lock, alloc⟩
    · rw [other p' here, wakeprocs_holds] at holds
      have apart := away p' q here holds
      obtain ⟨lock, alloc⟩ := good.locked p' q holds
      refine ⟨(stretch.only.msglock q apart).trans lock, ?_⟩
      have same : t.msgque q = k.state.msgque q := stretch.only.msgque q apart
      change allocated t q = true
      rw [allocated, same]
      exact alloc
  · by_cases here₁ : p₁ = p <;> by_cases here₂ : p₂ = p
    · rw [here₁, here₂]
    · rw [here₁, self] at first
      obtain ⟨rfl, _⟩ := stretch.locked q first
      rw [other p₂ here₂, wakeprocs_holds] at second
      exact absurd second (stretch.alone p₂ here₂)
    · rw [here₂, self] at second
      obtain ⟨rfl, _⟩ := stretch.locked q second
      rw [other p₁ here₁, wakeprocs_holds] at first
      exact absurd first (stretch.alone p₁ here₁)
    · rw [other p₁ here₁, wakeprocs_holds] at first
      rw [other p₂ here₂, wakeprocs_holds] at second
      exact good.alone p₁ p₂ q first second
  · by_cases here : p' = p
    · rw [here, self] at at_
      have same : slot info uap.msqid = qp := (stretch.locked _ (by rw [at_]; rfl)).1
      rw [same]
      exact stretch.chosen uap spmp smp sz at_
    · rw [other p' here, wakeprocs_copyout] at at_
      have holds : (k.phase p').holds info = some (slot info uap.msqid) := by rw [at_]; rfl
      have apart := away p' _ here holds
      obtain ⟨⟨before, after, split, prev, selected⟩, size, fits⟩ := good.chosen p' uap spmp smp sz at_
      have same : ∀ m ∈ before ++ smp :: after, t.msgh m = k.state.msgh m :=
        fun m member => stretch.only.msgh _ m (split ▸ member)
      have here_ := same smp (by simp)
      refine ⟨⟨before, after, (stretch.only.lists _ apart).trans split, prev, ?_⟩, ?_, ?_⟩
      · change Selected t.msgh uap.msgtyp before smp after
        refine ⟨?_, selected.any, fun positive m member => ?_, fun negative => ⟨fun m member => ?_, fun m member => ?_⟩⟩
        · rw [here_]
          exact selected.wanted
        · rw [same m (by simp [member])]
          exact selected.typed positive m member
        · rw [here_, same m (by simp [member])]
          exact (selected.lowest negative).1 m member
        · rw [here_, same m (by simp [member])]
          exact (selected.lowest negative).2 m member
      · change sz = min uap.msgsz.toNat (t.msgh smp).msgTs
        rw [here_]
        exact size
      · change uap.msgsz.toNat < (t.msgh smp).msgTs → _
        rw [here_]
        exact fits
  · by_cases here : q = qp
    · subst here
      exact stretch.spare spare
    · have same : t.msgque q = k.state.msgque q := stretch.only.msgque q here
      change allocated t q = false at spare
      change queue' q = [] ∧ (t.msgque q).rwait = false ∧ (t.msgque q).wwait = false
      rw [allocated, same] at spare
      rw [stretch.only.lists q here, same]
      exact good.spare q spare

structure Wakes (k : System) (p qp : Nat) (t : State) (queue queue' : Nat → List Nat) : Prop where
  receivers : (k.state.msgque qp).rwait = true → .qnum qp ∈ t.woken ∨ (t.msgque qp).rwait = true ∧
    ∀ m ∈ queue' qp, m ∈ queue qp ∧ t.msgh m = k.state.msgh m
  senders : ∀ p' uap, p' ≠ p → k.phase p' = .asleepSnd uap (.queue qp) → (k.state.msgque qp).wwait = true →
    .queue qp ∈ t.woken ∨ (t.msgque qp).wwait = true ∧
      (uap.cnt + (k.state.msgque qp).msgCbytes > (k.state.msgque qp).msgQbytes →
        uap.cnt + (t.msgque qp).msgCbytes > (t.msgque qp).msgQbytes)

structure Waiting (info : Msginfo) (t : State) (queue' : Nat → List Nat) (qp : Nat) (new : Phase) : Prop where
  sender : ∀ uap q, new = .asleepSnd uap (.queue q) → q = qp ∧ (t.msgque qp).wwait = true ∧
    uap.cnt + (t.msgque qp).msgCbytes > (t.msgque qp).msgQbytes
  receiver : ∀ uap, new = .asleepRcv uap → slot info uap.msqid = qp ∧ (t.msgque qp).rwait = true ∧
    ∀ m ∈ queue' qp, ¬ Matches uap.msgtyp (t.msgh m).msgType

inductive Emptied (info : Msginfo) (h : Nat → Header) : List Nat → State → State → Prop
  | nil {s t : State} (map : t.msgmap = s.msgmap) (lost : t.lost = s.lost) : Emptied info h [] s t
  | cons {mp : Nat} {l : List Nat} {s u t : State} (first : Released s u (btoq info (h mp).msgTs) ((h mp).msgSpot + 1).toNat)
      (rest : Emptied info h l u t) : Emptied info h (mp :: l) s t

inductive Effect (info : Msginfo) (s t : State) (place : Nat → Place) (queue : Nat → List Nat) (qp p : Nat) :
    Phase → (Nat → Place) → (Nat → List Nat) → Phase → Prop
  | none {old new : Phase} (slots : t.msgmap.slots = s.msgmap.slots) (mapsize : t.msgmap.mapsize = s.msgmap.mapsize)
      (lost : t.lost = s.lost) (msgh : t.msgh = s.msgh) (cbytes : ∀ q, (t.msgque q).msgCbytes = (s.msgque q).msgCbytes)
      (idle : old.holds info = Option.none ∨ ∃ uap spmp smp sz, old = .copyout uap spmp smp sz)
      (stays : ∀ uap mp spot, new ≠ .copyin uap mp spot) : Effect info s t place queue qp p old place queue new
  | taken {old : Phase} {uap : Snd} {mp spot : Nat} (was : place mp = .free) (msgh : t.msgh = s.msgh) (lost : t.lost = s.lost)
      (cbytes : ∀ q, (t.msgque q).msgCbytes = (s.msgque q).msgCbytes) (idle : old.holds info = Option.none)
      (space : uap.cnt = 0 ∧ spot = 0 ∧ t.msgmap = s.msgmap ∨
        uap.cnt ≠ 0 ∧ Rmap.rmalloc s.msgmap (btoq info uap.cnt) = some (spot + 1, t.msgmap)) :
      Effect info s t place queue qp p old (update place mp (.held p)) queue (.copyin uap mp spot)
  | returned {uap : Snd} {mp spot : Nat} (was : place mp = .held p) (msgh : t.msgh = s.msgh)
      (cbytes : ∀ q, (t.msgque q).msgCbytes = (s.msgque q).msgCbytes) (space : Released s t (btoq info uap.cnt) (spot + 1)) :
      Effect info s t place queue qp p (.copyin uap mp spot) (update place mp .free) queue .running
  | queued {uap : Snd} {mp spot : Nat} (was : place mp = .held p)
      (msgh : t.msgh = update s.msgh mp ⟨uap.type, uap.cnt % 2 ^ 16, if uap.cnt = 0 then -1 else short spot⟩)
      (cbytes : (t.msgque qp).msgCbytes = (s.msgque qp).msgCbytes + uap.cnt)
      (others : ∀ q, q ≠ qp → (t.msgque q).msgCbytes = (s.msgque q).msgCbytes) (map : t.msgmap = s.msgmap)
      (lost : t.lost = s.lost) :
      Effect info s t place queue qp p (.copyin uap mp spot) (update place mp (.queued qp))
        (update queue qp (queue qp ++ [mp])) .running
  | freed {uap : Rcv} {mp sz : Nat} {before after : List Nat} (split : queue qp = before ++ mp :: after) (msgh : t.msgh = s.msgh)
      (cbytes : (t.msgque qp).msgCbytes = (s.msgque qp).msgCbytes - (s.msgh mp).msgTs)
      (others : ∀ q, q ≠ qp → (t.msgque q).msgCbytes = (s.msgque q).msgCbytes)
      (space : Released s t (btoq info (s.msgh mp).msgTs) ((s.msgh mp).msgSpot + 1).toNat) :
      Effect info s t place queue qp p (.copyout uap before.getLast? mp sz) (update place mp .free)
        (update queue qp (before ++ after)) .running
  | removed {place' : Nat → Place} (emptied : Emptied info s.msgh (queue qp) s t) (msgh : t.msgh = s.msgh)
      (cbytes : (t.msgque qp).msgCbytes = 0) (others : ∀ q, q ≠ qp → (t.msgque q).msgCbytes = (s.msgque q).msgCbytes)
      (place_ : ∀ mp, place' mp = if mp ∈ queue qp then .free else place mp) :
      Effect info s t place queue qp p .running place' (update queue qp []) .running

/-- No IPC_SET makes room for a message that waits for it, and no `msgtyp` is LONG_MIN,
which has no absolute value. -/
def Careful (k : System) : Event → Prop
  | .ask uap => LONG_MIN < uap.msgtyp
  | .set qp arg => ∀ p uap, k.phase p = .asleepSnd uap (.queue qp) → uap.cnt + (k.state.msgque qp).msgCbytes > arg.msgQbytes
  | .other => True

def Does (info : Msginfo) (k : System) (event : Event) (p : Nat) (t : State) (new : Phase) (place : Nat → Place)
    (queue : Nat → List Nat) : Prop :=
  ∃ qp place' queue' free', Stretch info k p qp t new place place' queue queue' free' ∧
    (Careful k event → Wakes k p qp t queue queue') ∧ Waiting info t queue' qp new ∧
    Effect info k.quiet t place queue qp p (k.phase p) place' queue' new

end Svr4.Proofs.MsgSleep
