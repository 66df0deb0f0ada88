import Svr4.Proofs.MsgCalls
import Svr4.Proofs.RmapHistory

/-! Nobody sleeps on a message queue for what is there, unless IPC_SET made the room. -/

namespace Svr4.Proofs.MsgWakeups
open Function Msg Chain MsgLists MsgSleep MsgCalls
open Sem (Cred)

variable {allowed : System → Event → Prop}

structure Patient (info : Msginfo) (k : System) (queue : Nat → List Nat) : Prop where
  senders : ∀ p uap qp, k.phase p = .asleepSnd uap (.queue qp) → (k.state.msgque qp).wwait = true ∧
    uap.cnt + (k.state.msgque qp).msgCbytes > (k.state.msgque qp).msgQbytes
  receivers : ∀ p uap, k.phase p = .asleepRcv uap → (k.state.msgque (slot info uap.msqid)).rwait = true ∧
    ∀ m ∈ queue (slot info uap.msqid), ¬ Matches uap.msgtyp (k.state.msgh m).msgType

variable {info : Msginfo} {k k' : System} {event : Event} {p qp : Nat} {t : State} {new : Phase} {place place' : Nat → Place}
  {queue queue' : Nat → List Nat} {free free' : List Nat}

theorem Patient.settle (patient : Patient info k queue) (stretch : Stretch info k p qp t new place place' queue queue' free')
    (wakes : Wakes k p qp t queue queue') (waiting : Waiting info t queue' qp new) :
    Patient info (k.settle info p t new) queue' := by
  have other : ∀ p', p' ≠ p → (k.settle info p t new).phase p' = wakeprocs info t.woken k.phase p' :=
    fun p' apart => update_of_ne apart _ _
  have self : (k.settle info p t new).phase p = new := update_self ..
  refine ⟨fun p' uap q at_ => ?_, fun p' uap at_ => ?_⟩
  · by_cases here : p' = p
    · rw [here, self] at at_
      obtain ⟨rfl, flag, full⟩ := waiting.sender uap q at_
      exact ⟨flag, full⟩
    · rw [other p' here] at at_
      have asleep : (wakeprocs info t.woken k.phase p').channel info = some (.queue q) := by rw [at_]; rfl
      obtain ⟨same, unheard⟩ := wakeprocs_asleep asleep
      rw [same] at at_
      obtain ⟨flag, full⟩ := patient.senders p' uap q at_
      by_cases there : q = qp
      · subst there
        rcases wakes.senders p' uap here at_ flag with awake | ⟨flag', more⟩
        · exact absurd awake unheard
        · exact ⟨flag', more full⟩
      · change (t.msgque q).wwait = true ∧ uap.cnt + (t.msgque q).msgCbytes > (t.msgque q).msgQbytes
        have same : t.msgque q = k.state.msgque q := stretch.only.msgque q there
        rw [same]
        exact ⟨flag, full⟩
  · by_cases here : p' = p
    · rw [here, self] at at_
      obtain ⟨same, flag, nothing⟩ := waiting.receiver uap at_
      rw [same]
      exact ⟨flag, nothing⟩
    · rw [other p' here] at at_
      have asleep : (wakeprocs info t.woken k.phase p').channel info = some (.qnum (slot info uap.msqid)) := by rw [at_]; rfl
      obtain ⟨same, unheard⟩ := wakeprocs_asleep asleep
      rw [same] at at_
      obtain ⟨flag, nothing⟩ := patient.receivers p' uap at_
      change (t.msgque (slot info uap.msqid)).rwait = true ∧ ∀ m ∈ queue' (slot info uap.msqid), ¬ Matches uap.msgtyp (t.msgh m).msgType
      by_cases there : slot info uap.msqid = qp
      · rw [there] at flag nothing unheard ⊢
        rcases wakes.receivers flag with awake | ⟨flag', old⟩
        · exact absurd awake unheard
        · refine ⟨flag', fun m member => ?_⟩
          obtain ⟨before, same⟩ := old m member
          rw [same]
          exact nothing m before
      · have same : t.msgque (slot info uap.msqid) = k.state.msgque (slot info uap.msqid) := stretch.only.msgque _ there
        rw [same, stretch.only.lists _ there]
        refine ⟨flag, fun m member => ?_⟩
        have header : t.msgh m = k.state.msgh m := stretch.only.msgh _ m member
        rw [header]
        exact nothing m member

theorem Patient.turned (patient : Patient info k queue) (awake : new.channel info = none) :
    Patient info { k with phase := update k.phase p new } queue := by
  have kept : ∀ p' phase, phase.channel info ≠ none → update k.phase p new p' = phase → k.phase p' = phase := by
    intro p' phase asleep at_
    by_cases here : p' = p
    · rw [here, update_self] at at_
      rw [at_] at awake
      exact absurd awake asleep
    · rwa [update_of_ne here] at at_
  refine ⟨fun p' uap q at_ => ?_, fun p' uap at_ => ?_⟩
  · exact patient.senders p' uap q (kept p' _ (by simp [Phase.channel]) at_)
  · exact patient.receivers p' uap (kept p' _ (by simp [Phase.channel]) at_)

theorem Run.patient (run : Run info Careful k) : ∃ place queue free, Good info k place queue free ∧ Patient info k queue := by
  induction run with
  | start init =>
    obtain ⟨place, free, good⟩ := msginit_good init
    exact ⟨place, _, free, good, by simp, by simp⟩
  | step before may step ih =>
    obtain ⟨place, queue, free, good, patient⟩ := ih
    rcases Step.does good step with ⟨p, t, new, rfl, qp, place', queue', free', stretch, wakes, waiting, _⟩ | ⟨p, new, rfl, was, holds, awake⟩
    · exact ⟨place', queue', free', good.settle stretch, patient.settle stretch (wakes may) waiting⟩
    · exact ⟨place, queue, free, Good.turned good was holds, patient.turned awake⟩

theorem Run.asks (run : Run info Careful k) : ∀ p uap, callArgs (k.phase p) = some (.rcv uap) → LONG_MIN < uap.msgtyp := by
  induction run with
  | start init => simp [callArgs]
  | step before may step ih =>
    intro p uap at_
    rcases Step.args step p _ at_ with ⟨_, same, rfl⟩ | ⟨_, wrong, _⟩ | old
    · cases same
      exact may
    · cases wrong
    · exact ih p uap old

/-- In a run in which no IPC_SET makes room for a message that waits for it, and no
`msgrcv` asks for LONG_MIN, nobody sleeps on a queue who could go on. -/
theorem msg_sleepers_cannot_proceed (info : Msginfo) (k : System) (run : Run info Careful k) :
    (∀ p uap qp, k.phase p = .asleepSnd uap (.queue qp) →
      uap.cnt + (k.state.msgque qp).msgCbytes > (k.state.msgque qp).msgQbytes) ∧
    ∀ p uap, k.phase p = .asleepRcv uap → ∃ messages,
      Linked k.state.msgNext (k.state.msgque (slot info uap.msqid)).msgFirst messages ∧
      ∀ mp ∈ messages, ¬ Wanted uap.msgtyp (k.state.msgh mp).msgType := by
  obtain ⟨place, queue, free, good, patient⟩ := Run.patient run
  refine ⟨fun p uap qp asleep => (patient.senders p uap qp asleep).2, fun p uap asleep => ?_⟩
  refine ⟨queue _, good.lists.queues _, fun mp member wanted => ?_⟩
  apply (patient.receivers p uap asleep).2 mp member
  rw [matches_iff (Run.asks run p uap (by rw [asleep]; rfl))]
  exact wanted

def tunables : Msginfo := ⟨10, 100, 5, 1, 8, 4, 16, by decide, by decide, by decide, by decide, by decide, by decide⟩

def root : Cred := ⟨0, []⟩

def start : System where
  state := {
    msgque := fun _ => ⟨⟨0, 0, 0, 0, 0, 0⟩, 0, false, false, none, none, 0, 0, 0⟩
    msglock := fun _ => false
    msgNext := fun mp => if mp + 1 < 4 then some (mp + 1) else none
    msgh := fun _ => ⟨0, 0, 0⟩
    msgfp := some 0
    msgmap := ⟨7, 0, ⟨16, 1⟩ :: List.replicate 8 ⟨0, 0⟩⟩
    woken := []
    lost := 0 }
  phase _ := .running

def queueMade : System := start.settle tunables 0 (msgget tunables start.quiet IPC_PRIVATE 0o600 0 0).2 .running

def sixBytes : Snd := ⟨0, 6, 1, 0⟩

def messageSent : System :=
  queueMade.settle tunables 0 (msgsnd tunables queueMade.quiet 0 6 0 (some 1) root).2 (.getres sixBytes none)

def senderAsleep : System :=
  messageSent.settle tunables 0 ((getres tunables messageSent.quiet sixBytes).elim start.state Prod.snd) (.asleepSnd sixBytes (.queue 0))

def hundredBytes : SetArg := ⟨0, 0, 0o600, 100⟩

def roomMade : System :=
  senderAsleep.settle tunables 1 ((msgctl tunables 0 senderAsleep.quiet 0 (.IPC_SET (some hundredBytes)) root).elim start.state Prod.snd)
    .running

theorem asleep_run (may : ∀ k, allowed k .other) : Run tunables allowed senderAsleep := by
  have made : Run tunables allowed queueMade := .step (.start rfl) (may _) (.msgget (p := 0) rfl IPC_PRIVATE 0o600 0 0)
  have sent : Run tunables allowed messageSent := .step made (may _) (.msgsnd (p := 0) rfl 0 6 0 (some 1) root (.inr rfl))
  have sleeps : getres tunables messageSent.quiet sixBytes =
      some (.asleep (.queue 0), (getres tunables messageSent.quiet sixBytes).elim start.state Prod.snd) := rfl
  have asleep : Step tunables messageSent .other senderAsleep := .getres (p := 0) rfl (.inr rfl) sleeps
  exact .step sent (may _) asleep

/-- The theorem where a sender waits for room. -/
theorem msg_sleepers_cannot_proceed_one : sixBytes.cnt + (senderAsleep.state.msgque 0).msgCbytes > (senderAsleep.state.msgque 0).msgQbytes :=
  (msg_sleepers_cannot_proceed tunables senderAsleep (asleep_run fun _ => trivial)).1 0 sixBytes 0 rfl

/-- There is room for the message now, and its sender sleeps on. -/
theorem msg_sender_stranded : ∃ (k : System) (uap : Snd), Run tunables (fun _ _ => True) k ∧ k.phase 0 = .asleepSnd uap (.queue 0) ∧
    uap.cnt + (k.state.msgque 0).msgCbytes ≤ (k.state.msgque 0).msgQbytes := by
  have sets : msgctl tunables 0 senderAsleep.quiet 0 (.IPC_SET (some hundredBytes)) root =
      some (none, (msgctl tunables 0 senderAsleep.quiet 0 (.IPC_SET (some hundredBytes)) root).elim start.state Prod.snd) := rfl
  have step : Step tunables senderAsleep (.set 0 hundredBytes) roomMade := .msgctl (p := 1) rfl (.inr rfl) _ _ sets
  exact ⟨roomMade, sixBytes, .step (asleep_run fun _ => trivial) trivial step, rfl, by decide⟩

end Svr4.Proofs.MsgWakeups

/-! Headers, segments and counts over any run, and what `msgrcv` delivers. -/

namespace Svr4.Proofs.MsgHistory
open Function Msg Chain MsgLists MsgSleep MsgCalls MsgWakeups RmapFree
open Sem (Cred)

structure Pool (info : Msginfo) (map : Rmap.Map) (text : Nat → Set Nat) : Prop where
  valid : ∃ entries, Valid (info.msgmap - 2) entries map
  apart : ∀ m m', m ≠ m' → Disjoint (text m) (text m')
  unused : ∀ m, Disjoint (text m) (freeSet map.slots)
  all : ∀ x, x ∈ Set.Ico 1 (info.msgseg + 1) ↔ x ∈ freeSet map.slots ∨ ∃ m, x ∈ text m

variable {info : Msginfo} {k k' : System} {event : Event} {p qp mp : Nat} {s t : State} {new : Phase} {place place' : Nat → Place}
  {queue queue' : Nat → List Nat} {free free' : List Nat} {text : Nat → Set Nat} {map map' : Rmap.Map} {size a : Nat}

theorem exists_update {x : Nat} (mp : Nat) (segments : Set Nat) :
    (∃ m, x ∈ update text mp segments m) ↔ x ∈ segments ∨ ∃ m, m ≠ mp ∧ x ∈ text m := by
  constructor
  · rintro ⟨m, inside⟩
    by_cases here : m = mp
    · rw [here, update_self] at inside
      exact .inl inside
    · rw [update_of_ne here] at inside
      exact .inr ⟨m, here, inside⟩
  · rintro (inside | ⟨m, here, inside⟩)
    · exact ⟨mp, by rwa [update_self]⟩
    · exact ⟨m, by rwa [update_of_ne here]⟩

theorem disjoint_update {segments : Set Nat} (apart : ∀ m m', m ≠ m' → Disjoint (text m) (text m'))
    (fresh : ∀ m, m ≠ mp → Disjoint (text m) segments) (m m' : Nat) (other : m ≠ m') :
    Disjoint (update text mp segments m) (update text mp segments m') := by
  by_cases here : m = mp
  · subst here
    rw [update_self, update_of_ne (Ne.symm other)]
    exact (fresh m' (Ne.symm other)).symm
  · by_cases here' : m' = mp
    · subst here'
      rw [update_self, update_of_ne here]
      exact fresh m here
    · rw [update_of_ne here, update_of_ne here']
      exact apart m m' other

namespace Pool

theorem congr (pool : Pool info map text) (slots : map'.slots = map.slots) (mapsize : map'.mapsize = map.mapsize) :
    Pool info map' text := by
  obtain ⟨⟨entries, table, capacity, separated, bounded, positive⟩, apart, unused, all⟩ := pool
  rw [← slots, ← mapsize] at table
  rw [← mapsize] at capacity
  rw [← slots] at unused all
  exact ⟨⟨entries, table, capacity, separated, bounded, positive⟩, apart, unused, all⟩

theorem draw (pool : Pool info map text) (empty : text mp = ∅) (drawn : Rmap.rmalloc map size = some (a, map')) (some_ : a ≠ 0) :
    Pool info map' (update text mp (Set.Ico a (a + size))) := by
  obtain ⟨entries, valid⟩ := pool.valid
  rcases rmalloc_spec valid (by have := info.mapLimit; omega) size with ⟨none_, _⟩ |
    ⟨lower, e, upper, map'', entries', rfl, _, fits, _, taken, _, valid', removed⟩
  · rw [none_] at drawn
    cases drawn
    exact absurd rfl some_
  · rw [taken] at drawn
    cases drawn
    have slots : freeSet map'.slots = freeSet map.slots \ Set.Ico e.mAddr (e.mAddr + size) := by
      rw [valid'.freeSet_eq, valid.freeSet_eq, removed]
    have inside : Set.Ico e.mAddr (e.mAddr + size) ⊆ freeSet map.slots := by
      rw [valid.freeSet_eq]
      simp only [freeSet_append, freeSet_cons]
      intro x member
      exact .inr (.inl ⟨member.1, by have := member.2; omega⟩)
    refine ⟨⟨entries', valid'⟩, disjoint_update pool.apart fun m _ => (pool.unused m).mono_right inside, fun m => ?_, fun x => ?_⟩
    · rw [slots]
      by_cases here : m = mp
      · subst here
        rw [update_self]
        exact Set.disjoint_sdiff_right
      · rw [update_of_ne here]
        exact (pool.unused m).mono_right Set.sdiff_subset
    · rw [pool.all, slots, exists_update]
      constructor
      · rintro (unused | ⟨m, owned⟩)
        · by_cases here : x ∈ Set.Ico e.mAddr (e.mAddr + size)
          · exact .inr (.inl here)
          · exact .inl ⟨unused, here⟩
        · refine .inr (.inr ⟨m, fun same => ?_, owned⟩)
          rw [same, empty] at owned
          exact owned
      · rintro (unused | here | ⟨m, _, owned⟩)
        · exact .inl unused.1
        · exact .inl (inside here)
        · exact .inr ⟨m, owned⟩

theorem freeing (pool : Pool info map text) (owns : text mp = Set.Ico a (a + size)) (some_ : size ≠ 0) :
    ∃ entries, Valid (info.msgmap - 2) entries map ∧
      ((Rmap.rmfree map size a = some map ∧ (size = 0 ∨ map.mapsize = 0 ∧ Isolated entries size a)) ∨
        (0 < size ∧ (map.mapsize = 0 → ¬ Isolated entries size a) ∧ Frees (info.msgmap - 2) entries map size a)) := by
  obtain ⟨entries, valid⟩ := pool.valid
  have first : a ∈ Set.Ico 1 (info.msgseg + 1) := (pool.all a).mpr (.inr ⟨mp, by rw [owns]; exact ⟨le_refl a, by omega⟩⟩)
  have last : a + size - 1 ∈ Set.Ico 1 (info.msgseg + 1) :=
    (pool.all _).mpr (.inr ⟨mp, by rw [owns]; exact ⟨by omega, by omega⟩⟩)
  have small := info.segLimit
  have outside : Disjoint (Set.Ico a (a + size)) (freeSet entries) := by
    rw [← owns, ← valid.freeSet_eq]
    exact pool.unused mp
  exact ⟨entries, valid, rmfree_spec valid (by have := info.mapLimit; omega) size a first.1 (by have := last.2; omega) outside⟩

theorem freeing_ends (pool : Pool info map text) (owns : text mp = Set.Ico a (a + size)) : ∃ map', Rmap.rmfree map size a = some map' := by
  by_cases none_ : size = 0
  · exact ⟨map, by rw [Rmap.rmfree, if_pos none_]⟩
  · obtain ⟨_, _, ⟨same, _⟩ | ⟨_, _, map', _, freed, _⟩⟩ := pool.freeing owns none_
    · exact ⟨map, same⟩
    · exact ⟨map', freed⟩

theorem release (pool : Pool info s.msgmap text) (owns : text mp = Set.Ico a (a + size)) (released : Released s t size a)
    (kept : t.lost = 0) : Pool info t.msgmap (update text mp ∅) := by
  by_cases none_ : size = 0
  · have same := released.map
    simp only [Rmap.rmfree, none_, if_true, Option.some.injEq] at same
    have empty : update text mp ∅ = text := by
      rw [update_eq_self_iff, owns, none_]
      simp
    rw [← same, empty]
    exact pool
  · obtain ⟨entries, valid, ⟨same, _⟩ | ⟨_, _, map', entries', freed, _, valid', added⟩⟩ := pool.freeing owns none_
    · have lost := released.lost
      have map := released.map
      rw [same] at map
      rw [if_pos ⟨(Option.some.inj map).symm, none_⟩] at lost
      omega
    · rw [released.map] at freed
      cases freed
      have slots : freeSet t.msgmap.slots = freeSet s.msgmap.slots ∪ text mp := by
        rw [valid'.freeSet_eq, valid.freeSet_eq, added, owns]
      refine ⟨⟨entries', valid'⟩, disjoint_update pool.apart fun m _ => Set.disjoint_empty _, fun m => ?_, fun x => ?_⟩
      · by_cases here : m = mp
        · subst here
          rw [update_self]
          exact Set.empty_disjoint _
        · rw [update_of_ne here, slots]
          exact (pool.unused m).union_right (pool.apart m mp here)
      · rw [pool.all, slots, exists_update]
        constructor
        · rintro (unused | ⟨m, owned⟩)
          · exact .inl (.inl unused)
          · by_cases here : m = mp
            · exact .inl (.inr (here ▸ owned))
            · exact .inr (.inr ⟨m, here, owned⟩)
        · rintro ((unused | owned) | wrong | ⟨m, _, owned⟩)
          · exact .inl unused
          · exact .inr ⟨mp, owned⟩
          · exact absurd wrong (Set.notMem_empty x)
          · exact .inr ⟨m, owned⟩

end Pool

theorem Released.lost_zero (released : Released s t size a) (kept : t.lost = 0) : s.lost = 0 := by
  have lost := released.lost
  split at lost <;> omega

theorem Emptied.lost_zero {h : Nat → Header} {l : List Nat} (emptied : Emptied info h l s t) (kept : t.lost = 0) : s.lost = 0 := by
  induction emptied with
  | nil map lost => exact lost.symm.trans kept
  | cons first rest ih => exact Released.lost_zero first (ih kept)

def segments (info : Msginfo) (header : Header) : Set Nat :=
  Set.Ico (header.msgSpot + 1).toNat ((header.msgSpot + 1).toNat + btoq info header.msgTs)

theorem Pool.empties {h : Nat → Header} {l : List Nat} (pool : Pool info s.msgmap text) (emptied : Emptied info h l s t)
    (kept : t.lost = 0) (once : l.Nodup) (owns : ∀ m ∈ l, text m = segments info (h m)) :
    Pool info t.msgmap (fun m => if m ∈ l then ∅ else text m) := by
  induction emptied generalizing text with
  | nil map lost => simpa [map] using pool
  | @cons mp l s u t first rest ih =>
    rw [List.nodup_cons] at once
    have released := pool.release (owns mp (by simp)) first (Emptied.lost_zero rest kept)
    have after := ih released kept once.2 fun m member => by
      have other : m ≠ mp := fun same => once.1 (same ▸ member)
      rw [update_of_ne other]
      exact owns m (by simp [member])
    have same : (fun m => if m ∈ mp :: l then ∅ else text m) = fun m => if m ∈ l then ∅ else update text mp ∅ m := by
      funext m
      by_cases here : m = mp
      · simp [here]
      · simp [here]
    rw [same]
    exact after

structure Conserved (info : Msginfo) (k : System) (place : Nat → Place) (queue : Nat → List Nat) (text : Nat → Set Nat) : Prop where
  pool : Pool info k.state.msgmap text
  queued : ∀ qp, ∀ m ∈ queue qp, text m = segments info (k.state.msgh m)
  held : ∀ p uap m spot, k.phase p = .copyin uap m spot → text m = Set.Ico (spot + 1) (spot + 1 + btoq info uap.cnt)
  idle : ∀ m, place m = .free ∨ place m = .outside → text m = ∅
  cbytes : ∀ qp, (k.state.msgque qp).msgCbytes = ((queue qp).map fun m => (k.state.msgh m).msgTs).sum

theorem Pool.spot_short (pool : Pool info map text) {spot : Nat} (owns : text mp = Set.Ico (spot + 1) (spot + 1 + size))
    (some_ : size ≠ 0) : short spot = spot := by
  have inside : spot + 1 ∈ Set.Ico 1 (info.msgseg + 1) :=
    (pool.all _).mpr (.inr ⟨mp, by rw [owns]; exact ⟨le_refl _, by omega⟩⟩)
  have small := info.segLimit
  have bound := inside.2
  simp only [short, Int.bmod_def]
  omega

theorem btoq_zero (info : Msginfo) : btoq info 0 = 0 := Nat.div_eq_of_lt (by have := info.someBytes; omega)

theorem btoq_pos (info : Msginfo) {n : Nat} (some_ : n ≠ 0) : btoq info n ≠ 0 := by
  have positive := info.someBytes
  exact (Nat.div_pos (by omega) positive).ne'

theorem Pool.sent (pool : Pool info map text) {uap : Snd} {spot : Nat} (small : uap.cnt < 2 ^ 16)
    (owns : text mp = Set.Ico (spot + 1) (spot + 1 + btoq info uap.cnt)) :
    text mp = segments info ⟨uap.type, uap.cnt % 2 ^ 16, if uap.cnt = 0 then -1 else short spot⟩ := by
  rw [segments, Nat.mod_eq_of_lt small]
  by_cases none_ : uap.cnt = 0
  · simp [owns, none_, btoq_zero]
  · rw [if_neg none_, pool.spot_short owns (btoq_pos info none_), owns]
    rfl

theorem Effect.lost_zero {old : Phase} (effect : Effect info s t place queue qp p old place' queue' new) (kept : t.lost = 0) :
    s.lost = 0 := by
  cases effect with
  | none _ _ lost => exact lost.symm.trans kept
  | taken _ _ lost => exact lost.symm.trans kept
  | returned _ _ _ space => exact Released.lost_zero space kept
  | queued _ _ _ _ _ lost => exact lost.symm.trans kept
  | freed _ _ _ _ space => exact Released.lost_zero space kept
  | removed emptied => exact Emptied.lost_zero emptied kept

theorem Conserved.settle (good : Good info k place queue free) (conserved : Conserved info k place queue text)
    (small : ∀ p uap, callArgs (k.phase p) = some (.snd uap) → uap.cnt < 2 ^ 16)
    (effect : Effect info k.quiet t place queue qp p (k.phase p) place' queue' new) (kept : t.lost = 0) :
    ∃ text', Conserved info (k.settle info p t new) place' queue' text' := by
  have other : ∀ p', p' ≠ p → (k.settle info p t new).phase p' = wakeprocs info t.woken k.phase p' :=
    fun p' apart => update_of_ne apart _ _
  have self : (k.settle info p t new).phase p = new := update_self ..
  -- Headers in the hands of other processes stay there.
  have hands : ∀ {text' : Nat → Set Nat} (m₀ : Nat), (∀ m, m ≠ m₀ → text' m = text m) → (∀ p', p' ≠ p → place m₀ ≠ .held p') →
      (∀ uap m spot, new = .copyin uap m spot → text' m = Set.Ico (spot + 1) (spot + 1 + btoq info uap.cnt)) →
      ∀ p' uap m spot, (k.settle info p t new).phase p' = .copyin uap m spot →
        text' m = Set.Ico (spot + 1) (spot + 1 + btoq info uap.cnt) := by
    intro text' m₀ same mine here p' uap m spot at_
    by_cases this : p' = p
    · rw [this, self] at at_
      exact here uap m spot at_
    · rw [other p' this, wakeprocs_copyin] at at_
      have theirs : place m = .held p' := (good.held m p').mpr ⟨uap, spot, at_⟩
      rw [same m (fun also => mine p' this (also ▸ theirs))]
      exact conserved.held p' uap m spot at_
  generalize was_ : k.phase p = old at effect
  cases effect with
  | none slots mapsize lost msgh cbytes idle stays =>
    refine ⟨text, conserved.pool.congr slots mapsize, fun q m member => ?_, fun p' uap m spot at_ => ?_, conserved.idle, fun q => ?_⟩
    · rw [conserved.queued q m member]
      exact congrArg (fun h => segments info (h m)) msgh.symm
    · by_cases this : p' = p
      · rw [this, self] at at_
        exact absurd at_ (stays uap m spot)
      · rw [other p' this, wakeprocs_copyin] at at_
        exact conserved.held p' uap m spot at_
    · change (t.msgque q).msgCbytes = ((queue q).map fun m => (t.msgh m).msgTs).sum
      rw [cbytes q, msgh]
      exact conserved.cbytes q
  | @taken _ uap mp spot was msgh lost cbytes idle space =>
    have empty := conserved.idle mp (.inl was)
    refine ⟨update text mp (Set.Ico (spot + 1) (spot + 1 + btoq info uap.cnt)), ?_, fun q m member => ?_, ?_, fun m free_ => ?_,
      fun q => ?_⟩
    · rcases space with ⟨none_, rfl, same⟩ | ⟨_, drawn⟩
      · have unchanged : update text mp (Set.Ico (0 + 1) (0 + 1 + btoq info uap.cnt)) = text := by
          rw [update_eq_self_iff, empty, none_, btoq_zero]
          simp
        rw [unchanged]
        exact conserved.pool.congr (congrArg _ same) (congrArg _ same)
      · exact conserved.pool.draw empty drawn (by omega)
    · have away : m ≠ mp := by
        rintro rfl
        simp [(good.lists.inQueue q m).mp member] at was
      rw [update_of_ne away, conserved.queued q m member]
      exact congrArg (fun h => segments info (h m)) msgh.symm
    · refine hands mp (fun m away => update_of_ne away _ _) (fun p' _ => by simp [was]) fun uap' m spot' same => ?_
      cases same
      exact update_self ..
    · by_cases here : m = mp
      · simp [here] at free_
      · rw [update_of_ne here] at free_ ⊢
        exact conserved.idle m free_
    · change (t.msgque q).msgCbytes = ((queue q).map fun m => (t.msgh m).msgTs).sum
      rw [cbytes q, msgh]
      exact conserved.cbytes q
  | @returned uap mp spot was msgh cbytes space =>
    refine ⟨update text mp ∅, Pool.release (s := k.quiet) (t := t) conserved.pool (conserved.held p uap mp spot was_) space kept,
      fun q m member => ?_, ?_,
      fun m free_ => ?_, fun q => ?_⟩
    · have away : m ≠ mp := by
        rintro rfl
        simp [(good.lists.inQueue q m).mp member] at was
      rw [update_of_ne away, conserved.queued q m member]
      exact congrArg (fun h => segments info (h m)) msgh.symm
    · exact hands mp (fun m away => update_of_ne away _ _) (fun p' apart => by simp [was, Ne.symm apart]) (by simp)
    · by_cases here : m = mp
      · rw [here, update_self]
      · rw [update_of_ne here] at free_ ⊢
        exact conserved.idle m free_
    · change (t.msgque q).msgCbytes = ((queue q).map fun m => (t.msgh m).msgTs).sum
      rw [cbytes q, msgh]
      exact conserved.cbytes q
  | @queued uap mp spot was msgh cbytes others map lost =>
    have fits : uap.cnt < 2 ^ 16 := small p uap (by rw [was_]; rfl)
    have owns := conserved.pool.sent fits (conserved.held p uap mp spot was_)
    have off : ∀ q, mp ∉ queue q := fun q member => by simp [(good.lists.inQueue q mp).mp member] at was
    have old : ∀ q m, m ∈ queue q → t.msgh m = k.state.msgh m := by
      intro q m member
      have away : m ≠ mp := fun same => off q (same ▸ member)
      rw [msgh]
      exact update_of_ne away _ _
    have header : t.msgh mp = ⟨uap.type, uap.cnt % 2 ^ 16, if uap.cnt = 0 then -1 else short spot⟩ := by
      rw [msgh]
      exact update_self ..
    refine ⟨text, conserved.pool.congr (congrArg _ map) (congrArg _ map), fun q m member => ?_, ?_, fun m free_ => ?_, fun q => ?_⟩
    · change text m = segments info (t.msgh m)
      by_cases here : m = mp
      · rw [here, header, ← owns]
      · have member : m ∈ queue q := by
          by_cases there : q = qp
          · subst there
            simpa [here] using member
          · rwa [update_of_ne there] at member
        rw [old q m member]
        exact conserved.queued q m member
    · exact hands mp (fun _ _ => rfl) (fun p' apart => by simp [was, Ne.symm apart]) (by simp)
    · by_cases here : m = mp
      · simp [here] at free_
      · rw [update_of_ne here] at free_
        exact conserved.idle m free_
    · change (t.msgque q).msgCbytes = ((update queue qp (queue qp ++ [mp]) q).map fun m => (t.msgh m).msgTs).sum
      have same : (queue q).map (fun m => (t.msgh m).msgTs) = (queue q).map fun m => (k.state.msgh m).msgTs :=
        List.map_congr_left fun m member => by rw [old q m member]
      by_cases there : q = qp
      · subst there
        rw [cbytes, update_self, List.map_append, List.sum_append, same, ← conserved.cbytes q, List.map_singleton, List.sum_singleton,
          header, Nat.mod_eq_of_lt fits]
        rfl
      · rw [others q there, update_of_ne there, same]
        exact conserved.cbytes q
  | @freed uap mp sz before after split msgh cbytes others space =>
    have was : place mp = .queued qp := (good.lists.inQueue qp mp).mp (by simp [split])
    have once := good.lists.once qp
    rw [split, List.nodup_middle, List.nodup_cons] at once
    refine ⟨update text mp ∅, Pool.release (s := k.quiet) (t := t) conserved.pool
      (conserved.queued qp mp (by simp [split])) space kept, fun q m member => ?_, ?_,
      fun m free_ => ?_, fun q => ?_⟩
    · have member : m ∈ queue q ∧ m ≠ mp := by
        by_cases there : q = qp
        · subst there
          rw [update_self] at member
          refine ⟨?_, fun same => once.1 (same ▸ member)⟩
          rw [split]
          simp only [List.mem_append, List.mem_cons] at member ⊢
          rcases member with low | high
          · exact .inl low
          · exact .inr (.inr high)
        · rw [update_of_ne there] at member
          refine ⟨member, ?_⟩
          rintro rfl
          rw [(good.lists.inQueue q m).mp member] at was
          exact there (Place.queued.inj was)
      rw [update_of_ne member.2, conserved.queued q m member.1]
      exact congrArg (fun h => segments info (h m)) msgh.symm
    · exact hands mp (fun m away => update_of_ne away _ _) (fun p' _ => by simp [was]) (by simp)
    · by_cases here : m = mp
      · rw [here, update_self]
      · rw [update_of_ne here] at free_ ⊢
        exact conserved.idle m free_
    · change (t.msgque q).msgCbytes = ((update queue qp (before ++ after) q).map fun m => (t.msgh m).msgTs).sum
      rw [msgh]
      by_cases there : q = qp
      · subst there
        have sum := conserved.cbytes q
        rw [split] at sum
        simp only [List.map_append, List.map_cons, List.sum_append, List.sum_cons] at sum
        rw [cbytes, update_self]
        simp only [List.map_append, List.sum_append, quiet_msgque, quiet_msgh]
        omega
      · rw [others q there, update_of_ne there]
        exact conserved.cbytes q
  | removed emptied msgh cbytes others place_ =>
    refine ⟨fun m => if m ∈ queue qp then ∅ else text m,
      Pool.empties (s := k.quiet) (t := t) conserved.pool emptied kept (good.lists.once qp) (conserved.queued qp), fun q m member => ?_,
      fun p' uap m spot at_ => ?_, fun m free_ => ?_, fun q => ?_⟩
    · have member : m ∈ queue q ∧ m ∉ queue qp := by
        by_cases there : q = qp
        · subst there
          simp at member
        · rw [update_of_ne there] at member
          refine ⟨member, fun also => ?_⟩
          have here := (good.lists.inQueue q m).mp member
          rw [(good.lists.inQueue qp m).mp also] at here
          exact there (Place.queued.inj here).symm
      simp only [member.2, if_false]
      rw [conserved.queued q m member.1]
      exact congrArg (fun h => segments info (h m)) msgh.symm
    · by_cases this : p' = p
      · rw [this, self] at at_
        cases at_
      · rw [other p' this, wakeprocs_copyin] at at_
        have off : m ∉ queue qp := by
          intro member
          have here := (good.lists.inQueue qp m).mp member
          rw [(good.held m p').mpr ⟨uap, spot, at_⟩] at here
          cases here
        simp only [off, if_false]
        exact conserved.held p' uap m spot at_
    · rw [place_] at free_
      by_cases member : m ∈ queue qp
      · simp [member]
      · simp only [member, if_false] at free_ ⊢
        exact conserved.idle m free_
    · change (t.msgque q).msgCbytes = ((update queue qp [] q).map fun m => (t.msgh m).msgTs).sum
      rw [msgh]
      by_cases there : q = qp
      · subst there
        simp [cbytes]
      · rw [others q there, update_of_ne there]
        exact conserved.cbytes q

theorem Conserved.turned (conserved : Conserved info k place queue text) (holds : new.holds info = none) :
    Conserved info { k with phase := update k.phase p new } place queue text := by
  refine ⟨conserved.pool, conserved.queued, fun p' uap m spot at_ => ?_, conserved.idle, conserved.cbytes⟩
  by_cases here : p' = p
  · simp only [here, update_self] at at_
    simp [at_, Phase.holds] at holds
  · simp only [update_of_ne here] at at_
    exact conserved.held p' uap m spot at_

theorem msginit_pool (init : msginit info = some s) (kept : s.lost = 0) : Pool info s.msgmap (fun _ => ∅) := by
  obtain ⟨_, released⟩ := freeSpace_spec init
  have empty := initial info.msgmap info.mapRoom
  have whole : Pool info (Rmap.mapinit info.msgmap) (update (fun _ => ∅) 0 (Set.Ico 1 (1 + info.msgseg))) := by
    have nothing : freeSet (Rmap.mapinit info.msgmap).slots = ∅ := by
      rw [empty.freeSet_eq]
      simp [freeSet]
    refine ⟨⟨[], empty⟩, disjoint_update (by simp) (by simp), by simp [nothing], fun x => ?_⟩
    rw [nothing, exists_update, add_comm]
    simp
  have owns : update (fun _ => (∅ : Set Nat)) 0 (Set.Ico 1 (1 + info.msgseg)) 0 = Set.Ico 1 (1 + info.msgseg) := update_self ..
  have after := Pool.release whole owns released kept
  simpa using after

theorem msginit_conserved {place : Nat → Place} (init : msginit info = some s) (kept : s.lost = 0) :
    Conserved info ⟨s, fun _ => .running⟩ place (fun _ => []) (fun _ => ∅) := by
  refine ⟨msginit_pool init kept, by simp, by simp, fun _ _ => rfl, fun qp => ?_⟩
  obtain ⟨⟨woken, _, same⟩, _⟩ := freeSpace_spec init
  change (s.msgque qp).msgCbytes = 0
  rw [same]

theorem Run.sizes (run : Run info allowed k) :
    ∀ p uap, callArgs (k.phase p) = some (.snd uap) → uap.cnt ≤ info.msgmax := by
  induction run with
  | start init => simp [callArgs]
  | step before may step ih =>
    intro p uap at_
    rcases Step.args step p _ at_ with ⟨_, wrong, _⟩ | ⟨_, same, checked⟩ | old
    · cases wrong
    · cases same
      exact checked
    · exact ih p uap old

theorem Run.conserved (small : info.msgmax < 2 ^ 16) (run : Run info allowed k)
    (kept : k.state.lost = 0) :
    ∃ place queue free text, Good info k place queue free ∧ Conserved info k place queue text := by
  induction run with
  | start init =>
    obtain ⟨place, free, good⟩ := msginit_good init
    exact ⟨place, _, free, _, good, msginit_conserved init kept⟩
  | @step k k' event before may step ih =>
    have fits : ∀ p uap, callArgs (k.phase p) = some (.snd uap) → uap.cnt < 2 ^ 16 :=
      fun p uap at_ => (Run.sizes before p uap at_).trans_lt small
    obtain ⟨place₀, queue₀, free₀, good₀⟩ := Run.good before
    -- Whether the map has overflowed before does not depend on how the lists are described.
    have earlier : k.state.lost = 0 := by
      rcases Step.does good₀ step with ⟨p, t, new, rfl, qp, place', queue', free', _, _, _, effect⟩ | ⟨p, new, rfl, _⟩
      · exact Effect.lost_zero (s := k.quiet) (t := t) effect kept
      · exact kept
    obtain ⟨place, queue, free, text, good, conserved⟩ := ih earlier
    rcases Step.does good step with ⟨p, t, new, rfl, qp, place', queue', free', stretch, _, _, effect⟩ | ⟨p, new, rfl, was, holds, _⟩
    · obtain ⟨text', conserved'⟩ := Conserved.settle good conserved fits effect kept
      exact ⟨place', queue', free', text', good.settle stretch, conserved'⟩
    · exact ⟨place, queue, free, text, Good.turned good was holds, Conserved.turned conserved holds⟩

def At (k : System) (queue : Nat → List Nat) (free : List Nat) (mp : Nat) : Place → Prop
  | .outside => False
  | .free => mp ∈ free
  | .queued qp => mp ∈ queue qp
  | .held p => ∃ uap spot, k.phase p = .copyin uap mp spot

def textOf (info : Msginfo) (k : System) (queue : Nat → List Nat) (mp : Nat) : Set Nat :=
  {x | (∃ qp, mp ∈ queue qp ∧ x ∈ segments info (k.state.msgh mp)) ∨
    ∃ p uap spot, k.phase p = .copyin uap mp spot ∧ x ∈ Set.Ico (spot + 1) (spot + 1 + btoq info uap.cnt)}

structure Accounted (info : Msginfo) (k : System) (queue : Nat → List Nat) (free : List Nat) : Prop where
  queues : ∀ qp, Linked k.state.msgNext (k.state.msgque qp).msgFirst (queue qp)
  last : ∀ qp, (k.state.msgque qp).msgLast = (queue qp).getLast?
  qnum : ∀ qp, (k.state.msgque qp).msgQnum = (queue qp).length
  cbytes : ∀ qp, (k.state.msgque qp).msgCbytes = ((queue qp).map fun mp => (k.state.msgh mp).msgTs).sum
  frees : Linked k.state.msgNext k.state.msgfp free
  headers : ∀ mp, mp < info.msgtql → ∃! place, At k queue free mp place
  inside : ∀ mp place, At k queue free mp place → mp < info.msgtql
  apart : ∀ m m', m ≠ m' → Disjoint (textOf info k queue m) (textOf info k queue m')
  unused : ∀ m, Disjoint (textOf info k queue m) (freeSet k.state.msgmap.slots)
  pool : freeSet k.state.msgmap.slots ∪ (⋃ mp, textOf info k queue mp) = Set.Ico 1 (info.msgseg + 1)

theorem Good.at_iff (good : Good info k place queue free) (mp : Nat) (there : Place) :
    At k queue free mp there ↔ place mp = there ∧ there ≠ .outside := by
  cases there with
  | outside => simp [At]
  | free => simp [At, good.lists.inFree]
  | queued qp => simp [At, good.lists.inQueue]
  | held p => simp [At, good.held]

theorem Conserved.accounted (good : Good info k place queue free) (conserved : Conserved info k place queue text) :
    Accounted info k queue free := by
  have owned : ∀ mp, textOf info k queue mp = text mp := by
    intro mp
    ext x
    simp only [textOf, Set.mem_ofPred_eq]
    constructor
    · rintro (⟨qp, member, inside⟩ | ⟨p, uap, spot, at_, inside⟩)
      · rwa [conserved.queued qp mp member]
      · rwa [conserved.held p uap mp spot at_]
    · intro inside
      cases there : place mp with
      | outside =>
        rw [conserved.idle mp (.inr there)] at inside
        exact absurd inside (Set.notMem_empty x)
      | free =>
        rw [conserved.idle mp (.inl there)] at inside
        exact absurd inside (Set.notMem_empty x)
      | queued qp =>
        have member := (good.lists.inQueue qp mp).mpr there
        rw [conserved.queued qp mp member] at inside
        exact .inl ⟨qp, member, inside⟩
      | held p =>
        obtain ⟨uap, spot, at_⟩ := (good.held mp p).mp there
        rw [conserved.held p uap mp spot at_] at inside
        exact .inr ⟨p, uap, spot, at_, inside⟩
  refine ⟨good.lists.queues, good.lists.last, good.lists.qnum, conserved.cbytes, good.lists.frees, fun mp inside => ?_,
    fun mp there at_ => ?_, fun m m' other => ?_, fun m => ?_, ?_⟩
  · refine ⟨place mp, (Good.at_iff good mp _).mpr ⟨rfl, ?_⟩, fun there at_ => ((Good.at_iff good mp there).mp at_).1.symm⟩
    rw [ne_eq, good.outside]
    omega
  · obtain ⟨here, some_⟩ := (Good.at_iff good mp there).mp at_
    rw [← here, ne_eq, good.outside] at some_
    omega
  · rw [owned, owned]
    exact conserved.pool.apart m m' other
  · rw [owned]
    exact conserved.pool.unused m
  · ext x
    simp only [owned, Set.mem_union, Set.mem_iUnion]
    exact (conserved.pool.all x).symm

/-- What `msgrcv` takes: the first message, the first of that type, or the first of the
lowest type up to the absolute value of `msgtyp`. -/
structure First (h : Nat → Header) (msgtyp : Int) (before : List Nat) (mp : Nat) (after : List Nat) : Prop where
  wanted : Wanted msgtyp (h mp).msgType
  any : msgtyp = 0 → before = []
  typed : 0 < msgtyp → ∀ m ∈ before, (h m).msgType ≠ msgtyp
  lowest : msgtyp < 0 → (∀ m ∈ before, (h mp).msgType < (h m).msgType) ∧ ∀ m ∈ after, (h mp).msgType ≤ (h m).msgType

def Holds (t : State) (queue : Nat → List Nat) : Prop := ∀ qp, Linked t.msgNext (t.msgque qp).msgFirst (queue qp)

/-- How a `msgrcv` goes on from a state, with what it leaves on the queues. -/
structure Receives (info : Msginfo) (k : System) (queue : Nat → List Nat) : Prop where
  asks : ∀ uap cred, Holds (msgrcv info k.quiet uap cred).2 queue
  ends : ∀ p uap, k.phase p = .findmsg uap → k.unlocked info uap.msqid → ∀ time, (queue (slot info uap.msqid)).length ≤ time →
    ∃ found t, findmsg info time k.quiet uap = some (found, t)
  searches : ∀ p uap, k.phase p = .findmsg uap → k.unlocked info uap.msqid → ∀ time found t,
    findmsg info time k.quiet uap = some (found, t) → Holds t queue ∧
      (LONG_MIN < uap.msgtyp → found = .asleep ∨ found = .error .ENOMSG →
        ∀ mp ∈ queue (slot info uap.msqid), ¬ Wanted uap.msgtyp (k.state.msgh mp).msgType)
  delivers : ∀ p uap spmp smp sz, k.phase p = .copyout uap spmp smp sz → LONG_MIN < uap.msgtyp →
    sz = min uap.msgsz.toNat (k.state.msgh smp).msgTs ∧
    ∃ before after, queue (slot info uap.msqid) = before ++ smp :: after ∧ First k.state.msgh uap.msgtyp before smp after ∧
      (∃ t, msgrcvEnd info k.quiet (slot info uap.msqid) spmp smp false = some (none, t) ∧
        Holds t (update queue (slot info uap.msqid) (before ++ after))) ∧
      ∃ t, msgrcvEnd info k.quiet (slot info uap.msqid) spmp smp true = some (some .EFAULT, t) ∧ Holds t queue

theorem msgconv_keeps (info : Msginfo) (s : State) (id : Int) : (msgconv info s id).2.msgNext = s.msgNext ∧ (msgconv info s id).2.msgque = s.msgque := by
  unfold msgconv
  split
  · exact ⟨rfl, rfl⟩
  · simp only
    split <;> exact ⟨rfl, rfl⟩

theorem msgrcv_keeps (info : Msginfo) (s : State) (uap : Rcv) (cred : Cred) :
    (msgrcv info s uap cred).2.msgNext = s.msgNext ∧ (msgrcv info s uap cred).2.msgque = s.msgque := by
  have conv := msgconv_keeps info s uap.msqid
  unfold msgrcv
  split
  · next same =>
    rw [same] at conv
    exact conv
  · next same =>
    rw [same] at conv
    split
    · exact conv
    · split <;> exact conv

theorem Effect.queues {old : Phase} (effect : Effect info s t place queue qp p old place' queue' new) {uap : Rcv}
    (at_ : old = .findmsg uap) (stays : ∀ uap mp spot, new ≠ .copyin uap mp spot) : queue' = queue := by
  cases effect with
  | none => rfl
  | taken => exact absurd rfl (stays _ _ _)
  | returned => cases at_
  | queued => cases at_
  | freed => cases at_
  | removed => cases at_

theorem findmsg_nothing (good : Good info k place queue free) {uap : Rcv} (unlocked : k.unlocked info uap.msqid) {time : Nat}
    {found : Found} (called : findmsg info time k.quiet uap = some (found, t)) (missed : found = .asleep ∨ found = .error .ENOMSG) :
    ∀ m ∈ queue (slot info uap.msqid), ¬ Matches uap.msgtyp (k.state.msgh m).msgType := by
  rcases msgconv_spec good unlocked with ⟨error, qp, lock, woken, conv, _⟩ | ⟨conv, _, _⟩
  · simp only [findmsg, conv, Option.some.injEq, Prod.mk.injEq] at called
    obtain ⟨rfl, rfl⟩ := called
    simp at missed
  · simp only [findmsg, conv, Option.bind_eq_bind, Option.pure_def, touched_msgque, touched_msgh] at called
    obtain ⟨smp, searched, called⟩ := Option.bind_eq_some_iff.mp called
    have best := search_best (s := touched ..) (good.lists.queues (slot info uap.msqid)) searched
    rcases best with ⟨rfl, nothing⟩ | ⟨before, mp, after, _, rfl, _⟩
    · exact nothing
    · simp only at called
      split at called
      · split at called
        · cases called
          simp at missed
        · cases called
          simp at missed
      · cases called
        simp at missed

theorem findmsg_ends (good : Good info k place queue free) {uap : Rcv} (unlocked : k.unlocked info uap.msqid) {time : Nat}
    (enough : (queue (slot info uap.msqid)).length ≤ time) : ∃ found t, findmsg info time k.quiet uap = some (found, t) := by
  rcases msgconv_spec good unlocked with ⟨error, qp, lock, woken, conv, _⟩ | ⟨conv, _, _⟩
  · exact ⟨.error .EIDRM, touched k.quiet qp (k.state.msgque qp) lock woken k.state.msgmap.mapwant, by simp only [findmsg, conv]⟩
  · have linked := good.lists.queues (slot info uap.msqid)
    obtain ⟨best, searched⟩ := scan_ends (s := touched k.quiet (slot info uap.msqid) (k.state.msgque (slot info uap.msqid)) true []
      k.state.msgmap.mapwant) uap.msgtyp linked enough none none
    simp only [findmsg, conv, Option.bind_eq_bind, Option.pure_def, touched_msgque, touched_msgh, searched]
    by_cases any : uap.msgtyp = 0
    · rw [if_pos any, Option.bind_some]
      cases (k.state.msgque (slot info uap.msqid)).msgFirst with
      | none =>
        simp only [Option.map_none]
        split <;> exact ⟨_, _, rfl⟩
      | some mp =>
        simp only [Option.map_some]
        split
        · split <;> exact ⟨_, _, rfl⟩
        · exact ⟨_, _, rfl⟩
    · rw [if_neg any, Option.bind_some]
      cases best with
      | none =>
        simp only
        split <;> exact ⟨_, _, rfl⟩
      | some found =>
        simp only
        split
        · split <;> exact ⟨_, _, rfl⟩
        · exact ⟨_, _, rfl⟩

theorem msgfree_ends (pool : Pool info s.msgmap text) (owns : text mp = segments info (s.msgh mp)) (qp : Nat) (pmp : Option Nat) :
    ∃ t, msgfree info s qp pmp mp = some t := by
  have same : (unlinkMsg s qp pmp mp).msgmap = s.msgmap ∧ (unlinkMsg s qp pmp mp).msgh = s.msgh := by
    unfold unlinkMsg
    cases pmp <;> simp only <;> split <;> split <;> exact ⟨rfl, rfl⟩
  simp only [msgfree, same.2]
  split
  · obtain ⟨map', freed⟩ := pool.freeing_ends owns
    rw [← same.1] at freed
    exact ⟨_, by rw [freeSpace, freed]; rfl⟩
  · exact ⟨_, rfl⟩

theorem msgrcvEnd_takes (good : Good info k place queue free) (conserved : Conserved info k place queue text) (qp : Nat)
    {before after : List Nat} (split : queue qp = before ++ mp :: after) :
    ∃ t, msgrcvEnd info k.quiet qp before.getLast? mp false = some (none, t) ∧ Holds t (update queue qp (before ++ after)) := by
  have lists : Lists (setQueue k.quiet qp { k.quiet.msgque qp with
      msgCbytes := (k.quiet.msgque qp).msgCbytes - (k.quiet.msgh mp).msgTs }) place queue free := by
    refine good.lists.congr rfl rfl fun q => ?_
    by_cases here : q = qp
    · subst here
      simp [setQueue]
    · simp [setQueue, here]
  obtain ⟨u, freed⟩ := msgfree_ends (s := setQueue k.quiet qp { k.quiet.msgque qp with
      msgCbytes := (k.quiet.msgque qp).msgCbytes - (k.quiet.msgh mp).msgTs }) conserved.pool
    (conserved.queued qp mp (by simp [split])) qp before.getLast?
  refine ⟨unlock u qp, ?_, (lists.freed split (msgfree_freed lists split freed).1).queues⟩
  simp only [msgrcvEnd, freed]
  rfl

theorem Conserved.receives (good : Good info k place queue free) (conserved : Conserved info k place queue text) :
    Receives info k queue := by
  refine ⟨fun uap cred qp => ?_, fun p uap _ unlocked time enough => findmsg_ends good unlocked enough,
    fun p uap at_ unlocked time found t called => ⟨?_, fun range missed mp member wanted => ?_⟩, fun p uap spmp smp sz at_ range => ?_⟩
  · obtain ⟨next, msgque⟩ := msgrcv_keeps info k.quiet uap cred
    rw [next, msgque]
    exact good.lists.queues qp
  · have does : Does info k .other p t (foundPhase uap found) place queue := findmsg_does good at_ unlocked called
    obtain ⟨qp, place', queue', free', stretch, _, _, effect⟩ := does
    have same : queue' = queue := Effect.queues effect at_ (by cases found <;> simp [foundPhase])
    rw [same] at stretch
    exact stretch.lists.queues
  · apply findmsg_nothing good unlocked called missed mp member
    rwa [matches_iff range]
  · obtain ⟨⟨before, after, split, rfl, selected⟩, size, _⟩ := good.chosen p uap spmp smp sz at_
    have first : First k.state.msgh uap.msgtyp before smp after :=
      ⟨(matches_iff range _).mp selected.wanted, selected.any, selected.typed, selected.lowest⟩
    exact ⟨size, before, after, split, first, msgrcvEnd_takes good conserved _ split, _, rfl, good.lists.queues⟩

/-- While the map has not overflowed, every header, segment and byte is accounted for
in every state, and `msgrcv` takes just the message that it should, when it returns. -/
theorem msg_queues_conserved (info : Msginfo) (small : info.msgmax < 65536) (k : System) (run : Run info (fun _ _ => True) k)
    (kept : k.state.lost = 0) : ∃ queue free, Accounted info k queue free ∧ Receives info k queue := by
  obtain ⟨place, queue, free, text, good, conserved⟩ := Run.conserved small run kept
  exact ⟨queue, free, Conserved.accounted good conserved, Conserved.receives good conserved⟩

def threeBytes : Snd := ⟨0, 3, 1, 0⟩

def asked : System :=
  queueMade.settle tunables 0 (msgsnd tunables queueMade.quiet 0 3 0 (some 1) root).2 (.getres threeBytes none)

/-- Its text is on the way in, and its header is in the hands of the sender. -/
def inCopyin : System :=
  asked.settle tunables 0 ((getres tunables asked.quiet threeBytes).elim start.state Prod.snd) (.copyin threeBytes 0 0)

theorem inCopyin_run (may : ∀ k, allowed k .other) : Run tunables allowed inCopyin := by
  have made : Run tunables allowed queueMade := .step (.start rfl) (may _) (.msgget (p := 0) rfl IPC_PRIVATE 0o600 0 0)
  have sent : Run tunables allowed asked := .step made (may _) (.msgsnd (p := 0) rfl 0 3 0 (some 1) root (.inr rfl))
  have got : getres tunables asked.quiet threeBytes =
      some (.copyin 0 0, (getres tunables asked.quiet threeBytes).elim start.state Prod.snd) := rfl
  have step : Step tunables asked .other inCopyin := .getres (p := 0) rfl (.inr rfl) got
  exact .step sent (may _) step

/-- The theorem where a text is copied in. -/
theorem msg_queues_conserved_copyin : ∃ queue free, Accounted tunables inCopyin queue free ∧ Receives tunables inCopyin queue :=
  msg_queues_conserved tunables (by decide) inCopyin (inCopyin_run fun _ => trivial) rfl

/-- The header is then neither free nor on a queue. -/
theorem msg_header_in_copyin : ∃ k : System, Run tunables (fun _ _ => True) k ∧ k.state.lost = 0 ∧ 0 < tunables.msgtql ∧
    (∀ free, Linked k.state.msgNext k.state.msgfp free → 0 ∉ free) ∧
    ∀ qp queue, qp < tunables.msgmni → Linked k.state.msgNext (k.state.msgque qp).msgFirst queue → 0 ∉ queue := by
  refine ⟨inCopyin, inCopyin_run fun _ => trivial, rfl, by decide, fun free frees => ?_, fun qp queue inside linked => ?_⟩
  · have rest : Linked inCopyin.state.msgNext inCopyin.state.msgfp [1, 2, 3] := ⟨rfl, rfl, rfl, rfl⟩
    rw [frees.unique rest]
    decide
  · obtain rfl : qp = 0 := Nat.lt_one_iff.mp inside
    have empty : Linked inCopyin.state.msgNext (inCopyin.state.msgque 0).msgFirst [] := rfl
    rw [linked.unique empty]
    simp

end Svr4.Proofs.MsgHistory
