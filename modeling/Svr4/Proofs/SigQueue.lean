import Svr4.Sig

/-! Every queued siginfo is for a pending signal, unless a signal came to be ignored while
`sigaddq` slept for the memory of its entry. -/

namespace Svr4.Proofs.SigQueue
open Function Sig

/-- The queue has an entry only for a pending signal and one for each, and no stop signal
is pending together with SIGCONT. -/
structure Agrees (p : Proc) : Prop where
  posted : ∀ sqp ∈ p.pSigqueue, sqp.siSigno ∈ p.pSig
  single : (p.pSigqueue.map Siginfo.siSigno).Nodup
  parted : SIGCONT ∈ p.pSig → ∀ sig ∈ stopdefault, sig ∉ p.pSig

variable {p q : Proc} {info sqp : Siginfo} {sig : Nat} {why : Why}

theorem Agrees.fewer (agrees : Agrees p) (queue : q.pSigqueue.Sublist p.pSigqueue) (signals : q.pSig ⊆ p.pSig)
    (posted : ∀ sqp ∈ q.pSigqueue, sqp.siSigno ∈ q.pSig) : Agrees q := by
  refine ⟨posted, (queue.map _).nodup agrees.single, fun continued sig stops member => ?_⟩
  exact agrees.parted (signals continued) sig stops (signals member)

theorem Agrees.same (agrees : Agrees p) (queue : q.pSigqueue = p.pSigqueue) (signals : q.pSig = p.pSig) : Agrees q := by
  apply agrees.fewer (by rw [queue]) (by rw [signals])
  rw [queue, signals]
  exact agrees.posted

@[simp] theorem mem_sigdelq : sqp ∈ (sigdelq p sig).pSigqueue ↔ sqp ∈ p.pSigqueue ∧ sig ≠ 0 ∧ sqp.siSigno ≠ sig := by
  simp [sigdelq]

@[simp] theorem sigdelq_pSig : (sigdelq p sig).pSig = p.pSig := rfl

theorem sigdelq_sublist : (sigdelq p sig).pSigqueue.Sublist p.pSigqueue := List.filter_sublist

theorem Agrees.drop (agrees : Agrees p) (queue : q.pSigqueue = (sigdelq p sig).pSigqueue) (signals : q.pSig = p.pSig.erase sig) :
    Agrees q := by
  apply agrees.fewer
  · rw [queue]
    exact sigdelq_sublist
  · rw [signals]
    exact Finset.erase_subset _ _
  · intro sqp member
    rw [queue, mem_sigdelq] at member
    rw [signals]
    exact Finset.mem_erase_of_ne_of_mem member.2.2 (agrees.posted sqp member.1)

@[simp] theorem mem_dropPending : sqp ∈ (dropPending p sig).pSigqueue ↔
    sqp ∈ p.pSigqueue ∧ (sig ∈ p.pSig → sig ≠ 0 ∧ sqp.siSigno ≠ sig) := by
  unfold dropPending
  split <;> simp [*]

@[simp] theorem dropPending_pSig : (dropPending p sig).pSig = p.pSig := by
  unfold dropPending
  split <;> rfl

theorem dropPending_sublist : (dropPending p sig).pSigqueue.Sublist p.pSigqueue := by
  unfold dropPending
  split
  · exact sigdelq_sublist
  · exact List.Sublist.refl _

theorem dropPending_masks : (dropPending p sig).strc = p.strc ∧ (dropPending p sig).pSigmask = p.pSigmask ∧
    (dropPending p sig).pIgnore = p.pIgnore := by
  unfold dropPending
  split <;> exact ⟨rfl, rfl, rfl⟩

theorem cancelStops_pSig : (cancelStops p).pSig = p.pSig \ stopdefault := by
  simp only [cancelStops, dropPending_pSig]

theorem mem_cancelStops : sqp ∈ (cancelStops p).pSigqueue ↔
    sqp ∈ p.pSigqueue ∧ ∀ sig ∈ stopdefault, sig ∈ p.pSig → sqp.siSigno ≠ sig := by
  simp only [cancelStops, mem_dropPending, dropPending_pSig, stopdefault, Finset.mem_insert, Finset.mem_singleton,
    forall_eq_or_imp, forall_eq]
  simp only [SIGSTOP, SIGTSTP, SIGTTOU, SIGTTIN]
  tauto

theorem cancelStops_sublist : (cancelStops p).pSigqueue.Sublist p.pSigqueue :=
  ((dropPending_sublist.trans dropPending_sublist).trans dropPending_sublist).trans dropPending_sublist

theorem ignored_iff : ignored p sig = true ↔ ¬ (p.strc = true ∨ sig ∈ p.pSigmask) ∧ sig ∈ p.pIgnore := by
  simp [ignored, tracing]

theorem cancelStops_ignored (other : Nat) : ignored (cancelStops p) other = ignored p other := by
  apply Bool.eq_iff_iff.mpr
  simp only [ignored_iff, cancelStops, dropPending_masks]

/-- What is cancelled for a signal: pending signals that cannot stand beside it, with their
entries, but not the signal itself. -/
structure Cancelled (sig : Nat) (p q : Proc) : Prop where
  sublist : q.pSigqueue.Sublist p.pSigqueue
  signals : q.pSig ⊆ p.pSig
  own : ∀ sqp ∈ p.pSigqueue, sqp.siSigno = sig → sqp ∈ q.pSigqueue
  itself : sig ∈ p.pSig → sig ∈ q.pSig
  gone : ∀ sqp ∈ q.pSigqueue, sqp.siSigno ∈ p.pSig → sqp.siSigno ∈ q.pSig
  continued : sig = SIGCONT → ∀ other ∈ stopdefault, other ∉ q.pSig
  stopped : sig ∈ stopdefault → SIGCONT ∉ q.pSig
  ignored : ∀ other, ignored q other = ignored p other

theorem cancel_cancelled (p : Proc) (sig : Nat) : Cancelled sig p (cancel p sig) := by
  have apart : SIGCONT ∉ stopdefault := by decide
  unfold cancel
  split
  case isTrue is =>
    subst is
    refine ⟨cancelStops_sublist, ?_, ?_, ?_, ?_, ?_, fun stops => absurd stops apart, ?_⟩
    · rw [cancelStops_pSig]
      exact Finset.sdiff_subset
    · intro sqp member own
      refine mem_cancelStops.mpr ⟨member, fun other stops _ same => apart ?_⟩
      rwa [← own, same]
    · intro pending
      rw [cancelStops_pSig]
      exact Finset.mem_sdiff.mpr ⟨pending, apart⟩
    · intro sqp member pending
      rw [cancelStops_pSig]
      refine Finset.mem_sdiff.mpr ⟨pending, fun stops => ?_⟩
      exact (mem_cancelStops.mp member).2 _ stops pending rfl
    · intro _ other stops member
      rw [cancelStops_pSig] at member
      exact (Finset.mem_sdiff.mp member).2 stops
    · exact cancelStops_ignored
  case isFalse isnt =>
    split
    case isTrue stops =>
      refine ⟨sigdelq_sublist, Finset.erase_subset _ _, ?_, ?_, ?_, fun is => absurd is isnt, ?_, fun _ => rfl⟩
      · intro sqp member own
        exact mem_sigdelq.mpr ⟨member, by decide, own ▸ isnt⟩
      · intro pending
        exact Finset.mem_erase_of_ne_of_mem isnt pending
      · intro sqp member pending
        exact Finset.mem_erase_of_ne_of_mem (mem_sigdelq.mp member).2.2 pending
      · intro _ continued
        exact absurd rfl (Finset.ne_of_mem_erase continued)
    case isFalse goes =>
      exact ⟨List.Sublist.refl _, Finset.Subset.refl _, fun _ member _ => member, id, fun _ _ pending => pending,
        fun is => absurd is isnt, fun stops => absurd stops goes, fun _ => rfl⟩

theorem sigtoproc_eq (real : 1 ≤ sig) (small : sig < NSIG) : sigtoproc p sig =
    if Sig.ignored p sig then cancel p sig else { cancel p sig with pSig := insert sig (cancel p sig).pSig } := by
  have valid : ¬ (sig = 0 ∨ sig ≥ NSIG) := by omega
  have same := (cancel_cancelled p sig).ignored sig
  simp only [Sig.ignored, decide_eq_decide] at same
  simp only [sigtoproc, if_neg valid, same, Sig.ignored, decide_eq_true_eq]

theorem sigtoproc_agrees (real : 1 ≤ sig) (small : sig < NSIG) (posted : ∀ sqp ∈ p.pSigqueue, sqp.siSigno = sig ∨ sqp.siSigno ∈ p.pSig)
    (single : (p.pSigqueue.map Siginfo.siSigno).Nodup) (parted : SIGCONT ∈ p.pSig → ∀ sig ∈ stopdefault, sig ∉ p.pSig)
    (stays : Sig.ignored p sig → sig ∈ p.pSig) : Agrees (sigtoproc p sig) := by
  have cancelled := cancel_cancelled p sig
  rw [sigtoproc_eq real small]
  split
  case isTrue ignored =>
    refine ⟨fun sqp member => ?_, (cancelled.sublist.map _).nodup single, fun continued other stops pending => ?_⟩
    · rcases posted sqp (cancelled.sublist.subset member) with own | pending
      · rw [own]
        exact cancelled.itself (stays ignored)
      · exact cancelled.gone sqp member pending
    · exact parted (cancelled.signals continued) other stops (cancelled.signals pending)
  case isFalse heeded =>
    refine ⟨fun sqp member => ?_, (cancelled.sublist.map _).nodup single, fun continued other stops pending => ?_⟩
    · rcases posted sqp (cancelled.sublist.subset member) with own | pending
      · rw [own]
        exact Finset.mem_insert_self _ _
      · exact Finset.mem_insert_of_mem (cancelled.gone sqp member pending)
    · rcases Finset.mem_insert.mp continued with rfl | continued
      · rcases Finset.mem_insert.mp pending with rfl | pending
        · exact absurd stops (by decide)
        · exact cancelled.continued rfl other stops pending
      · rcases Finset.mem_insert.mp pending with rfl | pending
        · exact cancelled.stopped stops continued
        · exact parted (cancelled.signals continued) other stops (cancelled.signals pending)

theorem Agrees.sigtoproc (agrees : Agrees p) (sig : Nat) : Agrees (sigtoproc p sig) := by
  by_cases valid : sig = 0 ∨ sig ≥ NSIG
  · simpa only [Sig.sigtoproc, if_pos valid] using agrees
  · have real : 1 ≤ sig := by omega
    have small : sig < NSIG := by omega
    by_cases ignored : Sig.ignored p sig
    · have cancelled := cancel_cancelled p sig
      rw [sigtoproc_eq real small, if_pos ignored]
      apply agrees.fewer cancelled.sublist cancelled.signals
      intro sqp member
      exact cancelled.gone sqp member (agrees.posted sqp (cancelled.sublist.subset member))
    · apply sigtoproc_agrees real small (fun sqp member => .inr (agrees.posted sqp member)) agrees.single agrees.parted
      exact fun ignores => absurd ignores ignored

theorem sigtoproc_posts (real : 1 ≤ sig) (small : sig < NSIG) (heeded : ¬ Sig.ignored p sig) : sig ∈ (sigtoproc p sig).pSig := by
  rw [sigtoproc_eq real small, if_neg heeded]
  exact Finset.mem_insert_self _ _

theorem Agrees.sigaddq (agrees : Agrees p) (real : 1 ≤ info.siSigno) (small : info.siSigno < NSIG)
    (stays : Sig.ignored p info.siSigno → info.siSigno ∈ p.pSig) : Agrees (sigaddq p info) := by
  unfold Sig.sigaddq
  split
  case isTrue => exact agrees
  case isFalse new =>
    have stays : Sig.ignored { p with pSigqueue := p.pSigqueue ++ [info] } info.siSigno → info.siSigno ∈ p.pSig := stays
    refine sigtoproc_agrees (p := { p with pSigqueue := p.pSigqueue ++ [info] }) real small ?_ ?_ agrees.parted stays
    · intro sqp member
      rcases List.mem_append.mp member with old | last
      · exact .inr (agrees.posted sqp old)
      · exact .inl (congrArg Siginfo.siSigno (List.mem_singleton.mp last))
    · simp only [List.map_append, List.map_cons, List.map_nil]
      refine List.nodup_append.mpr ⟨agrees.single, List.nodup_singleton _, fun sig old other last => ?_⟩
      obtain ⟨sqp, member, rfl⟩ := List.mem_map.mp old
      obtain rfl := List.mem_singleton.mp last
      exact fun same => new ⟨sqp, member, same⟩

theorem Agrees.stale (agrees : Agrees p) (real : 1 ≤ info.siSigno) (small : info.siSigno < NSIG)
    (ignored : Sig.ignored p info.siSigno) (absent : info.siSigno ∉ p.pSig) : ¬ Agrees (Sig.sigaddq p info) := by
  intro after
  have new : ¬ ∃ sqp ∈ p.pSigqueue, sqp.siSigno = info.siSigno := by
    rintro ⟨sqp, member, same⟩
    exact absent (same ▸ agrees.posted sqp member)
  have same : Sig.ignored { p with pSigqueue := p.pSigqueue ++ [info] } info.siSigno = true := ignored
  rw [Sig.sigaddq, if_neg new, sigtoproc_eq real small, if_pos same] at after
  have cancelled := cancel_cancelled { p with pSigqueue := p.pSigqueue ++ [info] } info.siSigno
  have queued := cancelled.own info (List.mem_append_right _ (List.mem_singleton_self _)) rfl
  exact absent (cancelled.signals (after.posted info queued))

theorem Agrees.sigaddq_posts (agrees : Agrees p) (real : 1 ≤ info.siSigno) (small : info.siSigno < NSIG)
    (heeded : ¬ Sig.ignored p info.siSigno) : info.siSigno ∈ (Sig.sigaddq p info).pSig := by
  unfold Sig.sigaddq
  split
  case isTrue there =>
    obtain ⟨sqp, member, same⟩ := there
    rw [← same]
    exact agrees.posted sqp member
  case isFalse => exact sigtoproc_posts real small heeded

theorem dequeue_filter (queue : List Siginfo) (single : (queue.map Siginfo.siSigno).Nodup) :
    (dequeue sig queue).2 = queue.filter fun sqp => sqp.siSigno ≠ sig := by
  induction queue with
  | nil => rfl
  | cons sqp rest ih =>
    simp only [List.map_cons, List.nodup_cons] at single
    unfold dequeue
    split
    case isTrue same =>
      subst same
      have others : ∀ other ∈ rest, other.siSigno ≠ sqp.siSigno := by
        intro other member same
        exact single.1 (same ▸ List.mem_map_of_mem member)
      simp only [ne_eq, not_true_eq_false, decide_false, Bool.false_eq_true, not_false_eq_true, List.filter_cons_of_neg]
      exact (List.filter_eq_self.mpr fun other member => by simpa using others other member).symm
    case isFalse other =>
      rw [List.filter_cons_of_pos (by simpa using other), ih single.2]

theorem Agrees.sigdeq (agrees : Agrees p) (real : 1 ≤ sig) (queue : q.pSigqueue = p.pSigqueue) (signals : q.pSig = p.pSig.erase sig) :
    Agrees (Sig.sigdeq q sig) := by
  have rest : (dequeue sig q.pSigqueue).2 = q.pSigqueue.filter fun sqp => sqp.siSigno ≠ sig := by
    apply dequeue_filter
    rw [queue]
    exact agrees.single
  have once : ¬ ((dequeue sig q.pSigqueue).1 ≠ none ∧ ∃ other ∈ (dequeue sig q.pSigqueue).2, other.siSigno = sig) := by
    rw [rest]
    rintro ⟨_, other, member, same⟩
    simp [same] at member
  have left : (Sig.sigdeq q sig).pSigqueue = (sigdelq p sig).pSigqueue := by
    have kept : (Sig.sigdeq q sig).pSigqueue = (dequeue sig q.pSigqueue).2 := rfl
    rw [kept, rest, queue, sigdelq]
    apply List.filter_congr
    intro sqp _
    simp [show sig ≠ 0 by omega]
  apply agrees.drop left
  simp only [Sig.sigdeq, if_neg once]
  exact signals

theorem Agrees.isjobstop (agrees : Agrees p) (sig : Nat) : Agrees (Sig.isjobstop p sig).2 := by
  unfold Sig.isjobstop
  split
  · split
    · exact agrees.drop rfl rfl
    · exact agrees
  · exact agrees

theorem unheld_pending : unheld p ⊆ p.pSig := by
  unfold unheld
  split
  · exact Finset.sdiff_subset.trans Finset.sdiff_subset
  · exact Finset.sdiff_subset

theorem fsig_pending (found : fsig p ≠ 0) : 1 ≤ fsig p ∧ fsig p ∈ p.pSig := by
  refine ⟨by omega, unheld_pending ?_⟩
  unfold fsig at found ⊢
  split
  · assumption
  · rename_i other
    rw [if_neg other] at found
    cases first : (List.range NSIG).find? fun i => 1 ≤ i ∧ i ∈ unheld p with
    | none => exact absurd (congrArg (Option.getD · 0) first) found
    | some i =>
      have is := List.find?_some first
      simp only [decide_eq_true_eq] at is
      exact is.2

theorem Agrees.pending (why : Why) (time : Nat) (p : Proc) (agrees : Agrees p) : Agrees (Sig.pending why time p).2 := by
  induction time generalizing p with
  | zero => exact agrees
  | succ time ih =>
    simp only [Sig.pending]
    split
    · exact agrees
    · rename_i found
      split
      · split
        · exact agrees
        · exact agrees.sigdeq (fsig_pending found).1 rfl rfl
      · exact ih _ (agrees.drop rfl rfl)

theorem Agrees.issig (agrees : Agrees p) (why : Why) : Agrees (Sig.issig why p).2 := by
  unfold Sig.issig
  split
  · have promoted : Agrees { p with pCursig := 0 } := agrees.same rfl rfl
    dsimp only
    split
    · exact promoted.same rfl rfl
    · split
      · exact promoted.same rfl rfl
      · have stopped := promoted.isjobstop p.pCursig
        split
        all_goals
          rename_i after found
          rw [found] at stopped
          exact stopped.same rfl rfl
  · exact agrees.pending why _ p

theorem Agrees.setsigact (agrees : Agrees p) (sig : Nat) (disp : Disp) : Agrees (Sig.setsigact p sig disp) := by
  unfold Sig.setsigact
  dsimp only
  split
  · exact agrees.same rfl rfl
  · split
    · exact agrees.drop rfl rfl
    · exact agrees.same rfl rfl

theorem exit_agrees (p : Proc) : Agrees (Sig.exit p) := by
  have empty : (Sig.exit p).pSigqueue = [] := by simp [Sig.exit, sigdelq]
  have none_ : (Sig.exit p).pSig = ∅ := rfl
  exact ⟨by simp [empty], by simp [empty], by simp [none_]⟩

/-- A process, and the signals of the calls of `sigaddq` that sleep in `kmem_alloc`. -/
structure System where
  p : Proc
  asleep : List Siginfo

inductive Memory
  | atOnce
  | fails
  | sleeps
  deriving DecidableEq

/-- `changes` is anything else that happens to the process, by a debugger for one. -/
inductive Event
  | psignal (sig : Nat)
  | sigaddq (info : Siginfo) (memory : Memory)
  | resumes (info : Siginfo)
  | issig (why : Why)
  | setsigact (sig : Nat) (disp : Disp)
  | changes (q : Proc)
  | exit

def System.sigaddq (s : System) (info : Siginfo) (memory : Memory) : System :=
  if Sig.ignored s.p info.siSigno then { s with p := sigtoproc s.p info.siSigno }
  else
    match memory with
    | .atOnce => { s with p := Sig.sigaddq s.p info }
    | .fails => { s with p := sigtoproc s.p info.siSigno }
    | .sleeps => { s with asleep := info :: s.asleep }

def step (s : System) : Event → System
  | .psignal sig => { s with p := sigtoproc s.p sig }
  | .sigaddq info memory => s.sigaddq info memory
  | .resumes info => ⟨Sig.sigaddq s.p info, s.asleep.erase info⟩
  | .issig why => { s with p := (Sig.issig why s.p).2 }
  | .setsigact sig disp => { s with p := Sig.setsigact s.p sig disp }
  | .changes q => { s with p := q }
  | .exit => { s with p := Sig.exit s.p }

/-- `sigaddq` asserts that the signal is one, and `sigaction` checks it. -/
def Enabled (s : System) : Event → Prop
  | .sigaddq info _ => 1 ≤ info.siSigno ∧ info.siSigno < NSIG
  | .resumes info => info ∈ s.asleep
  | .setsigact sig _ => 1 ≤ sig ∧ sig < NSIG
  | .changes q => q.pSig = s.p.pSig ∧ q.pSigqueue = s.p.pSigqueue
  | _ => True

def Event.sends : Event → Option Siginfo
  | .sigaddq info memory => if memory = .sleeps then none else some info
  | .resumes info => some info
  | _ => none

/-- After the event the queue agrees, and a signal it sends is pending, if not ignored. -/
def Kept (s : System) (event : Event) : Prop :=
  Agrees (step s event).p ∧
    ∀ info, event.sends = some info → ¬ Sig.ignored s.p info.siSigno → info.siSigno ∈ (step s event).p.pSig

/-- A signal that had to wait for memory is not ignored by then, or is pending already. -/
def Heeded (s : System) : Event → Prop
  | .resumes info => ¬ Sig.ignored s.p info.siSigno ∨ info.siSigno ∈ s.p.pSig
  | _ => True

def Throughout (holds : System → Event → Prop) : System → List Event → Prop
  | _, [] => True
  | s, event :: events => holds s event ∧ Throughout holds (step s event) events

/-- A process without pending signals, and nobody about to send one. -/
def start (p : Proc) : System := ⟨{ p with pSig := ∅, pSigqueue := [] }, []⟩

structure Valid (s : System) : Prop where
  agrees : Agrees s.p
  signals : ∀ info ∈ s.asleep, 1 ≤ info.siSigno ∧ info.siSigno < NSIG

variable {s : System} {event : Event}

theorem step_signals (valid : Valid s) (enabled : Enabled s event) : ∀ info ∈ (step s event).asleep,
    1 ≤ info.siSigno ∧ info.siSigno < NSIG := by
  intro info member
  cases event with
  | sigaddq sent memory =>
    simp only [step, System.sigaddq] at member
    split at member
    · exact valid.signals info member
    · cases memory with
      | atOnce => exact valid.signals info member
      | fails => exact valid.signals info member
      | sleeps =>
        rcases List.mem_cons.mp member with rfl | old
        · exact enabled
        · exact valid.signals info old
  | resumes sent => exact valid.signals info (List.mem_of_mem_erase member)
  | psignal sig => exact valid.signals info member
  | issig why => exact valid.signals info member
  | setsigact sig disp => exact valid.signals info member
  | changes q => exact valid.signals info member
  | exit => exact valid.signals info member

theorem step_kept (valid : Valid s) (enabled : Enabled s event) : Kept s event ↔ Heeded s event := by
  cases event with
  | psignal sig => exact ⟨fun _ => trivial, fun _ => ⟨valid.agrees.sigtoproc sig, nofun⟩⟩
  | issig why => exact ⟨fun _ => trivial, fun _ => ⟨valid.agrees.issig why, nofun⟩⟩
  | setsigact sig disp => exact ⟨fun _ => trivial, fun _ => ⟨valid.agrees.setsigact sig disp, nofun⟩⟩
  | changes q => exact ⟨fun _ => trivial, fun _ => ⟨valid.agrees.same enabled.2 enabled.1, nofun⟩⟩
  | exit => exact ⟨fun _ => trivial, fun _ => ⟨exit_agrees s.p, nofun⟩⟩
  | sigaddq info memory =>
    obtain ⟨real, small⟩ := enabled
    refine ⟨fun _ => trivial, fun _ => ?_⟩
    simp only [Kept, step, System.sigaddq]
    split
    case isTrue ignored =>
      refine ⟨valid.agrees.sigtoproc _, fun sent sends heeded => absurd ignored ?_⟩
      cases memory with
      | sleeps => simp [Event.sends] at sends
      | _ =>
        obtain rfl : info = sent := by simpa [Event.sends] using sends
        exact heeded
    case isFalse heeded =>
      cases memory with
      | sleeps => exact ⟨valid.agrees, by simp [Event.sends]⟩
      | atOnce =>
        refine ⟨valid.agrees.sigaddq real small fun ignored => absurd ignored heeded, fun sent sends _ => ?_⟩
        obtain rfl : info = sent := by simpa [Event.sends] using sends
        exact valid.agrees.sigaddq_posts real small heeded
      | fails =>
        refine ⟨valid.agrees.sigtoproc _, fun sent sends _ => ?_⟩
        obtain rfl : info = sent := by simpa [Event.sends] using sends
        exact sigtoproc_posts real small heeded
  | resumes info =>
    obtain ⟨real, small⟩ := valid.signals info enabled
    refine ⟨fun kept => ?_, fun heeded => ⟨?_, fun sent sends not_ignored => ?_⟩⟩
    · by_contra unheeded
      obtain ⟨ignored, absent⟩ := not_or.mp unheeded
      exact valid.agrees.stale real small (not_not.mp ignored) absent kept.1
    · exact valid.agrees.sigaddq real small fun ignored => heeded.resolve_left (not_not.mpr ignored)
    · obtain rfl : info = sent := by simpa [Event.sends] using sends
      exact valid.agrees.sigaddq_posts real small not_ignored

theorem Valid.throughout (events : List Event) (s : System) (valid : Valid s) (enabled : Throughout Enabled s events) :
    Throughout Kept s events ↔ Throughout Heeded s events := by
  induction events generalizing s with
  | nil => exact Iff.rfl
  | cons event events ih =>
    have now := step_kept valid enabled.1
    constructor
    · intro ⟨kept, later⟩
      exact ⟨now.mp kept, (ih _ ⟨kept.1, step_signals valid enabled.1⟩ enabled.2).mp later⟩
    · intro ⟨heeded, later⟩
      have kept := now.mpr heeded
      exact ⟨kept, (ih _ ⟨kept.1, step_signals valid enabled.1⟩ enabled.2).mpr later⟩

theorem start_valid (p : Proc) : Valid (start p) := by
  refine ⟨⟨?_, ?_, ?_⟩, ?_⟩ <;> simp [start]

/-- In every run the queue agrees with the pending signals throughout, and no signal that
is not ignored is dropped, if and only if none comes to be ignored during that sleep. -/
theorem siginfo_agrees (p : Proc) (events : List Event) (enabled : Throughout Enabled (start p) events) :
    Throughout Kept (start p) events ↔ Throughout Heeded (start p) events :=
  (start_valid p).throughout events (start p) enabled

def catches : Proc := ⟨∅, [], ∅, ∅, ∅, false, false, false, false, 0, none, fun _ => .catcher⟩

def usr1 : Siginfo := ⟨SIGUSR1, 0⟩

/-- SIGUSR1 is ignored and caught again while its sender sleeps, and sent once more. -/
def heededAgain : List Event :=
  [.sigaddq usr1 .sleeps, .setsigact SIGUSR1 .SIG_IGN, .setsigact SIGUSR1 .catcher, .resumes usr1, .sigaddq usr1 .atOnce]

theorem siginfo_agrees_heeded_again : Throughout Kept (start catches) heededAgain := by
  have signal : 1 ≤ SIGUSR1 ∧ SIGUSR1 < NSIG := by decide
  have awake : usr1 ∈ (step (step (step (start catches) (.sigaddq usr1 .sleeps)) (.setsigact SIGUSR1 .SIG_IGN))
    (.setsigact SIGUSR1 .catcher)).asleep := by decide
  apply (siginfo_agrees catches heededAgain ⟨signal, signal, signal, awake, signal, trivial⟩).mpr
  exact ⟨trivial, trivial, trivial, by simp only [Heeded]; decide, trivial, trivial⟩

/-- The sender comes out of its sleep while SIGUSR1 is ignored: caught again, it is
dropped from then on. -/
theorem siginfo_stale : ∃ events, Throughout Enabled (start catches) events ∧ ∃ s, s = events.foldl step (start catches) ∧
    ¬ Agrees s.p ∧ ¬ Sig.ignored s.p SIGUSR1 ∧ SIGUSR1 ∉ (step s (.sigaddq usr1 .atOnce)).p.pSig := by
  have signal : 1 ≤ SIGUSR1 ∧ SIGUSR1 < NSIG := by decide
  have awake : usr1 ∈ (step (step (start catches) (.sigaddq usr1 .sleeps)) (.setsigact SIGUSR1 .SIG_IGN)).asleep := by decide
  refine ⟨[.sigaddq usr1 .sleeps, .setsigact SIGUSR1 .SIG_IGN, .resumes usr1, .setsigact SIGUSR1 .catcher],
    ⟨signal, signal, awake, signal, trivial⟩, _, rfl, fun agrees => ?_, by decide, by decide⟩
  exact absurd (agrees.posted usr1 (by decide)) (by decide)

end Svr4.Proofs.SigQueue
