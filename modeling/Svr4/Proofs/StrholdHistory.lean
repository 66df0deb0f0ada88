import Svr4.Strhold
import Svr4.Proofs.RunlistHistory

/-! The held queues and the enabled queues share their links, but no queue is on both lists. -/

namespace Svr4.Proofs.StrholdLists
open Function Chain DoubleChain Runlist RunlistHistory Strhold

variable {clmode : Bool} {flushed : List Queue} {streams : Streams}

section runlist
variable {s t : Streams} {l rest qs : List Queue} {q qp x : Queue} {p prev : Option Queue} {drop : Queue → Bool} {all : Bool} {time : Nat}

theorem qenable_links (other : x ≠ q) (last : s.qtail ≠ some x) :
    (qenable q s).qLink x = s.qLink x ∧ (qenable q s).qtail ≠ some x := by
  unfold qenable
  split
  · exact ⟨rfl, last⟩
  split
  · exact ⟨rfl, last⟩
  have ended : some q ≠ some x := fun same => other (Option.some.inj same).symm
  dsimp only
  split
  · exact ⟨update_of_ne other .., ended⟩
  · split
    · exact ⟨update_of_ne other .., ended⟩
    · next tail =>
      refine ⟨?_, ended⟩
      dsimp only
      rw [update_of_ne other, update_of_ne]
      rintro rfl
      exact last tail

theorem qenables_links (outside : x ∉ qs) (last : s.qtail ≠ some x) :
    (qenables qs s).qLink x = s.qLink x ∧ (qenables qs s).qenab x = s.qenab x := by
  induction qs generalizing s with
  | nil => exact ⟨rfl, rfl⟩
  | cons q qs ih =>
    simp only [List.mem_cons, not_or] at outside
    obtain ⟨other, outside⟩ := outside
    obtain ⟨link, last⟩ := qenable_links other last
    obtain ⟨links, flags⟩ := ih outside last
    exact ⟨links.trans link, flags.trans ((qenable_frame q s).2.2.2 x other)⟩

theorem unlist_links (linked : Linked s.qLink p rest) (outside : x ∉ rest) (before : ∀ y, prev = some y → y ≠ x ∧ y ∉ rest)
    (call : unlist drop all time prev p s = some t) : t.qLink x = s.qLink x := by
  induction time generalizing prev p rest s with
  | zero =>
    cases p with
    | none =>
      cases call
      rfl
    | some q => cases call
  | succ time ih =>
    cases rest with
    | nil =>
      rw [linked_none.mp linked, unlist] at call
      cases call
      rfl
    | cons q rest =>
      have once := List.nodup_cons.mp linked.nodup
      obtain ⟨rfl, linked⟩ := linked
      rw [unlist] at call
      split at call
      · have links : ∀ y, prev ≠ some y → (splice prev q s).qLink y = s.qLink y := by
          intro y other
          rw [(splice_frame prev q s).1]
          cases prev with
          | none => rfl
          | some a => exact update_of_ne (fun same => other (congrArg some same.symm)) ..
        have first : (splice prev q s).qLink x = s.qLink x := links x fun same => (before x same).1 rfl
        cases all with
        | false =>
          cases call
          exact first
        | true =>
          dsimp only at call
          rw [if_pos rfl, links q fun same => (before q same).2 (by simp)] at call
          refine (ih (Seg.congr linked fun y member => links y fun same => ?_) (fun member => outside (by simp [member]))
            (fun y same => ?_) call).trans first
          · exact (before y same).2 (by simp [member])
          · obtain ⟨other, apart⟩ := before y same
            exact ⟨other, fun member => apart (by simp [member])⟩
      · refine ih linked (fun member => outside (by simp [member])) (fun y same => ?_) call
        cases same
        exact ⟨fun same => outside (by simp [same]), once.1⟩

section
variable (lists : Lists s l (fun _ => False))
include lists

theorem strcloseUnlist_links (outside : x ∉ l) (call : strcloseUnlist time qp s = some t) :
    t.qLink x = s.qLink x := by
  unfold strcloseUnlist at call
  split at call
  · exact unlist_links lists.linked outside (fun _ none => by cases none) call
  · cases call
    rfl

theorem qdetachUnlist_links (outside : x ∉ l) (call : qdetachUnlist time qp s = some t) :
    t.qLink x = s.qLink x := by
  unfold qdetachUnlist at call
  split at call
  · exact unlist_links lists.linked outside (fun _ none => by cases none) call
  · cases call
    rfl

theorem qdetach_frame
    (call : qdetach time qp clmode [] flushed s = some t) : t.qinfo = s.qinfo ∧ t.inUse = update s.inUse qp.pair false := by
  obtain ⟨u, v, off, rfl, -, -, -, inUse, -, qinfo⟩ := qdetach_mended call
  have freed : (freeq qp v).inUse = update u.inUse qp.pair false := by rw [← inUse]; rfl
  rw [show (freeq qp v).qinfo = u.qinfo from qinfo, freed]
  cases clmode with
  | false =>
    cases off
    exact ⟨rfl, rfl⟩
  | true =>
    obtain ⟨w, unlisted, rfl⟩ := Option.map_eq_some_iff.mp off
    obtain ⟨-, qinfo, inUse, -, -⟩ := qdetachUnlist_lists lists unlisted
    obtain ⟨qinfo', inUse', -⟩ := qenables_frame flushed w
    exact ⟨qinfo'.trans qinfo, by rw [inUse', inUse]⟩

theorem qdetach_links (outside : x ∉ l) (unflushed : x ∉ flushed)
    (call : qdetach time qp clmode [] flushed s = some t) : t.qLink x = s.qLink x ∧ t.qenab x = s.qenab x := by
  obtain ⟨u, v, off, rfl, qLink, -, -, -, qenab, -⟩ := qdetach_mended call
  rw [show (freeq qp v).qLink = u.qLink from qLink, show (freeq qp v).qenab = u.qenab from qenab]
  cases clmode with
  | false =>
    cases off
    exact ⟨rfl, rfl⟩
  | true =>
    obtain ⟨w, unlisted, rfl⟩ := Option.map_eq_some_iff.mp off
    obtain ⟨without, -, -, qenab, -⟩ := qdetachUnlist_lists lists unlisted
    have last : w.qtail ≠ some x := by
      rw [without.last]
      exact fun ended => outside (List.mem_of_mem_erase (List.mem_of_mem_erase (List.mem_of_getLast? ended)))
    obtain ⟨links, flags⟩ := qenables_links unflushed last
    exact ⟨links.trans (qdetachUnlist_links lists outside unlisted), flags.trans (congrFun qenab x)⟩

end

structure Closed (qp : Queue) (l : List Queue) (s t : Streams) : Prop where
  links : ∀ x, x ∉ l → t.qLink x = s.qLink x
  others : ∀ pair, pair ≠ qp.pair → (∀ n, s.qinfo n = .deadrend → pair ≠ n.pair) → t.inUse pair = s.inUse pair
  used : ∀ pair, t.inUse pair = true → s.inUse pair = true
  dead : ∀ q, t.qinfo q = .deadrend → s.qinfo q = .deadrend ∨ q = RD qp
  rest : ∀ q, q ≠ qp → q ≠ RD qp → t.qinfo q = s.qinfo q

theorem Closed.freeq {n : Queue} (closed : Closed qp l s t) (may : n.pair = qp.pair ∨ s.qinfo n = .deadrend) : Closed qp l s (freeq n t) := by
  refine ⟨closed.links, fun pair other alive => ?_, fun pair used => ?_, closed.dead, closed.rest⟩
  · have apart : pair ≠ n.pair := by
      rcases may with same | dead
      · rwa [same]
      · exact alive n dead
    change update t.inUse n.pair false pair = _
    rw [update_of_ne apart]
    exact closed.others pair other alive
  · change update t.inUse n.pair false pair = true at used
    by_cases same : pair = n.pair
    · rw [same, update_self] at used
      cases used
    · rw [update_of_ne same] at used
      exact closed.used pair used

theorem strclose_closed (lists : Lists s l (fun _ => False)) (call : Runlist.strclose time qp [] s = some t) : Closed qp l s t := by
  obtain ⟨u, off, rest⟩ := Option.bind_eq_some_iff.mp call
  obtain ⟨-, qinfo, inUse, qenab, qNext⟩ := strcloseUnlist_lists lists off
  have first : Closed qp l s u :=
    ⟨fun x outside => strcloseUnlist_links lists outside off, fun pair _ _ => congrFun inUse pair, fun pair used => inUse ▸ used,
      fun q dead => .inl (qinfo ▸ dead), fun q _ _ => congrFun qinfo q⟩
  split at rest
  · next n _ =>
    split at rest
    · cases rest
      exact first.freeq (.inl rfl)
    split at rest
    · next dead =>
      cases rest
      exact (first.freeq (.inr (qinfo ▸ dead))).freeq (.inl rfl)
    split at rest
    · cases rest
      exact first.freeq (.inl rfl)
    · cases rest
      refine ⟨first.links, first.others, first.used, fun q dead => ?_, fun q write read => ?_⟩
      · dsimp only at dead
        by_cases read : q = RD qp
        · exact .inr read
        · rw [update_of_ne read] at dead
          by_cases same : q = qp
          · rw [same, update_self] at dead
            cases dead
          · rw [update_of_ne same] at dead
            exact first.dead q dead
      · dsimp only
        rw [update_of_ne read, update_of_ne write]
        exact first.rest q write read
  · cases rest
    exact first.freeq (.inl rfl)

end runlist

end Svr4.Proofs.StrholdLists

/-! Held messages stay on their list, as long as no queue comes to be on both lists. -/

namespace Svr4.Proofs.StrholdHistory
open Function Chain DoubleChain Runlist RunlistHistory Strhold StrholdLists

/-- The messages that have been held and not sent or freed yet, and those that writers add to. -/
structure World where
  state : State
  held : Finset (Queue × Nat)
  copying : Finset (Queue × Nat)

structure Opened (s : State) (q : Queue) : Prop where
  writes : q.qreadr = false
  used : s.streams.inUse q.pair = true
  qinfo : s.streams.qinfo q = .stwdata
  stays : s.strclose q = false

def release (held : Finset (Queue × Nat)) (q : Queue) : Option Nat → Finset (Queue × Nat)
  | none => held
  | some m => held.erase (q, m)

def MayEnable (q : Queue) (s : State) : Prop :=
  (s.streams.qinfo q).qiSrvp = true → s.streams.qenab q = false → ¬ (s.qhlist q = true ∧ s.strclose q = false)

def MayHold (q : Queue) (s : State) : Prop := s.qFirst q = none ∧ (s.qhlist q = true ∨ s.streams.qenab q = false)

/-- Everything that happens to the two lists. A writer finds a held message, copies into it
and then keeps or sends it, or makes a new one; other processes run while it sleeps. A step
says under which condition it does no harm. -/
inductive Step (w : World) : Prop → World → Prop
  | stropen {pair : Nat} {rinit winit : Qinit} (fresh : w.state.streams.inUse pair = false) (alive : rinit ≠ .deadrend ∧ winit ≠ .deadrend) :
      Step w True { w with state := stropen pair rinit winit w.state }
  /-- Other code joins streams. -/
  | around {qNext : Queue → Option Queue} : Step w True { w with state := { w.state with streams := { w.state.streams with qNext } } }
  | clock {lbolt : Int} : Step w True { w with state := { w.state with lbolt } }
  | qenable {q : Queue} (used : w.state.streams.inUse q.pair = true) :
      Step w (MayEnable q w.state) { w with state := { w.state with streams := qenable q w.state.streams } }
  /-- `queuerun` takes a queue off, and its service procedure does what other steps say. -/
  | service {q : Queue} {streams : Streams} (taken : takeQueue w.state.streams = some (q, streams)) :
      Step w True { w with state := { w.state with streams } }
  | find {q : Queue} {mp : Nat} (opened : Opened w.state q) (first : w.state.qFirst q = some mp) :
      Step w True { w with copying := insert (q, mp) w.copying }
  | copied {q : Queue} {mp : Nat} {keeps : Bool} (found : (q, mp) ∈ w.copying) :
      Step w (keeps = true ∨ ∀ m, w.state.qFirst q = some m → m = mp)
        ⟨(strwriteCopied q mp keeps w.state).2, release w.held q (strwriteCopied q mp keeps w.state).1, w.copying.erase (q, mp)⟩
  | send {q : Queue} {mp : Nat} (opened : Opened w.state q) :
      Step w (w.state.qFirst q = none) { w with state := (strwriteSend q mp w.state).2, held := release w.held q (strwriteSend q mp w.state).1 }
  | hold {q : Queue} {mp : Nat} (opened : Opened w.state q) :
      Step w (MayHold q w.state) { w with state := strwriteHold q mp w.state, held := insert (q, mp) w.held }
  | queuerun {q : Queue} {mp : Option Nat} {s : State} (first : w.state.scanqhead = some q) (turn : queuerunHeld w.state = some (mp, s)) :
      Step w True { w with state := s, held := release w.held q mp }
  /-- The last close comes when nobody writes. -/
  | strclose {q : Queue} {mp : Option Nat} {s : State} {time : Nat} (opened : Opened w.state q) (last : ∀ m, (q, m) ∉ w.copying)
      (call : strcloseHeld time q w.state = some (mp, s)) : Step w True { w with state := s, held := release w.held q mp }
  /-- A module or driver is closed and its pair freed, by `strclose`, `I_POP` or an open that
  failed; flushing the pair enables the queues `flushed`. -/
  | qdetach {n : Queue} {clmode : Bool} {flushed : List Queue} {streams : Streams} {time : Nat} (reads : n.qreadr = true)
      (module : ∃ srvp, w.state.streams.qinfo (WR n) = .module srvp) (used : ∀ p ∈ flushed, w.state.streams.inUse p.pair = true)
      (call : Runlist.qdetach time n clmode [] flushed w.state.streams = some streams) :
      Step w (DetachMay n clmode [] flushed w.state.streams ∧ ∀ p ∈ flushed, MayEnable p w.state) { w with state := { w.state with streams } }
  /-- The end of `strclose`, when nothing is left of the stream but its head. -/
  | closed {q : Queue} {streams : Streams} {time : Nat} (writes : q.qreadr = false) (closing : w.state.strclose q = true)
      (call : Runlist.strclose time q [] w.state.streams = some streams) :
      Step w (CloseMay q w.state.streams) { w with state := { w.state with streams } }

/-- From no queues at all. With `careful` every step meets its condition. -/
inductive Run (careful : Bool) : World → Prop
  | start {w : World} (qhead : w.state.streams.qhead = none) (qtail : w.state.streams.qtail = none)
      (inUse : ∀ pair, w.state.streams.inUse pair = false) (scanqhead : w.state.scanqhead = none) (scanqtail : w.state.scanqtail = none)
      (qFirst : ∀ q, w.state.qFirst q = none) (held : w.held = ∅) (copying : w.copying = ∅) : Run careful w
  | step {w t : World} {may : Prop} (run : Run careful w) (step : Step w may t) (met : careful = true → may) : Run careful t

/-- Every message that is held is at its queue, and every such queue is on the list. -/
def Reached (w : World) : Prop :=
  ∃ scan, Linked w.state.streams.qLink w.state.scanqhead scan ∧ (∀ q m, (q, m) ∈ w.held ↔ w.state.qFirst q = some m) ∧
    ∀ q m, w.state.qFirst q = some m → q ∈ scan

def Enabled (w : World) : Prop :=
  ∃ l, Linked w.state.streams.qLink w.state.streams.qhead l ∧ ∀ q, q ∈ l ↔ w.state.streams.inUse q.pair = true ∧ w.state.streams.qenab q = true

structure Kept (s : State) (held : Finset (Queue × Nat)) (l scan : List Queue) : Prop where
  runs : Lists s.streams l (fun _ => False)
  linked : Linked s.streams.qLink s.scanqhead scan
  last : s.scanqtail = scan.getLast?
  flagged : ∀ q, q ∈ scan ↔ s.streams.inUse q.pair = true ∧ s.qhlist q = true ∧ s.strclose q = false
  apart : ∀ q ∈ scan, q ∉ l
  heads : ∀ q ∈ scan, q.qreadr = false ∧ s.streams.qinfo q = .stwdata
  waits : ∀ q m, s.qFirst q = some m → q ∈ scan
  held : ∀ q m, (q, m) ∈ held ↔ s.qFirst q = some m
  dead : ∀ q, s.streams.inUse q.pair = true → s.streams.qinfo q = .deadrend → q.qreadr = true ∧ s.strclose (WR q) = true

variable {s t : State} {held : Finset (Queue × Nat)} {l scan : List Queue} {q qp : Queue} {mp : Option Nat} {m time : Nat}

section
variable (kept : Kept s held l scan)
include kept

theorem Kept.release (q : Queue) :
    Kept { s with qFirst := update s.qFirst q none } (release held q (s.qFirst q)) l scan := by
  refine ⟨kept.runs, kept.linked, kept.last, kept.flagged, kept.apart, kept.heads, fun p m first => ?_, fun p m => ?_, kept.dead⟩
  · dsimp only at first
    by_cases same : p = q
    · rw [same, update_self] at first
      cases first
    · rw [update_of_ne same] at first
      exact kept.waits p m first
  · dsimp only
    have old := kept.held p m
    by_cases same : p = q
    · subst same
      rw [update_self]
      cases first : s.qFirst p with
      | none =>
        rw [first] at old
        simp only [StrholdHistory.release, old]
      | some n =>
        rw [first] at old
        simp only [StrholdHistory.release, Finset.mem_erase, old]
        constructor
        · rintro ⟨other, is⟩
          cases is
          exact absurd rfl other
        · intro none
          cases none
    · rw [update_of_ne same, ← old]
      cases s.qFirst q with
      | none => rfl
      | some n => simp [StrholdHistory.release, same]

theorem around_kept (qNext : Queue → Option Queue) :
    Kept { s with streams := { s.streams with qNext } } held l scan :=
  ⟨⟨kept.runs.linked, kept.runs.last, kept.runs.enabled⟩, kept.linked, kept.last, kept.flagged, kept.apart, kept.heads, kept.waits, kept.held, kept.dead⟩

theorem service_kept (taken : takeQueue s.streams = some (q, streams)) :
    ∃ l, Kept { s with streams } held l scan := by
  obtain ⟨rest, rfl, -, qinfo, inUse, lists⟩ := takeQueue_lists kept.runs taken
  have links : streams.qLink = s.streams.qLink := by
    obtain ⟨first, head, is⟩ := Option.bind_eq_some_iff.mp taken
    cases is
    rfl
  refine ⟨rest, lists, ?_, kept.last, ?_, fun p member also => kept.apart p member (by simp [also]), ?_, kept.waits, kept.held, ?_⟩
  · dsimp only
    rw [links]
    exact kept.linked
  · dsimp only
    rw [inUse]
    exact kept.flagged
  · dsimp only
    rw [qinfo]
    exact kept.heads
  · dsimp only
    rw [inUse, qinfo]
    exact kept.dead

theorem qenable_kept (used : s.streams.inUse q.pair = true) (may : MayEnable q s) :
    ∃ l, Kept { s with streams := qenable q s.streams } held l scan := by
  have lists := qenable_lists kept.runs used (fun going => going.elim)
  obtain ⟨qinfo, inUse, -, -⟩ := qenable_frame q s.streams
  by_cases idle : (s.streams.qinfo q).qiSrvp = false ∨ s.streams.qenab q = true
  · rw [qenable_idle idle]
    exact ⟨l, kept⟩
  simp only [not_or, Bool.not_eq_false, Bool.not_eq_true] at idle
  have off : q ∉ scan := fun member => may idle.1 idle.2 ((kept.flagged q).mp member).2
  have puts : (enablings [q] s.streams).foldl after l = l ++ [q] := by simp [enablings, idle, after]
  rw [puts] at lists
  refine ⟨_, lists, ?_, kept.last, ?_, fun p member also => ?_, ?_, kept.waits, kept.held, ?_⟩
  · refine Seg.congr kept.linked fun p member => (qenable_links ?_ ?_).1
    · rintro rfl
      exact off member
    · rw [kept.runs.last]
      exact fun ended => kept.apart p member (List.mem_of_getLast? ended)
  · dsimp only
    rw [inUse]
    exact kept.flagged
  · rcases List.mem_append.mp also with old | new
    · exact kept.apart p member old
    · rw [List.mem_singleton.mp new] at member
      exact off member
  · dsimp only
    rw [qinfo]
    exact kept.heads
  · dsimp only
    rw [inUse, qinfo]
    exact kept.dead

theorem stropen_kept {pair : Nat} {rinit winit : Qinit} (fresh : s.streams.inUse pair = false)
    (alive : rinit ≠ .deadrend ∧ winit ≠ .deadrend) : Kept (stropen pair rinit winit s) held l scan := by
  have unused : ∀ q ∈ scan, q.pair ≠ pair := by
    rintro q member rfl
    rw [((kept.flagged q).mp member).1] at fresh
    cases fresh
  have apart : ∀ q : Queue, q.pair ≠ pair → q ≠ ⟨pair, true⟩ ∧ q ≠ ⟨pair, false⟩ := by
    intro q other
    constructor <;> rintro rfl <;> exact other rfl
  have pairs : ∀ q : Queue, q.pair = pair → q = ⟨pair, true⟩ ∨ q = ⟨pair, false⟩ := by
    rintro ⟨p, read⟩ rfl
    cases read
    · exact .inr rfl
    · exact .inl rfl
  -- the new pair has its own fields, and the others keep theirs
  have both : ∀ {α : Type} (f : Queue → α) (v : α) (q : Queue),
      update (update f ⟨pair, true⟩ v) ⟨pair, false⟩ v q = if q.pair = pair then v else f q := by
    intro α f v q
    split
    · next same => rcases pairs q same with rfl | rfl <;> simp
    · next other => rw [update_of_ne (apart q other).2, update_of_ne (apart q other).1]
  have used : ∀ q : Queue, (allocq pair rinit winit s.streams).inUse q.pair = if q.pair = pair then true else s.streams.inUse q.pair := by
    intro q
    split
    · next same =>
      rw [same]
      exact update_self ..
    · next other => exact update_of_ne other ..
  refine ⟨allocq_lists kept.runs fresh, ?_, kept.last, fun q => ?_, kept.apart, fun q member => ?_, fun q m first => ?_, fun q m => ?_,
    fun q busy dead => ?_⟩
  · refine Seg.congr kept.linked fun q member => ?_
    obtain ⟨first, second⟩ := apart q (unused q member)
    simp [stropen, allocq, WR, update_of_ne first, update_of_ne second]
  · rw [show (stropen pair rinit winit s).streams = allocq pair rinit winit s.streams from rfl, used,
      show (stropen pair rinit winit s).qhlist q = _ from both s.qhlist false q, show (stropen pair rinit winit s).strclose q = _ from both s.strclose false q]
    by_cases same : q.pair = pair
    · simp only [same, if_true, Bool.false_eq_true, false_and, and_false, iff_false]
      exact fun member => unused q member same
    · simp only [same, if_false]
      exact kept.flagged q
  · obtain ⟨first, second⟩ := apart q (unused q member)
    obtain ⟨writes, qinfo⟩ := kept.heads q member
    exact ⟨writes, by simpa [stropen, allocq, WR, update_of_ne first, update_of_ne second] using qinfo⟩
  · rw [show (stropen pair rinit winit s).qFirst q = _ from both s.qFirst none q] at first
    split at first
    · cases first
    · exact kept.waits q m first
  · rw [show (stropen pair rinit winit s).qFirst q = _ from both s.qFirst none q, kept.held q m]
    split
    · next same =>
      simp only [reduceCtorEq, iff_false]
      exact fun first => unused q (kept.waits q m first) same
    · rfl
  · by_cases same : q.pair = pair
    · rcases pairs q same with rfl | rfl
      · exact absurd (by simpa [stropen, allocq, WR] using dead) alive.1
      · exact absurd (by simpa [stropen, allocq, WR] using dead) alive.2
    · obtain ⟨first, second⟩ := apart q same
      rw [show (stropen pair rinit winit s).streams = allocq pair rinit winit s.streams from rfl, used, if_neg same] at busy
      have old : s.streams.qinfo q = .deadrend := by
        simpa [stropen, allocq, WR, update_of_ne first, update_of_ne second] using dead
      obtain ⟨reads, closing⟩ := kept.dead q busy old
      refine ⟨reads, ?_⟩
      rw [show (stropen pair rinit winit s).strclose (WR q) = _ from both s.strclose false (WR q), if_neg (show ¬ (WR q).pair = pair from same)]
      exact closing

theorem hold_kept (opened : Opened s q) (may : MayHold q s) (m : Nat) :
    ∃ scan, Kept (strwriteHold q m s) (insert (q, m) held) l scan := by
  obtain ⟨empty, off⟩ := may
  have members : ∀ p n, (p, n) ∈ insert (q, m) held ↔ update s.qFirst q (some m) p = some n := by
    intro p n
    rw [Finset.mem_insert, kept.held p n]
    by_cases same : p = q
    · subst same
      rw [update_self, empty]
      simp [eq_comm]
    · simp [same]
  unfold strwriteHold
  dsimp only
  split
  · next listed =>
    have member := (kept.flagged q).mpr ⟨opened.used, listed, opened.stays⟩
    refine ⟨scan, kept.runs, kept.linked, kept.last, kept.flagged, kept.apart, kept.heads, fun p n first => ?_, members, kept.dead⟩
    dsimp only at first
    by_cases same : p = q
    · rwa [same]
    · rw [update_of_ne same] at first
      exact kept.waits p n first
  · next unlisted =>
    have outside : q ∉ scan := fun member => unlisted ((kept.flagged q).mp member).2.1
    have idle : s.streams.qenab q = false := off.resolve_left unlisted
    have away : q ∉ l := by
      intro member
      have := ((kept.runs.enabled q).mp member).2.1
      rw [idle] at this
      cases this
    have flagged : ∀ p, p ∈ scan ++ [q] ↔ s.streams.inUse p.pair = true ∧ update s.qhlist q true p = true ∧ s.strclose p = false := by
      intro p
      rw [List.mem_append, List.mem_singleton]
      by_cases same : p = q
      · subst same
        simp [opened.used, opened.stays]
      · simp [same, kept.flagged p]
    have apart : ∀ p ∈ scan ++ [q], p ∉ l := by
      intro p member
      rcases List.mem_append.mp member with old | new
      · exact kept.apart p old
      · rwa [List.mem_singleton.mp new]
    have heads : ∀ p ∈ scan ++ [q], p.qreadr = false ∧ s.streams.qinfo p = .stwdata := by
      intro p member
      rcases List.mem_append.mp member with old | new
      · exact kept.heads p old
      · rw [List.mem_singleton.mp new]
        exact ⟨opened.writes, opened.qinfo⟩
    have waits : ∀ p n, update s.qFirst q (some m) p = some n → p ∈ scan ++ [q] := by
      intro p n first
      by_cases same : p = q
      · simp [same]
      · rw [update_of_ne same] at first
        exact List.mem_append_left _ (kept.waits p n first)
    have runs : ∀ f : Queue → Option Queue, (∀ p ∈ l, f p = s.streams.qLink p) → Lists { s.streams with qLink := f } l (fun _ => False) :=
      fun f same => ⟨Seg.congr kept.runs.linked same, kept.runs.last, kept.runs.enabled⟩
    refine ⟨scan ++ [q], ?_⟩
    rcases List.eq_nil_or_concat' scan with rfl | ⟨front, b, rfl⟩
    · rw [show s.scanqhead = none from kept.linked]
      refine ⟨runs _ fun p member => update_of_ne ?_ .., ⟨rfl, ?_⟩, rfl, flagged, apart, heads, waits, members, kept.dead⟩
      · rintro rfl
        exact away member
      · exact update_self ..
    · have tail := kept.last
      rw [List.getLast?_concat] at tail
      obtain ⟨first, head⟩ : ∃ first, s.scanqhead = some first := by
        rw [kept.linked.head]
        cases front <;> simp
      have other : b ≠ q := by
        rintro rfl
        exact outside (by simp)
      have pushed := kept.linked.push_back outside
      rw [update_comm other.symm, head] at pushed
      rw [head, tail]
      dsimp only
      refine ⟨runs _ fun p member => ?_, pushed, by simp, flagged, apart, heads, waits, members, kept.dead⟩
      have away' : p ≠ q := by
        rintro rfl
        exact away member
      have apart' : p ≠ b := by
        rintro rfl
        exact kept.apart p (by simp) member
      rw [update_of_ne away', update_of_ne apart']

end

theorem pop_kept {rest : List Queue} (kept : Kept s held l (q :: rest)) (empty : s.qFirst q = none) :
    Kept { s with
      scanqhead := s.streams.qLink q, scanqtail := if s.streams.qLink q = none then none else s.scanqtail
      qhlist := update s.qhlist q false } held l rest := by
  have once := List.nodup_cons.mp kept.linked.nodup
  have linked : Linked s.streams.qLink (s.streams.qLink q) rest := kept.linked.2
  refine ⟨kept.runs, linked, ?_, fun p => ?_, fun p member => kept.apart p (by simp [member]), fun p member => kept.heads p (by simp [member]),
    fun p m first => ?_, kept.held, kept.dead⟩
  · dsimp only
    rw [linked.head, kept.last]
    cases rest with
    | nil => rfl
    | cons b rest => simp [List.getLast?_cons]
  · dsimp only
    have old := kept.flagged p
    by_cases same : p = q
    · subst same
      simp [once.1]
    · rw [update_of_ne same, ← old, List.mem_cons, or_iff_right same]
  · rcases List.mem_cons.mp (kept.waits p m first) with rfl | later
    · have first' : s.qFirst p = some m := first
      rw [empty] at first'
      cases first'
    · exact later

theorem queuerun_kept (kept : Kept s held l scan) (first : s.scanqhead = some q) (turn : queuerunHeld s = some (mp, t)) :
    ∃ scan, Kept t (release held q mp) l scan := by
  unfold queuerunHeld at turn
  rw [first] at turn
  simp only [Option.bind_eq_bind, Option.bind_some] at turn
  split at turn
  · cases turn
    cases scan with
    | nil =>
      rw [kept.linked.head] at first
      cases first
    | cons a rest =>
      obtain rfl : a = q := Option.some.inj (kept.linked.1.symm.trans first)
      exact ⟨rest, pop_kept (kept.release a) (update_self ..)⟩
  · cases turn

theorem unlink_kept {before behind : List Queue} (kept : Kept s held l (before ++ q :: behind)) (empty : s.qFirst q = none) :
    Kept { s with
      strclose := update s.strclose q true, scanqhead := firstWithout s.streams.qLink s.scanqhead before.getLast? q
      scanqtail := if s.scanqtail = some q then before.getLast? else s.scanqtail
      streams := { s.streams with qLink := unlinkAfter s.streams.qLink before.getLast? q } } held l (before ++ behind) := by
  have once := kept.linked.nodup
  rw [List.nodup_append, List.nodup_cons] at once
  have inside : ∀ p, p ∈ before ++ behind → p ∈ before ++ q :: behind := by
    intro p member
    rcases List.mem_append.mp member with front | back
    · simp [front]
    · simp [back]
  refine ⟨⟨Seg.congr kept.runs.linked fun p member => ?_, kept.runs.last, kept.runs.enabled⟩, Linked.unlink_after kept.linked, ?_, fun p => ?_,
    fun p member => kept.apart p (inside p member), fun p member => kept.heads p (inside p member), fun p m first => ?_, kept.held,
    fun p used dead => ?_⟩
  · dsimp only
    cases front : before.getLast? with
    | none => rfl
    | some b =>
      refine update_of_ne ?_ ..
      rintro rfl
      exact kept.apart p (List.mem_append_left _ (List.mem_of_getLast? front)) member
  · dsimp only
    rw [kept.last]
    cases behind with
    | nil => simp
    | cons b rest =>
      have other : (before ++ q :: b :: rest).getLast? ≠ some q := by
        rw [List.getLast?_append_of_ne_nil _ (by simp), List.getLast?_cons_cons]
        intro same
        exact once.2.1.1 (List.mem_of_getLast? same)
      rw [if_neg other]
      simp [List.getLast?_append, List.getLast?_cons]
  · dsimp only
    have old := kept.flagged p
    by_cases same : p = q
    · subst same
      simp only [update_self, Bool.true_eq_false, and_false, iff_false, List.mem_append, not_or]
      exact ⟨fun front => once.2.2 p front p (by simp) rfl, once.2.1.1⟩
    · rw [update_of_ne same, ← old]
      simp [same]
  · have first' : s.qFirst p = some m := first
    have member := kept.waits p m first'
    rw [List.mem_append, List.mem_cons] at member
    rcases member with front | rfl | back
    · exact List.mem_append_left _ front
    · rw [empty] at first'
      cases first'
    · exact List.mem_append_right _ back
  · obtain ⟨reads, closing⟩ := kept.dead p used dead
    refine ⟨reads, ?_⟩
    dsimp only
    by_cases same : WR p = q
    · rw [same, update_self]
    · rwa [update_of_ne same]

theorem unlisted_kept (kept : Kept s held l scan) (outside : q ∉ scan) : Kept { s with strclose := update s.strclose q true } held l scan := by
  refine ⟨kept.runs, kept.linked, kept.last, fun p => ?_, kept.apart, kept.heads, kept.waits, kept.held, fun p used dead => ?_⟩
  · dsimp only
    by_cases same : p = q
    · subst same
      simp [outside]
    · rw [update_of_ne same]
      exact kept.flagged p
  · obtain ⟨reads, closing⟩ := kept.dead p used dead
    refine ⟨reads, ?_⟩
    dsimp only
    by_cases same : WR p = q
    · rw [same, update_self]
    · rwa [update_of_ne same]

theorem strclose_kept (kept : Kept s held l scan) (call : strcloseHeld time q s = some (mp, t)) :
    ∃ scan, Kept t (release held q mp) l scan := by
  obtain ⟨⟨prev, found⟩, walked, rest⟩ := Option.bind_eq_some_iff.mp call
  dsimp only at walked
  obtain ⟨rfl, -, passes⟩ | ⟨before, a, behind, rfl, stops, rfl, rfl, -⟩ := walk_ended kept.linked walked
  · cases rest
    refine ⟨scan, unlisted_kept (kept.release q) fun member => ?_⟩
    have := passes q member
    simp at this
  · obtain rfl : a = q := by simpa using stops
    have after := unlink_kept (kept.release a) (update_self ..)
    refine ⟨before ++ behind, ?_⟩
    cases front : before.getLast? with
    | none =>
      rw [front] at rest after
      dsimp only at rest after
      by_cases tail : s.scanqtail = some a
      · rw [if_pos tail] at rest after
        cases rest
        exact after
      · rw [if_neg tail] at rest after
        cases rest
        exact after
    | some b =>
      rw [front] at rest after
      dsimp only at rest after
      by_cases tail : s.scanqtail = some a
      · rw [if_pos tail] at rest after
        cases rest
        exact after
      · rw [if_neg tail] at rest after
        cases rest
        exact after

theorem closed_kept (kept : Kept s held l scan) (writes : qp.qreadr = false) (closing : s.strclose qp = true)
    (may : CloseMay qp s.streams) (call : Runlist.strclose time qp [] s.streams = some streams) :
    ∃ l, Kept { s with streams } held l scan := by
  have lists := strclose_lists kept.runs writes (fun q member => by cases member) (show CloseMay qp (qenables [] s.streams) from may) call
  obtain ⟨links, others, used, dead, left⟩ := strclose_closed kept.runs call
  have same : ∀ p q : Queue, p.qreadr = false → q.qreadr = false → p.pair = q.pair → p = q := by
    rintro ⟨_, _⟩ ⟨_, _⟩ rfl rfl rfl
    rfl
  refine ⟨l.erase qp, lists, Seg.congr kept.linked fun p member => links p (kept.apart p member), kept.last, fun p => ?_,
    fun p member also => kept.apart p member (List.mem_of_mem_erase also), fun p member => ?_, kept.waits, kept.held, fun p busy end_ => ?_⟩
  · dsimp only
    rw [kept.flagged p]
    constructor
    · rintro ⟨busy, flags⟩
      have member := (kept.flagged p).mpr ⟨busy, flags⟩
      have side := (kept.heads p member).1
      refine ⟨(others p.pair (fun is => ?_) (fun n end_ is => ?_)).trans busy, flags⟩
      · rw [same p qp side writes is, closing] at flags
        cases flags.2
      · obtain ⟨-, gone⟩ := kept.dead n (is ▸ busy) end_
        rw [same p (WR n) side rfl is, gone] at flags
        cases flags.2
    · rintro ⟨busy, flags⟩
      exact ⟨used _ busy, flags⟩
  · obtain ⟨side, head⟩ := kept.heads p member
    refine ⟨side, (left p ?_ ?_).trans head⟩
    · rintro rfl
      rw [((kept.flagged p).mp member).2.2] at closing
      cases closing
    · rintro rfl
      cases side
  · rcases dead p end_ with old | rfl
    · exact kept.dead p (used _ busy) old
    · refine ⟨rfl, ?_⟩
      rwa [show WR (RD qp) = qp from same _ _ rfl writes rfl]

theorem qdetach_kept {n : Queue} (kept : Kept s held l scan) (reads : n.qreadr = true)
    (module : ∃ srvp, s.streams.qinfo (WR n) = .module srvp) (used : ∀ p ∈ flushed, s.streams.inUse p.pair = true)
    (frees : DetachMay n clmode [] flushed s.streams) (may : ∀ p ∈ flushed, MayEnable p s)
    (call : Runlist.qdetach time n clmode [] flushed s.streams = some streams) : ∃ l, Kept { s with streams } held l scan := by
  have lists := qdetach_lists kept.runs reads used frees call
  have idle : ∀ p ∈ scan, s.streams.qenab p = false := by
    intro p member
    by_contra enabled
    exact kept.apart p member ((kept.runs.enabled p).mpr ⟨((kept.flagged p).mp member).1, by simpa using enabled, id⟩)
  have spared : ∀ p ∈ scan, p ∉ flushed := fun p member flush =>
    may p flush (by rw [(kept.heads p member).2]; rfl) (idle p member) ((kept.flagged p).mp member).2
  obtain ⟨qinfo, inUse⟩ := qdetach_frame kept.runs call
  have leaves : ∀ p ∈ scan, streams.qLink p = s.streams.qLink p ∧ streams.qenab p = s.streams.qenab p := fun p member =>
    qdetach_links kept.runs (kept.apart p member) (spared p member) call
  have others : ∀ p : Queue, s.streams.qinfo p = .stwdata → p.qreadr = false → p.pair ≠ n.pair := by
    intro p head writes same
    obtain ⟨srvp, module⟩ := module
    obtain rfl : p = WR n := by
      cases p
      cases writes
      cases same
      rfl
    rw [head] at module
    cases module
  have used : ∀ pair, streams.inUse pair = true → s.streams.inUse pair = true := by
    intro pair used
    rw [inUse] at used
    by_cases same : pair = n.pair
    · rw [same, update_self] at used
      cases used
    · rwa [update_of_ne same] at used
  refine ⟨_, lists, Seg.congr kept.linked fun p member => (leaves p member).1, kept.last, fun p => ?_, fun p member also => ?_,
    fun p member => ?_, kept.waits, kept.held, fun p busy dead => ?_⟩
  · dsimp only
    rw [kept.flagged p]
    constructor
    · rintro ⟨busy, flags⟩
      obtain ⟨writes, head⟩ := kept.heads p ((kept.flagged p).mpr ⟨busy, flags⟩)
      refine ⟨?_, flags⟩
      rw [inUse, update_of_ne (others p head writes)]
      exact busy
    · rintro ⟨busy, flags⟩
      exact ⟨used _ busy, flags⟩
  · have enabled := ((lists.enabled p).mp also).2.1
    rw [(leaves p member).2, idle p member] at enabled
    cases enabled
  · dsimp only
    rw [qinfo]
    exact kept.heads p member
  · dsimp only at dead
    rw [qinfo] at dead
    exact kept.dead p (used _ busy) dead

theorem step_kept {w v : World} {may : Prop} (kept : Kept w.state w.held l scan) (step : Step w may v) (met : may) :
    ∃ l scan, Kept v.state v.held l scan := by
  cases step with
  | stropen fresh alive => exact ⟨l, scan, stropen_kept kept fresh alive⟩
  | @around qNext => exact ⟨l, scan, around_kept kept qNext⟩
  | clock => exact ⟨l, scan, kept.runs, kept.linked, kept.last, kept.flagged, kept.apart, kept.heads, kept.waits, kept.held, kept.dead⟩
  | qenable used =>
    obtain ⟨l, after⟩ := qenable_kept kept used met
    exact ⟨l, scan, after⟩
  | service taken =>
    obtain ⟨l, after⟩ := service_kept kept taken
    exact ⟨l, scan, after⟩
  | find => exact ⟨l, scan, kept⟩
  | @copied q mp keeps found =>
    cases keeps with
    | true => exact ⟨l, scan, kept⟩
    | false =>
      have after := kept.release q
      cases first : w.state.qFirst q with
      | none =>
        -- somebody else has sent the message in the meantime
        rw [first] at after
        have gone : (q, mp) ∉ w.held := by
          rw [kept.held, first]
          exact Option.some_ne_none mp ∘ Eq.symm
        refine ⟨l, scan, ?_⟩
        change Kept { w.state with qFirst := update w.state.qFirst q none } (w.held.erase (q, mp)) l scan
        rw [Finset.erase_eq_of_notMem gone]
        exact after
      | some m =>
        obtain rfl : m = mp := (met.resolve_left Bool.false_ne_true) m first
        rw [first] at after
        exact ⟨l, scan, after⟩
  | @send q mp opened =>
    have after := kept.release q
    have gone : (q, mp) ∉ w.held := by
      rw [kept.held, met]
      exact Option.some_ne_none mp ∘ Eq.symm
    rw [met] at after
    refine ⟨l, scan, ?_⟩
    change Kept { w.state with qFirst := update w.state.qFirst q none } (w.held.erase (q, mp)) l scan
    rw [Finset.erase_eq_of_notMem gone]
    exact after
  | @hold q mp opened =>
    obtain ⟨scan, after⟩ := hold_kept kept opened met mp
    exact ⟨l, scan, after⟩
  | queuerun first turn =>
    obtain ⟨scan, after⟩ := queuerun_kept kept first turn
    exact ⟨l, scan, after⟩
  | strclose opened last call =>
    obtain ⟨scan, after⟩ := strclose_kept kept call
    exact ⟨l, scan, after⟩
  | qdetach reads module used call =>
    obtain ⟨l, after⟩ := qdetach_kept kept reads module used met.1 met.2 call
    exact ⟨l, scan, after⟩
  | closed writes closing call =>
    obtain ⟨l, after⟩ := closed_kept kept writes closing met call
    exact ⟨l, scan, after⟩

theorem run_kept {w : World} (run : Run true w) : ∃ l scan, Kept w.state w.held l scan := by
  induction run with
  | @start w qhead qtail inUse scanqhead scanqtail qFirst held copying =>
    refine ⟨[], [], ⟨qhead, qtail, fun q => ?_⟩, scanqhead, scanqtail, fun q => ?_, fun q member => ?_, fun q member => ?_, fun q m first => ?_,
      fun q m => ?_, fun q used => ?_⟩
    · simp [inUse]
    · simp [inUse]
    · cases member
    · cases member
    · rw [qFirst q] at first
      cases first
    · rw [held, qFirst q]
      simp
    · rw [inUse] at used
      cases used
  | step run step met ih =>
    obtain ⟨l, scan, kept⟩ := ih
    exact step_kept kept step (met rfl)

/-- In every run in which no queue comes to be on both lists and no held message is written
over, each held message can be reached until it is sent, and the run list is that of the
enabled queues. -/
theorem held_writes_reached {w : World} (run : Run true w) : Reached w ∧ Enabled w := by
  obtain ⟨l, scan, kept⟩ := run_kept run
  refine ⟨⟨scan, kept.linked, kept.held, kept.waits⟩, l, kept.runs.linked, fun q => ?_⟩
  rw [kept.runs.enabled q]
  simp

private def empty : World :=
  ⟨⟨⟨fun _ => .deadrend, fun _ => none, fun _ => none, fun _ => false, fun _ => false, fun _ => [], fun _ => false, none, none⟩,
    fun _ => none, fun _ => false, fun _ => 0, fun _ => false, none, none, 0⟩, ∅, ∅⟩

private theorem empty_run (careful : Bool) : Run careful empty := .start rfl rfl (fun _ => rfl) rfl rfl (fun _ => rfl) rfl rfl

private def two : World :=
  { empty with
    state := strwriteHold ⟨1, false⟩ 8 (strwriteHold ⟨0, false⟩ 7 (stropen 1 .strdata .stwdata (stropen 0 .strdata .stwdata empty.state)))
    held := {(⟨1, false⟩, 8), (⟨0, false⟩, 7)} }

private theorem two_run (careful : Bool) : Run careful two := by
  have first := (empty_run careful).step (@Step.stropen _ 0 .strdata .stwdata rfl (by decide)) (fun _ => trivial)
  have second := first.step (@Step.stropen _ 1 .strdata .stwdata rfl (by decide)) (fun _ => trivial)
  have held := second.step (@Step.hold _ ⟨0, false⟩ 7 ⟨rfl, rfl, rfl, rfl⟩) (fun _ => ⟨rfl, .inr rfl⟩)
  exact held.step (@Step.hold _ ⟨1, false⟩ 8 ⟨rfl, rfl, rfl, rfl⟩) (fun _ => ⟨rfl, .inr rfl⟩)

/-- A module is closed while its write queue is enabled, and then the first message is sent. -/
theorem held_writes_reached_two : ∃ w, Run true w ∧ w.held = {(⟨1, false⟩, 8)} ∧ w.state.streams.qenab ⟨2, false⟩ = true ∧ Reached w ∧ Enabled w := by
  have pushed := (two_run true).step (@Step.stropen _ 2 (.module true) (.module true) rfl (by decide)) (fun _ => trivial)
  have enabled := pushed.step (@Step.qenable _ ⟨2, false⟩ rfl) (fun _ _ _ no => Bool.noConfusion no.1)
  have closed := enabled.step (@Step.qdetach _ ⟨2, true⟩ true [] _ 1 rfl ⟨true, rfl⟩ (fun _ no => by cases no) rfl)
    (fun _ => ⟨by simp [DetachMay], by simp⟩)
  have later := closed.step (@Step.clock _ STRSCANP) (fun _ => trivial)
  have sent := later.step (@Step.queuerun _ ⟨0, false⟩ (some 7) _ rfl rfl) (fun _ => trivial)
  exact ⟨_, sent, by decide, rfl, held_writes_reached sent⟩

/-- The first of the two is enabled, and the second can no longer be reached. -/
theorem held_write_lost : ∃ w, Run false w ∧ w.state.qFirst ⟨1, false⟩ = some 8 ∧ ¬ Reached w := by
  have enabled := (two_run false).step (@Step.qenable _ ⟨0, false⟩ rfl) (fun no => Bool.noConfusion no)
  refine ⟨_, enabled, rfl, ?_⟩
  rintro ⟨scan, linked, -, waits⟩
  have alone : Linked (qenable ⟨0, false⟩ two.state.streams).qLink two.state.scanqhead [⟨0, false⟩] :=
    ⟨by decide, show (qenable ⟨0, false⟩ two.state.streams).qLink ⟨0, false⟩ = none by decide⟩
  rw [Linked.unique linked alone] at waits
  exact absurd (waits ⟨1, false⟩ 8 rfl) (by decide)

end Svr4.Proofs.StrholdHistory
