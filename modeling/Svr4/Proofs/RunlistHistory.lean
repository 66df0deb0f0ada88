import Svr4.Runlist
import Svr4.Library.Doubly

/-! The run list over any order of enabling, servicing and closing: it holds just the
queues that are enabled, in the order in which they were, as long as no queue that is
still enabled is freed without being taken off. -/

namespace Svr4.Proofs.RunlistHistory
open Function Chain DoubleChain Runlist

inductive Event
  | enabled (q : Queue)
  | taken (q : Queue)
  | removed (q : Queue)

/-- The queues waiting after one more event, in the order in which they were enabled. -/
def after (l : List Queue) : Event → List Queue
  | .enabled q => l ++ [q]
  | .taken q => l.erase q
  | .removed q => l.erase q

def pending (events : List Event) : List Queue := events.foldl after []

def enablings : List Queue → Streams → List Event
  | [], _ => []
  | q :: qs, s => (if (s.qinfo q).qiSrvp ∧ s.qenab q = false then [.enabled q] else []) ++ enablings qs (qenable q s)

structure Lists (s : Streams) (l : List Queue) (gone : Queue → Prop) : Prop where
  linked : Linked s.qLink s.qhead l
  last : s.qtail = l.getLast?
  enabled : ∀ q, q ∈ l ↔ s.inUse q.pair = true ∧ s.qenab q = true ∧ ¬ gone q

variable {s t : Streams} {l before rest : List Queue} {gone : Queue → Prop} {q : Queue} {time : Nat}

theorem qenable_frame (q : Queue) (s : Streams) :
    (qenable q s).qinfo = s.qinfo ∧ (qenable q s).inUse = s.inUse ∧ (qenable q s).qNext = s.qNext ∧
      ∀ p, p ≠ q → (qenable q s).qenab p = s.qenab p := by
  unfold qenable
  split
  · exact ⟨rfl, rfl, rfl, fun _ _ => rfl⟩
  · split
    · exact ⟨rfl, rfl, rfl, fun _ _ => rfl⟩
    · dsimp only
      split
      · exact ⟨rfl, rfl, rfl, fun p other => update_of_ne other _ _⟩
      · split <;> exact ⟨rfl, rfl, rfl, fun p other => update_of_ne other _ _⟩

theorem qenable_idle (idle : (s.qinfo q).qiSrvp = false ∨ s.qenab q = true) : qenable q s = s := by
  unfold qenable
  rcases idle with none_ | already
  · simp [none_]
  · simp [already]

theorem qenable_flag (srvp : (s.qinfo q).qiSrvp = true) (idle : s.qenab q = false) : (qenable q s).qenab = update s.qenab q true := by
  unfold qenable
  simp only [srvp, not_true_eq_false, if_false, idle, Bool.false_eq_true]
  split
  · rfl
  · split <;> rfl

theorem qenable_lists (lists : Lists s l gone) (used : s.inUse q.pair = true) (stays : gone q → (s.qinfo q).qiSrvp = false ∨ s.qenab q = true) :
    Lists (qenable q s) ((enablings [q] s).foldl after l) gone := by
  by_cases puts : (s.qinfo q).qiSrvp = true ∧ s.qenab q = false
  · have notGone : ¬ gone q := fun going => by
      rcases stays going with none_ | already
      · rw [none_] at puts
        cases puts.1
      · rw [already] at puts
        cases puts.2
    have outside : q ∉ l := fun member => by
      have := ((lists.enabled q).mp member).2.1
      rw [puts.2] at this
      cases this
    have more : ∀ p, p ∈ l ++ [q] ↔ s.inUse p.pair = true ∧ update s.qenab q true p = true ∧ ¬ gone p := by
      intro p
      by_cases same : p = q
      · subst same
        simp [used, notGone]
      · simp [same, lists.enabled p]
    simp only [enablings, puts, and_self, if_true, List.append_nil, List.foldl_cons, List.foldl_nil, after]
    unfold qenable
    simp only [puts.1, not_true_eq_false, if_false, puts.2, Bool.false_eq_true]
    rcases List.eq_nil_or_concat l with rfl | ⟨front, b, rfl⟩
    · rw [show s.qhead = none from lists.linked]
      have ended : update s.qLink q none q = none := update_self _ _ _
      exact ⟨⟨rfl, ended⟩, rfl, more⟩
    · rw [List.concat_eq_append] at *
      have tail : s.qtail = some b := by rw [lists.last, List.getLast?_concat]
      have head : s.qhead ≠ none := by
        rw [lists.linked.head]
        simp
      obtain ⟨first, head⟩ := Option.ne_none_iff_exists'.mp head
      have pushed := lists.linked.push_back outside
      have apart : b ≠ q := by
        rintro rfl
        exact outside (by simp)
      rw [head] at pushed ⊢
      rw [tail]
      dsimp only
      rw [update_comm apart.symm] at pushed
      exact ⟨pushed, by simp, more⟩
  · have same : qenable q s = s := by
      refine qenable_idle ?_
      by_contra both
      simp only [not_or, Bool.not_eq_false, Bool.not_eq_true] at both
      exact puts both
    simp only [enablings, puts, if_false, List.append_nil, List.foldl_nil, same]
    exact lists

theorem qenables_frame (qs : List Queue) (s : Streams) :
    (qenables qs s).qinfo = s.qinfo ∧ (qenables qs s).inUse = s.inUse ∧ (qenables qs s).qNext = s.qNext := by
  induction qs generalizing s with
  | nil => exact ⟨rfl, rfl, rfl⟩
  | cons q qs ih =>
    obtain ⟨qinfo, inUse, qNext⟩ := ih (qenable q s)
    obtain ⟨qinfo', inUse', qNext', _⟩ := qenable_frame q s
    exact ⟨qinfo.trans qinfo', inUse.trans inUse', qNext.trans qNext'⟩

theorem qenables_lists {qs : List Queue} (lists : Lists s l gone) (used : ∀ q ∈ qs, s.inUse q.pair = true)
    (stays : ∀ q ∈ qs, gone q → (s.qinfo q).qiSrvp = false ∨ s.qenab q = true) :
    Lists (qenables qs s) ((enablings qs s).foldl after l) gone := by
  induction qs generalizing s l with
  | nil => exact lists
  | cons q qs ih =>
    obtain ⟨qinfo, inUse, _, others⟩ := qenable_frame q s
    have one := qenable_lists lists (used q (by simp)) (stays q (by simp))
    rw [enablings, List.foldl_append]
    rw [enablings, enablings, List.append_nil] at one
    refine ih one (fun p member => inUse ▸ used p (by simp [member])) (fun p member going => ?_)
    rcases stays p (by simp [member]) going with none_ | already
    · exact .inl (qinfo ▸ none_)
    · by_cases same : p = q
      · subst same
        refine .inr (show (qenable p s).qenab p = true from ?_)
        rw [qenable_idle (.inr already), already]
      · exact .inr ((others p same).trans already)

theorem Lists.head (lists : Lists s l gone) : s.qhead = l.head? := lists.linked.head

theorem takeQueue_lists (lists : Lists s l (fun _ => False)) (call : takeQueue s = some (q, t)) :
    ∃ rest, l = q :: rest ∧ s.inUse q.pair = true ∧ t.qinfo = s.qinfo ∧ t.inUse = s.inUse ∧ Lists t rest (fun _ => False) := by
  obtain ⟨first, head, rest⟩ := Option.bind_eq_some_iff.mp call
  cases rest
  cases l with
  | nil =>
    rw [lists.head] at head
    cases head
  | cons a rest =>
    obtain rfl : a = q := Option.some.inj (lists.head.symm.trans head)
    have once := List.nodup_cons.mp lists.linked.nodup
    have linked : Linked s.qLink (s.qLink a) rest := lists.linked.2
    refine ⟨rest, rfl, ((lists.enabled a).mp (by simp)).1, rfl, rfl, linked, ?_, fun p => ?_⟩
    · dsimp only
      rw [linked.head, lists.last]
      cases rest with
      | nil => rfl
      | cons b rest => simp [List.getLast?_cons]
    · show p ∈ rest ↔ s.inUse p.pair = true ∧ update s.qenab a false p = true ∧ ¬ False
      by_cases same : p = a
      · subst same
        simp [once.1]
      · have old := lists.enabled p
        simp only [List.mem_cons, same, false_or] at old
        rw [old, update_of_ne same]

def turnEvents (q : Queue) (served : List Queue) (s : Streams) : List Event :=
  match takeQueue s with
  | none => []
  | some (_, s) => .taken q :: if (s.qinfo q).qiSrvp then enablings served s else []

theorem queuerunTurn_lists {served : List Queue} (lists : Lists s l (fun _ => False)) (used : ∀ q ∈ served, s.inUse q.pair = true)
    (call : queuerunTurn served s = some (q, t)) :
    l.head? = some q ∧ s.inUse q.pair = true ∧ t.inUse = s.inUse ∧ Lists t ((turnEvents q served s).foldl after l) (fun _ => False) := by
  obtain ⟨⟨first, u⟩, take, rest⟩ := Option.bind_eq_some_iff.mp call
  obtain ⟨waiting, rfl, live, qinfo, inUse, taken⟩ := takeQueue_lists lists take
  dsimp only at rest
  split at rest
  · next srvp =>
    cases rest
    obtain ⟨_, inUse', _⟩ := qenables_frame served u
    have served_ := qenables_lists taken (fun p member => inUse ▸ used p member) (fun p _ going => going.elim)
    refine ⟨rfl, live, inUse'.trans inUse, ?_⟩
    simp only [turnEvents, take, srvp, if_true, List.foldl_cons, after, List.erase_cons_head]
    exact ⟨served_.linked, served_.last, served_.enabled⟩
  · next none_ =>
    cases rest
    refine ⟨rfl, live, inUse, ?_⟩
    simp only [turnEvents, take, none_, List.foldl_cons, after, List.erase_cons_head]
    exact taken

theorem splice_frame (prev : Option Queue) (q : Queue) (s : Streams) :
    (splice prev q s).qLink = unlinkAfter s.qLink prev q ∧ (splice prev q s).qhead = firstWithout s.qLink s.qhead prev q ∧
      (splice prev q s).qtail = (if s.qtail = some q then prev else s.qtail) ∧ (splice prev q s).qinfo = s.qinfo ∧
      (splice prev q s).inUse = s.inUse ∧ (splice prev q s).qenab = s.qenab ∧ (splice prev q s).qNext = s.qNext := by
  unfold splice
  cases prev with
  | none =>
    dsimp only
    split <;> exact ⟨rfl, rfl, rfl, rfl, rfl, rfl, rfl⟩
  | some p =>
    dsimp only
    split <;> exact ⟨rfl, rfl, rfl, rfl, rfl, rfl, rfl⟩

theorem splice_spec (linked : Linked s.qLink s.qhead (before ++ q :: rest)) (last : s.qtail = (before ++ q :: rest).getLast?) :
    Linked (splice before.getLast? q s).qLink (splice before.getLast? q s).qhead (before ++ rest) ∧
      (splice before.getLast? q s).qtail = (before ++ rest).getLast? ∧ (splice before.getLast? q s).qLink q = rest.head? := by
  obtain ⟨link, head, tail, _⟩ := splice_frame before.getLast? q s
  have once := linked.nodup
  rw [List.nodup_append, List.nodup_cons] at once
  have ahead : s.qLink q = rest.head? := linked.next_eq
  refine ⟨?_, ?_, ?_⟩
  · rw [link, head]
    exact Linked.unlink_after linked
  · rw [tail, last]
    cases rest with
    | nil => simp
    | cons b rest =>
      have other : (before ++ q :: b :: rest).getLast? ≠ some q := by
        rw [List.getLast?_append_of_ne_nil _ (by simp), List.getLast?_cons_cons]
        intro same
        exact once.2.1.1 (List.mem_of_getLast? same)
      rw [if_neg other]
      simp [List.getLast?_append, List.getLast?_cons]
  · rw [link, ← ahead]
    cases front : before.getLast? with
    | none => rfl
    | some p =>
      have apart : q ≠ p := by
        rintro rfl
        exact once.2.2 q (List.mem_of_getLast? front) q (by simp) rfl
      rw [unlinkAfter, update_of_ne apart]

theorem unlist_spec {all : Bool} {drop : Queue → Bool} (linked : Linked s.qLink s.qhead (before ++ rest)) (last : s.qtail = (before ++ rest).getLast?)
    (single : all = false → ∀ p ∈ rest, ∀ p' ∈ rest, drop p = true → drop p' = true → p = p')
    (call : unlist drop all time before.getLast? rest.head? s = some t) :
    Linked t.qLink t.qhead (before ++ rest.filter (fun p => !drop p)) ∧ t.qtail = (before ++ rest.filter (fun p => !drop p)).getLast? ∧
      t.qinfo = s.qinfo ∧ t.inUse = s.inUse ∧ t.qenab = s.qenab ∧ t.qNext = s.qNext := by
  induction time generalizing s before rest with
  | zero =>
    cases rest with
    | nil =>
      cases call
      exact ⟨linked, last, rfl, rfl, rfl, rfl⟩
    | cons q rest => cases call
  | succ time ih =>
    cases rest with
    | nil =>
      cases call
      exact ⟨linked, last, rfl, rfl, rfl, rfl⟩
    | cons q rest =>
      rw [List.head?_cons, unlist] at call
      split at call
      · next goes =>
        obtain ⟨linked', last', ahead⟩ := splice_spec linked last
        obtain ⟨_, _, _, qinfo, inUse, qenab, qNext⟩ := splice_frame before.getLast? q s
        rw [List.filter_cons_of_neg (by simpa using goes)]
        cases all with
        | true =>
          dsimp only at call
          rw [if_pos rfl, ahead] at call
          obtain ⟨linked'', last'', qinfo', inUse', qenab', qNext'⟩ := ih linked' last' (fun no => by cases no) call
          exact ⟨linked'', last'', qinfo'.trans qinfo, inUse'.trans inUse, qenab'.trans qenab, qNext'.trans qNext⟩
        | false =>
          cases call
          have kept : rest.filter (fun p => !drop p) = rest := by
            refine List.filter_eq_self.mpr (fun p member => ?_)
            by_contra dropped
            obtain rfl := single rfl q (by simp) p (by simp [member]) goes (by simpa using dropped)
            have once := linked.nodup
            rw [List.nodup_append, List.nodup_cons] at once
            exact once.2.1.1 member
          rw [kept]
          exact ⟨linked', last', qinfo, inUse, qenab, qNext⟩
      · next stays =>
        have same : ∀ l, before ++ q :: l = (before ++ [q]) ++ l := by simp
        rw [List.filter_cons_of_pos (by simpa using stays), same]
        rw [same] at linked last
        have ahead : s.qLink q = rest.head? := by
          rw [List.append_assoc] at linked
          exact Linked.next_eq linked
        rw [ahead] at call
        refine ih linked last (fun no p member p' member' => single no p (by simp [member]) p' (by simp [member'])) ?_
        rw [List.getLast?_concat]
        exact call

private theorem erase_filter {l : List Queue} (once : l.Nodup) (a : Queue) : l.filter (fun p => !decide (p = a)) = l.erase a := by
  rw [once.erase_eq_filter]
  exact List.filter_congr (fun p _ => by simp [bne, BEq.beq])

theorem qdetachUnlist_lists {qp : Queue} (lists : Lists s l (fun _ => False)) (call : qdetachUnlist time qp s = some t) :
    Lists t ((l.erase qp).erase (WR qp)) (fun q => q = qp ∨ q = WR qp) ∧ t.qinfo = s.qinfo ∧ t.inUse = s.inUse ∧ t.qenab = s.qenab ∧
      t.qNext = s.qNext := by
  have once := lists.linked.nodup
  have members : ∀ p, p ∈ (l.erase qp).erase (WR qp) ↔ s.inUse p.pair = true ∧ s.qenab p = true ∧ ¬ (p = qp ∨ p = WR qp) := by
    intro p
    rw [(once.erase qp).mem_erase_iff, once.mem_erase_iff, lists.enabled p]
    tauto
  unfold qdetachUnlist at call
  split at call
  · have kept : l.filter (fun p => !decide (p = qp ∨ p = WR qp)) = (l.erase qp).erase (WR qp) := by
      rw [← erase_filter (once.erase qp), ← erase_filter once, List.filter_filter]
      exact List.filter_congr (fun p _ => by simp [Bool.and_comm])
    rw [lists.head] at call
    obtain ⟨linked, last, qinfo, inUse, qenab, qNext⟩ := unlist_spec
      (show Linked s.qLink s.qhead ([] ++ l) from lists.linked) lists.last (fun no => by cases no) call
    rw [List.nil_append, kept] at linked last
    exact ⟨⟨linked, last, fun p => by rw [members, inUse, qenab]⟩, qinfo, inUse, qenab, qNext⟩
  · next off =>
    simp only [Bool.or_eq_true, not_or, Bool.not_eq_true] at off
    cases call
    have kept : (l.erase qp).erase (WR qp) = l := by
      have first : qp ∉ l := fun member => by
        rw [((lists.enabled _).mp member).2.1] at off
        cases off.1
      have second : WR qp ∉ l := fun member => by
        rw [((lists.enabled _).mp member).2.1] at off
        cases off.2
      rw [List.erase_of_not_mem first, List.erase_of_not_mem second]
    rw [kept] at members ⊢
    exact ⟨⟨lists.linked, lists.last, members⟩, rfl, rfl, rfl, rfl⟩

theorem strcloseUnlist_lists {qp : Queue} (lists : Lists s l (fun _ => False)) (call : strcloseUnlist time qp s = some t) :
    Lists t (l.erase qp) (fun q => q = qp) ∧ t.qinfo = s.qinfo ∧ t.inUse = s.inUse ∧ t.qenab = s.qenab ∧ t.qNext = s.qNext := by
  have once := lists.linked.nodup
  have members : ∀ p, p ∈ l.erase qp ↔ s.inUse p.pair = true ∧ s.qenab p = true ∧ ¬ p = qp := by
    intro p
    rw [once.mem_erase_iff, lists.enabled p]
    tauto
  unfold strcloseUnlist at call
  split at call
  · rw [lists.head] at call
    obtain ⟨linked, last, qinfo, inUse, qenab, qNext⟩ := unlist_spec (show Linked s.qLink s.qhead ([] ++ l) from lists.linked) lists.last
      (fun _ p _ p' _ here here' => by simp_all) call
    rw [List.nil_append, erase_filter once] at linked last
    exact ⟨⟨linked, last, fun p => by rw [members, inUse, qenab]⟩, qinfo, inUse, qenab, qNext⟩
  · next off =>
    cases call
    have kept : l.erase qp = l := List.erase_of_not_mem (fun member => off ((lists.enabled _).mp member).2.1)
    rw [kept] at members ⊢
    exact ⟨⟨lists.linked, lists.last, members⟩, rfl, rfl, rfl, rfl⟩

theorem freeq_lists {qp : Queue} (lists : Lists s l gone) (off : ∀ q : Queue, q.pair = qp.pair → s.qenab q = true → gone q) :
    Lists (freeq qp s) l gone := by
  refine ⟨lists.linked, lists.last, fun q => ?_⟩
  rw [lists.enabled q]
  show _ ↔ update s.inUse qp.pair false q.pair = true ∧ s.qenab q = true ∧ ¬ gone q
  by_cases same : q.pair = qp.pair
  · rw [same, update_self]
    constructor
    · rintro ⟨_, enabled, stays⟩
      exact absurd (off q same enabled) stays
    · rintro ⟨used, _⟩
      cases used
  · rw [update_of_ne same]

theorem Lists.forget (lists : Lists s l gone) (settled : ∀ q, gone q → s.inUse q.pair = false ∨ s.qenab q = false) :
    Lists s l (fun _ => False) := by
  refine ⟨lists.linked, lists.last, fun q => ?_⟩
  rw [lists.enabled q]
  constructor
  · rintro ⟨used, enabled, _⟩
    exact ⟨used, enabled, id⟩
  · rintro ⟨used, enabled, _⟩
    refine ⟨used, enabled, fun going => ?_⟩
    rcases settled q going with free | idle
    · rw [free] at used
      cases used
    · rw [idle] at enabled
      cases enabled

theorem enablings_congr {qs : List Queue} (qinfo : t.qinfo = s.qinfo) (qenab : t.qenab = s.qenab) : enablings qs t = enablings qs s := by
  induction qs generalizing s t with
  | nil => rfl
  | cons q qs ih =>
    have flags : (qenable q t).qenab = (qenable q s).qenab := by
      funext p
      by_cases same : p = q
      · subst same
        by_cases idle : (s.qinfo p).qiSrvp = false ∨ s.qenab p = true
        · rw [qenable_idle idle, qenable_idle (by rwa [qinfo, qenab]), qenab]
        · simp only [not_or, Bool.not_eq_false, Bool.not_eq_true] at idle
          rw [qenable_flag idle.1 idle.2, qenable_flag (qinfo ▸ idle.1) (qenab ▸ idle.2), qenab]
      · rw [(qenable_frame q t).2.2.2 p same, (qenable_frame q s).2.2.2 p same, qenab]
    rw [enablings, enablings, qinfo, qenab, ih ((qenable_frame q t).1.trans (qinfo.trans (qenable_frame q s).1.symm)) flags]

/-- When `qdetach` may free the pair: nothing that runs once the queues are off the list
enables them again, and queues that were never opened have not been enabled. -/
def DetachMay (qp : Queue) (clmode : Bool) (closing flushed : List Queue) (s : Streams) : Prop :=
  if clmode then ∀ q ∈ flushed, q.pair = qp.pair → (s.qinfo q).qiSrvp = false ∨ (qenables closing s).qenab q = true
  else s.qenab qp = false ∧ s.qenab (WR qp) = false

/-- When `strclose` may free what it frees, in the state after the flush: no queue but `qp`
is enabled, and not even that one when it stays as a dead end. -/
def CloseMay (qp : Queue) (s : Streams) : Prop :=
  match s.qNext qp with
  | some n =>
    if SAMESTR qp s then s.qenab (RD qp) = false
    else if s.qinfo n = .deadrend then s.qenab (RD qp) = false ∧ s.qenab n = false ∧ s.qenab (OTHERQ n) = false
    else if n = RD qp then s.qenab (RD qp) = false
    else s.qenab qp = false
  | none => s.qenab (RD qp) = false

def detachEvents (qp : Queue) (clmode : Bool) (closing flushed : List Queue) (s : Streams) : List Event :=
  if clmode then enablings closing s ++ (.removed qp :: .removed (WR qp) :: enablings flushed (qenables closing s))
  else [.removed qp, .removed (WR qp)]

theorem pair_cases {q qp : Queue} (same : q.pair = qp.pair) : q = qp ∨ q = OTHERQ qp := by
  obtain ⟨pair, read⟩ := q
  obtain ⟨pair', read'⟩ := qp
  obtain rfl : pair = pair' := same
  cases read <;> cases read' <;> simp [OTHERQ]

section removal
variable {qp : Queue} {clmode : Bool} {closing flushed : List Queue}

theorem qdetach_mended (call : qdetach time qp clmode closing flushed s = some t) :
    ∃ u v : Streams, (if clmode then (qdetachUnlist time qp (qenables closing s)).map (qenables flushed) else some s) = some u ∧ t = freeq qp v ∧
      v.qLink = u.qLink ∧ v.qhead = u.qhead ∧ v.qtail = u.qtail ∧ v.inUse = u.inUse ∧ v.qenab = u.qenab ∧ v.qinfo = u.qinfo := by
  obtain ⟨u, off, rest⟩ := Option.bind_eq_some_iff.mp call
  cases rest
  refine ⟨u, _, off, rfl, ?_⟩
  split <;> split <;> exact ⟨rfl, rfl, rfl, rfl, rfl, rfl⟩

theorem qdetach_lists (lists : Lists s l (fun _ => False)) (reads : qp.qreadr = true)
    (used : ∀ q ∈ closing ++ flushed, s.inUse q.pair = true) (may : DetachMay qp clmode closing flushed s)
    (call : qdetach time qp clmode closing flushed s = some t) :
    Lists t ((detachEvents qp clmode closing flushed s).foldl after l) (fun _ => False) := by
  have pair : ∀ q : Queue, q.pair = qp.pair → q = qp ∨ q = WR qp := fun q same => by
    have := pair_cases same
    rwa [show OTHERQ qp = WR qp by simp [OTHERQ, WR, reads]] at this
  obtain ⟨u, v, off, rfl, qLink, qhead, qtail, inUse, qenab, -⟩ := qdetach_mended call
  have settle : ∀ {l' : List Queue} {gone : Queue → Prop}, Lists u l' gone → (∀ q : Queue, q.pair = qp.pair → u.qenab q = true → gone q) →
      (∀ q, gone q → q.pair = qp.pair) → Lists (freeq qp v) l' (fun _ => False) := by
    intro l' gone lists' idle inside
    have same : Lists v l' gone := ⟨by rw [qLink, qhead]; exact lists'.linked, qtail ▸ lists'.last, by rw [inUse, qenab]; exact lists'.enabled⟩
    refine (freeq_lists same (by rwa [qenab])).forget (fun q going => .inl ?_)
    show update v.inUse qp.pair false q.pair = false
    rw [inside q going, update_self]
  cases clmode with
  | true =>
    obtain ⟨w, unlisted, rfl⟩ := Option.map_eq_some_iff.mp off
    obtain ⟨qinfo, inUse', _⟩ := qenables_frame closing s
    have closed := qenables_lists lists (fun q member => used q (List.mem_append_left _ member)) (fun _ _ going => going.elim)
    obtain ⟨without, qinfo', inUse'', qenab', _⟩ := qdetachUnlist_lists closed unlisted
    have flush : Lists (qenables flushed w) _ _ := qenables_lists without
      (fun q member => by rw [inUse'', inUse']; exact used q (List.mem_append_right _ member)) (fun q member going => ?_)
    · rw [enablings_congr qinfo' qenab'] at flush
      simp only [detachEvents, if_true, List.foldl_append, List.foldl_cons, after]
      exact settle flush (fun q same _ => pair q same) (by rintro q (rfl | rfl) <;> rfl)
    · have same : q.pair = qp.pair := by rcases going with rfl | rfl <;> rfl
      rw [qinfo', qinfo, qenab']
      exact may q member same
  | false =>
    cases off
    obtain ⟨idle, idle'⟩ := may
    have first : qp ∉ l := fun member => by
      rw [((lists.enabled _).mp member).2.1] at idle
      cases idle
    have second : WR qp ∉ l := fun member => by
      rw [((lists.enabled _).mp member).2.1] at idle'
      cases idle'
    have kept : (detachEvents qp false closing flushed s).foldl after l = l := by
      simp [detachEvents, after, List.erase_of_not_mem first, List.erase_of_not_mem second]
    rw [kept]
    refine settle lists (fun q same enabled => ?_) (fun _ going => going.elim)
    rcases pair q same with rfl | rfl
    · rw [idle] at enabled
      cases enabled
    · rw [idle'] at enabled
      cases enabled

theorem strclose_lists (lists : Lists s l (fun _ => False)) (writes : qp.qreadr = false) (used : ∀ q ∈ flushed, s.inUse q.pair = true)
    (may : CloseMay qp (qenables flushed s)) (call : strclose time qp flushed s = some t) :
    Lists t ((enablings flushed s ++ [Event.removed qp]).foldl after l) (fun _ => False) := by
  obtain ⟨u, off, rest⟩ := Option.bind_eq_some_iff.mp call
  have flush := qenables_lists lists used (fun _ _ going => going.elim)
  obtain ⟨without, qinfo, inUse, qenab, qNext⟩ := strcloseUnlist_lists flush off
  rw [List.foldl_append, List.foldl_cons, List.foldl_nil, after]
  have other : RD qp = OTHERQ qp := by simp [RD, OTHERQ, writes]
  have freed : u.qenab (RD qp) = false → Lists (freeq (RD qp) u) ((((enablings flushed s).foldl after l)).erase qp) (fun _ => False) := by
    intro idle
    refine (freeq_lists without (fun q same enabled => ?_)).forget (fun q same => .inl ?_)
    · rcases pair_cases (show q.pair = qp.pair from same) with rfl | rfl
      · rfl
      · rw [← other, idle] at enabled
        cases enabled
    · subst same
      exact update_self _ _ _
  unfold CloseMay at may
  rw [← qNext, ← qinfo, ← qenab] at may
  rw [show SAMESTR qp (qenables flushed s) = SAMESTR qp u by rw [SAMESTR, SAMESTR, qNext]] at may
  cases next : u.qNext qp with
  | none =>
    rw [next] at rest may
    cases rest
    exact freed may
  | some n =>
    rw [next] at rest may
    dsimp only at rest may
    split at rest
    · next same =>
      rw [if_pos same] at may
      cases rest
      exact freed may
    · next apart =>
      rw [if_neg apart] at may
      split at rest
      · next dead =>
        rw [if_pos dead] at may
        cases rest
        obtain ⟨idle, idle₁, idle₂⟩ := may
        have first : Lists (freeq n u) (((enablings flushed s).foldl after l).erase qp) (fun q => q = qp) := by
          refine freeq_lists without (fun q same enabled => ?_)
          rcases pair_cases same with rfl | rfl
          · rw [idle₁] at enabled
            cases enabled
          · rw [idle₂] at enabled
            cases enabled
        refine (freeq_lists first (fun q same enabled => ?_)).forget (fun q same => .inl ?_)
        · rcases pair_cases (show q.pair = qp.pair from same) with rfl | rfl
          · rfl
          · rw [← other] at enabled
            rw [show (freeq n u).qenab = u.qenab from rfl, idle] at enabled
            cases enabled
        · subst same
          exact update_self _ _ _
      · next alive =>
        rw [if_neg alive] at may
        split at rest
        · next fifo =>
          rw [if_pos fifo] at may
          cases rest
          exact freed may
        · next pipe =>
          rw [if_neg pipe] at may
          cases rest
          refine Lists.forget ⟨without.linked, without.last, without.enabled⟩ (fun q same => .inr ?_)
          subst same
          exact may

end removal

theorem allocq_lists {pair : Nat} {rinit winit : Qinit} (lists : Lists s l (fun _ => False)) (fresh : s.inUse pair = false) :
    Lists (allocq pair rinit winit s) l (fun _ => False) := by
  have outside : ∀ q ∈ l, q.pair ≠ pair := by
    rintro q member rfl
    rw [((lists.enabled q).mp member).1] at fresh
    cases fresh
  have apart : ∀ q : Queue, q.pair ≠ pair → q ≠ ⟨pair, true⟩ ∧ q ≠ WR ⟨pair, true⟩ := by
    intro q other
    refine ⟨?_, ?_⟩ <;> rintro rfl <;> exact other rfl
  refine ⟨lists.linked.congr (fun q member => ?_), lists.last, fun q => ?_⟩
  · obtain ⟨first, second⟩ := apart q (outside q member)
    simp [allocq, update_of_ne first, update_of_ne second]
  · by_cases same : q.pair = pair
    · have off : (allocq pair rinit winit s).qenab q = false := by
        rcases pair_cases (show q.pair = Queue.pair ⟨pair, true⟩ from same) with rfl | rfl
        · simp [allocq, WR]
        · simp [allocq, WR, OTHERQ]
      simp only [off, Bool.false_eq_true, false_and, and_false, iff_false]
      exact fun member => outside q member same
    · obtain ⟨first, second⟩ := apart q same
      rw [lists.enabled q]
      simp [allocq, update_of_ne first, update_of_ne second, update_of_ne same]

/-- Everything that happens to the run list. A step says what it puts on and takes off,
and the condition under which it frees nothing that is on the list. -/
inductive Step (s : Streams) : List Event → Prop → Streams → Prop
  | allocq {pair : Nat} {rinit winit : Qinit} (fresh : s.inUse pair = false) : Step s [] True (allocq pair rinit winit s)
  | setq {rq : Queue} {rinit winit : Qinit} : Step s [] True (setq rq rinit winit s)
  /-- Other code joins streams, and notes that it has back-enabled queues. -/
  | around {qNext : Queue → Option Queue} {qback : Queue → Bool} {bandBack : Queue → List Bool} :
      Step s [] True { s with qNext, qback, bandBack }
  | qenable {q : Queue} (used : s.inUse q.pair = true) : Step s (enablings [q] s) True (qenable q s)
  | turn {served : List Queue} {q : Queue} {t : Streams} (used : ∀ p ∈ served, s.inUse p.pair = true)
      (turn : queuerunTurn served s = some (q, t)) : Step s (turnEvents q served s) True t
  | qdetach {time : Nat} {qp : Queue} {clmode : Bool} {closing flushed : List Queue} {t : Streams} (reads : qp.qreadr = true)
      (used : ∀ q ∈ closing ++ flushed, s.inUse q.pair = true) (call : qdetach time qp clmode closing flushed s = some t) :
      Step s (detachEvents qp clmode closing flushed s) (DetachMay qp clmode closing flushed s) t
  | strclose {time : Nat} {qp : Queue} {flushed : List Queue} {t : Streams} (writes : qp.qreadr = false)
      (used : ∀ q ∈ flushed, s.inUse q.pair = true) (call : strclose time qp flushed s = some t) :
      Step s (enablings flushed s ++ [.removed qp]) (CloseMay qp (qenables flushed s)) t

/-- From no queues at all. With `careful` every step meets its condition. -/
inductive Run (careful : Bool) : List Event → Streams → Prop
  | start {s : Streams} (qhead : s.qhead = none) (qtail : s.qtail = none) (inUse : ∀ pair, s.inUse pair = false) : Run careful [] s
  | step {events more : List Event} {s t : Streams} {may : Prop} (run : Run careful events s) (step : Step s more may t)
      (met : careful = true → may) : Run careful (events ++ more) t

theorem Step.lists {events : List Event} {may : Prop} (lists : Lists s l (fun _ => False)) (step : Step s events may t) (met : may) :
    Lists t (events.foldl after l) (fun _ => False) := by
  cases step with
  | allocq fresh => exact allocq_lists lists fresh
  | setq => exact ⟨lists.linked, lists.last, lists.enabled⟩
  | around => exact ⟨lists.linked, lists.last, lists.enabled⟩
  | qenable used => exact qenable_lists lists used (fun going => going.elim)
  | turn used turn => exact (queuerunTurn_lists lists used turn).2.2.2
  | qdetach reads used call => exact qdetach_lists lists reads used met call
  | strclose writes used call => exact strclose_lists lists writes used met call

theorem Run.lists {events : List Event} (run : Run true events s) : Lists s (pending events) (fun _ => False) := by
  induction run with
  | start qhead qtail inUse =>
    refine ⟨qhead, qtail, fun q => ?_⟩
    simp [inUse, pending]
  | step run step met ih =>
    rw [pending, List.foldl_append]
    exact step.lists ih (met rfl)

/-- Turns of `queuerun`, with the queues that were taken. -/
def turns : List (List Queue) → Streams → Option (List Queue × Streams)
  | [], s => some ([], s)
  | served :: later, s => do
    let (q, s) ← queuerunTurn served s
    let (taken, s) ← turns later s
    return (q :: taken, s)

theorem enablings_enabled (qs : List Queue) (s : Streams) : ∀ e ∈ enablings qs s, ∃ q, e = .enabled q := by
  induction qs generalizing s with
  | nil => simp [enablings]
  | cons q qs ih =>
    intro e member
    rw [enablings] at member
    rcases List.mem_append.mp member with now | later
    · split at now
      · exact ⟨q, List.mem_singleton.mp now⟩
      · cases now
    · exact ih _ e later

theorem enabled_behind {events : List Event} (all : ∀ e ∈ events, ∃ q, e = .enabled q) (l : List Queue) :
    ∃ behind, events.foldl after l = l ++ behind := by
  induction events generalizing l with
  | nil => exact ⟨[], by simp⟩
  | cons e events ih =>
    obtain ⟨q, rfl⟩ := all e (by simp)
    obtain ⟨behind, eq⟩ := ih (fun e member => all e (by simp [member])) (l ++ [q])
    exact ⟨q :: behind, by rw [List.foldl_cons, after, eq, List.append_assoc]; rfl⟩

theorem turnEvents_behind {served : List Queue} (turn : queuerunTurn served s = some (q, t)) (l : List Queue) :
    ∃ behind, (turnEvents q served s).foldl after (q :: l) = l ++ behind := by
  obtain ⟨⟨first, u⟩, take, _⟩ := Option.bind_eq_some_iff.mp turn
  simp only [turnEvents, take, List.foldl_cons, after, List.erase_cons_head]
  refine enabled_behind (fun e member => ?_) l
  split at member
  · exact enablings_enabled _ _ e member
  · cases member

theorem turns_service {front back : List Queue} {serves : List (List Queue)} (lists : Lists s (front ++ back) (fun _ => False))
    (used : ∀ served ∈ serves, ∀ q ∈ served, s.inUse q.pair = true) (many : serves.length = front.length) :
    ∃ t, turns serves s = some (front, t) := by
  induction serves generalizing s front back with
  | nil =>
    obtain rfl := List.length_eq_zero_iff.mp many.symm
    exact ⟨s, rfl⟩
  | cons served serves ih =>
    cases front with
    | nil => cases many
    | cons q front =>
      have taken : ∃ u, queuerunTurn served s = some (q, u) := by
        unfold queuerunTurn takeQueue
        rw [lists.head]
        simp only [List.cons_append, List.head?_cons, Option.bind_eq_bind, Option.bind_some, Option.pure_def]
        split <;> exact ⟨_, rfl⟩
      obtain ⟨u, turn⟩ := taken
      obtain ⟨_, _, inUse, next⟩ := queuerunTurn_lists lists (used served (by simp)) turn
      obtain ⟨behind, waiting⟩ := turnEvents_behind turn (front ++ back)
      rw [List.cons_append, waiting, List.append_assoc] at next
      obtain ⟨t, later⟩ := ih next (fun served' member => inUse ▸ used served' (by simp [member])) (by simpa using many)
      exact ⟨t, by rw [turns, turn]; simp [later]⟩

/-- The run list holds just the enabled queues, each once, in the order in which they were
enabled. `queuerun` takes the first of them, which is in use, and with as many turns as
there are queues services them all, whatever is enabled meanwhile. -/
theorem runlist_exact (events : List Event) (s : Streams) (run : Run true events s) :
    Linked s.qLink s.qhead (pending events) ∧ s.qtail = (pending events).getLast? ∧ (pending events).Nodup ∧
      (∀ q, q ∈ pending events ↔ s.inUse q.pair = true ∧ s.qenab q = true) ∧
      (∀ served q t, (∀ p ∈ served, s.inUse p.pair = true) → queuerunTurn served s = some (q, t) →
        (pending events).head? = some q ∧ s.inUse q.pair = true) ∧
      ∀ serves : List (List Queue), (∀ served ∈ serves, ∀ p ∈ served, s.inUse p.pair = true) →
        serves.length = (pending events).length → ∃ t, turns serves s = some (pending events, t) := by
  have lists := run.lists
  refine ⟨lists.linked, lists.last, lists.linked.nodup, fun q => ?_, fun served q t used turn => ?_, fun serves used many => ?_⟩
  · rw [lists.enabled q]
    simp
  · obtain ⟨first, live, _⟩ := queuerunTurn_lists lists used turn
    exact ⟨first, live⟩
  · rw [← List.append_nil (pending events)] at lists
    exact turns_service lists used many

private def blank : Streams :=
  ⟨fun _ => .deadrend, fun _ => none, fun _ => none, fun _ => false, fun _ => false, fun _ => [], fun _ => false, none, none⟩

private theorem blank_run (careful : Bool) : Run careful [] blank := .start rfl rfl (fun _ => rfl)

/-- Four queues are enabled; a module and a stream are closed while theirs are, and the close
of the module enables another one. -/
theorem runlist_exact_one : ∃ events s, Run true events s ∧ pending events = [⟨2, true⟩, ⟨2, false⟩] ∧
    ∃ t, turns [[⟨2, true⟩], []] s = some ([⟨2, true⟩, ⟨2, false⟩], t) := by
  have first := (blank_run true).step (@Step.allocq _ 0 (.module true) (.module true) rfl) (fun _ => trivial)
  have second := first.step (@Step.allocq _ 1 .strdata .stwdata rfl) (fun _ => trivial)
  have third := second.step (@Step.allocq _ 2 (.module true) (.module true) rfl) (fun _ => trivial)
  have reads := third.step (@Step.qenable _ ⟨0, true⟩ rfl) (fun _ => trivial)
  have head := reads.step (@Step.qenable _ ⟨1, false⟩ rfl) (fun _ => trivial)
  have other := head.step (@Step.qenable _ ⟨2, true⟩ rfl) (fun _ => trivial)
  have writes := other.step (@Step.qenable _ ⟨0, false⟩ rfl) (fun _ => trivial)
  have detached := writes.step (@Step.qdetach _ 4 ⟨0, true⟩ true [⟨0, true⟩] [⟨2, false⟩] _ rfl (by decide) rfl)
    (fun _ => by simp [DetachMay])
  have closed := detached.step (@Step.strclose _ 3 ⟨1, false⟩ [] _ rfl (by simp) rfl) (fun _ => rfl)
  exact ⟨_, _, closed, rfl, (runlist_exact _ _ closed).2.2.2.2.2 [[⟨2, true⟩], []] (by decide) rfl⟩

/-- A module's open enables its read queue and then fails: the queue is freed with its pair,
but is still the first of the run list, and the next turn services it. -/
theorem queue_serviced_after_detach : ∃ events s, Run false events s ∧
    ∃ q t, queuerunTurn [] s = some (q, t) ∧ Event.removed q ∈ events ∧ s.inUse q.pair = false := by
  have opened := (blank_run false).step (@Step.allocq _ 0 (.module true) (.module false) rfl) (fun no => by cases no)
  have enabled := opened.step (@Step.qenable _ ⟨0, true⟩ rfl) (fun no => by cases no)
  have detached := enabled.step (@Step.qdetach _ 1 ⟨0, true⟩ false [] [] _ rfl (by simp) rfl)
    (fun no => by cases no)
  exact ⟨_, _, detached, ⟨0, true⟩, _, rfl, by simp [detachEvents], rfl⟩

end Svr4.Proofs.RunlistHistory
