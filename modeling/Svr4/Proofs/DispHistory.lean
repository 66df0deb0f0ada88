import Svr4.Proofs.DispQueues

/-! The dispatcher over any order of steps: the numbers kept beside the queues always
say what is on them, so `pswtch` finds the process that it looks for. -/

namespace Svr4.Proofs.DispHistory
open Function Chain Bitmap Disp DispQueues

variable {l : List Nat} {pp time : Nat}

def ready (queue : Nat → List Nat) (flag : Nat → BitVec 32) (q : Nat) : Nat :=
  (queue q).countP (fun p => schedulable (flag p))

structure Consistent (n : Nat) (queue : Nat → List Nat) (s : State) : Prop where
  lists : Lists n queue s
  counted : Counted n (ready queue s.pFlag) s

def Queued (s : State) (p : Nat) : Prop := ∃ q l, Linked s.pLink (s.dqFirst q) l ∧ p ∈ l

def changeFlag (s : State) (pp : Nat) (flag : BitVec 32) (queued : Bool) : State :=
  let t := setFlag s pp flag
  if queued then
    if schedulable flag && !schedulable (s.pFlag pp) then dqSruninc t (s.pPri pp)
    else if schedulable (s.pFlag pp) && !schedulable flag then dqSrundec t (s.pPri pp)
    else t
  else t

inductive Step (n : Nat) : State → State → Prop
  | setbackdq {s : State} (pp : Nat) (free : ¬ Queued s pp) (bound : s.pPri pp < n) : Step n s (setbackdq s pp)
  | setfrontdq {s : State} (pp : Nat) (free : ¬ Queued s pp) (bound : s.pPri pp < n) : Step n s (setfrontdq s pp)
  | dispdeq {s t : State} {found : Bool} {time : Nat} (pp : Nat) (call : dispdeq time s pp = some (found, t)) : Step n s t
  | pswtchEntry {s : State} : Step n s (pswtchEntry s)
  | pswtchSelect {s t : State} {chosen : Option Nat} {time : Nat} (procSched : Nat)
      (call : pswtchSelect time s procSched = some (chosen, t)) : Step n s t
  | flag {s : State} (pp : Nat) (flag : BitVec 32) (queued : Bool) (status : queued = true ↔ Queued s pp) :
      Step n s (changeFlag s pp flag queued)
  | priority {s : State} (pp pri : Nat) (free : ¬ Queued s pp) : Step n s { s with pPri := update s.pPri pp pri }
  | status {s : State} (pStat : Nat → Stat) : Step n s { s with pStat }

inductive Reachable (n : Nat) : State → Prop
  | dispinit (pLink : Nat → Option Nat) (pFlag : Nat → BitVec 32) (pPri : Nat → Nat) (pStat : Nat → Stat)
      (curproc : Nat) (curpri : Int) : Reachable n (dispinit pLink pFlag pPri pStat curproc curpri)
  | step {s t : State} (before : Reachable n s) (step : Step n s t) : Reachable n t

section steps
variable {n : Nat} {queue : Nat → List Nat} {s t : State}

theorem Consistent.queued_iff (consistent : Consistent n queue s) (p : Nat) : Queued s p ↔ ∃ q, p ∈ queue q := by
  constructor
  · rintro ⟨q, l, linked, member⟩
    exact ⟨q, (consistent.lists.linked q).unique linked ▸ member⟩
  · rintro ⟨q, member⟩
    exact ⟨q, queue q, consistent.lists.linked q, member⟩

theorem ready_update (queue : Nat → List Nat) (flag : Nat → BitVec 32) (pri : Nat) (l : List Nat) :
    ready (update queue pri l) flag = update (ready queue flag) pri (l.countP (fun p => schedulable (flag p))) := by
  funext q
  by_cases same : q = pri
  · subst same
    simp [ready]
  · simp [ready, update_of_ne same]

theorem dispinit_consistent (n : Nat) (pLink : Nat → Option Nat) (pFlag : Nat → BitVec 32) (pPri : Nat → Nat)
    (pStat : Nat → Stat) (curproc : Nat) (curpri : Int) :
    Consistent n (fun _ => []) (dispinit pLink pFlag pPri pStat curproc curpri) := by
  refine ⟨⟨fun _ => rfl, fun _ => rfl, by simp⟩, ⟨fun _ => rfl, ?_, ?_, .inl ⟨rfl, fun _ => rfl⟩, fun _ _ => rfl⟩⟩
  · simp [dispinit, ready]
  · intro q
    simp [dispinit, ready, btTest]

section
variable (consistent : Consistent n queue s)
include consistent

private theorem joined (bound : s.pPri pp < n)
    (perm : l.Perm (pp :: queue (s.pPri pp))) (only : ListsOnly s t) (lists : Lists n (update queue (s.pPri pp) l) t) :
    Consistent n (update queue (s.pPri pp) l) (if schedulable (t.pFlag pp) then dqSruninc t (s.pPri pp) else t) := by
  have counted := consistent.counted.congr only
  have number : l.countP (fun p => schedulable (s.pFlag p)) =
      ready queue s.pFlag (s.pPri pp) + if schedulable (s.pFlag pp) then 1 else 0 := by
    rw [perm.countP_eq, List.countP_cons]
    rfl
  rw [only.pFlag]
  split
  · next may =>
    rw [if_pos may] at number
    have frame := dqSruninc_frame t (s.pPri pp)
    refine ⟨lists.congr frame, ?_⟩
    rw [frame.pFlag, only.pFlag, ready_update, number]
    exact dqSruninc_counted counted bound
  · next may =>
    rw [if_neg may, add_zero] at number
    refine ⟨lists, ?_⟩
    rw [only.pFlag, ready_update, number, update_eq_self]
    exact counted

theorem setbackdq_consistent (free : ¬ Queued s pp) (bound : s.pPri pp < n) :
    Consistent n (update queue (s.pPri pp) (queue (s.pPri pp) ++ [pp])) (setbackdq s pp) := by
  have fresh : ∀ q, pp ∉ queue q := fun q member => free ((consistent.queued_iff pp).mpr ⟨q, member⟩)
  exact joined consistent bound (List.perm_append_singleton pp _) (linkBack_only s pp)
    (linkBack_lists consistent.lists bound fresh)

theorem setfrontdq_consistent (free : ¬ Queued s pp) (bound : s.pPri pp < n) :
    Consistent n (update queue (s.pPri pp) (pp :: queue (s.pPri pp))) (setfrontdq s pp) := by
  have fresh : ∀ q, pp ∉ queue q := fun q member => free ((consistent.queued_iff pp).mpr ⟨q, member⟩)
  exact joined consistent bound (.refl _) (linkFront_only s pp) (linkFront_lists consistent.lists bound fresh)

private theorem left {pri : Nat} {l' : List Nat} (here : queue pri = l ++ pp :: l') :
    let t := unlinkDq s pri l.getLast? pp
    Consistent n (update queue pri (l ++ l')) (if schedulable (s.pFlag pp) then dqSrundec t pri else t) := by
  intro t
  have only := unlinkDq_only s pri l.getLast? pp
  have lists := unlinkDq_lists consistent.lists here
  have counted := consistent.counted.congr only
  have bound : pri < n := (consistent.lists.home pri pp (by simp [here])).2
  have number : ready queue s.pFlag pri =
      (l ++ l').countP (fun p => schedulable (s.pFlag p)) + if schedulable (s.pFlag pp) then 1 else 0 := by
    rw [ready, here, List.countP_append, List.countP_cons, List.countP_append]
    omega
  split
  · next may =>
    rw [if_pos may] at number
    have frame := dqSrundec_frame t pri
    refine ⟨lists.congr frame, ?_⟩
    rw [frame.pFlag, only.pFlag, ready_update]
    exact dqSrundec_counted counted bound number
  · next may =>
    rw [if_neg may, add_zero] at number
    refine ⟨lists, ?_⟩
    rw [only.pFlag, ready_update, ← number, update_eq_self]
    exact counted

end

theorem dispdeq_mono {time' : Nat} {r : Bool × State} (more : time ≤ time') (ended : dispdeq time s pp = some r) :
    dispdeq time' s pp = some r := by
  unfold dispdeq at ended ⊢
  obtain ⟨found, walked, rest⟩ := Option.bind_eq_some_iff.mp ended
  simp only [walk_mono more walked]
  exact rest

/-- `dispdeq` looks at no more than its queue, and takes the process out of the queue of
its priority if it is there. -/
theorem dispdeq_spec (consistent : Consistent n queue s) (pp : Nat)
    (enough : (queue (s.pPri pp)).length ≤ time) :
    (dispdeq time s pp = some (false, s) ∧ pp ∉ queue (s.pPri pp)) ∨
      ∃ t l l', dispdeq time s pp = some (true, t) ∧ queue (s.pPri pp) = l ++ pp :: l' ∧
        Consistent n (update queue (s.pPri pp) (l ++ l')) t := by
  have linked := consistent.lists.linked (s.pPri pp)
  by_cases member : pp ∈ queue (s.pPri pp)
  · obtain ⟨l, l', here⟩ := List.append_of_mem member
    rw [here] at linked
    have once := linked.nodup
    rw [List.nodup_append] at once
    have found := walk_found (fun rp => rp = pp) time linked
      (fun p earlier => by simpa using once.2.2 p earlier pp (by simp)) (by simp)
      (by rw [here, List.length_append, List.length_cons] at enough; omega)
    refine .inr ⟨_, l, l', ?_, here, left consistent here⟩
    simp only [dispdeq, found, Option.bind_eq_bind, Option.bind_some, Option.pure_def]
    rw [(unlinkDq_only s _ _ _).pFlag]
  · have passed := walk_none (fun rp => rp = pp) time linked
      (fun p inside => by
        simp only [decide_eq_false_iff_not]
        rintro rfl
        exact member inside) enough
    refine .inl ⟨?_, member⟩
    simp [dispdeq, passed]

theorem first_ready {flag : Nat → BitVec 32} (some_ : l.countP (fun p => schedulable (flag p)) ≠ 0) :
    ∃ before pp after, l = before ++ pp :: after ∧ (∀ p ∈ before, schedulable (flag p) = false) ∧
      schedulable (flag pp) = true := by
  induction l with
  | nil => simp at some_
  | cons p l ih =>
    by_cases may : schedulable (flag p) = true
    · exact ⟨[], p, l, rfl, by simp, may⟩
    · rw [List.countP_cons_of_neg (by simpa using may)] at some_
      obtain ⟨before, pp, after, rfl, skipped, stops⟩ := ih some_
      refine ⟨p :: before, pp, after, rfl, ?_, stops⟩
      intro other member
      rcases List.mem_cons.mp member with rfl | later
      · simpa using may
      · exact skipped other later

theorem pswtchCount_eq {m : Nat} (top : s.maxrunpri = m) : pswtchCount s m = dqSrundec s m := by
  simp only [pswtchCount, dqSrundec, top, if_true, Int.toNat_natCast]

theorem pswtchSelect_mono {time' procSched : Nat} {r : Option Nat × State} (more : time ≤ time')
    (ended : pswtchSelect time s procSched = some r) : pswtchSelect time' s procSched = some r := by
  unfold pswtchSelect at ended ⊢
  split at ended
  · next idle => rwa [if_pos idle]
  · next busy =>
    rw [if_neg busy]
    obtain ⟨found, walked, rest⟩ := Option.bind_eq_some_iff.mp ended
    simp only [walk_mono more walked]
    exact rest

/-- `pswtch` idles when nothing may run, and else takes the first process that may from
the highest priority that has one. -/
theorem pswtchSelect_spec (consistent : Consistent n queue s) (procSched : Nat)
    (enough : (queue s.maxrunpri.toNat).length ≤ time) :
    (∃ t, pswtchSelect time s procSched = some (none, t) ∧ s.maxrunpri = -1 ∧ Consistent n queue t) ∨
      ∃ t m before pp after, pswtchSelect time s procSched = some (some pp, t) ∧ s.maxrunpri = (m : Nat) ∧
        queue m = before ++ pp :: after ∧ (∀ p ∈ before, schedulable (s.pFlag p) = false) ∧
        schedulable (s.pFlag pp) = true ∧ Consistent n (update queue m (before ++ after)) t := by
  have lists := consistent.lists
  have counted := consistent.counted
  rcases counted.highest with ⟨none_, _⟩ | ⟨m, top, some_, _⟩
  · refine .inl ⟨{ s with curpri := 0, curproc := procSched }, ?_, none_, ?_, ?_⟩
    · simp [pswtchSelect, none_]
    · exact ⟨lists.linked, lists.last, lists.home⟩
    · exact ⟨counted.each, counted.total, counted.bits, counted.highest, counted.beyond⟩
  · obtain ⟨before, pp, after, here, skipped, may⟩ := first_ready some_
    have linked := lists.linked m
    rw [here] at linked
    have found := walk_found (fun p => schedulable (s.pFlag p)) time linked skipped may
      (by rw [top, Int.toNat_natCast, here, List.length_append, List.length_cons] at enough; omega)
    have result := left consistent here
    simp only [may, if_true] at result
    have bound : (0 : Int) ≤ m := Int.natCast_nonneg m
    have going : s.maxrunpri ≠ -1 := by omega
    rw [← pswtchCount_eq ((unlinkDq_only s m _ pp).maxrunpri.trans top)] at result
    obtain ⟨lists', counted'⟩ := result
    set u := pswtchCount (unlinkDq s m before.getLast? pp) m with taken
    refine .inr ⟨{ u with pStat := update u.pStat pp .SONPROC, curpri := u.pPri pp, curproc := pp }, m, before, pp,
      after, ?_, top, here, skipped, may, ?_⟩
    · rw [pswtchSelect, if_neg going]
      simp only [top, Int.toNat_natCast, found, Option.bind_eq_bind, Option.bind_some, Option.pure_def]
      rfl
    · exact ⟨⟨lists'.linked, lists'.last, lists'.home⟩,
        ⟨counted'.each, counted'.total, counted'.bits, counted'.highest, counted'.beyond⟩⟩

private theorem countP_flag {flag : Nat → BitVec 32} (f : BitVec 32) (absent : pp ∉ l) :
    l.countP (fun p => schedulable (update flag pp f p)) = l.countP (fun p => schedulable (flag p)) := by
  refine List.countP_congr (fun p member => ?_)
  have other : p ≠ pp := by
    rintro rfl
    exact absent member
  rw [update_of_ne other]

theorem ready_flag (lists : Lists n queue s) {pri : Nat} (member : pp ∈ queue pri) :
    ∃ others, ∀ f, ready queue (update s.pFlag pp f) =
      update (ready queue s.pFlag) pri (others + if schedulable f then 1 else 0) := by
  obtain ⟨l, l', here⟩ := List.append_of_mem member
  have linked := lists.linked pri
  rw [here] at linked
  obtain ⟨_, second, across⟩ := List.nodup_append.mp linked.nodup
  have before : pp ∉ l := fun inside => across pp inside pp (by simp) rfl
  have after : pp ∉ l' := (List.nodup_cons.mp second).1
  refine ⟨(l ++ l').countP (fun p => schedulable (s.pFlag p)), fun f => ?_⟩
  funext q
  by_cases same : q = pri
  · rw [same, update_self, ready, here, List.countP_append, List.countP_cons, countP_flag f before, countP_flag f after,
      update_self, List.countP_append]
    omega
  · rw [update_of_ne same]
    exact countP_flag f (fun inside => same (lists.apart inside member))

theorem changeFlag_consistent (consistent : Consistent n queue s) (pp : Nat) (flag : BitVec 32) (queued : Bool)
    (status : queued = true ↔ Queued s pp) : Consistent n queue (changeFlag s pp flag queued) := by
  have lists : Lists n queue (setFlag s pp flag) :=
    ⟨consistent.lists.linked, consistent.lists.last, consistent.lists.home⟩
  have counted : Counted n (ready queue s.pFlag) (setFlag s pp flag) :=
    ⟨consistent.counted.each, consistent.counted.total, consistent.counted.bits, consistent.counted.highest,
      consistent.counted.beyond⟩
  cases queued with
  | false =>
    have same : ready queue (update s.pFlag pp flag) = ready queue s.pFlag := by
      funext q
      exact countP_flag flag (fun member => Bool.false_ne_true (status.mpr ((consistent.queued_iff pp).mpr ⟨q, member⟩)))
    refine ⟨lists, ?_⟩
    change Counted n (ready queue (update s.pFlag pp flag)) (setFlag s pp flag)
    rwa [same]
  | true =>
    obtain ⟨pri, member⟩ := (consistent.queued_iff pp).mp (status.mp rfl)
    obtain ⟨home, bound⟩ := consistent.lists.home pri pp member
    obtain ⟨others, number⟩ := ready_flag consistent.lists member
    have old : ready queue s.pFlag pri = others + if schedulable (s.pFlag pp) then 1 else 0 := by
      have self := number (s.pFlag pp)
      rw [update_eq_self] at self
      exact (congrFun self pri).trans (update_self ..)
    have new := number flag
    have changed : ∀ t : State, CountsOnly (setFlag s pp flag) t →
        Counted n (update (ready queue s.pFlag) pri (others + if schedulable flag then 1 else 0)) t → Consistent n queue t := by
      intro t frame counts
      refine ⟨lists.congr frame, ?_⟩
      rw [frame.pFlag]
      change Counted n (ready queue (update s.pFlag pp flag)) t
      rwa [new]
    simp only [changeFlag, home, if_true, Bool.and_eq_true, Bool.not_eq_true']
    split
    · next gained =>
      apply changed _ (dqSruninc_frame _ pri)
      rw [if_neg (by simp [gained.2])] at old
      rw [if_pos gained.1, ← add_zero others, ← old]
      exact dqSruninc_counted counted bound
    · next notGained =>
      split
      · next lost =>
        apply changed _ (dqSrundec_frame _ pri)
        rw [if_pos lost.1] at old
        rw [if_neg (by simp [lost.2]), add_zero]
        exact dqSrundec_counted counted bound old
      · next notLost =>
        apply changed _ ⟨rfl, rfl, rfl, rfl, rfl, rfl, rfl, rfl⟩
        have even : (if schedulable flag then 1 else 0) = if schedulable (s.pFlag pp) then 1 else 0 := by
          cases now : schedulable flag <;> cases before : schedulable (s.pFlag pp) <;> simp_all
        rw [even, ← old, update_eq_self]
        exact counted

theorem step_consistent (consistent : Consistent n queue s) (step : Step n s t) : ∃ queue', Consistent n queue' t := by
  cases step with
  | setbackdq pp free bound => exact ⟨_, setbackdq_consistent consistent free bound⟩
  | setfrontdq pp free bound => exact ⟨_, setfrontdq_consistent consistent free bound⟩
  | dispdeq pp call =>
    have ended := dispdeq_mono (Nat.le_max_left _ (queue (s.pPri pp)).length) call
    rcases dispdeq_spec consistent pp (Nat.le_max_right _ _) with ⟨same, _⟩ | ⟨t', l, l', taken, _, after⟩
    · rw [same] at ended
      cases ended
      exact ⟨queue, consistent⟩
    · rw [taken] at ended
      cases ended
      exact ⟨_, after⟩
  | pswtchEntry =>
    refine ⟨queue, ?_⟩
    unfold pswtchEntry
    split
    · exact ⟨⟨consistent.lists.linked, consistent.lists.last, consistent.lists.home⟩,
        ⟨consistent.counted.each, consistent.counted.total, consistent.counted.bits, consistent.counted.highest,
          consistent.counted.beyond⟩⟩
    · exact consistent
  | pswtchSelect procSched call =>
    have ended := pswtchSelect_mono (Nat.le_max_left _ (queue s.maxrunpri.toNat).length) call
    rcases pswtchSelect_spec consistent procSched (Nat.le_max_right _ _) with ⟨t', idle, _, after⟩ | ⟨t', m, before, pp, rest, taken, _, _, _, _, after⟩
    · rw [idle] at ended
      cases ended
      exact ⟨queue, after⟩
    · rw [taken] at ended
      cases ended
      exact ⟨_, after⟩
  | flag pp flag queued status => exact ⟨queue, changeFlag_consistent consistent pp flag queued status⟩
  | priority pp pri free =>
    refine ⟨queue, ⟨consistent.lists.linked, consistent.lists.last, fun q p member => ?_⟩, ?_⟩
    · have other : p ≠ pp := by
        rintro rfl
        exact free ((consistent.queued_iff p).mpr ⟨q, member⟩)
      simp only
      rw [update_of_ne other]
      exact consistent.lists.home q p member
    · exact ⟨consistent.counted.each, consistent.counted.total, consistent.counted.bits, consistent.counted.highest,
        consistent.counted.beyond⟩
  | status pStat =>
    exact ⟨queue, ⟨consistent.lists.linked, consistent.lists.last, consistent.lists.home⟩,
      ⟨consistent.counted.each, consistent.counted.total, consistent.counted.bits, consistent.counted.highest,
        consistent.counted.beyond⟩⟩

end steps

theorem Reachable.consistent {n : Nat} {s : State} (reached : Reachable n s) : ∃ queue, Consistent n queue s := by
  induction reached with
  | dispinit pLink pFlag pPri pStat curproc curpri => exact ⟨_, dispinit_consistent n pLink pFlag pPri pStat curproc curpri⟩
  | step _ step ih =>
    obtain ⟨queue, consistent⟩ := ih
    exact step_consistent consistent step

section flags
variable (f : BitVec 32)

private theorem and_eq_zero {m : BitVec 32} {i : Nat} (single : m = BitVec.twoPow 32 i) (bound : i < 32) :
    f &&& m = 0 ↔ f.getLsbD i = false := by
  subst single
  constructor
  · intro zero
    have bit := congrArg (fun b : BitVec 32 => b.getLsbD i) zero
    simpa [bound] using bit
  · intro clear
    apply BitVec.eq_of_getLsbD_eq
    intro j _
    by_cases same : i = j
    · subst same
      simp [clear]
    · simp [same]

private theorem and_eq_first {a b : BitVec 32} {i j : Nat} (first : a = BitVec.twoPow 32 i) (second : b = BitVec.twoPow 32 j)
    (low : i < 32) (high : j < 32) (apart : i ≠ j) :
    f &&& (a ||| b) = a ↔ f.getLsbD i = true ∧ f.getLsbD j = false := by
  subst first second
  constructor
  · intro equal
    have one := congrArg (fun b : BitVec 32 => b.getLsbD i) equal
    have other := congrArg (fun b : BitVec 32 => b.getLsbD j) equal
    simp [low, high, apart, apart.symm] at one other
    exact ⟨one, other⟩
  · rintro ⟨set_, clear⟩
    apply BitVec.eq_of_getLsbD_eq
    intro k _
    by_cases isFirst : i = k
    · subst isFirst
      simp [set_, low]
    · by_cases isSecond : j = k
      · subst isSecond
        simp [clear, apart]
      · simp [isFirst, isSecond]

theorem schedulable_iff : schedulable f = true ↔ (f.getLsbD 4 = true ∧ f.getLsbD 10 = false) ∨ f.getLsbD 0 = true := by
  have loaded := and_eq_first f (a := SLOAD) (b := SPROCIO) (i := 4) (j := 10) rfl rfl (by decide) (by decide) (by decide)
  have system := and_eq_zero f (m := SSYS) (i := 0) rfl (by decide)
  simp only [schedulable, decide_eq_true_eq, loaded, ne_eq, system, Bool.not_eq_false]

end flags

theorem dqSrundec_setFlag (s : State) (p pri : Nat) (flag : BitVec 32) :
    dqSrundec (setFlag s p flag) pri = setFlag (dqSrundec s pri) p flag := by
  by_cases last : s.dqSruncnt pri - 1 = 0
  · by_cases nobody : s.srunprocs - 1 = 0
    · simp [dqSrundec, setFlag, last, nobody]
    · by_cases top : (pri : Int) = s.maxrunpri
      · simp [dqSrundec, setFlag, last, nobody, top]
      · simp [dqSrundec, setFlag, last, nobody, top]
  · simp [dqSrundec, setFlag, last]

/-! What each place that changes a flag relies on: the flag was the other way, and a
process is queued just when its status is `SRUN`. -/
section sites
variable {n : Nat} {s : State} {p : Nat}

private theorem gained_step (may : Prop) [Decidable may] (flag : BitVec 32) (status : s.pStat p = .SRUN ↔ Queued s p)
    (gains : may ↔ schedulable flag = true ∧ schedulable (s.pFlag p) = false)
    (keeps : schedulable (s.pFlag p) = true → schedulable flag = true) :
    Step n s (if s.pStat p = .SRUN ∧ may then dqSruninc (setFlag s p flag) (s.pPri p) else setFlag s p flag) := by
  have step := Step.flag (n := n) p flag (decide (s.pStat p = .SRUN)) (by simpa using status)
  have same : changeFlag s p flag (decide (s.pStat p = .SRUN)) =
      if s.pStat p = .SRUN ∧ may then dqSruninc (setFlag s p flag) (s.pPri p) else setFlag s p flag := by
    have never : ¬ (schedulable (s.pFlag p) = true ∧ schedulable flag = false) := by
      rintro ⟨could, cannot⟩
      rw [keeps could] at cannot
      cases cannot
    simp only [changeFlag, decide_eq_true_eq, Bool.and_eq_true, Bool.not_eq_true', never, if_false, gains]
    by_cases running : s.pStat p = .SRUN
    · simp [running]
    · simp [running]
  rwa [same] at step

private theorem lost_step (may : Prop) [Decidable may] (flag : BitVec 32) (status : s.pStat p = .SRUN ↔ Queued s p)
    (loses : may ↔ schedulable (s.pFlag p) = true ∧ schedulable flag = false)
    (keeps : schedulable flag = true → schedulable (s.pFlag p) = true) :
    Step n s (if s.pStat p = .SRUN ∧ may then dqSrundec (setFlag s p flag) (s.pPri p) else setFlag s p flag) := by
  have step := Step.flag (n := n) p flag (decide (s.pStat p = .SRUN)) (by simpa using status)
  have same : changeFlag s p flag (decide (s.pStat p = .SRUN)) =
      if s.pStat p = .SRUN ∧ may then dqSrundec (setFlag s p flag) (s.pPri p) else setFlag s p flag := by
    have never : ¬ (schedulable flag = true ∧ schedulable (s.pFlag p) = false) := by
      rintro ⟨can, could⟩
      rw [keeps can] at could
      cases could
    simp only [changeFlag, decide_eq_true_eq, Bool.and_eq_true, Bool.not_eq_true', never, if_false, loses]
    by_cases running : s.pStat p = .SRUN
    · simp [running]
    · simp [running]
  rwa [same] at step

private theorem loaded_iff (f : BitVec 32) : f &&& (SLOAD ||| SSYS) = SLOAD ↔ f.getLsbD 4 = true ∧ f.getLsbD 0 = false :=
  and_eq_first f rfl rfl (by decide) (by decide) (by decide)

private theorem procio_iff (f : BitVec 32) : f &&& SPROCIO = 0 ↔ f.getLsbD 10 = false := and_eq_zero f rfl (by decide)

private theorem unschedulable_iff (f : BitVec 32) : schedulable f = false ↔ ¬ schedulable f = true := by simp

section
variable (status : s.pStat p = .SRUN ↔ Queued s p)
include status

theorem prlockFlag_step (clear : s.pFlag p &&& SPROCIO = 0) :
    Step n s (prlockFlag s p) := by
  rw [procio_iff] at clear
  have step := lost_step (n := n) ((s.pFlag p ||| SPROCIO) &&& (SLOAD ||| SSYS) = SLOAD)
    (s.pFlag p ||| SPROCIO) status
    (by
      rw [loaded_iff, unschedulable_iff, schedulable_iff, schedulable_iff]
      simp only [BitVec.getLsbD_or, clear]
      simp [ SPROCIO]
      grind)
    (by
      rw [schedulable_iff, schedulable_iff]
      simp [ SPROCIO]
      tauto)
  simpa only [prlockFlag, setFlag, update_self] using step

theorem prunlockFlag_step : Step n s (prunlockFlag s p) := by
  unfold prunlockFlag
  split
  · next set_ =>
    rw [ne_eq, procio_iff, Bool.not_eq_false] at set_
    have step := gained_step (n := n) ((s.pFlag p &&& ~~~ SPROCIO) &&& (SLOAD ||| SSYS) = SLOAD)
      (s.pFlag p &&& ~~~ SPROCIO) status
      (by
        rw [loaded_iff, unschedulable_iff, schedulable_iff, schedulable_iff]
        simp only [BitVec.getLsbD_and, BitVec.getLsbD_not, set_]
        simp [ SPROCIO]
        grind)
      (by
        rw [schedulable_iff, schedulable_iff]
        simp only [BitVec.getLsbD_and, BitVec.getLsbD_not, set_]
        simp [ SPROCIO]
        tauto)
    simpa only [setFlag, update_self] using step
  · exact .status s.pStat

theorem schedLoad_step (out : (s.pFlag p).getLsbD 4 = false)
    (user : (s.pFlag p).getLsbD 0 = false) : Step n s (schedLoad s p) := by
  have step := gained_step (n := n) ((s.pFlag p ||| SLOAD) &&& SPROCIO = 0) (s.pFlag p ||| SLOAD) status
    (by
      rw [procio_iff, unschedulable_iff, schedulable_iff, schedulable_iff]
      simp only [BitVec.getLsbD_or, out, user]
      simp [SLOAD])
    (by
      rw [schedulable_iff, schedulable_iff]
      simp only [out, user]
      simp)
  simpa only [schedLoad, setFlag, update_self] using step

theorem rtLoad_step (out : (s.pFlag p).getLsbD 4 = false)
    (user : (s.pFlag p).getLsbD 0 = false) : Step n s (rtLoad s p) := by
  have none_ : s.pFlag p &&& (SLOAD ||| SPROCIO) = 0 ↔ (s.pFlag p).getLsbD 10 = false := by
    rw [← procio_iff]
    have empty : s.pFlag p &&& SLOAD = 0 := (and_eq_zero _ (m := SLOAD) (i := 4) rfl (by decide)).mpr out
    rw [BitVec.and_or_distrib_left, empty]
    exact Iff.of_eq (congrArg (· = 0) (BitVec.zero_or ..))
  have step := gained_step (n := n) (s.pFlag p &&& (SLOAD ||| SPROCIO) = 0) (s.pFlag p ||| SLOAD) status
    (by
      rw [none_, unschedulable_iff, schedulable_iff, schedulable_iff]
      simp only [BitVec.getLsbD_or, out, user]
      simp [SLOAD])
    (by
      rw [schedulable_iff, schedulable_iff]
      simp only [out, user]
      simp)
  exact step

theorem schedUnload_step (loaded : (s.pFlag p).getLsbD 4 = true)
    (free : (s.pFlag p).getLsbD 10 = false) (user : (s.pFlag p).getLsbD 0 = false) : Step n s (schedUnload s p) := by
  have step := lost_step (n := n) True (s.pFlag p &&& ~~~SLOAD) status
    (by
      rw [unschedulable_iff, schedulable_iff, schedulable_iff]
      simp only [BitVec.getLsbD_and, BitVec.getLsbD_not, loaded, free, user]
      simp [SLOAD])
    (by
      rw [schedulable_iff, schedulable_iff]
      simp only [loaded, free, user]
      simp)
  simp only [and_true] at step
  unfold schedUnload
  split
  · next running =>
    rw [if_pos running, dqSrundec_setFlag] at step
    change Step n s (setFlag _ p ((dqSrundec s (s.pPri p)).pFlag p &&& ~~~SLOAD))
    rwa [(dqSrundec_frame s _).pFlag]
  · next idle => rwa [if_neg idle] at step

end

/-- The places that change a flag, each with what it relies on. -/
inductive Site (s : State) (p : Nat) : State → Prop
  | prlock (clear : s.pFlag p &&& SPROCIO = 0) : Site s p (prlockFlag s p)
  | prunlock : Site s p (prunlockFlag s p)
  | sched (out : s.pFlag p &&& SLOAD = 0) (user : s.pFlag p &&& SSYS = 0) : Site s p (schedLoad s p)
  | unload (loaded : s.pFlag p &&& SLOAD ≠ 0) (free : s.pFlag p &&& SPROCIO = 0) (user : s.pFlag p &&& SSYS = 0) : Site s p (schedUnload s p)
  | rt (out : s.pFlag p &&& SLOAD = 0) (user : s.pFlag p &&& SSYS = 0) : Site s p (rtLoad s p)

/-- Each of these places leaves a state that the dispatcher can be in, with all its numbers right. -/
theorem sites_consistent (n : Nat) (s t : State) (p : Nat) (reached : Reachable n s) (status : s.pStat p = .SRUN ↔ Queued s p) (site : Site s p t) :
    Reachable n t ∧ ∃ queue, Consistent n queue t := by
  have load := fun f : BitVec 32 => and_eq_zero f (m := SLOAD) (i := 4) rfl (by decide)
  have system := fun f : BitVec 32 => and_eq_zero f (m := SSYS) (i := 0) rfl (by decide)
  have step : Step n s t := by
    cases site with
    | prlock clear => exact prlockFlag_step status clear
    | prunlock => exact prunlockFlag_step status
    | sched out user => exact schedLoad_step status ((load _).mp out) ((system _).mp user)
    | unload loaded free user =>
      exact schedUnload_step status ((Bool.not_eq_false _).mp (mt (load _).mpr loaded)) ((procio_iff _).mp free) ((system _).mp user)
    | rt out user => exact rtLoad_step status ((load _).mp out) ((system _).mp user)
  exact ⟨reached.step step, (reached.step step).consistent⟩

theorem sites_consistent_one : Reachable 60 (prlockFlag (setbackdq (dispinit (fun _ => none) (fun _ => SLOAD) (fun _ => 5) (fun _ => .SRUN) 0 0) 1) 1) ∧
    ∃ queue, Consistent 60 queue (prlockFlag (setbackdq (dispinit (fun _ => none) (fun _ => SLOAD) (fun _ => 5) (fun _ => .SRUN) 0 0) 1) 1) := by
  have start := Reachable.dispinit (n := 60) (fun _ => none) (fun _ => SLOAD) (fun _ => 5) (fun _ => .SRUN) 0 0
  have free : ¬ Queued (dispinit (fun _ => none) (fun _ => SLOAD) (fun _ => 5) (fun _ => .SRUN) 0 0) 1 := by
    rintro ⟨q, l, linked, member⟩
    rw [linked.empty] at member
    cases member
  exact sites_consistent 60 _ _ 1 (start.step (.setbackdq 1 free (by decide))) (iff_of_true rfl ⟨5, [1], ⟨rfl, rfl⟩, by simp⟩) (.prlock (by decide))

end sites

/-- In every state reached the cached numbers fit the queues, every search ends inside
its queue, and `pswtch` takes the first process of the highest priority that may run. -/
theorem dispatcher_consistent (n : Nat) (s : State) (reached : Reachable n s) :
    ∃ queue : Nat → List Nat,
      (∀ q, Linked s.pLink (s.dqFirst q) (queue q) ∧ s.dqLast q = (queue q).getLast?) ∧
      (∀ q, ∀ p ∈ queue q, s.pPri p = q ∧ q < n) ∧
      (∀ q, s.dqSruncnt q = ((queue q).countP (fun p => schedulable (s.pFlag p)) : Nat)) ∧
      s.srunprocs = ∑ q ∈ Finset.range n, s.dqSruncnt q ∧
      (∀ q, btTest s.dqactmap q = true ↔ s.dqSruncnt q ≠ 0) ∧
      ((s.maxrunpri = -1 ∧ ∀ q, s.dqSruncnt q = 0) ∨
        ∃ m : Nat, s.maxrunpri = m ∧ s.dqSruncnt m ≠ 0 ∧ ∀ q, m < q → s.dqSruncnt q = 0) ∧
      (∀ pp time, (queue (s.pPri pp)).length ≤ time →
        ∃ found t, dispdeq time s pp = some (found, t) ∧ (found = true ↔ pp ∈ queue (s.pPri pp))) ∧
      ∀ procSched time, (queue s.maxrunpri.toNat).length ≤ time →
        (∃ t, pswtchSelect time s procSched = some (none, t) ∧ ∀ q, ∀ p ∈ queue q, schedulable (s.pFlag p) = false) ∨
        ∃ t m before pp after, pswtchSelect time s procSched = some (some pp, t) ∧ queue m = before ++ pp :: after ∧
          (∀ p ∈ before, schedulable (s.pFlag p) = false) ∧ schedulable (s.pFlag pp) = true ∧
          ∀ q, m < q → ∀ p ∈ queue q, schedulable (s.pFlag p) = false := by
  obtain ⟨queue, consistent⟩ := reached.consistent
  have lists := consistent.lists
  have counted := consistent.counted
  have idle : ∀ q, ready queue s.pFlag q = 0 → ∀ p ∈ queue q, schedulable (s.pFlag p) = false := by
    intro q none_ p member
    simpa using List.countP_eq_zero.mp none_ p member
  have zero : ∀ q, s.dqSruncnt q = 0 ↔ ready queue s.pFlag q = 0 := by
    intro q
    rw [counted.each q, Int.natCast_eq_zero]
  refine ⟨queue, fun q => ⟨lists.linked q, lists.last q⟩, lists.home, counted.each, ?_, ?_, ?_, ?_, ?_⟩
  · rw [counted.total, Nat.cast_sum]
    exact Finset.sum_congr rfl (fun q _ => (counted.each q).symm)
  · intro q
    rw [counted.bits q, ne_eq, ne_eq, zero q]
  · simpa only [ne_eq, zero] using counted.highest
  · intro pp time enough
    rcases dispdeq_spec consistent pp enough with ⟨same, absent⟩ | ⟨t, l, l', taken, here, _⟩
    · exact ⟨false, s, same, by simpa using absent⟩
    · exact ⟨true, t, taken, by simp [here]⟩
  · intro procSched time enough
    rcases pswtchSelect_spec consistent procSched enough with ⟨t, chosen, none_, _⟩ | ⟨t, m, before, pp, after, chosen, top, here, skipped, may, _⟩
    · refine .inl ⟨t, chosen, fun q => ?_⟩
      rcases counted.highest with ⟨_, nobody⟩ | ⟨m, top, _⟩
      · exact idle q (nobody q)
      · omega
    · refine .inr ⟨t, m, before, pp, after, chosen, here, skipped, may, fun q above => idle q ?_⟩
      rcases counted.highest with ⟨none_, _⟩ | ⟨m', top', _, rest⟩
      · omega
      · exact rest q (by omega)

/-- The theorem after one loaded process was queued: it is counted. -/
theorem dispatcher_consistent_one : ∃ (s : State) (queue : Nat → List Nat), Reachable 60 s ∧
    (queue 5).countP (fun p => schedulable (s.pFlag p)) = 1 := by
  have start := Reachable.dispinit (n := 60) (fun _ => none) (fun _ => SLOAD) (fun _ => 5) (fun _ => .SRUN) 0 0
  have free : ¬ Queued (dispinit (fun _ => none) (fun _ => SLOAD) (fun _ => 5) (fun _ => .SRUN) 0 0) 1 := by
    rintro ⟨q, l, linked, member⟩
    rw [linked.empty] at member
    cases member
  have reached := start.step (.setbackdq 1 free (by decide))
  obtain ⟨queue, _, _, counts, _⟩ := dispatcher_consistent 60 _ reached
  refine ⟨_, queue, reached, ?_⟩
  have five := counts 5
  have one : (setbackdq (dispinit (fun _ => none) (fun _ => SLOAD) (fun _ => 5) (fun _ => .SRUN) 0 0) 1).dqSruncnt 5 = 1 := by
    decide
  omega

end Svr4.Proofs.DispHistory
