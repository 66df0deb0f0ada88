import Svr4.Proofs.PidTable

/-! The invariant of the process table, and a new process in it with a pid that was not
in use. -/

namespace Svr4.Proofs.PidAssign
open Function Chain DoubleChain Pid PidTable PidSlots

def bySelf (s : State) (a : Nat) : Nat := if ∃ p ∈ s.procs, s.pPidp p = a then 1 else 0

def total (s : State) (a : Nat) : Nat := bySelf s a + byGroup s a + bySessions s a

structure Valid (v : Var) (s : State) (chains groups : Nat → List Nat) (active free : List Nat) : Prop where
  hashed : Hashed s chains
  counted : Counted s (total s)
  grouped : Grouped s groups
  table : Table v s active free
  sessions : Sessions s s.pSessp
  led : ∀ sp ∈ s.sesss, ∀ p ∈ s.procs, s.pPidp p = s.sSidp sp → s.pSessp p = some sp
  gone : ∀ a ∈ s.pids, s.pidPrinactive a = false → ∃ p ∈ s.procs, s.pPidp p = a
  range : s.mpid < MAXPID ∧ s.minpid ≤ s.mpid + 1 ∧ s.minpid < MAXPID
  sched : proc_sched ∈ s.procs ∧ s.pPidp proc_sched = pid0 ∧ s.pSessp proc_sched = some session0 ∧ s.sSidp session0 = pid0

variable {v : Var} {s s' : State} {chains groups : Nat → List Nat} {active free : List Nat} {n : Nat → Nat} {a p sp time turns mpid m : Nat}

theorem bySelf_one (inside : p ∈ s.procs) : bySelf s (s.pPidp p) = 1 := if_pos ⟨p, inside, rfl⟩

theorem bySelf_le : bySelf s a ≤ 1 := by
  unfold bySelf
  split <;> omega

section
variable (valid : Valid v s chains groups active free)
include valid

theorem Valid.own_kept (inside : p ∈ s.procs) : s.pPidp p ∈ s.pids := by
  apply (valid.counted.kept _).mpr
  rw [total, bySelf_one inside]
  omega

theorem Valid.group_kept (inside : p ∈ s.procs) (group : s.pPgidp p = some a) : a ∈ s.pids := by
  apply (valid.counted.kept _).mpr
  rw [total, valid.grouped.byGroup_pos inside group]
  omega

theorem Valid.session_kept (used : sp ∈ s.sesss) : s.sSidp sp ∈ s.pids := by
  apply (valid.counted.kept _).mpr
  have positive := bySessions_pos used
  rw [total]
  omega

theorem Valid.unused (absent : a ∉ s.pids) :
    bySelf s a = 0 ∧ s.pidPglink a = none ∧ bySessions s a = 0 := by
  have zero : total s a = 0 := Nat.eq_zero_of_not_pos fun positive => absent ((valid.counted.kept a).mpr positive)
  unfold total at zero
  refine ⟨by omega, ?_, by omega⟩
  by_contra some_
  have one : byGroup s a = 1 := by rw [byGroup, if_neg some_]
  omega

theorem Valid.few : s.procs.card ≤ 400 := by
  have count := valid.table.count
  have card := valid.table.nproc
  have atMost := v.atMost
  omega

end

theorem nextPid_done (hashed : Hashed s chains) (low : mpid < MAXPID ∧ s.minpid ≤ mpid + 1 ∧ s.minpid < MAXPID)
    (done : nextPid time s turns mpid = some m) :
    (∀ a ∈ s.pids, s.pidId a ≠ m) ∧ m < MAXPID ∧ s.minpid ≤ m + 1 := by
  induction turns generalizing mpid with
  | zero => cases done
  | succ turns ih =>
    have range : later s mpid < MAXPID ∧ s.minpid ≤ later s mpid + 1 ∧ s.minpid < MAXPID := by
      unfold later
      split <;> omega
    simp only [nextPid] at done
    split at done
    case h_1 looked =>
      obtain rfl := Option.some.inj done
      refine ⟨fun a inside same => ?_, range.1, range.2.1⟩
      have found := (pid_lookup_done hashed looked a).mpr ⟨inside, same⟩
      cases found
    case h_2 => exact ih range done
    case h_3 => cases done

theorem later_iterate (j : Nat) (inside : m + j < MAXPID) : (later s)^[j] m = m + j := by
  induction j with
  | zero => rfl
  | succ j ih =>
    rw [iterate_succ_apply', ih (by omega), later, if_neg (by omega)]
    omega

theorem later_reaches {t : Nat} (low : mpid < MAXPID ∧ s.minpid ≤ mpid + 1 ∧ s.minpid < MAXPID) (target : s.minpid ≤ t ∧ t < MAXPID) :
    ∃ k, k ≤ MAXPID + MAXPID ∧ (later s)^[k + 1] mpid = t := by
  by_cases above : mpid < t
  · obtain ⟨j, rfl⟩ := Nat.exists_eq_add_of_lt above
    refine ⟨j, by omega, ?_⟩
    rw [later_iterate (j + 1) (by omega)]
    omega
  · obtain ⟨j, last⟩ : ∃ j, mpid + j + 1 = MAXPID := ⟨MAXPID - mpid - 1, by omega⟩
    obtain ⟨i, rfl⟩ := Nat.exists_eq_add_of_le target.1
    refine ⟨i + j, by omega, ?_⟩
    rw [show i + j + 1 = i + (1 + j) by omega, iterate_add_apply, iterate_add_apply, later_iterate j (by omega)]
    rw [iterate_one, later, if_pos last, later_iterate i (by omega)]

theorem nextPid_ends (hashed : Hashed s chains) (counted : Counted s n) (enough : s.pids.card ≤ time) {t k : Nat}
    (fresh : ∀ a ∈ s.pids, s.pidId a ≠ t) (reaches : (later s)^[k + 1] mpid = t) (more : k < turns) :
    ∃ m, nextPid time s turns mpid = some m := by
  induction k generalizing mpid turns with
  | zero =>
    obtain ⟨turns, rfl⟩ := Nat.exists_eq_succ_of_ne_zero (show turns ≠ 0 by omega)
    obtain ⟨found, looked⟩ := pid_lookup_ends hashed counted (later s mpid) enough
    have here : later s mpid = t := reaches
    cases found with
    | none => exact ⟨later s mpid, by simp only [nextPid, looked]⟩
    | some a =>
      obtain ⟨inside, same⟩ := (pid_lookup_done hashed looked a).mp rfl
      exact absurd (same.trans here) (fresh a inside)
  | succ k ih =>
    obtain ⟨turns, rfl⟩ := Nat.exists_eq_succ_of_ne_zero (show turns ≠ 0 by omega)
    obtain ⟨found, looked⟩ := pid_lookup_ends hashed counted (later s mpid) enough
    cases found with
    | none => exact ⟨later s mpid, by simp only [nextPid, looked]⟩
    | some a =>
      rw [iterate_succ_apply] at reaches
      obtain ⟨m, done⟩ : ∃ m, nextPid time s turns (later s mpid) = some m := ih reaches (by omega)
      exact ⟨m, by simp only [nextPid, looked, done]⟩

theorem exists_fresh (few : s.pids.card < MAXPID - s.minpid) : ∃ t, (s.minpid ≤ t ∧ t < MAXPID) ∧ ∀ a ∈ s.pids, s.pidId a ≠ t := by
  have fewer : (s.pids.image s.pidId).card < (Finset.Ico s.minpid MAXPID).card := by
    rw [Nat.card_Ico]
    exact lt_of_le_of_lt Finset.card_image_le few
  obtain ⟨t, inside, fresh⟩ := Finset.exists_mem_notMem_of_card_lt_card fewer
  refine ⟨t, Finset.mem_Ico.mp inside, fun a there same => fresh ?_⟩
  exact Finset.mem_image.mpr ⟨a, there, same⟩

theorem Hashed.assign {pidp : Nat} (hashed : Hashed s chains) (fresh : pidp ∉ s.pids) (unused : ∀ a ∈ s.pids, s.pidId a ≠ m)
    (same : s'.pids = insert pidp s.pids ∧ s'.pidId = update s.pidId pidp m ∧
      s'.pidLink = update s.pidLink pidp (s.pidhash (HASHPID m)) ∧ s'.pidhash = update s.pidhash (HASHPID m) (some pidp)) :
    Hashed s' (update chains (HASHPID m) (pidp :: chains (HASHPID m))) := by
  obtain ⟨pids, id, link, hash⟩ := same
  have absent : ∀ h, pidp ∉ chains h := fun h member => fresh ((hashed.members h pidp).mp member).1
  refine ⟨fun h => ?_, fun h a => ?_, fun a first b second equal => ?_⟩
  · rw [link, hash]
    by_cases here : h = HASHPID m
    · subst here
      rw [update_self, update_self]
      exact (hashed.linked _).push_front (absent _)
    · rw [update_of_ne here, update_of_ne here]
      exact (hashed.linked h).update _ (absent h)
  · rw [pids, id]
    by_cases own : a = pidp
    · subst own
      by_cases here : h = HASHPID m
      · subst here
        simp
      · simp [here, Ne.symm here, absent h]
    · by_cases here : h = HASHPID m
      · subst here
        simp [own, hashed.members]
      · simp [own, here, hashed.members]
  · rw [pids] at first second
    rw [id] at equal
    by_cases own : a = pidp
    · by_cases own' : b = pidp
      · rw [own, own']
      · subst own
        rw [update_self, update_of_ne own'] at equal
        exact absurd equal.symm (unused b (Finset.mem_of_mem_insert_of_ne second own'))
    · by_cases own' : b = pidp
      · subst own'
        rw [update_self, update_of_ne own] at equal
        exact absurd equal (unused a (Finset.mem_of_mem_insert_of_ne first own))
      · rw [update_of_ne own, update_of_ne own'] at equal
        exact hashed.once a (Finset.mem_of_mem_insert_of_ne first own) b (Finset.mem_of_mem_insert_of_ne second own') equal

theorem Table.assign {prp pidp slot : Nat} {next : Option Nat} (table : Table v s active (slot :: free)) (newProc : prp ∉ s.procs)
    (newPid : ∀ p ∈ s.procs, s.pPidp p ≠ pidp) (entry : s.procdir slot = .peNext next)
    (same : s'.procs = insert prp s.procs ∧ s'.nproc = s.nproc + 1 ∧ s'.pNext = update s.pNext prp s.practive ∧
      s'.practive = some prp ∧ s'.pPidp = update s.pPidp prp pidp ∧ s'.pidPrslot = update s.pidPrslot pidp (slot % 2 ^ 24) ∧
      s'.pidPrinactive = update s.pidPrinactive pidp false ∧ s'.procdir = update s.procdir slot (.peProc prp) ∧ s'.procentfree = next) :
    Table v s' (prp :: active) free := by
  obtain ⟨procs, nproc, link, practive, pidp_, prslot, prinactive, procdir, procentfree⟩ := same
  have once := table.chain.nodup
  obtain ⟨_, chain⟩ := table.chain
  have leads : nextFree s.procdir slot = next := by rw [nextFree, entry]
  rw [leads] at chain
  have absent : slot ∉ free := (List.nodup_cons.mp once).1
  have small := (table.entries slot List.mem_cons_self).1
  have exact_ : slot % 2 ^ 24 = slot := Nat.mod_eq_of_lt (by have := v.atMost; omega)
  have apart : ∀ q ∈ s.procs, q ≠ prp := fun q among same => newProc (same ▸ among)
  have slots : ∀ q ∈ s.procs, s.pidPrslot (s.pPidp q) ≠ slot := by
    intro q among same
    have entry' := (table.slot q among).2
    rw [same, entry] at entry'
    cases entry'
  have old : ∀ q, q ∈ s'.procs → q ≠ prp → q ∈ s.procs := by
    intro q among other
    rw [procs] at among
    exact Finset.mem_of_mem_insert_of_ne among other
  have pid : ∀ q ∈ s.procs, s'.pPidp q = s.pPidp q := fun q among => by rw [pidp_, update_of_ne (apart q among)]
  have pidNew : s'.pPidp prp = pidp := by rw [pidp_, update_self]
  refine ⟨?_, fun q => ?_, ?_, fun q first r second equal => ?_, fun q among => ?_, fun q among => ?_, ?_, fun other member => ?_,
    fun other bound => ?_, ?_⟩
  · rw [link, practive]
    exact table.listed.push_front fun member => newProc ((table.members prp).mp member)
  · rw [procs, List.mem_cons, Finset.mem_insert, table.members]
  · rw [nproc, procs, Finset.card_insert_of_notMem newProc, table.nproc]
  · by_cases here : q = prp
    · by_cases there : r = prp
      · rw [here, there]
      · have among := old r second there
        rw [here, pidNew, pid r among] at equal
        exact absurd equal.symm (newPid r among)
    · have among := old q first here
      by_cases there : r = prp
      · rw [there, pidNew, pid q among] at equal
        exact absurd equal (newPid q among)
      · have among' := old r second there
        rw [pid q among, pid r among'] at equal
        exact table.own q among r among' equal
  · rw [prinactive]
    by_cases here : q = prp
    · rw [here, pidNew, update_self]
    · have there := old q among here
      rw [pid q there, update_of_ne (newPid q there)]
      exact table.alive q there
  · rw [prslot, procdir]
    by_cases here : q = prp
    · rw [here, pidNew, update_self, exact_, update_self]
      exact ⟨small, rfl⟩
    · have there := old q among here
      rw [pid q there, update_of_ne (newPid q there), update_of_ne (slots q there)]
      exact table.slot q there
  · rw [procdir, procentfree]
    apply chain.congr
    intro other member
    have apart : other ≠ slot := fun same => absent (same ▸ member)
    rw [nextFree, nextFree, update_of_ne apart]
  · have apart : other ≠ slot := fun same => absent (same ▸ member)
    rw [procdir, update_of_ne apart]
    exact table.entries other (List.mem_cons_of_mem _ member)
  · rw [procs, prslot]
    by_cases here : other = slot
    · refine .inr ⟨prp, Finset.mem_insert_self _ _, ?_⟩
      rw [pidNew, update_self, exact_, here]
    · rcases table.cover other bound with member | ⟨q, among, same⟩
      · exact .inl ((List.mem_cons.mp member).resolve_left here)
      · refine .inr ⟨q, Finset.mem_insert_of_mem among, ?_⟩
        rw [pid q among, update_of_ne (newPid q among), same]
  · have count := table.count
    rw [nproc]
    rw [List.length_cons] at count
    omega

theorem Valid.assign_counted {prp pidp : Nat} (valid : Valid v s chains groups active free) (newProc : prp ∉ s.procs)
    (newPid : pidp ∉ s.pids)
    (same : s'.pids = insert pidp s.pids ∧ s'.pidRef = update s.pidRef pidp 1 ∧ s'.procs = insert prp s.procs ∧
      s'.pPidp = update s.pPidp prp pidp ∧ s'.pidPglink = update s.pidPglink pidp none ∧ s'.sesss = s.sesss ∧ s'.sSidp = s.sSidp) :
    Counted s' (total s') := by
  obtain ⟨pids, ref, procs, pidp_, pglink, sesss, sidp⟩ := same
  obtain ⟨_, noGroup, noSession⟩ := valid.unused newPid
  have noPid : ∀ p ∈ s.procs, s.pPidp p ≠ pidp := fun p inside same => newPid (same ▸ valid.own_kept inside)
  have sess : ∀ a, bySessions s' a = bySessions s a := fun a => by rw [bySessions, bySessions, sesss, sidp]
  have one : total s' pidp = 1 := by
    have self : bySelf s' pidp = 1 := by
      apply if_pos
      exact ⟨prp, by rw [procs]; exact Finset.mem_insert_self _ _, by rw [pidp_, update_self]⟩
    have group : byGroup s' pidp = 0 := by rw [byGroup, pglink, update_self, if_pos rfl]
    rw [total, self, group, sess, noSession]
  have others : ∀ a, a ≠ pidp → total s' a = total s a := by
    intro a other
    have self : bySelf s' a = bySelf s a := by
      unfold bySelf
      congr 1
      rw [procs, pidp_, eq_iff_iff]
      constructor
      · rintro ⟨p, inside, is⟩
        by_cases here : p = prp
        · rw [here, update_self] at is
          exact absurd is.symm other
        · rw [update_of_ne here] at is
          exact ⟨p, Finset.mem_of_mem_insert_of_ne inside here, is⟩
      · rintro ⟨p, inside, is⟩
        refine ⟨p, Finset.mem_insert_of_mem inside, ?_⟩
        have apart : p ≠ prp := fun same => newProc (same ▸ inside)
        rw [update_of_ne apart]
        exact is
    have group : byGroup s' a = byGroup s a := by rw [byGroup, byGroup, pglink, update_of_ne other]
    rw [total, total, self, group, sess]
  refine ⟨fun a => ?_, fun a inside => ?_⟩
  · rw [pids]
    by_cases here : a = pidp
    · rw [here, one]
      simp
    · rw [others a here, ← valid.counted.kept a]
      simp [here]
  · rw [ref]
    by_cases here : a = pidp
    · rw [here, one, update_self]
    · rw [pids] at inside
      rw [others a here, update_of_ne here]
      exact valid.counted.ref a (Finset.mem_of_mem_insert_of_ne inside here)

theorem Valid.assign {prp pidp : Nat} (valid : Valid v s chains groups active free) (newProc : prp ∉ s.procs) (newPid : pidp ∉ s.pids)
    (done : assign time s prp pidp = some (m, s')) :
    (∃ chains' active' free', Valid v s' chains' groups active' free') ∧ (∀ a ∈ s.pids, s.pidId a ≠ m) ∧
      s'.procs = insert prp s.procs ∧ s'.pidId (s'.pPidp prp) = m := by
  simp only [Pid.assign, Option.bind_eq_bind, Option.bind_eq_some_iff] at done
  obtain ⟨mpid, found, slot, first, done⟩ := done
  obtain ⟨unused, below, above⟩ := nextPid_done valid.hashed valid.range found
  split at done
  case h_1 => cases done
  case h_2 next entry =>
    simp only [Option.some.injEq, Prod.mk.injEq] at done
    obtain ⟨rfl, rfl⟩ := done
    cases shape : free with
    | nil =>
      have chain := valid.table.chain
      rw [shape, first] at chain
      cases chain
    | cons slot' free =>
      have table := valid.table
      rw [shape] at table
      obtain rfl : slot = slot' := Option.some.inj (first.symm.trans table.chain.1)
      have noPid : ∀ p ∈ s.procs, s.pPidp p ≠ pidp := fun p inside same => newPid (same ▸ valid.own_kept inside)
      have apart : ∀ q ∈ s.procs, q ≠ prp := fun q among same => newProc (same ▸ among)
      have own : ∀ q ∈ s.procs, update s.pPidp prp pidp q = s.pPidp q := fun q among => update_of_ne (apart q among) _ _
      have session : ∀ q ∈ s.procs, update s.pSessp prp none q = s.pSessp q := fun q among => update_of_ne (apart q among) _ _
      obtain ⟨_, noGroup, _⟩ := valid.unused newPid
      refine ⟨⟨update chains (HASHPID mpid) (pidp :: chains (HASHPID mpid)), prp :: active, free,
        Hashed.assign valid.hashed newPid unused ⟨rfl, rfl, rfl, rfl⟩, valid.assign_counted newProc newPid ⟨rfl, rfl, rfl, rfl, rfl, rfl, rfl⟩,
        ⟨fun a => ?_, fun a p => ?_⟩, Table.assign table newProc noPid entry ⟨rfl, rfl, rfl, rfl, rfl, rfl, rfl, rfl, rfl⟩,
        ⟨fun sp => ?_, fun sp used => ?_, valid.sessions.once⟩, fun sp used p inside leads => ?_, fun a inside active => ?_,
        ⟨below, above, valid.range.2.2⟩, ?_⟩, unused, rfl, ?_⟩
      · have absent : prp ∉ groups a := fun member => newProc ((valid.grouped.members a prp).mp member).1
        have linked := (valid.grouped.linked a).update (none : Option Nat) absent
        have head : update s.pidPglink pidp none a = s.pidPglink a := by
          rw [← noGroup, update_eq_self]
        rw [← head] at linked
        exact linked
      · by_cases here : p = prp
        · subst here
          exact iff_of_false (fun member => newProc ((valid.grouped.members a p).mp member).1) (by simp)
        · simp [here, valid.grouped.members a p]
      · rw [valid.sessions.used sp]
        constructor
        · rintro ⟨q, among, holds⟩
          exact ⟨q, Finset.mem_insert_of_mem among, (session q among).trans holds⟩
        · rintro ⟨q, among, holds⟩
          by_cases here : q = prp
          · simp [here] at holds
          · have among := Finset.mem_of_mem_insert_of_ne among here
            exact ⟨q, among, (session q among).symm.trans holds⟩
      · have same : ((insert prp s.procs).filter fun q => update s.pSessp prp none q = some sp) = s.procs.filter fun q => s.pSessp q = some sp := by
          rw [Finset.filter_insert, if_neg (by simp)]
          apply Finset.filter_congr
          intro q among
          rw [session q among]
        rw [same]
        exact valid.sessions.ref sp used
      · by_cases here : p = prp
        · subst here
          have named := valid.session_kept used
          have is : pidp = s.sSidp sp := (update_self ..).symm.trans leads
          exact absurd (is ▸ named) newPid
        · have among := Finset.mem_of_mem_insert_of_ne inside here
          exact (session p among).trans (valid.led sp used p among ((own p among).symm.trans leads))
      · by_cases here : a = pidp
        · exact ⟨prp, Finset.mem_insert_self _ _, by rw [here]; exact update_self ..⟩
        · simp only [update_of_ne here] at active
          obtain ⟨p, among, is⟩ := valid.gone a (Finset.mem_of_mem_insert_of_ne inside here) active
          exact ⟨p, Finset.mem_insert_of_mem among, (own p among).trans is⟩
      · obtain ⟨among, is, holds, leads⟩ := valid.sched
        exact ⟨Finset.mem_insert_of_mem among, (own _ among).trans is, (session _ among).trans holds, leads⟩
      · simp

theorem assign_ends (prp pidp : Nat) (valid : Valid v s chains groups active free) (room : s.nproc < v.vProc)
    (few : s.pids.card < MAXPID - s.minpid) : ∃ least, ∀ time, least ≤ time → ∃ r, Pid.assign time s prp pidp = some r := by
  obtain ⟨t, target, fresh⟩ := exists_fresh few
  obtain ⟨k, _, reaches⟩ := later_reaches valid.range target
  refine ⟨s.pids.card + k + 1, fun time enough => ?_⟩
  obtain ⟨mpid, found⟩ := nextPid_ends valid.hashed valid.counted (show s.pids.card ≤ time by omega) fresh reaches
    (show k < time by omega)
  cases shape : free with
  | nil =>
    have count := valid.table.count
    rw [shape, List.length_nil] at count
    omega
  | cons slot rest =>
    have chain := valid.table.chain
    rw [shape] at chain
    obtain ⟨_, next, entry⟩ := valid.table.entries slot (by rw [shape]; exact List.mem_cons_self)
    simp only [Pid.assign, found, chain.1, Option.bind_eq_bind, Option.bind_some, entry]
    exact ⟨_, rfl⟩

end Svr4.Proofs.PidAssign
