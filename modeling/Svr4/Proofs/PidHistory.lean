import Svr4.Proofs.PidAssign

/-! The process table is intact after any sequence of processes that are made, join and
leave groups and sessions, and exit. -/

namespace Svr4.Proofs.PidHistory
open Function Chain DoubleChain Pid PidTable PidSlots PidAssign

variable {cond : Cond} {cred : Cred} {old : Nat}

variable {v : Var} {s s' t : State} {chains groups : Nat → List Nat} {active free : List Nat} {p pgp sp time : Nat}

theorem Valid.by_group (valid : Valid v s chains groups active free) :
    Counted s fun a => byGroup s a + (bySelf s a + bySessions s a) := by
  have same : (fun a => byGroup s a + (bySelf s a + bySessions s a)) = total s := by
    funext a
    rw [total]
    omega
  rw [same]
  exact valid.counted

theorem Valid.moved {chains' groups' : Nat → List Nat} (valid : Valid v s chains groups active free) (moved : Moved s s')
    (hashed : Hashed s' chains') (counted : Counted s' fun a => byGroup s' a + (bySelf s a + bySessions s a))
    (grouped : Grouped s' groups') : Valid v s' chains' groups' active free := by
  obtain ⟨same, fewer⟩ := moved
  have procs : s'.procs = s.procs := by rw [same]
  have pidp : s'.pPidp = s.pPidp := by rw [same]
  have sessp : s'.pSessp = s.pSessp := by rw [same]
  have sesss : s'.sesss = s.sesss := by rw [same]
  have sidp : s'.sSidp = s.sSidp := by rw [same]
  have ref : s'.sRef = s.sRef := by rw [same]
  have prinactive : s'.pidPrinactive = s.pidPrinactive := by rw [same]
  have mpid : s'.mpid = s.mpid := by rw [same]
  have minpid : s'.minpid = s.minpid := by rw [same]
  refine ⟨hashed, ?_, grouped, valid.table.congr ?_, ⟨?_, ?_, ?_⟩, ?_, fun a inside => ?_, ?_, ?_⟩
  · have totals : (fun a => byGroup s' a + (bySelf s a + bySessions s a)) = total s' := by
      funext a
      rw [total, bySelf, bySelf, bySessions, bySessions, procs, pidp, sesss, sidp]
      omega
    rwa [totals] at counted
  · rw [same]
    exact ⟨rfl, rfl, rfl, rfl, rfl, rfl, rfl, rfl, rfl⟩
  · rw [sesss, procs, sessp]
    exact valid.sessions.used
  · rw [sesss, procs, sessp, ref]
    exact valid.sessions.ref
  · rw [sesss, sidp]
    exact valid.sessions.once
  · rw [sesss, procs, sessp, sidp, pidp]
    exact valid.led
  · rw [procs, pidp, prinactive]
    exact valid.gone a (fewer inside)
  · rw [mpid, minpid]
    exact valid.range
  · rw [procs, pidp, sessp, sidp]
    exact valid.sched

structure Out (v : Var) (s s' : State) (p : Nat) (chains groups : Nat → List Nat) (active free : List Nat) : Prop where
  hashed : Hashed s' chains
  counted : Counted s' fun a => bySessions s' a + (bySelf s' a + byGroup s' a)
  grouped : Grouped s' groups
  table : Table v s' active free
  sessions : Sessions s' (update s'.pSessp p none)
  led : ∀ sp ∈ s'.sesss, ∀ p ∈ s'.procs, s'.pPidp p = s'.sSidp sp → s'.pSessp p = some sp
  gone : ∀ a ∈ s'.pids, s'.pidPrinactive a = false → ∃ p ∈ s'.procs, s'.pPidp p = a
  range : s'.mpid < MAXPID ∧ s'.minpid ≤ s'.mpid + 1 ∧ s'.minpid < MAXPID
  sched : proc_sched ∈ s'.procs ∧ s'.pPidp proc_sched = pid0 ∧ s'.pSessp proc_sched = some session0 ∧ s'.sSidp session0 = pid0
  procs : s'.procs = s.procs
  pidp : s'.pPidp = s.pPidp
  sessp : s'.pSessp = s.pSessp
  pgidp : s'.pPgidp = update s.pPgidp p none
  sidp : s'.sSidp = s.sSidp
  sesss : s'.sesss ⊆ s.sesss
  pids : s'.pids ⊆ s.pids
  slots : s'.pidId = s.pidId ∧ s'.pidPrslot = s.pidPrslot ∧ s'.procdir = s.procdir ∧ s'.procentfree = s.procentfree

theorem Valid.out (valid : Valid v s chains groups active free) (inside : p ∈ s.procs) (group : s.pPgidp p = some pgp)
    (session : s.pSessp p = some sp) (left : pgexit time s p = some t) (released : SESS_RELE time t sp = some s') :
    ∃ chains' groups', Out v s s' p chains' groups' active free := by
  obtain ⟨chains₁, groups', hashed₁, counted₁, grouped₁, pgidp, moved⟩ :=
    pgexit_done valid.grouped valid.hashed (Valid.by_group valid) inside group left
  have valid₁ := Valid.moved valid moved hashed₁ counted₁ grouped₁
  obtain ⟨same₁, fewer₁⟩ := moved
  have procs₁ : t.procs = s.procs := by rw [same₁]
  have pidp₁ : t.pPidp = s.pPidp := by rw [same₁]
  have sessp₁ : t.pSessp = s.pSessp := by rw [same₁]
  have sesss₁ : t.sesss = s.sesss := by rw [same₁]
  have sidp₁ : t.sSidp = s.sSidp := by rw [same₁]
  have inside₁ : p ∈ t.procs := by rwa [procs₁]
  have holds₁ : t.pSessp p = some sp := by rwa [sessp₁]
  have bySess : Counted t fun a => bySessions t a + (bySelf t a + byGroup t a) := by
    have totals : (fun a => bySessions t a + (bySelf t a + byGroup t a)) = total t := by
      funext a
      rw [total]
      omega
    rw [totals]
    exact valid₁.counted
  obtain ⟨chains', hashed', counted', sessions', same, fewer⟩ :=
    sess_rele_done valid₁.sessions inside₁ holds₁ valid₁.few hashed₁ bySess released
  have procs : s'.procs = t.procs := by rw [same]
  have pidp : s'.pPidp = t.pPidp := by rw [same]
  have sessp : s'.pSessp = t.pSessp := by rw [same]
  have pgidp' : s'.pPgidp = t.pPgidp := by rw [same]
  have pglink : s'.pPglink = t.pPglink := by rw [same]
  have head : s'.pidPglink = t.pidPglink := by rw [same]
  have sidp : s'.sSidp = t.sSidp := by rw [same]
  have prinactive : s'.pidPrinactive = t.pidPrinactive := by rw [same]
  have mpid : s'.mpid = t.mpid := by rw [same]
  have minpid : s'.minpid = t.minpid := by rw [same]
  have sesss : s'.sesss ⊆ t.sesss := by
    intro sq used
    obtain ⟨q, among, holds⟩ := (sessions'.used sq).mp used
    by_cases here : q = p
    · rw [here, update_self] at holds
      cases holds
    · rw [update_of_ne here] at holds
      rw [procs] at among
      exact (valid₁.sessions.used sq).mpr ⟨q, among, holds⟩
  refine ⟨chains', groups', hashed', ?_, ⟨?_, ?_⟩, valid₁.table.congr ?_, ?_, ?_, ?_, ?_, ?_, procs.trans procs₁, pidp.trans pidp₁,
    sessp.trans sessp₁, pgidp'.trans pgidp, sidp.trans sidp₁, ?_, fewer.trans fewer₁, ?_⟩
  · have same : (fun a => bySessions s' a + (bySelf t a + byGroup t a)) = fun a => bySessions s' a + (bySelf s' a + byGroup s' a) := by
      funext a
      rw [bySelf, bySelf, byGroup, byGroup, procs, pidp, head]
    rwa [same] at counted'
  · rw [pglink, head]
    exact grouped₁.linked
  · rw [procs, pgidp']
    exact grouped₁.members
  · rw [same]
    exact ⟨rfl, rfl, rfl, rfl, rfl, rfl, rfl, rfl, rfl⟩
  · rwa [sessp]
  · rw [procs, pidp, sessp, sidp]
    exact fun sq used => valid₁.led sq (sesss used)
  · rw [procs, pidp, prinactive]
    exact fun a there => valid₁.gone a (fewer there)
  · rw [mpid, minpid]
    exact valid₁.range
  · rw [procs, pidp, sessp, sidp]
    exact valid₁.sched
  · rwa [sesss₁] at sesss
  · rw [same, same₁]
    exact ⟨rfl, rfl, rfl, rfl⟩

theorem Valid.out_ends (valid : Valid v s chains groups active free) (inside : p ∈ s.procs) (group : s.pPgidp p = some pgp)
    (session : s.pSessp p = some sp) (other : p ≠ proc_sched) (enough : s.procs.card + s.pids.card ≤ time) :
    ∃ t s', pgexit time s p = some t ∧ t.pSessp = s.pSessp ∧ SESS_RELE time t sp = some s' := by
  obtain ⟨sched, is, holds, leads⟩ := valid.sched
  have named : 0 < bySelf s pid0 := by
    rw [← is, bySelf_one sched]
    omega
  obtain ⟨t, left⟩ := pgexit_ends valid.grouped valid.hashed (Valid.by_group valid) inside group (fun _ => by omega) enough
  obtain ⟨chains₁, groups', hashed₁, counted₁, grouped₁, _, moved⟩ :=
    pgexit_done valid.grouped valid.hashed (Valid.by_group valid) inside group left
  have valid₁ := Valid.moved valid moved hashed₁ counted₁ grouped₁
  obtain ⟨same₁, fewer₁⟩ := moved
  have procs₁ : t.procs = s.procs := by rw [same₁]
  have sessp₁ : t.pSessp = s.pSessp := by rw [same₁]
  obtain ⟨sched₁, is₁, holds₁, leads₁⟩ := valid₁.sched
  have bySess : Counted t fun a => bySessions t a + (bySelf t a + byGroup t a) := by
    have totals : (fun a => bySessions t a + (bySelf t a + byGroup t a)) = total t := by
      funext a
      rw [total]
      omega
    rw [totals]
    exact valid₁.counted
  have named₁ : 0 < bySelf t pid0 := by
    rw [← is₁, bySelf_one sched₁]
    omega
  have fewer := Finset.card_le_card fewer₁
  obtain ⟨s', released⟩ := sess_rele_ends valid₁.sessions (show p ∈ t.procs by rwa [procs₁])
    (show t.pSessp p = some sp by rwa [sessp₁]) valid₁.few hashed₁ bySess
    (fun same => ⟨proc_sched, sched₁, Ne.symm other, by rw [same]; exact holds₁⟩) (fun _ => by omega) (show _ ≤ time by omega)
  exact ⟨t, s', left, sessp₁, released⟩

def retire (s : State) (prp : Nat) : State :=
  { s with
    pidPrinactive := update s.pidPrinactive (s.pPidp prp) true
    procdir := update s.procdir (s.pidPrslot (s.pPidp prp)) (.peNext s.procentfree)
    procentfree := some (s.pidPrslot (s.pPidp prp)) }

def unchained (s : State) (prp : Nat) (head : Option Nat) (link : Nat → Option Nat) : State :=
  { s with practive := head, pNext := link, procs := s.procs.erase prp, nproc := s.nproc - 1 }

theorem bySelf_erase (own : ∀ q ∈ t.procs, ∀ r ∈ t.procs, t.pPidp q = t.pPidp r → q = r) (inside : p ∈ t.procs)
    (procs : s.procs = t.procs.erase p) (pidp : s.pPidp = t.pPidp) (a : Nat) :
    bySelf s a = if a = t.pPidp p then 0 else bySelf t a := by
  unfold bySelf
  rw [procs, pidp]
  split
  case isTrue found =>
    obtain ⟨q, among, is⟩ := found
    have there := Finset.mem_of_mem_erase among
    have apart : a ≠ t.pPidp p := fun same => Finset.ne_of_mem_erase among (own q there p inside (is.trans same))
    rw [if_neg apart, if_pos ⟨q, there, is⟩]
  case isFalse none_ =>
    by_cases here : a = t.pPidp p
    · rw [if_pos here]
    · rw [if_neg here, if_neg]
      rintro ⟨q, among, is⟩
      refine none_ ⟨q, Finset.mem_erase_of_ne_of_mem ?_ among, is⟩
      rintro rfl
      exact here is.symm

structure Freed (s s' : State) (p : Nat) : Prop where
  procs : s'.procs = s.procs.erase p
  pidp : s'.pPidp = s.pPidp
  ids : s'.pidId = s.pidId
  slot : s'.procentfree = some (s.pidPrslot (s.pPidp p))
  procdir : s'.procdir = update s.procdir (s.pidPrslot (s.pPidp p)) (.peNext s.procentfree)

theorem Out.exit {head : Option Nat} {link : Nat → Option Nat} {u : State} (out : Out v s t p chains groups active free)
    (inside : p ∈ s.procs) (other : p ≠ proc_sched) (released : PID_RELE time (retire t p) (t.pPidp p) = some u)
    (taken : takeOut time u.pNext u.practive p = some (head, link)) :
    (∃ chains' active' free', Valid v (unchained u p head link) chains' groups active' free') ∧
      Freed s (unchained u p head link) p := by
  have inside : p ∈ t.procs := by rwa [out.procs]
  have hashed : Hashed (retire t p) chains := ⟨out.hashed.linked, out.hashed.members, out.hashed.once⟩
  have counted : Counted (retire t p) fun a => bySessions t a + (bySelf t a + byGroup t a) := ⟨out.counted.kept, out.counted.ref⟩
  have self : bySelf t (t.pPidp p) = 1 := bySelf_one inside
  obtain ⟨chains', hashed', counted', same, fewer⟩ := pid_rele_done hashed counted (show 0 < _ by rw [self]; omega) released
  have procs : u.procs = t.procs := by rw [same]; rfl
  have pidp : u.pPidp = t.pPidp := by rw [same]; rfl
  have sessp : u.pSessp = t.pSessp := by rw [same]; rfl
  have pgidp : u.pPgidp = t.pPgidp := by rw [same]; rfl
  have pglink : u.pPglink = t.pPglink := by rw [same]; rfl
  have heads : u.pidPglink = t.pidPglink := by rw [same]; rfl
  have sesss : u.sesss = t.sesss := by rw [same]; rfl
  have sidp : u.sSidp = t.sSidp := by rw [same]; rfl
  have ref : u.sRef = t.sRef := by rw [same]; rfl
  have next : u.pNext = t.pNext := by rw [same]; rfl
  have practive : u.practive = t.practive := by rw [same]; rfl
  have nproc : u.nproc = t.nproc := by rw [same]; rfl
  have prslot : u.pidPrslot = t.pidPrslot := by rw [same]; rfl
  have prinactive : u.pidPrinactive = update t.pidPrinactive (t.pPidp p) true := by rw [same]; rfl
  have procdir : u.procdir = update t.procdir (t.pidPrslot (t.pPidp p)) (.peNext t.procentfree) := by rw [same]; rfl
  have procentfree : u.procentfree = some (t.pidPrslot (t.pPidp p)) := by rw [same]; rfl
  have mpid : u.mpid = t.mpid := by rw [same]; rfl
  have minpid : u.minpid = t.minpid := by rw [same]; rfl
  rw [next, practive] at taken
  have alone : t.pPgidp p = none := by rw [out.pgidp, update_self]
  obtain ⟨active', table⟩ : ∃ active', Table v (unchained u p head link) active' (t.pidPrslot (t.pPidp p) :: free) :=
    out.table.exit inside taken ⟨by rw [unchained, procs], by rw [unchained, nproc], rfl, rfl, pidp, prslot, prinactive, procdir, procentfree⟩
  have counts : total (unchained u p head link) =
      update (fun a => bySessions t a + (bySelf t a + byGroup t a)) (t.pPidp p)
        (bySessions t (t.pPidp p) + (bySelf t (t.pPidp p) + byGroup t (t.pPidp p)) - 1) := by
    funext a
    have mine := bySelf_erase (s := unchained u p head link) out.table.own inside (by rw [unchained, procs]) pidp a
    have group : byGroup (unchained u p head link) a = byGroup t a := by rw [byGroup, byGroup, unchained, heads]
    have sess : bySessions (unchained u p head link) a = bySessions t a := by rw [bySessions, bySessions, unchained, sesss, sidp]
    rw [total, mine, group, sess]
    by_cases here : a = t.pPidp p
    · rw [if_pos here, here, update_self, self]
      omega
    · rw [if_neg here, update_of_ne here]
      omega
  have erased : (unchained u p head link).procs = t.procs.erase p := by rw [unchained, procs]
  obtain ⟨ids, prslot', procdir', procentfree'⟩ := out.slots
  refine ⟨?_, by rw [erased, out.procs], pidp.trans out.pidp, by rw [← ids, unchained, same]; rfl,
    by rw [← out.pidp, ← prslot']; exact procentfree, by rw [← out.pidp, ← prslot', ← procdir', ← procentfree']; exact procdir⟩
  refine ⟨chains', active', _, ⟨hashed'.linked, hashed'.members, hashed'.once⟩, ⟨?_, ?_⟩, ⟨fun a => ?_, fun a q => ?_⟩, table,
    ⟨fun sq => ?_, fun sq used => ?_, ?_⟩, fun sq used q among leads => ?_, fun a there active => ?_, ?_, ?_⟩
  · rw [counts]
    exact counted'.kept
  · rw [counts]
    exact counted'.ref
  · have linked := out.grouped.linked a
    rwa [← pglink, ← heads] at linked
  · have members := out.grouped.members a q
    rw [← pgidp] at members
    rw [erased]
    by_cases here : q = p
    · subst here
      rw [← pgidp] at alone
      simp [members, unchained, alone]
    · simp [members, unchained, here]
  · have used := out.sessions.used sq
    rw [← sesss] at used
    rw [erased]
    refine used.trans ⟨?_, ?_⟩
    · rintro ⟨q, among, holds⟩
      by_cases here : q = p
      · simp [here] at holds
      · rw [update_of_ne here, ← sessp] at holds
        exact ⟨q, Finset.mem_erase_of_ne_of_mem here among, holds⟩
    · rintro ⟨q, among, holds⟩
      refine ⟨q, Finset.mem_of_mem_erase among, ?_⟩
      rw [update_of_ne (Finset.ne_of_mem_erase among), ← sessp]
      exact holds
  · rw [erased]
    have ref' := out.sessions.ref sq (by rwa [← sesss])
    rw [← ref] at ref'
    refine ref'.trans ?_
    congr 2
    ext q
    rw [Finset.mem_filter, Finset.mem_filter, Finset.mem_erase]
    by_cases here : q = p
    · simp [here]
    · simp [here, unchained, sessp]
  · have once := out.sessions.once
    rwa [← sesss, ← sidp] at once
  · rw [erased] at among
    have led := out.led sq (by rwa [← sesss]) q (Finset.mem_of_mem_erase among)
    rw [← pidp, ← sidp, ← sessp] at led
    exact led leads
  · rw [erased]
    have apart : a ≠ t.pPidp p := by
      rintro rfl
      have set : u.pidPrinactive (t.pPidp p) = false := active
      rw [prinactive, update_self] at set
      cases set
    have kept : t.pidPrinactive a = false := by
      have set : u.pidPrinactive a = false := active
      rwa [prinactive, update_of_ne apart] at set
    obtain ⟨q, among, is⟩ := out.gone a (fewer there) kept
    refine ⟨q, Finset.mem_erase_of_ne_of_mem ?_ among, ?_⟩
    · rintro rfl
      exact apart is.symm
    · rw [unchained, pidp]
      exact is
  · have range := out.range
    rwa [← mpid, ← minpid] at range
  · obtain ⟨sched, is, holds, leads⟩ := out.sched
    rw [erased]
    rw [← pidp] at is
    rw [← sessp] at holds
    rw [← sidp] at leads
    exact ⟨Finset.mem_erase_of_ne_of_mem (Ne.symm other) sched, is, holds, leads⟩

theorem pid_exit_eq (group : pgexit time s p = some t) (same : t.pSessp = s.pSessp) (session : s.pSessp p = some sp) :
    pid_exit time s p = (SESS_RELE time t sp).bind fun r => (PID_RELE time (retire r p) (r.pPidp p)).bind fun u => unchain time u p := by
  simp only [pid_exit, group, same, session, Option.bind_eq_bind, Option.bind_some]
  rfl

theorem Valid.exit (valid : Valid v s chains groups active free) (inside : p ∈ s.procs) (other : p ≠ proc_sched)
    (group : s.pPgidp p = some pgp) (session : s.pSessp p = some sp) (done : pid_exit time s p = some s') :
    (∃ chains' groups' active' free', Valid v s' chains' groups' active' free') ∧ Freed s s' p := by
  cases left : pgexit time s p with
  | none => simp [pid_exit, left] at done
  | some t =>
    obtain ⟨_, _, _, _, _, _, moved, _⟩ := pgexit_done valid.grouped valid.hashed (Valid.by_group valid) inside group left
    have sessp : t.pSessp = s.pSessp := by rw [moved]
    rw [pid_exit_eq left sessp session] at done
    obtain ⟨r, released, done⟩ := Option.bind_eq_some_iff.mp done
    obtain ⟨u, freed, done⟩ := Option.bind_eq_some_iff.mp done
    obtain ⟨⟨head, link⟩, taken, rfl⟩ := Option.map_eq_some_iff.mp done
    obtain ⟨chains', groups', out⟩ := Valid.out valid inside group session left released
    obtain ⟨⟨chains'', active', free', after⟩, frees⟩ := out.exit inside other freed taken
    exact ⟨⟨chains'', groups', active', free', after⟩, frees⟩

theorem Valid.exit_ends (valid : Valid v s chains groups active free) (inside : p ∈ s.procs) (other : p ≠ proc_sched)
    (group : s.pPgidp p = some pgp) (session : s.pSessp p = some sp) : ∃ time s', pid_exit time s p = some s' := by
  obtain ⟨t, r, left, sessp, released⟩ := Valid.out_ends valid inside group session other le_rfl
  obtain ⟨chains', groups', out⟩ := Valid.out valid inside group session left released
  have among : p ∈ r.procs := by rwa [out.procs]
  have hashed : Hashed (retire r p) chains' := ⟨out.hashed.linked, out.hashed.members, out.hashed.once⟩
  have counted : Counted (retire r p) fun a => bySessions r a + (bySelf r a + byGroup r a) := ⟨out.counted.kept, out.counted.ref⟩
  have self : bySelf r (r.pPidp p) = 1 := bySelf_one among
  have notPid0 : r.pPidp p ≠ pid0 := by
    intro same
    obtain ⟨sched, is, _⟩ := out.sched
    exact other (out.table.own p among proc_sched sched (same.trans is.symm))
  have fewer := Finset.card_le_card out.pids
  obtain ⟨u, freed⟩ := pid_rele_ends hashed counted (show 0 < _ by rw [self]; omega) (fun same => absurd same notPid0)
    (show (retire r p).pids.card ≤ s.procs.card + s.pids.card from fewer.trans (Nat.le_add_left _ _))
  obtain ⟨_, _, _, same, _⟩ := pid_rele_done hashed counted (show 0 < _ by rw [self]; omega) freed
  have next : u.pNext = r.pNext := by rw [same]; rfl
  have practive : u.practive = r.practive := by rw [same]; rfl
  have short := out.table.active_length
  rw [out.procs] at short
  obtain ⟨⟨head, link⟩, taken⟩ := Linked.takeOut_ends out.table.listed ((out.table.members p).mpr among)
    (show active.length ≤ s.procs.card + s.pids.card by omega)
  refine ⟨s.procs.card + s.pids.card, unchained u p head link, ?_⟩
  rw [pid_exit_eq left sessp session, released, Option.bind_some, freed, Option.bind_some, unchain, next, practive, taken]
  rfl

def renewed (s : State) (pp sp : Nat) : State :=
  { s with
    sesss := insert sp s.sesss
    sSidp := update s.sSidp sp (s.pPidp pp)
    sRef := update s.sRef sp 1
    pSessp := update s.pSessp pp (some sp) }

theorem bySessions_renewed (fresh : sp ∉ t.sesss) (a : Nat) :
    bySessions (renewed t p sp) a = bySessions t a + if a = t.pPidp p then 1 else 0 := by
  have others : ((t.sesss.filter fun sq => update t.sSidp sp (t.pPidp p) sq = a)) = t.sesss.filter fun sq => t.sSidp sq = a := by
    apply Finset.filter_congr
    intro sq used
    have apart : sq ≠ sp := fun same => fresh (same ▸ used)
    rw [update_of_ne apart]
  have absent : sp ∉ t.sesss.filter fun sq => t.sSidp sq = a := fun member => fresh (Finset.mem_filter.mp member).1
  change ((insert sp t.sesss).filter fun sq => update t.sSidp sp (t.pPidp p) sq = a).card = _
  rw [Finset.filter_insert, update_self, bySessions]
  by_cases here : a = t.pPidp p
  · rw [if_pos here.symm, if_pos here, others, Finset.card_insert_of_notMem absent]
  · rw [if_neg (Ne.symm here), if_neg here, others, Nat.add_zero]

theorem Out.create {u : State} (out : Out v s t p chains groups active free) (inside : p ∈ s.procs) (other : p ≠ proc_sched)
    (fresh : sp ∉ s.sesss) (nobody : ∀ sq ∈ s.sesss, s.sSidp sq ≠ s.pPidp p) (joined : pgjoin (renewed t p sp) p (t.pPidp p) = some u)
    (held : PID_HOLD u (u.sSidp sp) = some s') : ∃ chains' groups', Valid v s' chains' groups' active free := by
  have inside : p ∈ t.procs := by rwa [out.procs]
  have fresh : sp ∉ t.sesss := fun used => fresh (out.sesss used)
  have nobody : ∀ sq ∈ t.sesss, t.sSidp sq ≠ t.pPidp p := by
    rw [out.sidp, out.pidp]
    exact fun sq used => nobody sq (out.sesss used)
  have self : bySelf t (t.pPidp p) = 1 := bySelf_one inside
  have unnamed : bySessions t (t.pPidp p) = 0 := by
    rw [bySessions, Finset.card_eq_zero, Finset.filter_eq_empty_iff]
    exact fun sq used => nobody sq used
  have kept : t.pPidp p ∈ t.pids := (out.counted.kept _).mpr (by rw [self]; omega)
  have hashed : Hashed (renewed t p sp) chains := ⟨out.hashed.linked, out.hashed.members, out.hashed.once⟩
  have grouped : Grouped (renewed t p sp) groups := ⟨out.grouped.linked, out.grouped.members⟩
  have counted : Counted (renewed t p sp) fun a => byGroup (renewed t p sp) a + (bySelf t a + bySessions t a) := by
    have same : (fun a => byGroup (renewed t p sp) a + (bySelf t a + bySessions t a)) =
        fun a => bySessions t a + (bySelf t a + byGroup t a) := by
      funext a
      have group : byGroup (renewed t p sp) a = byGroup t a := rfl
      omega
    rw [same]
    exact ⟨out.counted.kept, out.counted.ref⟩
  have alone : (renewed t p sp).pPgidp p = none := by
    have moved := congrFun out.pgidp p
    rwa [update_self] at moved
  obtain ⟨u', joined', hashed', counted', grouped', pgidp, moved, fewer⟩ :=
    pgjoin_done grouped counted inside alone kept (show bySelf t _ + bySessions t _ + 1 < 64 by rw [self, unnamed]; omega) hashed
  obtain rfl : u' = u := Option.some.inj (joined'.symm.trans joined)
  have procs : u'.procs = t.procs := by rw [moved]; rfl
  have pidp : u'.pPidp = t.pPidp := by rw [moved]; rfl
  have sessp : u'.pSessp = update t.pSessp p (some sp) := by rw [moved]; rfl
  have sesss : u'.sesss = insert sp t.sesss := by rw [moved]; rfl
  have sidp : u'.sSidp = update t.sSidp sp (t.pPidp p) := by rw [moved]; rfl
  have ref : u'.sRef = update t.sRef sp 1 := by rw [moved]; rfl
  have prinactive : u'.pidPrinactive = t.pidPrinactive := by rw [moved]; rfl
  have mpid : u'.mpid = t.mpid := by rw [moved]; rfl
  have minpid : u'.minpid = t.minpid := by rw [moved]; rfl
  have leads : u'.sSidp sp = t.pPidp p := by rw [sidp, update_self]
  have kept' : t.pPidp p ∈ u'.pids := (counted'.kept _).mpr (by rw [self]; omega)
  have room : byGroup u' (t.pPidp p) + (bySelf t (t.pPidp p) + bySessions t (t.pPidp p)) + 1 < 64 := by
    have few : byGroup u' (t.pPidp p) ≤ 1 := byGroup_le
    rw [self, unnamed]
    omega
  rw [leads] at held
  obtain ⟨holds, counted''⟩ := pid_hold_done counted' kept' room
  obtain rfl := Option.some.inj (holds.symm.trans held)
  have mine : ∀ q ∈ t.procs, t.pSessp q ≠ some sp ∨ q = p := by
    intro q among
    by_cases here : q = p
    · exact .inr here
    · refine .inl fun has => fresh ((out.sessions.used sp).mpr ⟨q, among, ?_⟩)
      rwa [update_of_ne here]
  have holders : ∀ sq, sq ≠ sp → ∀ q, update t.pSessp p (some sp) q = some sq ↔ update t.pSessp p none q = some sq := by
    intro sq apart q
    by_cases here : q = p
    · simp [here, Ne.symm apart]
    · simp [here]
  refine ⟨chains, _, ⟨hashed'.linked, hashed'.members, hashed'.once⟩, ?_, ⟨grouped'.linked, grouped'.members⟩, out.table.congr ?_,
    ⟨fun sq => ?_, fun sq used => ?_, fun sq first sr second equal => ?_⟩, fun sq used q among names => ?_, fun a there active => ?_, ?_, ?_⟩
  · have totals : ∀ refs, total { u' with pidRef := refs } =
        update (fun a => byGroup u' a + (bySelf t a + bySessions t a)) (t.pPidp p)
          (byGroup u' (t.pPidp p) + (bySelf t (t.pPidp p) + bySessions t (t.pPidp p)) + 1) := by
      intro refs
      funext a
      have mine : bySelf u' a = bySelf t a := by rw [bySelf, bySelf, procs, pidp]
      have sess : bySessions u' a = bySessions (renewed t p sp) a := by rw [bySessions, bySessions, sesss, sidp]; rfl
      change bySelf u' a + byGroup u' a + bySessions u' a = _
      rw [mine, sess, bySessions_renewed fresh]
      by_cases here : a = t.pPidp p
      · rw [if_pos here, here, update_self]
        omega
      · rw [if_neg here, update_of_ne here]
        omega
    rw [totals]
    exact counted''
  · exact ⟨by rw [moved]; rfl, by rw [moved]; rfl, procs, by rw [moved]; rfl, pidp, prinactive, by rw [moved]; rfl, by rw [moved]; rfl,
      by rw [moved]; rfl⟩
  · change sq ∈ u'.sesss ↔ ∃ q ∈ u'.procs, u'.pSessp q = some sq
    rw [sesss, procs, sessp]
    by_cases here : sq = sp
    · subst here
      exact iff_of_true (Finset.mem_insert_self _ _) ⟨p, inside, update_self ..⟩
    · rw [Finset.mem_insert, or_iff_right here, out.sessions.used sq]
      simp only [holders sq here]
  · change sq ∈ u'.sesss at used
    change u'.sRef sq = ((u'.procs.filter fun q => u'.pSessp q = some sq).card : Nat)
    rw [sesss] at used
    rw [procs, sessp, ref]
    by_cases here : sq = sp
    · subst here
      have only : (t.procs.filter fun q => update t.pSessp p (some sq) q = some sq) = {p} := by
        ext q
        rw [Finset.mem_filter, Finset.mem_singleton]
        constructor
        · rintro ⟨among, has⟩
          by_contra apart
          rw [update_of_ne apart] at has
          exact (mine q among).elim (fun not => not has) apart
        · rintro rfl
          exact ⟨inside, update_self ..⟩
      rw [only, update_self]
      rfl
    · rw [update_of_ne here]
      simp only [holders sq here]
      exact out.sessions.ref sq (Finset.mem_of_mem_insert_of_ne used here)
  · change sq ∈ u'.sesss at first
    change sr ∈ u'.sesss at second
    change u'.sSidp sq = u'.sSidp sr at equal
    rw [sesss] at first second
    rw [sidp] at equal
    by_cases here : sq = sp
    · by_cases there : sr = sp
      · rw [here, there]
      · rw [here, update_self, update_of_ne there] at equal
        exact absurd equal.symm (nobody sr (Finset.mem_of_mem_insert_of_ne second there))
    · by_cases there : sr = sp
      · rw [there, update_self, update_of_ne here] at equal
        exact absurd equal (nobody sq (Finset.mem_of_mem_insert_of_ne first here))
      · rw [update_of_ne here, update_of_ne there] at equal
        exact out.sessions.once sq (Finset.mem_of_mem_insert_of_ne first here) sr (Finset.mem_of_mem_insert_of_ne second there) equal
  · change sq ∈ u'.sesss at used
    change q ∈ u'.procs at among
    change u'.pPidp q = u'.sSidp sq at names
    change u'.pSessp q = some sq
    rw [sesss] at used
    rw [procs] at among
    rw [pidp, sidp] at names
    rw [sessp]
    by_cases here : sq = sp
    · rw [here, update_self] at names
      rw [out.table.own q among p inside names, update_self, here]
    · rw [update_of_ne here] at names
      have old := Finset.mem_of_mem_insert_of_ne used here
      have apart : q ≠ p := by
        rintro rfl
        exact nobody sq old names.symm
      rw [update_of_ne apart]
      exact out.led sq old q among names
  · change u'.pidPrinactive a = false at active
    change ∃ q ∈ u'.procs, u'.pPidp q = a
    rw [prinactive] at active
    rw [procs, pidp]
    exact out.gone a (fewer there) active
  · change u'.mpid < MAXPID ∧ u'.minpid ≤ u'.mpid + 1 ∧ u'.minpid < MAXPID
    rw [mpid, minpid]
    exact out.range
  · change proc_sched ∈ u'.procs ∧ u'.pPidp proc_sched = pid0 ∧ u'.pSessp proc_sched = some session0 ∧ u'.sSidp session0 = pid0
    obtain ⟨sched, is, has, names⟩ := out.sched
    have apart : session0 ≠ sp := by
      rintro rfl
      exact fresh ((out.sessions.used session0).mpr ⟨proc_sched, sched, by rw [update_of_ne (Ne.symm other)]; exact has⟩)
    rw [procs, pidp, sessp, sidp, update_of_ne (Ne.symm other), update_of_ne apart]
    exact ⟨sched, is, has, names⟩

theorem sess_create_eq (group : pgexit time s p = some t) (same : t.pSessp = s.pSessp) (session : s.pSessp p = some old) :
    sess_create time s p sp = (SESS_RELE time t old).bind fun r =>
      (pgjoin (renewed r p sp) p (r.pPidp p)).bind fun u => PID_HOLD u (u.sSidp sp) := by
  simp only [sess_create, group, same, session, Option.bind_eq_bind, Option.bind_some]
  rfl

theorem Valid.nobody (valid : Valid v s chains groups active free) (inside : p ∈ s.procs) (session : s.pSessp p = some old)
    (member : s.sSidp old ≠ s.pPidp p) : ∀ sq ∈ s.sesss, s.sSidp sq ≠ s.pPidp p := by
  intro sq used names
  have leads := valid.led sq used p inside names.symm
  rw [session] at leads
  exact member (Option.some.inj leads ▸ names)

theorem Valid.notSched (valid : Valid v s chains groups active free) (session : s.pSessp p = some old)
    (member : s.sSidp old ≠ s.pPidp p) : p ≠ proc_sched := by
  rintro rfl
  obtain ⟨_, is, holds, leads⟩ := valid.sched
  rw [session] at holds
  rw [Option.some.inj holds, leads] at member
  exact member is.symm

theorem Valid.create (valid : Valid v s chains groups active free) (inside : p ∈ s.procs) (group : s.pPgidp p = some pgp)
    (session : s.pSessp p = some old) (member : s.sSidp old ≠ s.pPidp p) (fresh : sp ∉ s.sesss) (done : sess_create time s p sp = some s') :
    ∃ chains' groups', Valid v s' chains' groups' active free := by
  cases left : pgexit time s p with
  | none => simp [sess_create, left] at done
  | some t =>
    obtain ⟨_, _, _, _, _, _, moved, _⟩ := pgexit_done valid.grouped valid.hashed (Valid.by_group valid) inside group left
    have sessp : t.pSessp = s.pSessp := by rw [moved]
    rw [sess_create_eq left sessp session] at done
    obtain ⟨r, released, done⟩ := Option.bind_eq_some_iff.mp done
    obtain ⟨u, joined, held⟩ := Option.bind_eq_some_iff.mp done
    obtain ⟨chains', groups', out⟩ := Valid.out valid inside group session left released
    exact out.create inside (Valid.notSched valid session member) fresh (Valid.nobody valid inside session member) joined held

theorem pgjoin_ends (group : pgp ∈ s.pids) : ∃ s', pgjoin s p pgp = some s' ∧ s'.pids = s.pids ∧ s'.sSidp = s.sSidp := by
  unfold pgjoin
  rw [if_pos group]
  dsimp only
  split
  · rw [PID_HOLD, if_pos group]
    exact ⟨_, rfl, rfl, rfl⟩
  · split
    · exact ⟨_, rfl, rfl, rfl⟩
    · exact ⟨_, rfl, rfl, rfl⟩

section
variable (valid : Valid v s chains groups active free)
include valid

theorem Valid.create_ends (inside : p ∈ s.procs) (group : s.pPgidp p = some pgp)
    (session : s.pSessp p = some old) (member : s.sSidp old ≠ s.pPidp p) : ∃ time s', sess_create time s p sp = some s' := by
  obtain ⟨t, r, left, sessp, released⟩ := Valid.out_ends valid inside group session (Valid.notSched valid session member) le_rfl
  obtain ⟨chains', groups', out⟩ := Valid.out valid inside group session left released
  have among : p ∈ r.procs := by rwa [out.procs]
  have self : bySelf r (r.pPidp p) = 1 := bySelf_one among
  have kept : r.pPidp p ∈ r.pids := (out.counted.kept _).mpr (by rw [self]; omega)
  obtain ⟨u, joined, pids, sidp⟩ := pgjoin_ends (s := renewed r p sp) (p := p) kept
  have leads : u.sSidp sp = r.pPidp p := by
    rw [sidp]
    exact update_self ..
  refine ⟨s.procs.card + s.pids.card, { u with pidRef := update u.pidRef (u.sSidp sp) ((u.pidRef (u.sSidp sp) + 1) % 64) }, ?_⟩
  rw [sess_create_eq left sessp session, released, Option.bind_some, joined, Option.bind_some, PID_HOLD, if_pos]
  rw [leads, pids]
  exact kept

theorem Valid.hold (inside : p ∈ s.procs) (alone : s.pSessp p = none) (used : sp ∈ s.sesss)
    (held : SESS_HOLD s sp = some t) : Valid v { t with pSessp := update t.pSessp p (some sp) } chains groups active free := by
  have few := valid.few
  have refs := valid.sessions.ref sp used
  have bound : (s.procs.filter fun q => s.pSessp q = some sp).card < s.procs.card := by
    apply Finset.card_lt_card
    refine Finset.filter_ssubset.mpr ⟨p, inside, ?_⟩
    simp [alone]
  rw [SESS_HOLD, if_pos used] at held
  obtain rfl := Option.some.inj held
  have notSched : p ≠ proc_sched := by
    rintro rfl
    rw [valid.sched.2.2.1] at alone
    cases alone
  have apart : ∀ q, s.pSessp q ≠ none → update s.pSessp p (some sp) q = s.pSessp q := by
    intro q some_
    apply update_of_ne
    rintro rfl
    exact some_ alone
  refine ⟨⟨valid.hashed.linked, valid.hashed.members, valid.hashed.once⟩, ⟨valid.counted.kept, valid.counted.ref⟩,
    ⟨valid.grouped.linked, valid.grouped.members⟩, valid.table.congr ⟨rfl, rfl, rfl, rfl, rfl, rfl, rfl, rfl, rfl⟩,
    ⟨fun sq => ?_, fun sq there => ?_, valid.sessions.once⟩, fun sq there q among leads => ?_, valid.gone, valid.range, ?_⟩
  · refine (valid.sessions.used sq).trans ⟨?_, ?_⟩
    · rintro ⟨q, among, has⟩
      exact ⟨q, among, (apart q (by simp [has])).trans has⟩
    · rintro ⟨q, among, has⟩
      by_cases here : q = p
      · subst here
        simp only [update_self] at has
        exact (valid.sessions.used sq).mp (Option.some.inj has ▸ used)
      · simp only [update_of_ne here] at has
        exact ⟨q, among, has⟩
  · by_cases here : sq = sp
    · subst here
      have more : (s.procs.filter fun q => update s.pSessp p (some sq) q = some sq) =
          insert p (s.procs.filter fun q => s.pSessp q = some sq) := by
        ext q
        rw [Finset.mem_insert, Finset.mem_filter, Finset.mem_filter]
        by_cases own : q = p
        · simp [own, inside]
        · simp [own]
      have absent : p ∉ s.procs.filter fun q => s.pSessp q = some sq := by simp [alone]
      change update s.sRef sq ((s.sRef sq + 1).bmod 65536) sq = _
      rw [more, Finset.card_insert_of_notMem absent, update_self, refs, bmod_small (by omega) (by omega)]
      push_cast
      rfl
    · have same : (s.procs.filter fun q => update s.pSessp p (some sp) q = some sq) = s.procs.filter fun q => s.pSessp q = some sq := by
        apply Finset.filter_congr
        intro q _
        by_cases own : q = p
        · simp [own, alone, Ne.symm here]
        · simp [own]
      change update s.sRef sp _ sq = _
      rw [same, update_of_ne here]
      exact valid.sessions.ref sq there
  · have has := valid.led sq there q among leads
    exact (apart q (by simp [has])).trans has
  · obtain ⟨sched, is, has, names⟩ := valid.sched
    exact ⟨sched, is, (update_of_ne (Ne.symm notSched) _ _).trans has, names⟩

theorem Valid.join (inside : p ∈ s.procs) (alone : s.pPgidp p = none) (group : pgp ∈ s.pids)
    (done : pgjoin s p pgp = some t) : ∃ chains' groups' active' free', Valid v t chains' groups' active' free' := by
  have self : bySelf s pgp ≤ 1 := bySelf_le
  have sess : bySessions s pgp ≤ 1 := valid.sessions.bySessions_le
  obtain ⟨u, joined, hashed, counted, grouped, _, moved⟩ :=
    pgjoin_done valid.grouped (Valid.by_group valid) inside alone group (by omega) valid.hashed
  obtain rfl : u = t := Option.some.inj (joined.symm.trans done)
  exact ⟨_, _, _, _, Valid.moved valid moved hashed counted grouped⟩

theorem Valid.leave (inside : p ∈ s.procs) (group : s.pPgidp p = some pgp)
    (done : pgexit time s p = some t) : ∃ chains' groups' active' free', Valid v t chains' groups' active' free' := by
  obtain ⟨_, _, hashed, counted, grouped, _, moved⟩ :=
    pgexit_done valid.grouped valid.hashed (Valid.by_group valid) inside group done
  exact ⟨_, _, _, _, Valid.moved valid moved hashed counted grouped⟩

theorem Valid.change (pParent : Nat → Option Nat) (pUid : Nat → Nat) :
    Valid v { s with pParent := pParent, pUid := pUid } chains groups active free :=
  ⟨⟨valid.hashed.linked, valid.hashed.members, valid.hashed.once⟩, ⟨valid.counted.kept, valid.counted.ref⟩,
    ⟨valid.grouped.linked, valid.grouped.members⟩, valid.table.congr ⟨rfl, rfl, rfl, rfl, rfl, rfl, rfl, rfl, rfl⟩,
    ⟨valid.sessions.used, valid.sessions.ref, valid.sessions.once⟩, valid.led, valid.gone, valid.range, valid.sched⟩

end

theorem freeChain (v : Var) (slots first : Nat) (positive : 0 < first) (ends : first + slots = v.vProc) :
    Linked (nextFree (pid_init v).procdir) (if first < v.vProc then some first else none) (List.range' first slots) := by
  induction slots generalizing first with
  | zero =>
    rw [if_neg (by omega)]
    exact linked_none.mpr rfl
  | succ slots ih =>
    rw [if_pos (by omega), List.range'_succ]
    refine ⟨rfl, ?_⟩
    have leads : nextFree (pid_init v).procdir first = if first + 1 < v.vProc then some (first + 1) else none := by
      simp only [nextFree, pid_init, if_neg (show ¬ first = 0 by omega)]
    rw [leads]
    exact ih (first + 1) (by omega) (by omega)

theorem pid_init_valid (v : Var) : Valid v (pid_init v) (update (fun _ => []) (HASHPID 0) [pid0]) (update (fun _ => []) pid0 [proc_sched])
    [proc_sched] (List.range' 1 (v.vProc - 1)) := by
  have atLeast := v.atLeast
  have chain := freeChain v (v.vProc - 1) 1 (by omega) (by omega)
  rw [if_pos (by omega)] at chain
  have counts : ∀ a, total (pid_init v) a = if a = pid0 then 3 else 0 := by
    intro a
    by_cases here : a = pid0
    · subst here
      simp [total, bySelf, byGroup, bySessions, pid_init]
    · simp [total, bySelf, byGroup, bySessions, pid_init, here, Ne.symm here]
  refine ⟨⟨fun h => ?_, fun h a => ?_, ?_⟩, ⟨fun a => ?_, fun a inside => ?_⟩, ⟨fun a => ?_, fun a q => ?_⟩,
    ⟨?_, fun q => ?_, ?_, ?_, ?_, ?_, chain, fun slot member => ?_, fun slot bound => ?_, ?_⟩, ⟨fun sp => ?_, fun sp used => ?_, ?_⟩,
    ?_, ?_, ?_, ?_⟩
  · by_cases here : h = HASHPID 0
    · subst here
      simp [pid_init, Linked, seg_cons, seg_nil]
    · simp [pid_init, here, linked_none]
  · by_cases here : h = HASHPID 0
    · subst here
      simp [pid_init]
    · simp [pid_init, here, Ne.symm here]
  · simp [pid_init]
  · rw [counts]
    by_cases here : a = pid0 <;> simp [pid_init, here]
  · rw [counts, if_pos (by simpa [pid_init] using inside)]
    rfl
  · by_cases here : a = pid0
    · subst here
      simp [pid_init, Linked, seg_cons, seg_nil]
    · simp [pid_init, here, linked_none]
  · by_cases here : a = pid0
    · subst here
      by_cases own : q = proc_sched <;> simp [pid_init, own]
    · by_cases own : q = proc_sched <;> simp [pid_init, here, own, Ne.symm here]
  · simp [pid_init, Linked, seg_cons, seg_nil]
  · simp [pid_init]
  · simp [pid_init]
  · simp [pid_init]
  · simp [pid_init]
  · simp [pid_init, proc_sched]
    omega
  · rw [List.mem_range'_1] at member
    refine ⟨by omega, ?_⟩
    simp only [pid_init, if_neg (show ¬ slot = 0 by omega)]
    exact ⟨_, rfl⟩
  · rw [List.mem_range'_1]
    by_cases here : slot = 0
    · exact .inr ⟨proc_sched, by simp [pid_init], by simp [pid_init, here]⟩
    · exact .inl (by omega)
  · simp only [List.length_range', pid_init]
    omega
  · by_cases here : sp = session0
    · simp [pid_init, here]
    · simp [pid_init, here, Ne.symm here]
  · obtain rfl : sp = session0 := by simpa [pid_init] using used
    have only : ((pid_init v).procs.filter fun p => (pid_init v).pSessp p = some session0) = {proc_sched} :=
      Finset.filter_true_of_mem (by simp [pid_init])
    rw [only]
    rfl
  · simp [pid_init]
  · simp [pid_init]
  · simp [pid_init]
  · simp [pid_init, MAXPID]
  · simp [pid_init]

/-- What is done to the table. `sessHold` is what `newproc` does for the session of the
child, `changes` whatever changes parents and users. -/
inductive Event
  | pid_assign (cond : Cond) (cred : Cred) (memory : Option Nat × Option Nat)
  | pid_setmin
  | sessHold (cp pp : Nat)
  | pgjoin (p pgp : Nat)
  | pgexit (p : Nat)
  | sess_create (p sp : Nat)
  | pid_exit (p : Nat)
  | changes (pParent : Nat → Option Nat) (pUid : Nat → Nat)

def step (time : Nat) (v : Var) (s : State) : Event → Option State
  | .pid_assign cond cred memory => (pid_assign time v s cond cred memory).map Prod.snd
  | .pid_setmin => some (pid_setmin s)
  | .sessHold cp pp => (s.pSessp pp).bind fun sp => (SESS_HOLD s sp).map fun s => { s with pSessp := update s.pSessp cp (some sp) }
  | .pgjoin p pgp => pgjoin s p pgp
  | .pgexit p => pgexit time s p
  | .sess_create p sp => sess_create time s p sp
  | .pid_exit p => pid_exit time s p
  | .changes pParent pUid => some { s with pParent := pParent, pUid := pUid }

/-- Memory that is got is not in use, and that it fails is allowed. A process joins a group
when it is in none, and leaves the one it is in. The leader of a session makes no other, which
`setpgrp` checks, and process 0 does not exit. -/
def Enabled (s : State) : Event → Prop
  | .pid_assign cond _ memory => s.pids.card < MAXPID - s.minpid ∧
      ((∃ prp pidp, memory = (some prp, some pidp) ∧ prp ∉ s.procs ∧ pidp ∉ s.pids) ∨
        (memory.1 = none ∨ memory.2 = none) ∧ cond.failOk)
  | .pid_setmin => s.mpid + 1 < MAXPID
  | .sessHold cp pp => cp ∈ s.procs ∧ pp ∈ s.procs ∧ s.pSessp cp = none ∧ s.pSessp pp ≠ none
  | .pgjoin p pgp => p ∈ s.procs ∧ s.pPgidp p = none ∧ pgp ∈ s.pids
  | .pgexit p => p ∈ s.procs ∧ s.pPgidp p ≠ none
  | .sess_create p sp => p ∈ s.procs ∧ s.pPgidp p ≠ none ∧ (∃ old, s.pSessp p = some old ∧ s.sSidp old ≠ s.pPidp p) ∧ sp ∉ s.sesss
  | .pid_exit p => p ∈ s.procs ∧ p ≠ proc_sched ∧ s.pPgidp p ≠ none ∧ s.pSessp p ≠ none
  | .changes _ _ => True

inductive Run (v : Var) : State → Prop
  | start : Run v (pid_init v)
  | step {s s' : State} {event : Event} (time : Nat) (before : Run v s) (enabled : Enabled s event)
      (done : step time v s event = some s') : Run v s'

variable {event : Event}

theorem refuses_room (valid : Valid v s chains groups active free)
    (accepted : refuses time v s cond cred = some false) : s.nproc < v.vProc := by
  have count := valid.table.count
  unfold refuses at accepted
  split at accepted
  case isTrue => cases accepted
  case isFalse room =>
    have atLeast := v.atLeast
    by_contra full
    exact room ⟨by omega, .inl (by omega)⟩

theorem countUid_ends (next : Nat → Option Nat) (uid : Nat → Nat) (ruid : Nat) {first : Option Nat} {l : List Nat}
    (linked : Linked next first l) (enough : l.length ≤ time) : ∃ n, countUid uid next ruid time first = some n := by
  induction l generalizing time first with
  | nil =>
    rw [linked_none.mp linked]
    exact ⟨0, by cases time <;> rfl⟩
  | cons a l ih =>
    obtain ⟨rfl, rest⟩ := linked
    obtain ⟨time, rfl⟩ := Nat.exists_eq_succ_of_ne_zero (show time ≠ 0 by rw [List.length_cons] at enough; omega)
    obtain ⟨n, counted⟩ := ih rest (Nat.le_of_succ_le_succ enough)
    exact ⟨_, by simp only [countUid, counted, Option.map_some]; rfl⟩

theorem pid_assign_done {memory : Option Nat × Option Nat} {pid : Int}
    (enabled : Enabled s (.pid_assign cond cred memory))
    (done : pid_assign time v s cond cred memory = some (pid, s')) :
    (pid = -1 ∧ s' = s) ∨ ∃ prp pidp m, pid = (m : Nat) ∧ prp ∉ s.procs ∧ pidp ∉ s.pids ∧ assign time s prp pidp = some (m, s') := by
  simp only [pid_assign, Option.bind_eq_bind, Option.bind_eq_some_iff] at done
  obtain ⟨refused, _, done⟩ := done
  split at done
  case isTrue =>
    obtain ⟨rfl, rfl⟩ := Prod.mk.inj (Option.some.inj done)
    exact .inl ⟨rfl, rfl⟩
  case isFalse =>
    split at done
    case h_1 prp pidp =>
      obtain ⟨⟨m, s₁⟩, assigned, same⟩ := Option.map_eq_some_iff.mp done
      obtain ⟨rfl, rfl⟩ := Prod.mk.inj same
      rcases enabled.2 with ⟨prp', pidp', is, newProc, newPid⟩ | ⟨none_, _⟩
      · obtain ⟨rfl, rfl⟩ : prp = prp' ∧ pidp = pidp' := by simpa using is
        exact .inr ⟨prp, pidp, m, rfl, newProc, newPid, assigned⟩
      · rcases none_ with none_ | none_ <;> cases none_
    case h_2 =>
      split at done
      · obtain ⟨rfl, rfl⟩ := Prod.mk.inj (Option.some.inj done)
        exact .inl ⟨rfl, rfl⟩
      · cases done

theorem step_valid (valid : Valid v s chains groups active free) (enabled : Enabled s event) (done : step time v s event = some s') :
    ∃ chains' groups' active' free', Valid v s' chains' groups' active' free' := by
  cases event with
  | pid_assign cond cred memory =>
    obtain ⟨⟨pid, t⟩, assigned, rfl⟩ := Option.map_eq_some_iff.mp done
    rcases pid_assign_done enabled assigned with ⟨_, rfl⟩ | ⟨prp, pidp, m, _, newProc, newPid, new⟩
    · exact ⟨_, _, _, _, valid⟩
    · obtain ⟨⟨chains', active', free', after⟩, _⟩ := valid.assign newProc newPid new
      exact ⟨chains', groups, active', free', after⟩
  | pid_setmin =>
    obtain rfl := Option.some.inj done
    have small : s.mpid + 1 < MAXPID := enabled
    exact ⟨chains, groups, active, free, ⟨valid.hashed.linked, valid.hashed.members, valid.hashed.once⟩,
      ⟨valid.counted.kept, valid.counted.ref⟩, ⟨valid.grouped.linked, valid.grouped.members⟩,
      valid.table.congr ⟨rfl, rfl, rfl, rfl, rfl, rfl, rfl, rfl, rfl⟩, ⟨valid.sessions.used, valid.sessions.ref, valid.sessions.once⟩,
      valid.led, valid.gone, ⟨valid.range.1, le_rfl, small⟩, valid.sched⟩
  | sessHold cp pp =>
    obtain ⟨inside, among, alone, _⟩ := enabled
    obtain ⟨sp, session, holds⟩ := Option.bind_eq_some_iff.mp done
    obtain ⟨t, held, rfl⟩ := Option.map_eq_some_iff.mp holds
    exact ⟨_, _, _, _, Valid.hold valid inside alone ((valid.sessions.used sp).mpr ⟨pp, among, session⟩) held⟩
  | pgjoin p pgp =>
    obtain ⟨inside, alone, group⟩ := enabled
    exact Valid.join valid inside alone group done
  | pgexit p =>
    obtain ⟨inside, some_⟩ := enabled
    obtain ⟨pgp, group⟩ := Option.ne_none_iff_exists'.mp some_
    exact Valid.leave valid inside group done
  | sess_create p sp =>
    obtain ⟨inside, some_, ⟨old, session, member⟩, fresh⟩ := enabled
    obtain ⟨pgp, group⟩ := Option.ne_none_iff_exists'.mp some_
    obtain ⟨chains', groups', after⟩ := Valid.create valid inside group session member fresh done
    exact ⟨_, _, _, _, after⟩
  | pid_exit p =>
    obtain ⟨inside, other, some_, some_'⟩ := enabled
    obtain ⟨pgp, group⟩ := Option.ne_none_iff_exists'.mp some_
    obtain ⟨sp, session⟩ := Option.ne_none_iff_exists'.mp some_'
    exact (Valid.exit valid inside other group session done).1
  | changes pParent pUid =>
    obtain rfl := Option.some.inj done
    exact ⟨_, _, _, _, Valid.change valid pParent pUid⟩

theorem pid_assign_ends (valid : Valid v s chains groups active free) {memory : Option Nat × Option Nat}
    (enabled : Enabled s (.pid_assign cond cred memory)) : ∃ time r, pid_assign time v s cond cred memory = some r := by
  obtain ⟨few, got⟩ := enabled
  have answers : ∀ time, active.length ≤ time → ∃ refused, refuses time v s cond cred = some refused := by
    intro time enough
    unfold refuses
    split
    · exact ⟨true, rfl⟩
    · split
      · obtain ⟨n, counted⟩ := countUid_ends s.pNext s.pUid cred.crRuid valid.table.listed enough
        exact ⟨_, by rw [counted]; rfl⟩
      · exact ⟨false, rfl⟩
  rcases got with ⟨prp, pidp, rfl, _, _⟩ | ⟨none_, failOk⟩
  · by_cases room : s.nproc < v.vProc
    · obtain ⟨least, assigns⟩ := assign_ends prp pidp valid room few
      obtain ⟨refused, answer⟩ := answers (max active.length least) (Nat.le_max_left _ _)
      obtain ⟨r, assigned⟩ := assigns (max active.length least) (Nat.le_max_right _ _)
      refine ⟨max active.length least, ?_⟩
      cases refused with
      | true => exact ⟨(-1, s), by simp [pid_assign, answer]⟩
      | false => exact ⟨(r.1, r.2), by simp [pid_assign, answer, assigned]⟩
    · obtain ⟨refused, answer⟩ := answers active.length le_rfl
      cases refused with
      | true => exact ⟨active.length, (-1, s), by simp [pid_assign, answer]⟩
      | false => exact absurd (refuses_room valid answer) room
  · obtain ⟨refused, answer⟩ := answers active.length le_rfl
    obtain ⟨prp, pidp⟩ := memory
    refine ⟨active.length, (-1, s), ?_⟩
    cases refused with
    | true => simp [pid_assign, answer]
    | false =>
      rcases none_ with rfl | rfl
      · simp [pid_assign, answer, failOk]
      · simp [pid_assign, answer, failOk]

theorem step_ends (valid : Valid v s chains groups active free) (enabled : Enabled s event) : ∃ time s', step time v s event = some s' := by
  cases event with
  | pid_assign cond cred memory =>
    obtain ⟨time, r, assigned⟩ := pid_assign_ends valid enabled
    exact ⟨time, r.2, by rw [step, assigned]; rfl⟩
  | pid_setmin => exact ⟨0, _, rfl⟩
  | sessHold cp pp =>
    obtain ⟨_, among, _, some_⟩ := enabled
    obtain ⟨sp, session⟩ := Option.ne_none_iff_exists'.mp some_
    have used := (valid.sessions.used sp).mpr ⟨pp, among, session⟩
    exact ⟨0, _, by simp only [step, session, Option.bind_some, SESS_HOLD, if_pos used, Option.map_some]; rfl⟩
  | pgjoin p pgp =>
    obtain ⟨t, joined, _⟩ := pgjoin_ends (p := p) enabled.2.2
    exact ⟨0, t, joined⟩
  | pgexit p =>
    obtain ⟨inside, some_⟩ := enabled
    obtain ⟨pgp, group⟩ := Option.ne_none_iff_exists'.mp some_
    obtain ⟨sched, is, _⟩ := valid.sched
    have named : 0 < bySelf s pid0 := by
      rw [← is, bySelf_one sched]
      omega
    obtain ⟨t, left⟩ := pgexit_ends valid.grouped valid.hashed (Valid.by_group valid) inside group (fun _ => by omega) le_rfl
    exact ⟨_, t, left⟩
  | sess_create p sp =>
    obtain ⟨inside, some_, ⟨old, session, member⟩, _⟩ := enabled
    obtain ⟨pgp, group⟩ := Option.ne_none_iff_exists'.mp some_
    exact Valid.create_ends valid inside group session member
  | pid_exit p =>
    obtain ⟨inside, other, some_, some_'⟩ := enabled
    obtain ⟨pgp, group⟩ := Option.ne_none_iff_exists'.mp some_
    obtain ⟨sp, session⟩ := Option.ne_none_iff_exists'.mp some_'
    exact Valid.exit_ends valid inside other group session
  | changes pParent pUid => exact ⟨0, _, rfl⟩

theorem Run.valid (run : Run v s) : ∃ chains groups active free, Valid v s chains groups active free := by
  induction run with
  | start => exact ⟨_, _, _, _, pid_init_valid v⟩
  | step time _ enabled done ih =>
    obtain ⟨chains, groups, active, free, valid⟩ := ih
    exact step_valid valid enabled done

structure Intact (v : Var) (s : State) : Prop where
  hashed : ∃ chains, Hashed s chains
  counted : Counted s (total s)
  grouped : ∃ groups, Grouped s groups
  sessions : Sessions s s.pSessp
  slots : ∃ active free, Table v s active free ∧ free.length = v.vProc - s.nproc ∧ ∀ pid, (∃ time found, prfind time s pid = some found) ∧
    ∀ time found, prfind time s pid = some found → ∀ p, found = some p ↔ p ∈ active ∧ s.pidId (s.pPidp p) = pid

def NotInUse (s : State) (pid : Nat) : Prop :=
  (∀ p ∈ s.procs, s.pidId (s.pPidp p) ≠ pid) ∧ (∀ p ∈ s.procs, ∀ a, s.pPgidp p = some a → s.pidId a ≠ pid) ∧
    ∀ sp ∈ s.sesss, s.pidId (s.sSidp sp) ≠ pid

theorem Valid.intact (valid : Valid v s chains groups active free) : Intact v s := by
  refine ⟨⟨chains, valid.hashed⟩, valid.counted, ⟨groups, valid.grouped⟩, valid.sessions, active, free, valid.table, ?_, fun pid => ⟨?_, ?_⟩⟩
  · have count := valid.table.count
    omega
  · obtain ⟨found, looked⟩ := pid_lookup_ends valid.hashed valid.counted pid le_rfl
    exact ⟨_, _, by rw [prfind, looked]; rfl⟩
  · intro time found done
    exact prfind_done valid.hashed valid.table (fun p inside => valid.own_kept inside) valid.gone done

/-- What the exit of a process takes away: its slot is free, nothing is found under its
pid, and the pid stays only while a group or a session has it for a name. -/
structure Exited (s s' : State) (p : Nat) : Prop where
  procs : s'.procs = s.procs.erase p
  slot : s'.procentfree = some (s.pidPrslot (s.pPidp p))
  procdir : s'.procdir = update s.procdir (s.pidPrslot (s.pPidp p)) (.peNext s.procentfree)
  found : ∀ time found, prfind time s' (s.pidId (s.pPidp p)) = some found → found = none
  kept : s.pPidp p ∈ s'.pids ↔ 0 < byGroup s' (s.pPidp p) + bySessions s' (s.pPidp p)

theorem Valid.exited (valid : Valid v s chains groups active free) (enabled : Enabled s (.pid_exit p)) (done : pid_exit time s p = some s') :
    Exited s s' p := by
  obtain ⟨inside, other, some_, some_'⟩ := enabled
  obtain ⟨pgp, group⟩ := Option.ne_none_iff_exists'.mp some_
  obtain ⟨sp, session⟩ := Option.ne_none_iff_exists'.mp some_'
  obtain ⟨⟨_, _, active', _, after⟩, frees⟩ := Valid.exit valid inside other group session done
  have own := valid.table.own
  refine ⟨frees.procs, frees.slot, frees.procdir, fun time found looked => ?_, ?_⟩
  · cases found with
    | none => rfl
    | some q =>
      -- Another process with the id would have had the same pid structure.
      obtain ⟨among, id⟩ := (prfind_done after.hashed after.table (fun p inside => after.own_kept inside) after.gone looked q).mp rfl
      rw [after.table.members, frees.procs] at among
      rw [frees.ids, frees.pidp] at id
      have there := Finset.mem_of_mem_erase among
      have same := valid.hashed.once _ (valid.own_kept there) _ (valid.own_kept inside) id
      exact absurd (own q there p inside same) (Finset.ne_of_mem_erase among)
  · have self := bySelf_erase own inside frees.procs frees.pidp (s.pPidp p)
    rw [if_pos rfl] at self
    rw [after.counted.kept, total, self]
    omega

/-- After any sequence of steps the table is intact, every step goes through, and a pid is
assigned that no process, group or session has, and an exit takes the process out. -/
theorem process_table (v : Var) (s : State) (run : Run v s) : Intact v s ∧
    (∀ event, Enabled s event → ∃ time s', step time v s event = some s') ∧
    (∀ cond cred memory time pid s', Enabled s (.pid_assign cond cred memory) → pid_assign time v s cond cred memory = some (pid, s') →
      (pid = -1 ∧ s' = s) ∨ ∃ prp m, pid = (m : Nat) ∧ s'.procs = insert prp s.procs ∧ s'.pidId (s'.pPidp prp) = m ∧ NotInUse s m) ∧
    ∀ p time s', Enabled s (.pid_exit p) → pid_exit time s p = some s' → Exited s s' p := by
  obtain ⟨chains, groups, active, free, valid⟩ := Run.valid run
  refine ⟨Valid.intact valid, fun event enabled => step_ends valid enabled, fun cond cred memory time pid s' enabled done => ?_,
    fun p time s' enabled done => Valid.exited valid enabled done⟩
  rcases pid_assign_done enabled done with failed | ⟨prp, pidp, m, is, newProc, newPid, assigned⟩
  · exact .inl failed
  · obtain ⟨_, unused, procs, id⟩ := valid.assign newProc newPid assigned
    refine .inr ⟨prp, m, is, procs, id, fun p inside => ?_, fun p inside a group => ?_, fun sp used => ?_⟩
    · exact unused _ (valid.own_kept inside)
    · exact unused a (valid.group_kept inside group)
    · exact unused _ (valid.session_kept used)

def tunables : Var := ⟨200, 30, by decide, by decide⟩

/-- The theorem after the first process is made and joins the group of process 0, and at
its exit. -/
theorem process_table_one : ∃ s s', Run tunables s ∧ Intact tunables s ∧ s.procs = {1, proc_sched} ∧ pid_exit 9 s 1 = some s' ∧
    Exited s s' 1 ∧ s'.procs = {proc_sched} ∧ 1 ∉ s'.pids := by
  have enabled : Enabled (pid_init tunables) (.pid_assign ⟨false, true⟩ ⟨0, 0⟩ (some 1, some 1)) :=
    ⟨by decide, .inl ⟨1, 1, rfl, by decide, by decide⟩⟩
  obtain ⟨s₁, made⟩ : ∃ s, step 9 tunables (pid_init tunables) (.pid_assign ⟨false, true⟩ ⟨0, 0⟩ (some 1, some 1)) = some s := ⟨_, rfl⟩
  obtain ⟨s₂, ready, held⟩ : ∃ s, Enabled s₁ (.sessHold 1 proc_sched) ∧ step 9 tunables s₁ (.sessHold 1 proc_sched) = some s := by
    cases made
    exact ⟨_, ⟨by decide, by decide, rfl, by decide⟩, rfl⟩
  obtain ⟨s₃, fits, joined, procs⟩ : ∃ s, Enabled s₂ (.pgjoin 1 pid0) ∧ step 9 tunables s₂ (.pgjoin 1 pid0) = some s ∧
      s.procs = {1, proc_sched} := by
    cases made
    cases held
    exact ⟨_, ⟨by decide, rfl, by decide⟩, rfl, rfl⟩
  obtain ⟨s₄, leaves, left, procs', pids⟩ : ∃ s, Enabled s₃ (.pid_exit 1) ∧ pid_exit 9 s₃ 1 = some s ∧
      s.procs = {proc_sched} ∧ 1 ∉ s.pids := by
    cases made
    cases held
    cases joined
    exact ⟨_, ⟨by decide, by decide, by decide, by decide⟩, rfl, rfl, by decide⟩
  have run : Run tunables s₃ := .step 9 (.step 9 (.step 9 .start enabled made) ready held) fits joined
  have table := process_table tunables s₃ run
  exact ⟨s₃, s₄, run, table.1, procs, left, table.2.2.2 1 9 s₄ leaves left, procs', pids⟩

end Svr4.Proofs.PidHistory
