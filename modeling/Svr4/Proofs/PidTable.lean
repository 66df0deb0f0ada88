import Svr4.Pid

/-! What each routine of the process table does to the hash chains, the reference counts,
the groups and the sessions. -/

namespace Svr4.Proofs.PidTable
open Function Chain DoubleChain Pid

structure Hashed (s : State) (chains : Nat → List Nat) : Prop where
  linked : ∀ h, Linked s.pidLink (s.pidhash h) (chains h)
  members : ∀ h a, a ∈ chains h ↔ a ∈ s.pids ∧ HASHPID (s.pidId a) = h
  once : ∀ a ∈ s.pids, ∀ b ∈ s.pids, s.pidId a = s.pidId b → a = b

structure Counted (s : State) (n : Nat → Nat) : Prop where
  kept : ∀ a, a ∈ s.pids ↔ 0 < n a
  ref : ∀ a ∈ s.pids, s.pidRef a = n a

structure Grouped (s : State) (groups : Nat → List Nat) : Prop where
  linked : ∀ a, Linked s.pPglink (s.pidPglink a) (groups a)
  members : ∀ a p, p ∈ groups a ↔ p ∈ s.procs ∧ s.pPgidp p = some a

structure Sessions (s : State) (held : Nat → Option Nat) : Prop where
  used : ∀ sp, sp ∈ s.sesss ↔ ∃ p ∈ s.procs, held p = some sp
  ref : ∀ sp ∈ s.sesss, s.sRef sp = (s.procs.filter fun p => held p = some sp).card
  once : ∀ sp ∈ s.sesss, ∀ sq ∈ s.sesss, s.sSidp sp = s.sSidp sq → sp = sq

def byGroup (s : State) (a : Nat) : Nat := if s.pidPglink a = none then 0 else 1

def bySessions (s : State) (a : Nat) : Nat := (s.sesss.filter fun sp => s.sSidp sp = a).card

variable {s s' : State} {chains groups : Nat → List Nat} {n m : Nat → Nat} {held : Nat → Option Nat} {a p pgp sp time : Nat}

theorem byGroup_le : byGroup s a ≤ 1 := by
  unfold byGroup
  split <;> omega

theorem Sessions.bySessions_le (sessions : Sessions s held) : bySessions s a ≤ 1 := by
  apply Finset.card_le_one.mpr
  intro sp first sq second
  simp only [Finset.mem_filter] at first second
  exact sessions.once sp first.1 sq second.1 (first.2.trans second.2.symm)

theorem Hashed.chain_length (hashed : Hashed s chains) (h : Nat) : (chains h).length ≤ s.pids.card := by
  rw [← List.toFinset_card_of_nodup (hashed.linked h).nodup]
  apply Finset.card_le_card
  intro a member
  exact ((hashed.members h a).mp (List.mem_toFinset.mp member)).1

theorem Grouped.group_length (grouped : Grouped s groups) (a : Nat) : (groups a).length ≤ s.procs.card := by
  rw [← List.toFinset_card_of_nodup (grouped.linked a).nodup]
  apply Finset.card_le_card
  intro p member
  exact ((grouped.members a p).mp (List.mem_toFinset.mp member)).1

theorem Grouped.byGroup_pos (grouped : Grouped s groups) (inside : p ∈ s.procs) (group : s.pPgidp p = some a) : byGroup s a = 1 := by
  have member := (grouped.members a p).mpr ⟨inside, group⟩
  have linked := grouped.linked a
  rw [byGroup, if_neg]
  intro none_
  rw [none_] at linked
  rw [linked.empty] at member
  cases member

theorem pid_hold_done (counted : Counted s n) (inside : a ∈ s.pids) (room : n a + 1 < 64) :
    PID_HOLD s a = some { s with pidRef := update s.pidRef a (n a + 1) } ∧
      Counted { s with pidRef := update s.pidRef a (n a + 1) } (update n a (n a + 1)) := by
  refine ⟨?_, fun b => ?_, fun b there => ?_⟩
  · rw [PID_HOLD, if_pos inside, counted.ref a inside, Nat.mod_eq_of_lt room]
  · by_cases here : b = a
    · subst here
      simp [inside]
    · simpa [update_of_ne here] using counted.kept b
  · by_cases here : b = a
    · subst here
      simp
    · simpa [update_of_ne here] using counted.ref b there

def Released (s s' : State) : Prop :=
  s' = { s with pids := s'.pids, pidRef := s'.pidRef, pidLink := s'.pidLink, pidhash := s'.pidhash } ∧ s'.pids ⊆ s.pids

theorem pid_rele_done (hashed : Hashed s chains) (counted : Counted s n) (named : 0 < n a) (done : PID_RELE time s a = some s') :
    ∃ chains', Hashed s' chains' ∧ Counted s' (update n a (n a - 1)) ∧ Released s s' := by
  have inside := (counted.kept a).mpr named
  have ref := counted.ref a inside
  rw [PID_RELE, if_pos inside] at done
  split at done
  case isTrue more =>
    obtain rfl := Option.some.inj done
    refine ⟨chains, ⟨hashed.linked, hashed.members, hashed.once⟩, ⟨fun b => ?_, fun b there => ?_⟩, rfl, Finset.Subset.refl _⟩
    · by_cases here : b = a
      · subst here
        simp only [inside, update_self, true_iff]
        omega
      · simpa [update_of_ne here] using counted.kept b
    · by_cases here : b = a
      · subst here
        simp [ref]
      · simpa [update_of_ne here] using counted.ref b there
  case isFalse last =>
    have one : n a = 1 := by omega
    unfold pid_rele at done
    split at done
    case isTrue => cases done
    case isFalse =>
      obtain ⟨⟨head, link⟩, taken, rfl⟩ := Option.map_eq_some_iff.mp done
      obtain ⟨before, after, split, linked, same⟩ := Linked.taken (hashed.linked _) taken
      have once := (hashed.linked (HASHPID (s.pidId a))).nodup
      rw [split] at once
      have gone : a ∉ before ++ after := (List.nodup_middle.mp once).notMem
      refine ⟨update chains (HASHPID (s.pidId a)) (before ++ after), ⟨fun h => ?_, fun h b => ?_, fun b first c second => ?_⟩,
        ⟨fun b => ?_, fun b there => ?_⟩, rfl, Finset.erase_subset _ _⟩
      · by_cases here : h = HASHPID (s.pidId a)
        · subst here
          simpa using linked
        · simp only [update_of_ne here]
          apply (hashed.linked h).congr
          intro b member
          apply same
          intro member'
          have mine := ((hashed.members _ b).mp (by rw [split]; exact List.mem_append_left _ member')).2
          exact here (((hashed.members h b).mp member).2.symm.trans mine)
      · by_cases here : h = HASHPID (s.pidId a)
        · subst here
          have members := hashed.members (HASHPID (s.pidId a)) b
          rw [split] at members
          by_cases own : b = a
          · subst own
            simp [gone]
          · simp only [update_self, Finset.mem_erase, ne_eq, own, not_false_eq_true, true_and]
            rw [← members]
            simp [own]
        · rw [update_of_ne here, hashed.members h b]
          have apart : HASHPID (s.pidId b) = h → b ≠ a := by
            rintro other rfl
            exact here other.symm
          simp only [Finset.mem_erase]
          tauto
      · exact hashed.once b (Finset.mem_of_mem_erase first) c (Finset.mem_of_mem_erase second)
      · by_cases here : b = a
        · subst here
          simp [one]
        · simpa [update_of_ne here, here] using counted.kept b
      · have here : b ≠ a := Finset.ne_of_mem_erase there
        simpa [update_of_ne here] using counted.ref b (Finset.mem_of_mem_erase there)

theorem pid_rele_ends (hashed : Hashed s chains) (counted : Counted s n) (named : 0 < n a) (safe : a = pid0 → 1 < n a)
    (enough : s.pids.card ≤ time) : ∃ s', PID_RELE time s a = some s' := by
  have inside := (counted.kept a).mpr named
  have ref := counted.ref a inside
  rw [PID_RELE, if_pos inside]
  split
  case isTrue => exact ⟨_, rfl⟩
  case isFalse last =>
    have apart : a ≠ pid0 := fun same => last (by rw [ref]; exact safe same)
    have member := (hashed.members (HASHPID (s.pidId a)) a).mpr ⟨inside, rfl⟩
    obtain ⟨r, taken⟩ := Linked.takeOut_ends (hashed.linked _) member ((hashed.chain_length _).trans enough)
    exact ⟨_, by simp only [pid_rele, if_neg apart, taken, Option.map_some]; rfl⟩

def Left (s s' : State) : Prop :=
  s' = { s with
    pids := s'.pids, pidRef := s'.pidRef, pidLink := s'.pidLink, pidhash := s'.pidhash, sesss := s'.sesss, sRef := s'.sRef } ∧
    s'.pids ⊆ s.pids

theorem holders_drop (inside : p ∈ s.procs) (holds : held p = some sp) :
    (s.procs.filter fun q => update held p none q = some sp) = (s.procs.filter fun q => held q = some sp).erase p := by
  ext q
  by_cases here : q = p
  · subst here
    simp
  · simp [here]

theorem holders_other {sq : Nat} (holds : held p = some sp) (other : sq ≠ sp) :
    (s.procs.filter fun q => update held p none q = some sq) = s.procs.filter fun q => held q = some sq := by
  apply Finset.filter_congr
  intro q _
  by_cases here : q = p
  · subst here
    simp [holds, Ne.symm other]
  · simp [here]

theorem Sessions.ref_pos (sessions : Sessions s held) (inside : p ∈ s.procs) (holds : held p = some sp) :
    sp ∈ s.sesss ∧ s.sRef sp = (s.procs.filter fun q => held q = some sp).card ∧
      0 < (s.procs.filter fun q => held q = some sp).card := by
  have used := (sessions.used sp).mpr ⟨p, inside, holds⟩
  exact ⟨used, sessions.ref sp used, Finset.card_pos.mpr ⟨p, Finset.mem_filter.mpr ⟨inside, holds⟩⟩⟩

theorem bySessions_pos (used : sp ∈ s.sesss) : 0 < bySessions s (s.sSidp sp) :=
  Finset.card_pos.mpr ⟨sp, Finset.mem_filter.mpr ⟨used, rfl⟩⟩

theorem bmod_small {i : Int} (positive : 0 ≤ i) (small : i ≤ 400) : i.bmod 65536 = i := by
  rw [Int.bmod_def]
  omega

theorem sess_drop (sessions : Sessions s held) (inside : p ∈ s.procs) (holds : held p = some sp) (few : s.procs.card ≤ 400) :
    (s.sRef sp - 1).bmod 65536 = ((s.procs.filter fun q => update held p none q = some sp).card : Nat) := by
  obtain ⟨_, ref, positive⟩ := sessions.ref_pos inside holds
  have bound : (s.procs.filter fun q => held q = some sp).card ≤ s.procs.card := Finset.card_filter_le _ _
  rw [holders_drop inside holds, Finset.card_erase_of_mem (Finset.mem_filter.mpr ⟨inside, holds⟩), ref]
  rw [bmod_small (by omega) (by omega)]
  omega

theorem bySessions_erase (used : sp ∈ s.sesss) (a : Nat) : ((s.sesss.erase sp).filter fun sq => s.sSidp sq = a).card + m a =
    update (fun a => bySessions s a + m a) (s.sSidp sp) (bySessions s (s.sSidp sp) + m (s.sSidp sp) - 1) a := by
  have positive := bySessions_pos used
  by_cases here : a = s.sSidp sp
  · subst here
    have member : sp ∈ s.sesss.filter fun sq => s.sSidp sq = s.sSidp sp := Finset.mem_filter.mpr ⟨used, rfl⟩
    rw [Finset.filter_erase, Finset.card_erase_of_mem member, update_self]
    unfold bySessions at positive ⊢
    omega
  · have absent : sp ∉ s.sesss.filter fun sq => s.sSidp sq = a := fun member => here (Finset.mem_filter.mp member).2.symm
    rw [Finset.filter_erase, Finset.erase_eq_of_notMem absent, update_of_ne here]
    rfl

theorem sess_rele_done (sessions : Sessions s held) (inside : p ∈ s.procs) (holds : held p = some sp) (few : s.procs.card ≤ 400)
    (hashed : Hashed s chains) (counted : Counted s fun a => bySessions s a + m a) (done : SESS_RELE time s sp = some s') :
    ∃ chains', Hashed s' chains' ∧ (Counted s' fun a => bySessions s' a + m a) ∧ Sessions s' (update held p none) ∧ Left s s' := by
  obtain ⟨used, _, _⟩ := sessions.ref_pos inside holds
  have ref := sess_drop sessions inside holds few
  have elsewhere : ∀ sq, sq ≠ sp → ((∃ q ∈ s.procs, update held p none q = some sq) ↔ sq ∈ s.sesss) := by
    intro sq other
    rw [sessions.used sq]
    refine exists_congr fun q => and_congr_right fun _ => ?_
    by_cases here : q = p
    · subst here
      simp [holds, Ne.symm other]
    · simp [here]
  have others : ∀ sq, sq ≠ sp → ∀ r : Nat → Int, r sq = s.sRef sq → sq ∈ s.sesss →
      r sq = ((s.procs.filter fun q => update held p none q = some sq).card : Nat) := by
    intro sq other r same there
    rw [same, holders_other holds other]
    exact sessions.ref sq there
  rw [SESS_RELE, if_pos used] at done
  simp only [update_self, ref] at done
  split at done
  case isTrue more =>
    obtain rfl := Option.some.inj done
    obtain ⟨q, member⟩ := Finset.card_pos.mp (Int.natCast_pos.mp more)
    rw [Finset.mem_filter] at member
    refine ⟨chains, ⟨hashed.linked, hashed.members, hashed.once⟩, ⟨counted.kept, counted.ref⟩,
      ⟨fun sq => ?_, fun sq there => ?_, sessions.once⟩, rfl, Finset.Subset.refl _⟩
    · by_cases here : sq = sp
      · subst here
        exact iff_of_true used ⟨q, member.1, member.2⟩
      · exact (elsewhere sq here).symm
    · by_cases here : sq = sp
      · subst here
        exact update_self ..
      · exact others sq here _ (update_of_ne here _ _) there
  case isFalse last =>
    have nobody : ∀ q ∈ s.procs, update held p none q ≠ some sp := by
      intro q among still
      exact last (Int.natCast_pos.mpr (Finset.card_pos.mpr ⟨q, Finset.mem_filter.mpr ⟨among, still⟩⟩))
    unfold sess_rele at done
    split at done
    case isTrue => cases done
    case isFalse =>
      obtain ⟨t, released, rfl⟩ := Option.map_eq_some_iff.mp done
      have named : 0 < bySessions s (s.sSidp sp) + m (s.sSidp sp) := Nat.add_pos_left (bySessions_pos used) _
      have hashed : Hashed { s with sRef := update s.sRef sp ((s.procs.filter fun q => update held p none q = some sp).card : Nat) } chains :=
        ⟨hashed.linked, hashed.members, hashed.once⟩
      obtain ⟨chains', hashed', counted', only, fewer⟩ := pid_rele_done hashed ⟨counted.kept, counted.ref⟩ named released
      rw [only] at hashed' counted' ⊢
      refine ⟨chains', ⟨hashed'.linked, hashed'.members, hashed'.once⟩, ⟨fun a => ?_, fun a there => ?_⟩, ⟨fun sq => ?_, fun sq there => ?_,
        fun sq first sr second => ?_⟩, rfl, fewer⟩
      · have kept := counted'.kept a
        rwa [← bySessions_erase used a] at kept
      · have ref' := counted'.ref a there
        rwa [← bySessions_erase used a] at ref'
      · by_cases here : sq = sp
        · subst here
          simpa using nobody
        · rw [Finset.mem_erase]
          exact ⟨fun there => (elsewhere sq here).mpr there.2, fun holder => ⟨here, (elsewhere sq here).mp holder⟩⟩
      · have here := Finset.ne_of_mem_erase there
        exact others sq here _ (update_of_ne here _ _) (Finset.mem_of_mem_erase there)
      · exact sessions.once sq (Finset.mem_of_mem_erase first) sr (Finset.mem_of_mem_erase second)

theorem sess_rele_ends (sessions : Sessions s held) (inside : p ∈ s.procs) (holds : held p = some sp) (few : s.procs.card ≤ 400)
    (hashed : Hashed s chains) (counted : Counted s fun a => bySessions s a + m a)
    (shared : sp = session0 → ∃ q ∈ s.procs, q ≠ p ∧ held q = some sp) (safe : s.sSidp sp = pid0 → 0 < m pid0)
    (enough : s.pids.card ≤ time) : ∃ s', SESS_RELE time s sp = some s' := by
  obtain ⟨used, _, _⟩ := sessions.ref_pos inside holds
  have ref := sess_drop sessions inside holds few
  rw [SESS_RELE, if_pos used]
  simp only [update_self, ref]
  split
  case isTrue => exact ⟨_, rfl⟩
  case isFalse last =>
    have other : sp ≠ session0 := by
      intro same
      obtain ⟨q, among, apart, holds'⟩ := shared same
      apply last
      apply Int.natCast_pos.mpr
      exact Finset.card_pos.mpr ⟨q, Finset.mem_filter.mpr ⟨among, by rw [update_of_ne apart]; exact holds'⟩⟩
    have named : 0 < bySessions s (s.sSidp sp) + m (s.sSidp sp) := Nat.add_pos_left (bySessions_pos used) _
    have positive := bySessions_pos used
    have hashed : Hashed { s with sRef := update s.sRef sp ((s.procs.filter fun q => update held p none q = some sp).card : Nat) } chains :=
      ⟨hashed.linked, hashed.members, hashed.once⟩
    obtain ⟨t, released⟩ := pid_rele_ends hashed ⟨counted.kept, counted.ref⟩ named
      (fun same => by
        have more := safe same
        rw [← same] at more
        omega) enough
    exact ⟨_, by simp only [sess_rele, if_neg other, released, Option.map_some]; rfl⟩

def Moved (s s' : State) : Prop :=
  s' = { s with
    pids := s'.pids, pidRef := s'.pidRef, pidLink := s'.pidLink, pidhash := s'.pidhash, pidPglink := s'.pidPglink,
    pPglink := s'.pPglink, pPgidp := s'.pPgidp, pidPgorphaned := s'.pidPgorphaned } ∧ s'.pids ⊆ s.pids

theorem Grouped.join (grouped : Grouped s groups) (inside : p ∈ s.procs) (alone : s.pPgidp p = none) (pgp : Nat)
    (same : s'.procs = s.procs ∧ s'.pPglink = update s.pPglink p (s.pidPglink pgp) ∧
      s'.pidPglink = update s.pidPglink pgp (some p) ∧ s'.pPgidp = update s.pPgidp p (some pgp)) :
    Grouped s' (update groups pgp (p :: groups pgp)) := by
  obtain ⟨procs, pglink, head, pgidp⟩ := same
  have absent : ∀ a, p ∉ groups a := by
    intro a member
    rw [((grouped.members a p).mp member).2] at alone
    cases alone
  refine ⟨fun a => ?_, fun a q => ?_⟩
  · rw [pglink, head]
    by_cases here : a = pgp
    · subst here
      rw [update_self, update_self]
      exact (grouped.linked a).push_front (absent a)
    · rw [update_of_ne here, update_of_ne here]
      exact (grouped.linked a).update _ (absent a)
  · rw [procs, pgidp]
    by_cases own : q = p
    · subst own
      by_cases here : a = pgp
      · subst here
        simp [inside]
      · simp [here, Ne.symm here, absent a]
    · by_cases here : a = pgp
      · subst here
        simp [own, grouped.members a]
      · simp [own, here, grouped.members a]

theorem pgjoin_done (grouped : Grouped s groups) (counted : Counted s fun a => byGroup s a + m a) (inside : p ∈ s.procs)
    (alone : s.pPgidp p = none) (group : pgp ∈ s.pids) (room : m pgp + 1 < 64) (hashed : Hashed s chains) :
    ∃ s', pgjoin s p pgp = some s' ∧ Hashed s' chains ∧ (Counted s' fun a => byGroup s' a + m a) ∧
      Grouped s' (update groups pgp (p :: groups pgp)) ∧ s'.pPgidp = update s.pPgidp p (some pgp) ∧ Moved s s' := by
  have others : ∀ s' : State, s'.pidPglink = update s.pidPglink pgp (some p) → ∀ a, a ≠ pgp → byGroup s' a = byGroup s a := by
    intro s' head a here
    rw [byGroup, byGroup, head, update_of_ne here]
  have own : ∀ s' : State, s'.pidPglink = update s.pidPglink pgp (some p) → byGroup s' pgp = 1 := by
    intro s' head
    rw [byGroup, head, update_self, if_neg (by simp)]
  rw [pgjoin, if_pos group]
  dsimp only
  split
  case isTrue empty =>
    have none_ : byGroup s pgp = 0 := by rw [byGroup, if_pos empty]
    have counted : Counted { s with
        pPglink := update s.pPglink p (s.pidPglink pgp), pidPglink := update s.pidPglink pgp (some p),
        pPgidp := update s.pPgidp p (some pgp) } fun a => byGroup s a + m a := ⟨counted.kept, counted.ref⟩
    obtain ⟨held, counted'⟩ := pid_hold_done counted group (by rw [none_]; omega)
    have recounted : ∀ s' : State, s'.pids = s.pids → s'.pidRef = update s.pidRef pgp (byGroup s pgp + m pgp + 1) →
        s'.pidPglink = update s.pidPglink pgp (some p) → Counted s' fun a => byGroup s' a + m a := by
      intro s' pids refs head
      refine ⟨fun a => ?_, fun a there => ?_⟩
      · have kept := counted'.kept a
        by_cases here : a = pgp
        · subst here
          rw [own s' head, pids]
          exact iff_of_true group (by omega)
        · rw [others s' head a here, pids]
          rwa [update_of_ne here] at kept
      · rw [pids] at there
        have ref := counted'.ref a there
        by_cases here : a = pgp
        · subst here
          rw [own s' head, refs, update_self, none_]
          omega
        · rw [others s' head a here, refs]
          rwa [update_of_ne here] at ref
    rw [held]
    exact ⟨_, rfl, ⟨hashed.linked, hashed.members, hashed.once⟩, recounted _ rfl rfl rfl,
      grouped.join inside alone pgp ⟨rfl, rfl, rfl, rfl⟩, rfl, rfl, Finset.Subset.refl _⟩
  case isFalse some_ =>
    have one : byGroup s pgp = 1 := by rw [byGroup, if_neg some_]
    have recounted : ∀ s' : State, s'.pids = s.pids → s'.pidRef = s.pidRef → s'.pidPglink = update s.pidPglink pgp (some p) →
        Counted s' fun a => byGroup s' a + m a := by
      intro s' pids refs head
      have same : ∀ a, byGroup s' a = byGroup s a := by
        intro a
        by_cases here : a = pgp
        · rw [here, own s' head, one]
        · exact others s' head a here
      refine ⟨fun a => ?_, fun a there => ?_⟩
      · rw [same, pids]
        exact counted.kept a
      · rw [same, refs]
        rw [pids] at there
        exact counted.ref a there
    split
    all_goals
      exact ⟨_, rfl, ⟨hashed.linked, hashed.members, hashed.once⟩, recounted _ rfl rfl rfl,
        grouped.join inside alone pgp ⟨rfl, rfl, rfl, rfl⟩, rfl, rfl, Finset.Subset.refl _⟩

theorem Grouped.leave (grouped : Grouped s groups) (group : s.pPgidp p = some pgp) {before after : List Nat} {head : Option Nat}
    {link : Nat → Option Nat} (split : groups pgp = before ++ p :: after) (linked : Linked link head (before ++ after))
    (elsewhere : ∀ q, q ∉ before → link q = s.pPglink q)
    (same : s'.procs = s.procs ∧ s'.pPglink = update link p none ∧
      s'.pidPglink = update s.pidPglink pgp head ∧ s'.pPgidp = update s.pPgidp p none) :
    Grouped s' (update groups pgp (before ++ after)) := by
  obtain ⟨procs, pglink, head', pgidp⟩ := same
  have once := (grouped.linked pgp).nodup
  rw [split] at once
  have gone : p ∉ before ++ after := (List.nodup_middle.mp once).notMem
  have absent : ∀ a, a ≠ pgp → p ∉ groups a := by
    intro a here member
    rw [((grouped.members a p).mp member).2] at group
    exact here (Option.some.inj group)
  refine ⟨fun a => ?_, fun a q => ?_⟩
  · rw [pglink, head']
    by_cases here : a = pgp
    · subst here
      rw [update_self, update_self]
      exact linked.update _ gone
    · rw [update_of_ne here, update_of_ne here]
      have kept : Linked link (s.pidPglink a) (groups a) := by
        apply (grouped.linked a).congr
        intro q member
        apply elsewhere
        intro member'
        have mine := ((grouped.members pgp q).mp (by rw [split]; exact List.mem_append_left _ member')).2
        rw [((grouped.members a q).mp member).2] at mine
        exact here (Option.some.inj mine)
      exact kept.update _ (absent a here)
  · rw [procs, pgidp]
    by_cases own : q = p
    · subst own
      by_cases here : a = pgp
      · subst here
        simp only [update_self, gone, reduceCtorEq, and_false]
      · simp [here, absent a here]
    · by_cases here : a = pgp
      · subst here
        have members := grouped.members a q
        rw [split] at members
        simp only [update_self, update_of_ne own, ← members]
        simp [own]
      · simp [own, here, grouped.members a]

theorem orphan_done (done : orphan time s pgp = some s') : s' = { s with pidPgorphaned := s'.pidPgorphaned } := by
  unfold orphan at done
  split at done
  · obtain rfl := Option.some.inj done
    rfl
  · split at done
    · obtain rfl := Option.some.inj done
      rfl
    · obtain rfl := Option.some.inj done
      rfl
    · cases done

def pgleft (s : State) (prp pgp : Nat) (head : Option Nat) (link : Nat → Option Nat) : State :=
  { s with pidPglink := update s.pidPglink pgp head, pPglink := update link prp none, pPgidp := update s.pPgidp prp none }

theorem pgexit_eq (group : s.pPgidp p = some pgp) : pgexit time s p =
    (takeOut time s.pPglink (s.pidPglink pgp) p).bind fun (head, link) =>
      if head = none then PID_RELE time (pgleft s p pgp head link) pgp else orphan time (pgleft s p pgp head link) pgp := by
  simp only [pgexit, group, Option.bind_eq_bind, Option.bind_some, update_self, pgleft]

theorem pgexit_done (grouped : Grouped s groups) (hashed : Hashed s chains) (counted : Counted s fun a => byGroup s a + m a)
    (inside : p ∈ s.procs) (group : s.pPgidp p = some pgp) (done : pgexit time s p = some s') :
    ∃ chains' groups', Hashed s' chains' ∧ (Counted s' fun a => byGroup s' a + m a) ∧ Grouped s' groups' ∧
      s'.pPgidp = update s.pPgidp p none ∧ Moved s s' := by
  rw [pgexit_eq group] at done
  obtain ⟨⟨head, link⟩, taken, done⟩ := Option.bind_eq_some_iff.mp done
  obtain ⟨before, after, split, linked, elsewhere⟩ := Linked.taken (grouped.linked pgp) taken
  have one := grouped.byGroup_pos inside group
  have others : ∀ s' : State, s'.pidPglink = update s.pidPglink pgp head → ∀ a, a ≠ pgp → byGroup s' a = byGroup s a := by
    intro s' head' a here
    rw [byGroup, byGroup, head', update_of_ne here]
  have hashed : Hashed (pgleft s p pgp head link) chains := ⟨hashed.linked, hashed.members, hashed.once⟩
  have counted : Counted (pgleft s p pgp head link) fun a => byGroup s a + m a := ⟨counted.kept, counted.ref⟩
  dsimp only at done
  split at done
  case isTrue empty =>
    obtain ⟨chains', hashed', counted', only, fewer⟩ := pid_rele_done hashed counted (by rw [one]; omega) done
    have recounted : ∀ s' : State, (Counted s' (update (fun a => byGroup s a + m a) pgp (byGroup s pgp + m pgp - 1))) →
        s'.pidPglink = update s.pidPglink pgp head → Counted s' fun a => byGroup s' a + m a := by
      intro s' counted' head'
      have same : (fun a => byGroup s' a + m a) = update (fun a => byGroup s a + m a) pgp (byGroup s pgp + m pgp - 1) := by
        funext a
        by_cases here : a = pgp
        · subst here
          have none_ : byGroup s' a = 0 := by rw [byGroup, head', update_self, if_pos empty]
          rw [update_self, one, none_]
          omega
        · rw [update_of_ne here, others s' head' a here]
      rwa [same]
    rw [only] at hashed' counted' ⊢
    exact ⟨chains', _, hashed', recounted _ counted' rfl, grouped.leave group split linked elsewhere ⟨rfl, rfl, rfl, rfl⟩, rfl, rfl, fewer⟩
  case isFalse some_ =>
    have only := orphan_done done
    have recounted : ∀ s' : State, s'.pids = s.pids → s'.pidRef = s.pidRef → s'.pidPglink = update s.pidPglink pgp head →
        Counted s' fun a => byGroup s' a + m a := by
      intro s' pids refs head'
      have same : ∀ a, byGroup s' a = byGroup s a := by
        intro a
        by_cases here : a = pgp
        · rw [here, one, byGroup, head', update_self, if_neg some_]
        · exact others s' head' a here
      refine ⟨fun a => ?_, fun a there => ?_⟩
      · rw [same, pids]
        exact counted.kept a
      · rw [same, refs]
        rw [pids] at there
        exact counted.ref a there
    rw [only]
    exact ⟨chains, _, ⟨hashed.linked, hashed.members, hashed.once⟩, recounted _ rfl rfl rfl,
      grouped.leave group split linked elsewhere ⟨rfl, rfl, rfl, rfl⟩, rfl, rfl, Finset.Subset.refl _⟩

theorem pgexit_ends (grouped : Grouped s groups) (hashed : Hashed s chains) (counted : Counted s fun a => byGroup s a + m a)
    (inside : p ∈ s.procs) (group : s.pPgidp p = some pgp) (safe : pgp = pid0 → 0 < m pid0) (enough : s.procs.card + s.pids.card ≤ time) :
    ∃ s', pgexit time s p = some s' := by
  have member := (grouped.members pgp p).mpr ⟨inside, group⟩
  have short := grouped.group_length pgp
  have one := grouped.byGroup_pos inside group
  obtain ⟨⟨head, link⟩, taken⟩ := Linked.takeOut_ends (grouped.linked pgp) member (show _ ≤ time by omega)
  obtain ⟨before, after, split, linked, _⟩ := Linked.taken (grouped.linked pgp) taken
  rw [pgexit_eq group, taken, Option.bind_some]
  dsimp only
  split
  case isTrue empty =>
    have hashed : Hashed (pgleft s p pgp head link) chains := ⟨hashed.linked, hashed.members, hashed.once⟩
    have counted : Counted (pgleft s p pgp head link) fun a => byGroup s a + m a := ⟨counted.kept, counted.ref⟩
    apply pid_rele_ends hashed counted
    · rw [one]
      omega
    · intro same
      have more := safe same
      rw [← same] at more
      omega
    · have same : (pgleft s p pgp head link).pids = s.pids := rfl
      rw [same]
      omega
  case isFalse some_ =>
    unfold orphan
    split
    · exact ⟨_, rfl⟩
    · have once := (grouped.linked pgp).nodup
      rw [split] at once short
      have gone : p ∉ before ++ after := (List.nodup_middle.mp once).notMem
      have rest : Linked (pgleft s p pgp head link).pPglink ((pgleft s p pgp head link).pidPglink pgp) (before ++ after) := by
        simp only [pgleft, update_self]
        exact linked.update _ gone
      simp only [List.length_append, List.length_cons] at short
      have enough' : (before ++ after).length ≤ time := by
        rw [List.length_append]
        omega
      rcases walk_cases (pglinked (pgleft s p pgp head link)) time rest enough' with ⟨walked, _⟩ | ⟨_, _, _, _, _, walked⟩
      all_goals
        rw [walked]
        exact ⟨_, rfl⟩

end Svr4.Proofs.PidTable

/-! The slots of `procdir`, the list of processes, and the search for a pid. -/

namespace Svr4.Proofs.PidSlots
open Function Chain DoubleChain Pid PidTable

def nextFree (procdir : Nat → Procent) (slot : Nat) : Option Nat :=
  match procdir slot with
  | .peNext next => next
  | .peProc _ => none

structure Table (v : Var) (s : State) (active free : List Nat) : Prop where
  listed : Linked s.pNext s.practive active
  members : ∀ p, p ∈ active ↔ p ∈ s.procs
  nproc : s.nproc = s.procs.card
  own : ∀ p ∈ s.procs, ∀ q ∈ s.procs, s.pPidp p = s.pPidp q → p = q
  alive : ∀ p ∈ s.procs, s.pidPrinactive (s.pPidp p) = false
  slot : ∀ p ∈ s.procs, s.pidPrslot (s.pPidp p) < v.vProc ∧ s.procdir (s.pidPrslot (s.pPidp p)) = .peProc p
  chain : Linked (nextFree s.procdir) s.procentfree free
  entries : ∀ slot ∈ free, slot < v.vProc ∧ ∃ next, s.procdir slot = .peNext next
  cover : ∀ slot, slot < v.vProc → slot ∈ free ∨ ∃ p ∈ s.procs, s.pidPrslot (s.pPidp p) = slot
  count : free.length + s.nproc = v.vProc

variable {v : Var} {s s' : State} {active free : List Nat} {chains : Nat → List Nat} {n : Nat → Nat} {p time : Nat}

def SameTable (s s' : State) : Prop :=
  s'.pNext = s.pNext ∧ s'.practive = s.practive ∧ s'.procs = s.procs ∧ s'.nproc = s.nproc ∧ s'.pPidp = s.pPidp ∧
    s'.pidPrinactive = s.pidPrinactive ∧ s'.pidPrslot = s.pidPrslot ∧ s'.procdir = s.procdir ∧ s'.procentfree = s.procentfree

theorem Table.congr (table : Table v s active free) (same : SameTable s s') : Table v s' active free := by
  obtain ⟨next, practive, procs, nproc, pidp, prinactive, prslot, procdir, procentfree⟩ := same
  obtain ⟨a, b, c, d, e, f, g, h, i, j⟩ := table
  refine ⟨?_, ?_, ?_, ?_, ?_, ?_, ?_, ?_, ?_, ?_⟩
  · rwa [next, practive]
  · rwa [procs]
  · rwa [nproc, procs]
  · rwa [procs, pidp]
  · rwa [procs, pidp, prinactive]
  · rwa [procs, pidp, prslot, procdir]
  · rwa [procdir, procentfree]
  · rwa [procdir]
  · rwa [procs, pidp, prslot]
  · rwa [nproc]

theorem nextFree_update (procdir : Nat → Procent) (slot : Nat) (next : Option Nat) :
    nextFree (update procdir slot (.peNext next)) = update (nextFree procdir) slot next := by
  funext other
  by_cases here : other = slot
  · subst here
    simp [nextFree]
  · simp [nextFree, here]

theorem Table.active_length (table : Table v s active free) : active.length = s.procs.card := by
  rw [← List.toFinset_card_of_nodup table.listed.nodup]
  congr 1
  ext p
  rw [List.mem_toFinset, table.members]

theorem Table.exit (table : Table v s active free) (inside : p ∈ s.procs) {head : Option Nat} {link : Nat → Option Nat}
    (taken : takeOut time s.pNext s.practive p = some (head, link))
    (same : s'.procs = s.procs.erase p ∧ s'.nproc = s.nproc - 1 ∧ s'.pNext = link ∧ s'.practive = head ∧ s'.pPidp = s.pPidp ∧
      s'.pidPrslot = s.pidPrslot ∧ s'.pidPrinactive = update s.pidPrinactive (s.pPidp p) true ∧
      s'.procdir = update s.procdir (s.pidPrslot (s.pPidp p)) (.peNext s.procentfree) ∧
      s'.procentfree = some (s.pidPrslot (s.pPidp p))) :
    ∃ active', Table v s' active' (s.pidPrslot (s.pPidp p) :: free) := by
  obtain ⟨procs, nproc, next, practive, pidp, prslot, prinactive, procdir, procentfree⟩ := same
  obtain ⟨before, after, split, linked, _⟩ := Linked.taken table.listed taken
  have once := table.listed.nodup
  rw [split] at once
  have gone : p ∉ before ++ after := (List.nodup_middle.mp once).notMem
  obtain ⟨small, entry⟩ := table.slot p inside
  have taken_ : s.pidPrslot (s.pPidp p) ∉ free := by
    intro member
    obtain ⟨_, _, free_⟩ := table.entries _ member
    rw [entry] at free_
    cases free_
  have others : ∀ q ∈ s.procs, q ≠ p → s.pidPrslot (s.pPidp q) ≠ s.pidPrslot (s.pPidp p) := by
    intro q among apart same
    have entry' := (table.slot q among).2
    rw [same, entry] at entry'
    exact apart (Procent.peProc.inj entry').symm
  have positive : 0 < s.procs.card := Finset.card_pos.mpr ⟨p, inside⟩
  refine ⟨before ++ after, ?_, fun q => ?_, ?_, fun q first r second => ?_, fun q among => ?_, fun q among => ?_, ?_, fun slot member => ?_,
    fun slot bound => ?_, ?_⟩
  · rw [next, practive]
    exact linked
  · have members := table.members q
    rw [split] at members
    rw [procs, Finset.mem_erase, ← members]
    by_cases here : q = p
    · subst here
      simp [gone]
    · simp [here]
  · rw [nproc, procs, Finset.card_erase_of_mem inside, table.nproc]
  · rw [procs] at first second
    rw [pidp]
    exact table.own q (Finset.mem_of_mem_erase first) r (Finset.mem_of_mem_erase second)
  · rw [procs] at among
    have there := Finset.mem_of_mem_erase among
    rw [prinactive, pidp, update_of_ne]
    · exact table.alive q there
    · exact fun same => Finset.ne_of_mem_erase among (table.own q there p inside same)
  · rw [procs] at among
    have there := Finset.mem_of_mem_erase among
    rw [prslot, procdir, pidp, update_of_ne (others q there (Finset.ne_of_mem_erase among))]
    exact table.slot q there
  · rw [procdir, procentfree, nextFree_update]
    exact table.chain.push_front taken_
  · rw [procdir]
    rcases List.mem_cons.mp member with rfl | member
    · exact ⟨small, _, update_self ..⟩
    · have apart : slot ≠ s.pidPrslot (s.pPidp p) := by
        rintro rfl
        exact taken_ member
      rw [update_of_ne apart]
      exact table.entries slot member
  · rw [procs, pidp, prslot]
    rcases table.cover slot bound with member | ⟨q, among, same⟩
    · exact .inl (List.mem_cons_of_mem _ member)
    · by_cases here : q = p
      · exact .inl (by rw [← same, here]; exact List.mem_cons_self)
      · exact .inr ⟨q, Finset.mem_erase_of_ne_of_mem here among, same⟩
  · rw [nproc, List.length_cons]
    have count := table.count
    have card := table.nproc
    omega

theorem pid_lookup_done (hashed : Hashed s chains) {pid : Nat} {found : Option Nat} (done : pid_lookup time s pid = some found) :
    ∀ a, found = some a ↔ a ∈ s.pids ∧ s.pidId a = pid := by
  have linked := hashed.linked (HASHPID pid)
  have searched : found = (chains (HASHPID pid)).find? fun pidp => decide (s.pidId pidp = pid) := by
    unfold pid_lookup at done
    split at done
    case h_1 prev pidp walked =>
      split at done
      · obtain rfl := Option.some.inj done
        exact walk_find_eq linked walked
      · cases done
    case h_2 prev walked =>
      obtain rfl := Option.some.inj done
      exact walk_find_eq linked walked
    case h_3 => cases done
  intro a
  rw [searched]
  constructor
  · intro is
    have member := (hashed.members _ a).mp (List.mem_of_find?_eq_some is)
    exact ⟨member.1, by simpa using List.find?_some is⟩
  · rintro ⟨inside, id⟩
    have member : a ∈ chains (HASHPID pid) := (hashed.members _ a).mpr ⟨inside, by rw [id]⟩
    cases first : (chains (HASHPID pid)).find? fun pidp => decide (s.pidId pidp = pid) with
    | none => exact absurd id (by simpa using List.find?_eq_none.mp first a member)
    | some b =>
      have there := ((hashed.members _ b).mp (List.mem_of_find?_eq_some first)).1
      have id' : s.pidId b = pid := by simpa using List.find?_some first
      rw [hashed.once b there a inside (id'.trans id.symm)]

theorem pid_lookup_ends (hashed : Hashed s chains) (counted : Counted s n) (pid : Nat) (enough : s.pids.card ≤ time) :
    ∃ found, pid_lookup time s pid = some found := by
  have linked := hashed.linked (HASHPID pid)
  unfold pid_lookup
  rcases walk_cases (fun pidp => decide (s.pidId pidp = pid)) time linked ((hashed.chain_length _).trans enough) with
    ⟨walked, _⟩ | ⟨before, a, after, split, _, walked⟩
  · rw [walked]
    exact ⟨none, rfl⟩
  · have inside := ((hashed.members (HASHPID pid) a).mp (by rw [split]; simp)).1
    rw [walked]
    have ref : s.pidRef a > 0 := by
      rw [counted.ref a inside]
      exact (counted.kept a).mp inside
    exact ⟨some a, if_pos ref⟩

theorem prfind_done (hashed : Hashed s chains) (table : Table v s active free) (kept : ∀ p ∈ s.procs, s.pPidp p ∈ s.pids)
    (gone : ∀ a ∈ s.pids, s.pidPrinactive a = false → ∃ p ∈ s.procs, s.pPidp p = a) {pid : Nat} {found : Option Nat}
    (done : prfind time s pid = some found) (p : Nat) : found = some p ↔ p ∈ active ∧ s.pidId (s.pPidp p) = pid := by
  obtain ⟨looked, lookup, rfl⟩ := Option.map_eq_some_iff.mp done
  have search := pid_lookup_done hashed lookup
  rw [table.members]
  cases looked with
  | none =>
    simp only [reduceCtorEq, false_iff, not_and]
    intro inside id
    have found := (search (s.pPidp p)).mpr ⟨kept p inside, id⟩
    cases found
  | some a =>
    obtain ⟨inside, id⟩ := (search a).mp rfl
    dsimp only
    split
    case isTrue inactive =>
      simp only [reduceCtorEq, false_iff, not_and]
      intro among id'
      have same := (search (s.pPidp p)).mpr ⟨kept p among, id'⟩
      rw [Option.some.inj same, table.alive p among] at inactive
      cases inactive
    case isFalse active =>
      obtain ⟨q, among, rfl⟩ := gone a inside (by simpa using active)
      rw [(table.slot q among).2]
      simp only [Option.some.injEq]
      constructor
      · rintro rfl
        exact ⟨among, id⟩
      · rintro ⟨among', id'⟩
        have same := (search (s.pPidp p)).mpr ⟨kept p among', id'⟩
        exact table.own q among p among' (Option.some.inj same)

end Svr4.Proofs.PidSlots
