import Svr4.Proofs.StrqCalls

/-! What `flushq` and the removal of the same messages by `rmvq` leave of the queue behind. -/

namespace Svr4.Proofs.StrqBacks
open Function Chain DoubleChain Strq StrqPlace StrqFlush StrqPut StrqTake StrqCalls

variable {m m' : Msgb} {q' : Queue} {s : Streams} {l l' kept rest before after : List Nat} {q mp b mem time pri i : Nat} {flag : Bool}

def rmvqs (time mem : Nat) (q : Nat) : List Nat → Streams → Option Streams
  | [], s => some s
  | mp :: gone, s => (rmvq time mem s q mp).bind fun t => rmvqs time mem q gone t

theorem wanted_nil {q : Queue} : Wanted m q [] pri ↔ wantw q pri = true := by
  unfold Wanted wantw
  split_ifs
  · simp [plain]
  · simp [band, Option.any_eq_true]

theorem wanted_fewer {q : Queue} (fewer : l'.Sublist l) (wanted : Wanted m q l pri) : Wanted m q l' pri := by
  unfold Wanted at *
  split_ifs at *
  · refine ⟨wanted.1, le_trans ?_ wanted.2⟩
    exact ((fewer.filter _).map _).sum_le_sum fun _ _ => Nat.zero_le _
  · obtain ⟨b, found, waits, low⟩ := wanted
    refine ⟨b, found, waits, le_trans ?_ low⟩
    exact ((fewer.filter _).map _).sum_le_sum fun _ _ => Nat.zero_le _

theorem wanted_without {q : Queue} (p : Nat → Bool) (others : ∀ x ∈ l, p x = false → m.b_band x ≠ pri) :
    Wanted m q (kept ++ l.filter p) pri ↔ Wanted m q (kept ++ l) pri := by
  have plains : pri = 0 → plain m (kept ++ l.filter p) = plain m (kept ++ l) := by
    rintro rfl
    rw [plain, plain, List.filter_append, List.filter_append, List.filter_filter]
    congr 1
    refine List.filter_congr fun x member => ?_
    cases is : p x with
    | true => simp
    | false => simp [others x member is]
  have bands : band m pri (kept ++ l.filter p) = band m pri (kept ++ l) := by
    rw [band, band, List.filter_append, List.filter_append, List.filter_filter]
    congr 1
    refine List.filter_congr fun x member => ?_
    cases is : p x with
    | true => simp
    | false => simp [others x member is]
  unfold Wanted
  split_ifs with zero
  · rw [plains zero]
  · rw [bands]

theorem gone_band (m : Msgb) (q : Queue) (mp i : Nat) : (relieve (unlink m q mp).2 (m.b_band mp) (size m mp)).q_bandp[i]? =
    (q.q_bandp[i]?).map fun b => if m.b_band mp = i + 1 then (shortened m mp b).relieve (size m mp) else b := by
  rw [relieve_band, unlink_eq]
  dsimp only
  by_cases zero : m.b_band mp = 0
  · simp [zero]
  · rw [if_neg zero, List.getElem?_modify, Option.map_eq_map, Option.map_map]
    refine congrArg (Option.map · _) (funext fun b => ?_)
    by_cases here : m.b_band mp = i + 1
    · simp [here]
    · simp [here, show ¬m.b_band mp - 1 = i by omega]

theorem gone_marks (m : Msgb) (q : Queue) (mp : Nat) :
    let last := relieve (unlink m q mp).2 (m.b_band mp) (size m mp)
    last.qenab = q.qenab ∧ last.qi_srvp = q.qi_srvp ∧ last.q_nband = q.q_nband ∧ ∀ i, Backed last i ↔ Backed q i := by
  have each := fun i => gone_band m q mp i
  have back : (relieve (unlink m q mp).2 (m.b_band mp) (size m mp)).qback = q.qback := by
    rw [unlink_eq]
    unfold relieve
    split_ifs <;> rfl
  have nband : (relieve (unlink m q mp).2 (m.b_band mp) (size m mp)).q_nband = q.q_nband := by
    rw [(relieve_fields ..).2.2.1, unlink_eq, Queue.q_nband, Queue.q_nband]
    split_ifs <;> simp
  obtain ⟨srvp, enab⟩ := relieve_flags (unlink m q mp).2 (m.b_band mp) (size m mp)
  have same : (unlink m q mp).2.qi_srvp = q.qi_srvp ∧ (unlink m q mp).2.qenab = q.qenab := by
    rw [unlink_eq]
    exact ⟨rfl, rfl⟩
  dsimp only
  generalize relieve (unlink m q mp).2 (m.b_band mp) (size m mp) = last at *
  refine ⟨enab.trans same.2, srvp.trans same.1, nband, fun i => ?_⟩
  unfold Backed
  split_ifs
  · rw [back]
  · rw [each]
    cases q.q_bandp[i - 1]? with
    | none => rfl
    | some b =>
      simp only [Option.map_some, Option.some.injEq, exists_eq_left']
      split_ifs <;> rfl

/-- A band of which a message is gone is no longer wanted when what stays of it is not above the low water mark. -/
theorem wanted_gone {q : Queue} (queued : Queued m q (before ++ mp :: after)) (l' : List Nat) (pri : Nat) :
    Wanted (unlink m q mp).1 (relieve (unlink m q mp).2 (m.b_band mp) (size m mp)) l' pri ↔
      Wanted m q l' pri ∧ ¬ (pri = m.b_band mp ∧ Wanted m q (before ++ after) pri) := by
  have counted := ((unlinked m q mp).queued queued).counted
  have bands : (unlink m q mp).1.b_band = m.b_band := by rw [unlink_eq]
  have type : (unlink m q mp).1.db_type = m.db_type := by rw [unlink_eq]
  have cont : (unlink m q mp).1.b_cont = m.b_cont := by rw [unlink_eq]
  have sizes : size (unlink m q mp).1 = size m := by
    funext x
    rw [size, size, cont]
  have each := fun i => gone_band m q mp i
  have rest : ∀ i, m.b_band mp = i + 1 → ∀ b, q.q_bandp[i]? = some b →
      b.qb_count - size m mp = ((band m (i + 1) (before ++ after)).map (size m)).sum := by
    intro i here b is
    have count := counted.bands i _ (by rw [each, is, Option.map_some])
    rw [if_pos here, sizes, band_congr (fun b _ => congrFun type b) (fun b _ => congrFun bands b)] at count
    exact count
  rw [wanted_congr bands type cont]
  unfold Wanted
  by_cases zero : pri = 0
  · subst zero
    rw [if_pos rfl, if_pos rfl, if_pos rfl]
    have count := counted.queue
    rw [plain_congr (fun b _ => congrFun bands b), sizes] at count
    have fields : ∀ r : Queue, (relieve r (m.b_band mp) (size m mp)).q_lowat = r.q_lowat ∧
        ((relieve r (m.b_band mp) (size m mp)).qwantw = true ↔ r.qwantw = true ∧ ¬ (0 = m.b_band mp ∧
          (relieve r (m.b_band mp) (size m mp)).q_count ≤ r.q_lowat)) := by
      intro r
      unfold relieve
      by_cases plain : m.b_band mp = 0
      · simp only [plain, if_true, true_and, not_le, Bool.and_eq_true, decide_eq_true_eq]
      · simp [plain, Ne.symm plain]
    obtain ⟨lowat, waits⟩ := fields (unlink m q mp).2
    have same : (unlink m q mp).2.q_lowat = q.q_lowat ∧ (unlink m q mp).2.qwantw = q.qwantw := by
      rw [unlink_eq]
      exact ⟨rfl, rfl⟩
    rw [waits, lowat, count, same.1, same.2]
    tauto
  · rw [if_neg zero, if_neg zero, if_neg zero, each]
    cases known : q.q_bandp[pri - 1]? with
    | none => simp
    | some b =>
      by_cases here : m.b_band mp = pri - 1 + 1
      · have count := rest (pri - 1) here b known
        have own : pri = m.b_band mp := by omega
        rw [show pri - 1 + 1 = pri by omega] at count
        have waits : ((shortened m mp b).relieve (size m mp)).qb_wantw =
            (b.qb_wantw && decide (b.qb_lowat < ((band m pri (before ++ after)).map (size m)).sum)) := by rw [← count]; rfl
        have lowat : ((shortened m mp b).relieve (size m mp)).qb_lowat = b.qb_lowat := rfl
        rw [Option.map_some, if_pos here]
        simp only [Option.some.injEq, exists_eq_left']
        rw [waits, lowat, Bool.and_eq_true, decide_eq_true_eq, ← not_le]
        tauto
      · have other : pri ≠ m.b_band mp := by omega
        simp [here, other]

theorem told_iff {q : Queue} (queued : Queued m q (before ++ mp :: after)) :
    (wantw q (m.b_band mp) && !wantw (relieve (unlink m q mp).2 (m.b_band mp) (size m mp)) (m.b_band mp)) = true ↔
      Wanted m q (before ++ after) (m.b_band mp) := by
  have gone := wanted_gone queued [] (m.b_band mp)
  rw [wanted_nil, wanted_nil] at gone
  rw [Bool.and_eq_true, Bool.not_eq_true', ← Bool.not_eq_true, gone]
  have waits : Wanted m q (before ++ after) (m.b_band mp) → wantw q (m.b_band mp) = true := fun wanted =>
    wanted_nil.mp (wanted_fewer (List.nil_sublist _) wanted)
  tauto

theorem wanted_enabled (c : Bool) {q : Queue} : Wanted m (if c then qenable q else q) l pri ↔ Wanted m q l pri := by
  rw [enabled_same]
  exact Iff.rfl

theorem wanted_setqback (mem i : Nat) {q : Queue} : Wanted m (setqback mem q i) l pri ↔ Wanted m q l pri := by
  have grown : Wanted m (bands mem q i).2 l pri ↔ Wanted m q l pri := by
    rw [bands_eq]
    unfold Wanted
    split_ifs
    · rfl
    · dsimp only
      rw [List.getElem?_append]
      split_ifs with old
      · rfl
      · refine iff_of_false ?_ ?_
        · rintro ⟨b, found, waits, -⟩
          rw [List.eq_of_mem_replicate (List.mem_of_getElem? found)] at waits
          cases waits
        · rintro ⟨b, found, -⟩
          exact old (List.getElem?_eq_some_iff.mp found).1
  unfold setqback
  split_ifs
  · exact Iff.rfl
  · dsimp only
    split_ifs
    · refine Iff.trans ?_ grown
      unfold Wanted
      split_ifs
      · rfl
      · dsimp only
        rw [List.getElem?_modify]
        cases (bands mem q i).2.q_bandp[pri - 1]? with
        | none => simp
        | some b =>
          simp only [Option.map_eq_map, Option.map_some, Option.some.injEq, exists_eq_left']
          split_ifs <;> rfl
    · exact grown

theorem setqback_backed (mem pri : Nat) {q : Queue} (within : i ≤ q.q_nband) : Backed (setqback mem q pri) i ↔ Backed q i ∨ i = pri := by
  unfold setqback
  by_cases zero : pri = 0
  · rw [if_pos zero]
    unfold Backed
    split_ifs with first
    · simp [first, zero]
    · simp [show i ≠ pri by omega]
  rw [if_neg zero, bands_eq]
  have old : i ≠ 0 → i - 1 < q.q_bandp.length := fun _ => by
    have : q.q_nband = q.q_bandp.length := rfl
    omega
  dsimp only
  split_ifs with enough
  · unfold Backed
    split_ifs with first
    · simp [show i ≠ pri by omega]
    · dsimp only
      rw [List.getElem?_modify, List.getElem?_append_left (old first), List.getElem?_eq_getElem (old first)]
      by_cases here : i = pri
      · simp [here]
      · simp [here, show ¬pri - 1 = i - 1 by omega]
  · have other : i ≠ pri := by
      rintro rfl
      exact enough (decide_eq_true (by omega))
    unfold Backed
    split_ifs with first
    · simp [other]
    · dsimp only
      rw [List.getElem?_append_left (old first)]
      simp [other]

theorem setqback_fields (mem pri : Nat) (q : Queue) : (setqback mem q pri).qenab = q.qenab ∧ q.q_nband ≤ (setqback mem q pri).q_nband := by
  refine ⟨?_, (quiet_setqback mem pri q).onward.nband⟩
  unfold setqback
  rw [bands_eq]
  split_ifs
  · rfl
  · dsimp only
    split_ifs <;> rfl

structure Removed (time : Nat) (q b : Nat) (s t : Streams) (l : List Nat) (told : Nat → Prop) : Prop where
  queued : Queued t.msgb (t.queue q) l
  band : t.msgb.b_band = s.msgb.b_band
  type : t.msgb.db_type = s.msgb.db_type
  behind : nearest time t q = some (some b)
  enabled : (t.queue b).qenab = true ↔ (s.queue b).qenab = true ∨ ∃ pri, told pri
  backed : ∀ pri ≤ (s.queue b).q_nband, Backed (t.queue b) pri ↔ Backed (s.queue b) pri ∨ told pri
  nband : (s.queue b).q_nband ≤ (t.queue b).q_nband

theorem rmvq_removed (mem : Nat) (queued : Queued s.msgb (s.queue q) (before ++ mp :: after)) (found : nearest time s q = some (some b)) :
    ∃ t, rmvq time mem s q mp = some t ∧
      Removed time q b s t (before ++ after) (fun pri => pri = s.msgb.b_band mp ∧ Wanted s.msgb (s.queue q) (before ++ after) pri) ∧
      ∀ l pri, Wanted t.msgb (t.queue q) l pri ↔
        Wanted s.msgb (s.queue q) l pri ∧ ¬ (pri = s.msgb.b_band mp ∧ Wanted s.msgb (s.queue q) (before ++ after) pri) := by
  have left := (unlinked s.msgb (s.queue q) mp).queued queued
  have less := wanted_gone queued
  have told := told_iff queued
  obtain ⟨enab, srvp, nband, backs⟩ := gone_marks s.msgb (s.queue q) mp
  have band : (unlink s.msgb (s.queue q) mp).1.b_band = s.msgb.b_band := by rw [unlink_eq]
  have type : (unlink s.msgb (s.queue q) mp).1.db_type = s.msgb.db_type := by rw [unlink_eq]
  unfold rmvq
  dsimp only
  generalize relieve (unlink s.msgb (s.queue q) mp).2 (s.msgb.b_band mp) (size s.msgb mp) = last at *
  -- the queue behind is another one, or the same after the message has left it
  have alike : (update s.queue q last b).qenab = (s.queue b).qenab ∧ (update s.queue q last b).q_nband = (s.queue b).q_nband ∧
      ∀ i, Backed (update s.queue q last b) i ↔ Backed (s.queue b) i := by
    by_cases same : b = q
    · subst same
      rw [update_self]
      exact ⟨enab, nband, backs⟩
    · rw [update_of_ne same]
      exact ⟨rfl, rfl, fun _ => Iff.rfl⟩
  have services := (forall_update_iff s.queue fun c q' => q'.qi_srvp = (s.queue c).qi_srvp).mpr ⟨srvp, fun _ _ => rfl⟩
  have near : ∀ msgb, nearest time { s with msgb := msgb, queue := update s.queue q last } q = some (some b) := by
    intro msgb
    rw [← found]
    apply nearest_congr
    · rfl
    · rfl
    · exact services
  obtain ⟨enab', nband', backs'⟩ := alike
  by_cases wanted : Wanted s.msgb (s.queue q) (before ++ after) (s.msgb.b_band mp)
  · have marked : ∀ pri, (pri = s.msgb.b_band mp ∧ Wanted s.msgb (s.queue q) (before ++ after) pri) ↔ pri = s.msgb.b_band mp := by
      intro pri
      refine and_iff_left_of_imp ?_
      rintro rfl
      exact wanted
    rw [if_pos (told.mpr wanted), near, Option.map_some]
    refine ⟨_, rfl, ?_⟩
    dsimp only [backenable, List.foldl_cons, List.foldl_nil]
    generalize is : update s.queue q last = r at *
    have mine : r q = last := by rw [← is, update_self]
    have runs : (qenable (r b)).qenab = true := by rw [qenable, if_pos ((services b).trans (nearest_srvp found))]
    have size_ : (qenable (r b)).q_nband = (s.queue b).q_nband := by
      rw [← nband']
      unfold qenable
      split_ifs <;> rfl
    have quiet : Quiet (r b) (setqback mem (qenable (r b)) (s.msgb.b_band mp)) := (quiet_enabled true (r b)).trans (quiet_setqback ..)
    obtain ⟨still, more⟩ := setqback_fields mem (s.msgb.b_band mp) (qenable (r b))
    have queue : ∀ c, update r b (setqback mem (qenable (r b)) (s.msgb.b_band mp)) c = r c ∨
        c = b ∧ update r b (setqback mem (qenable (r b)) (s.msgb.b_band mp)) c = setqback mem (qenable (r b)) (s.msgb.b_band mp) := by
      intro c
      by_cases here : c = b
      · exact .inr ⟨here, by rw [here, update_self]⟩
      · exact .inl (update_of_ne here ..)
    refine ⟨⟨?_, band, type, ?_, ?_, fun i within => ?_, ?_⟩, fun l pri => ?_⟩
    · dsimp only
      rcases queue q with same | ⟨here, same⟩
      · rw [same, mine]
        exact left
      · rw [same]
        exact quiet.queued (here ▸ mine ▸ left)
    · rw [← found]
      apply nearest_congr
      · rfl
      · rfl
      · intro c
        dsimp only
        rcases queue c with same | ⟨here, same⟩
        · rw [same, services]
        · rw [same, quiet.onward.srvp, services, here]
    · dsimp only
      rw [update_self, still, runs]
      exact iff_of_true rfl (.inr ⟨_, rfl, wanted⟩)
    · dsimp only
      rw [update_self, setqback_backed mem _ (by rw [size_]; exact within), marked, ← backs']
      unfold qenable
      split_ifs <;> rfl
    · dsimp only
      rw [update_self, ← size_]
      exact more
    · rw [← less]
      show Wanted _ (update r b _ q) l pri ↔ _
      rcases queue q with same | ⟨here, same⟩
      · rw [same, mine]
      · rw [same, wanted_setqback, ← here, mine]
        exact wanted_enabled true
  · have none_ : ¬ ∃ pri, pri = s.msgb.b_band mp ∧ Wanted s.msgb (s.queue q) (before ++ after) pri := by
      rintro ⟨pri, rfl, is⟩
      exact wanted is
    rw [if_neg (fun is => wanted (told.mp is))]
    refine ⟨_, rfl, ⟨?_, band, type, near _, ?_, fun i _ => ?_, nband'.ge⟩, fun l pri => ?_⟩
    · show Queued _ (update s.queue q last q) _
      rw [update_self]
      exact left
    · rw [enab']
      exact (or_iff_left none_).symm
    · rw [backs']
      exact (or_iff_left fun is => none_ ⟨i, is⟩).symm
    · rw [← less]
      show Wanted _ (update s.queue q last q) l pri ↔ _
      rw [update_self]

def Leaves (flag : Bool) (m : Msgb) (l : List Nat) (pri : Nat) : Prop := ∃ x ∈ l, stays flag m x = false ∧ m.b_band x = pri

theorem rmvqs_removed (mem : Nat) (flag : Bool) (queued : Queued s.msgb (s.queue q) (kept ++ l)) (found : nearest time s q = some (some b)) :
    ∃ t, rmvqs time mem q (l.filter fun x => !stays flag s.msgb x) s = some t ∧
      Removed time q b s t (kept ++ l.filter (stays flag s.msgb)) fun pri =>
        Leaves flag s.msgb l pri ∧ Wanted s.msgb (s.queue q) (kept ++ l.filter (stays flag s.msgb)) pri := by
  induction l generalizing s kept with
  | nil =>
    refine ⟨s, rfl, queued, rfl, rfl, found, ?_, fun i _ => ?_, le_rfl⟩
    · simp [Leaves]
    · simp [Leaves]
  | cons x l ih =>
    cases is : stays flag s.msgb x with
    | true =>
      have shape : kept ++ x :: l = kept ++ [x] ++ l := by simp
      obtain ⟨t, ran, removed⟩ := ih (shape ▸ queued) found
      have same : ∀ pri, Leaves flag s.msgb (x :: l) pri ↔ Leaves flag s.msgb l pri := fun pri => by simp [Leaves, is]
      refine ⟨t, ?_, ?_⟩
      · rw [List.filter_cons_of_neg (by simp [is])]
        exact ran
      · simp only [same]
        rw [List.filter_cons_of_pos is]
        rwa [List.append_assoc] at removed
    | false =>
      obtain ⟨u, took, removed, less⟩ := rmvq_removed mem queued found
      have alike : stays flag u.msgb = stays flag s.msgb := by
        funext y
        rw [stays, stays, removed.type]
      obtain ⟨t, ran, removed'⟩ := ih removed.queued removed.behind
      rw [alike] at ran removed'
      rw [List.filter_cons_of_pos (by simp [is]), List.filter_cons_of_neg (by simp [is])]
      have same : ∀ pri, Leaves flag u.msgb l pri ↔ Leaves flag s.msgb l pri := fun pri => by
        rw [Leaves, Leaves, alike, removed.band]
      -- a band is wanted after its last message is gone, if it is wanted in the end
      have either : ∀ pri, ((pri = s.msgb.b_band x ∧ Wanted s.msgb (s.queue q) (kept ++ l) pri) ∨
          (Leaves flag u.msgb l pri ∧ Wanted u.msgb (u.queue q) (kept ++ l.filter (stays flag s.msgb)) pri)) ↔
          Leaves flag s.msgb (x :: l) pri ∧ Wanted s.msgb (s.queue q) (kept ++ l.filter (stays flag s.msgb)) pri := by
        intro pri
        have fewer : Wanted s.msgb (s.queue q) (kept ++ l) pri → Wanted s.msgb (s.queue q) (kept ++ l.filter (stays flag s.msgb)) pri :=
          wanted_fewer (List.Sublist.append_left List.filter_sublist kept)
        have first : Leaves flag s.msgb (x :: l) pri ↔ pri = s.msgb.b_band x ∨ Leaves flag s.msgb l pri := by
          rw [Leaves, List.exists_mem_cons_iff, Leaves, eq_comm (a := pri)]
          simp only [is, true_and]
        have others : ¬ Leaves flag s.msgb l pri → Wanted s.msgb (s.queue q) (kept ++ l.filter (stays flag s.msgb)) pri →
            Wanted s.msgb (s.queue q) (kept ++ l) pri := fun none_ =>
          (wanted_without _ fun y member gone own => none_ ⟨y, member, gone, own⟩).mp
        rw [same, less, first]
        tauto
      refine ⟨t, by rw [rmvqs, took, Option.bind_some, ran], removed'.queued, removed'.band.trans removed.band,
        removed'.type.trans removed.type, removed'.behind, ?_, fun i within => ?_, removed.nband.trans removed'.nband⟩
      · rw [removed'.enabled, removed.enabled, or_assoc, ← exists_or]
        simp only [either]
      · rw [removed'.backed i (within.trans removed.nband), removed.backed i within, or_assoc, either]

/-- The queue behind is enabled and marked for each band that is wanted after `flushq`, and is so as well after `rmvq` of the
same messages, exactly when it has these bands and each of them has a message removed, or its mark already. -/
theorem flushq_backs (mem : Nat) (flag : Bool) (queued : Queued s.msgb (s.queue q) l) (found : nearest time s q = some (some b))
    (enough : l.length ≤ time) :
    ∃ t u, flushq time mem s q flag = some t ∧ rmvqs time mem q (l.filter fun x => !stays flag s.msgb x) s = some u ∧
      ((∀ pri, Wanted s.msgb (s.queue q) (l.filter (stays flag s.msgb)) pri →
          ((t.queue b).qenab = true ∧ Backed (t.queue b) pri) ∧ (u.queue b).qenab = true ∧ Backed (u.queue b) pri) ↔
        ∀ pri, Wanted s.msgb (s.queue q) (l.filter (stays flag s.msgb)) pri → pri ≤ (s.queue b).q_nband ∧
          (Leaves flag s.msgb l pri ∨ Backed (s.queue b) pri ∧ ((s.queue b).qenab = true ∨
            ∃ i, Leaves flag s.msgb l i ∧ Wanted s.msgb (s.queue q) (l.filter (stays flag s.msgb)) i))) := by
  obtain ⟨t, flushed, marks⟩ := flushq_marks mem flag queued found enough
  obtain ⟨u, ran, removed⟩ := rmvqs_removed mem flag (show Queued s.msgb (s.queue q) ([] ++ l) from queued) found
  refine ⟨t, u, flushed, ran, ?_⟩
  have enabled := removed.enabled
  have backed := removed.backed
  simp only [List.nil_append] at enabled backed
  generalize l.filter (stays flag s.msgb) = rest at *
  refine forall_congr' fun pri => imp_congr_right fun want => ?_
  obtain ⟨enab, back⟩ := marks pri want
  rw [back, enabled]
  constructor
  · rintro ⟨⟨_, within⟩, runs, marked⟩
    refine ⟨within, ?_⟩
    rcases (backed pri within).mp marked with before | told
    · exact .inr ⟨before, runs⟩
    · exact .inl told.1
  · rintro ⟨within, reason⟩
    rw [backed pri within]
    rcases reason with leaves | ⟨before, runs⟩
    · exact ⟨⟨enab, within⟩, .inr ⟨pri, leaves, want⟩, .inr ⟨leaves, want⟩⟩
    · exact ⟨⟨enab, within⟩, runs, .inl before⟩

/-- Writers wait for both bands of a queue with a message of band one, one of band zero, and one that is not data. -/
def waiting (behind : List Qband) : Streams where
  msgb := ⟨fun b => if b < 2 then some (b + 1) else none, fun b => if b = 0 then none else some (b - 1), fun b => if b = 0 then 1 else 0,
    fun b => if b = 2 then 0x0d else M_DATA, fun b => if b = 2 then [2] else [9]⟩
  queue q :=
    if q = 0 then ⟨some 0, some 2, 11, 9, 3, [⟨9, some 0, some 0, 9, 3, true, true, false⟩], true, true, false, false, true, false, false⟩
    else ⟨none, none, 0, 9, 3, behind, true, false, false, false, false, false, false⟩
  q_next q := if q = 1 then some 3 else none
  otherq q := if q % 2 = 0 then q + 1 else q - 1

theorem waiting_queued (behind : List Qband) : Queued (waiting behind).msgb ((waiting behind).queue 0) [0, 1, 2] := by
  have ends : ∀ (i : Nat) (b : Qband), ((waiting behind).queue 0).q_bandp[i]? = some b → i = 0 ∧ b = ⟨9, some 0, some 0, 9, 3, true, true, false⟩ := by
    intro i b is
    cases i with
    | zero =>
      cases is
      exact ⟨rfl, rfl⟩
    | succ i => cases is
  have low : ∀ b, Ordinary (waiting behind).msgb b := by
    intro b
    show (if b = 2 then 0x0d else M_DATA) < QPCTL
    split_ifs <;> decide
  refine ⟨⟨⟨rfl, rfl, rfl, rfl⟩, ⟨rfl, rfl, rfl, rfl⟩⟩, rfl, ?_, fun b _ high => absurd (low b) high, ?_, fun i b is => ?_, rfl, fun i b is => ?_⟩
  · simp [Before, Ordinary, waiting, QPCTL, M_DATA]
  · intro b _
    show (if b = 0 then 1 else 0) ≤ 1
    split_ifs <;> decide
  · obtain ⟨rfl, rfl⟩ := ends i b is
    exact ⟨rfl, rfl⟩
  · obtain ⟨rfl, rfl⟩ := ends i b is
    rfl

def vacant : Qband := ⟨0, none, none, 9, 3, false, false, false⟩

theorem flushq_backs_waiting : ∃ t u, flushq 3 1 (waiting [vacant]) 0 false = some t ∧
    rmvqs 3 1 0 ([0, 1, 2].filter fun x => !stays false (waiting [vacant]).msgb x) (waiting [vacant]) = some u ∧
    ((∀ pri, Wanted (waiting [vacant]).msgb ((waiting [vacant]).queue 0) ([0, 1, 2].filter (stays false (waiting [vacant]).msgb)) pri →
        ((t.queue 2).qenab = true ∧ Backed (t.queue 2) pri) ∧ (u.queue 2).qenab = true ∧ Backed (u.queue 2) pri) ↔
      ∀ pri, Wanted (waiting [vacant]).msgb ((waiting [vacant]).queue 0) ([0, 1, 2].filter (stays false (waiting [vacant]).msgb)) pri →
        pri ≤ ((waiting [vacant]).queue 2).q_nband ∧
        (Leaves false (waiting [vacant]).msgb [0, 1, 2] pri ∨
          Backed ((waiting [vacant]).queue 2) pri ∧ (((waiting [vacant]).queue 2).qenab = true ∨
            ∃ i, Leaves false (waiting [vacant]).msgb [0, 1, 2] i ∧
              Wanted (waiting [vacant]).msgb ((waiting [vacant]).queue 0) ([0, 1, 2].filter (stays false (waiting [vacant]).msgb)) i))) :=
  flushq_backs 1 false (waiting_queued [vacant]) rfl le_rfl

/-- After `flushq` the queue behind, which has no bands, is not marked for band one; after `rmvq` of the same messages it is. -/
theorem flushq_forgets_band : nearest 3 (waiting []) 0 = some (some 2) ∧
    Wanted (waiting []).msgb ((waiting []).queue 0) ([0, 1, 2].filter (stays false (waiting []).msgb)) 1 ∧
    (∃ t, flushq 3 1 (waiting []) 0 false = some t ∧ (t.queue 2).qenab = true ∧ ¬ Backed (t.queue 2) 1) ∧
    ∃ t, rmvqs 3 1 0 ([0, 1, 2].filter fun x => !stays false (waiting []).msgb x) (waiting []) = some t ∧
      (t.queue 2).qenab = true ∧ Backed (t.queue 2) 1 := by
  refine ⟨rfl, ⟨_, rfl, rfl, by decide⟩, ⟨_, rfl, rfl, ?_⟩, ⟨_, rfl, rfl, ?_⟩⟩
  · rintro ⟨b, found, _⟩
    cases found
  · exact ⟨_, rfl, rfl⟩

end Svr4.Proofs.StrqBacks
