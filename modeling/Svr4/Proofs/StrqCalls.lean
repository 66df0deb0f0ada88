import Svr4.Proofs.StrqTake

/-! The calls on the queues of the streams, in any order. Every queue keeps its messages, its counts and its flags right,
no writer is forgotten, and each call does to the messages of a queue what it says. -/

namespace Svr4.Proofs.StrqCalls
open Function Chain DoubleChain Strq StrqPlace StrqFlush StrqPut StrqTake Library.Ranked

variable {m m' : Msgb} {q' last : Queue} {s t u : Streams} {l l' l'' : Nat → List Nat} {kept rest before after : List Nat} {floor : Nat → Nat}
  {q c mp bp b mem time pri : Nat} {flag told : Bool} {noget : Nat → Bool}

/-- Each queue has its messages, and no message is on two of them. -/
structure Sound (s : Streams) (l : Nat → List Nat) : Prop where
  queued : ∀ q, Queued s.msgb (s.queue q) (l q)
  flows : ∀ q, Flows 0 (s.queue q)
  apart : ∀ q c, q ≠ c → ∀ b ∈ l q, b ∉ l c

structure Later (time : Nat) (s t : Streams) : Prop where
  next : t.q_next = s.q_next
  other : t.otherq = s.otherq
  srvp : ∀ q, (t.queue q).qi_srvp = (s.queue q).qi_srvp
  enab : ∀ q, (s.queue q).qenab = true → (t.queue q).qenab = true
  told : ∀ q pri b, wantw (s.queue q) pri = true → wantw (t.queue q) pri = false → nearest time s q = some (some b) →
    (t.queue b).qenab = true

theorem Later.refl (s : Streams) : Later time s s :=
  ⟨rfl, rfl, fun _ => rfl, fun _ => id, fun q pri b waits gone => by rw [waits] at gone; cases gone⟩

theorem Later.nearest (later : Later time s t) (n q : Nat) : nearest n t q = nearest n s q := nearest_congr later.next later.other later.srvp q

theorem Later.trans (first : Later time s t) (second : Later time t u) : Later time s u := by
  refine ⟨second.next.trans first.next, second.other.trans first.other, fun q => (second.srvp q).trans (first.srvp q),
    fun q runs => second.enab q (first.enab q runs), fun q pri b waits gone found => ?_⟩
  cases still : wantw (t.queue q) pri with
  | true => exact second.told q pri b still gone ((first.nearest time q).trans found)
  | false => exact second.enab b (first.told q pri b waits still found)

structure Done (time : Nat) (s t : Streams) (l : Nat → List Nat) : Prop where
  sound : Sound t l
  later : Later time s t
  rank : rank t.msgb = rank s.msgb
  type : t.msgb.db_type = s.msgb.db_type

theorem Done.trans (first : Done time s t l) (second : Done time t u l') : Done time s u l' :=
  ⟨second.sound, first.later.trans second.later, second.rank.trans first.rank, second.type.trans first.type⟩

theorem Queued.flags {q : Queue} {l : List Nat} (queued : Queued m q l) (first : q'.q_first = q.q_first) (last : q'.q_last = q.q_last)
    (count : q'.q_count = q.q_count)
    (bands : q'.q_bandp.map (fun b => (b.qb_first, b.qb_last, b.qb_count)) = q.q_bandp.map fun b => (b.qb_first, b.qb_last, b.qb_count)) :
    Queued m q' l := by
  have nband : q'.q_nband = q.q_nband := by simpa [Queue.q_nband] using congrArg List.length bands
  have each : ∀ (i : Nat) (b : Qband), q'.q_bandp[i]? = some b → ∃ old, q.q_bandp[i]? = some old ∧ b.qb_first = old.qb_first ∧ b.qb_last = old.qb_last ∧
      b.qb_count = old.qb_count := by
    intro i b is
    have same := congrArg (fun l => l[i]?) bands
    simp only [List.getElem?_map, is, Option.map_some] at same
    obtain ⟨old, found, equal⟩ := Option.map_eq_some_iff.mp same.symm
    obtain ⟨equal, rest⟩ := Prod.mk.inj equal
    obtain ⟨equal', equal''⟩ := Prod.mk.inj rest
    exact ⟨old, found, equal.symm, equal'.symm, equal''.symm⟩
  refine ⟨first ▸ queued.list, last ▸ queued.last, queued.ordered, queued.high, fun b member => nband ▸ queued.within b member,
    fun i b is => ?_, count ▸ queued.counted.queue, fun i b is => ?_⟩
  · obtain ⟨old, found, first, last, -⟩ := each i b is
    rw [first, last]
    exact queued.banded i old found
  · obtain ⟨old, found, -, -, count⟩ := each i b is
    rw [count]
    exact queued.counted.bands i old found

theorem map_modify {α β : Type*} {f : α → α} {g : α → β} (keeps : ∀ a, g (f a) = g a) (l : List α) (i : Nat) : (l.modify i f).map g = l.map g := by
  refine List.ext_getElem? fun j => ?_
  rw [List.getElem?_map, List.getElem?_map, List.getElem?_modify]
  cases l[j]? with
  | none => rfl
  | some a =>
    by_cases here : i = j <;> simp [here, keeps]

structure Quiet (q q' : Queue) : Prop where
  queued : ∀ {m l}, Queued m q l → Queued m q' l
  flows : Flows 0 q → Flows 0 q'
  onward : Onward q q'

theorem Quiet.trans {q q'' : Queue} (first : Quiet q q') (second : Quiet q' q'') : Quiet q q'' :=
  ⟨fun queued => second.queued (first.queued queued), fun flows => second.flows (first.flows flows), first.onward.trans second.onward⟩

theorem quiet_enabled (c : Bool) (q : Queue) : Quiet q (if c then qenable q else q) :=
  ⟨fun queued => Queued.enabled queued c, fun flows => flows.enabled c, onward_enabled c q⟩

theorem quiet_setqback (mem pri : Nat) (q : Queue) : Quiet q (setqback mem q pri) := by
  have grown : Quiet q (bands mem q pri).2 := ⟨fun queued => queued.bands mem pri, fun flows => flows.bands_more mem pri, onward_bands mem q pri⟩
  unfold setqback
  split_ifs
  · exact ⟨fun queued => Queued.flags queued rfl rfl rfl rfl, fun flows => ⟨flows.queue, flows.bands⟩, rfl, id, le_rfl, fun _ => id⟩
  · dsimp only
    split_ifs
    · refine grown.trans ⟨fun queued => Queued.flags queued rfl rfl rfl ?_, fun flows => flows.modify ?_, rfl, id, ?_, fun pri waits => ?_⟩
      · refine map_modify ?_ _ _
        exact fun _ => rfl
      · exact fun _ _ level => level
      · simp [Queue.q_nband]
      · refine (wantw_modify ?_ _ _).trans waits
        exact fun _ _ => rfl
    · exact grown

theorem quiet_foldl (mem : Nat) (pris : List Nat) (q : Queue) : Quiet q (pris.foldl (setqback mem) q) := by
  induction pris generalizing q with
  | nil => exact ⟨id, id, Onward.refl q⟩
  | cons pri pris ih => exact (quiet_setqback mem pri q).trans (ih _)

theorem Sound.changed {t : List Nat} (sound : Sound s l) (queued : Queued m' q' kept) (flows : Flows 0 q') (alone : Local s.msgb m' t)
    (others : ∀ c, c ≠ q → ∀ b ∈ l c, b ∉ t) (inside : ∀ b ∈ kept, b ∈ t) :
    Sound { s with msgb := m', queue := update s.queue q q' } (update l q kept) := by
  refine ⟨?_, ?_, fun c d differ b member => ?_⟩
  · refine (forall_update_iff s.queue fun c q' => Queued m' q' (update l q kept c)).mpr ⟨by rwa [update_self], fun c other => ?_⟩
    rw [update_of_ne other]
    exact Queued.elsewhere (sound.queued c) fun b member => alone.alike (others c other b member)
  · exact (forall_update_iff s.queue fun _ q' => Flows 0 q').mpr ⟨flows, fun c _ => sound.flows c⟩
  · by_cases here : c = q
    · have there : d ≠ q := fun is => differ (here.trans is.symm)
      rw [here, update_self] at member
      rw [update_of_ne there]
      exact fun also => others d there b also (inside b member)
    · rw [update_of_ne here] at member
      by_cases there : d = q
      · rw [there, update_self]
        exact fun also => others c here b member (inside b also)
      · rw [update_of_ne there]
        exact sound.apart c d differ b member

theorem Later.onward (onward : Onward (s.queue q) q') (m' : Msgb) : Later time s { s with msgb := m', queue := update s.queue q q' } := by
  have each := (forall_update_iff s.queue fun c q' => Onward (s.queue c) q').mpr ⟨onward, fun c _ => Onward.refl _⟩
  refine ⟨rfl, rfl, fun c => (each c).srvp, fun c => (each c).enab, fun c pri b waits gone => ?_⟩
  rw [show wantw (update s.queue q q' c) pri = true from (each c).wants pri waits] at gone
  cases gone

theorem Sound.quiet (sound : Sound s l) (quiet : Quiet (s.queue q) q') :
    Done time s { s with queue := update s.queue q q' } l := by
  have done := sound.changed (q := q) (quiet.queued (sound.queued q)) (quiet.flows (sound.flows q)) (Local.refl s.msgb (l q))
    (fun c other b member => sound.apart c q other b member) fun b member => member
  rw [update_eq_self] at done
  exact ⟨done, Later.onward quiet.onward s.msgb, rfl, rfl⟩

def tell (time mem : Nat) (s : Streams) (q : Nat) (told : Bool) (pris : Option Nat → List Nat) : Option Streams :=
  if told then (nearest time s q).map fun b => backenable mem s b (pris b) else some s

theorem tell_done (mem : Nat) (told : Bool) (pris : Option Nat → List Nat) (sound : Sound s l) (ends : (nearest time s q).isSome = true) :
    ∃ t, tell time mem s q told pris = some t ∧ Done time s t l ∧ t.msgb = s.msgb ∧
      (told = true → ∀ b, nearest time s q = some (some b) → (t.queue b).qenab = true) := by
  have still : Done time s s l := ⟨sound, Later.refl s, rfl, rfl⟩
  obtain ⟨behind, found⟩ := Option.isSome_iff_exists.mp ends
  cases told with
  | false => exact ⟨s, rfl, still, rfl, nofun⟩
  | true =>
    refine ⟨_, by rw [tell, if_pos rfl, found, Option.map_some], ?_⟩
    cases behind with
    | none => exact ⟨still, rfl, fun _ b is => by rw [found] at is; cases is⟩
    | some b =>
      have enabled : (qenable (s.queue b)).qenab = true := by rw [qenable, if_pos (nearest_srvp found)]
      have quiet := (quiet_enabled true (s.queue b)).trans (quiet_foldl mem (pris (some b)) _)
      refine ⟨sound.quiet quiet, rfl, fun _ c is => ?_⟩
      obtain rfl : b = c := by simpa [found] using is
      simp only [backenable, update_self]
      exact (quiet_foldl mem (pris (some b)) _).onward.enab enabled

theorem taken_done (mem : Nat) (told : Bool) (pris : Option Nat → List Nat) (sound : Sound s l) (ends : (nearest time s q).isSome = true)
    (queued : Queued m' last kept) (flows : Flows 0 last) (alone : Local s.msgb m' (l q)) (less : ∀ b ∈ kept, b ∈ l q)
    (srvp : last.qi_srvp = (s.queue q).qi_srvp) (enab : (s.queue q).qenab = true → last.qenab = true)
    (clears : ∀ pri, wantw (s.queue q) pri = true → wantw last pri = false → told = true) :
    ∃ t, tell time mem { s with msgb := m', queue := update s.queue q last } q told pris = some t ∧ Done time s t (update l q kept) ∧ t.msgb = m' := by
  have sound' := sound.changed queued flows alone (fun c other b member => sound.apart c q other b member) less
  have same := (forall_update_iff s.queue fun c q' => q'.qi_srvp = (s.queue c).qi_srvp).mpr ⟨srvp, fun _ _ => rfl⟩
  have runs := (forall_update_iff s.queue fun c q' => (s.queue c).qenab = true → q'.qenab = true).mpr ⟨enab, fun _ _ => id⟩
  have alike : ∀ c, nearest time { s with msgb := m', queue := update s.queue q last } c = nearest time s c := nearest_congr rfl rfl same
  obtain ⟨t, is, done, msgb, informed⟩ := tell_done mem told pris sound' ((alike q).symm ▸ ends)
  refine ⟨t, is, ⟨done.sound, ⟨done.later.next, done.later.other, fun c => (done.later.srvp c).trans (same c),
    fun c enabled => done.later.enab c (runs c enabled), fun c pri b waits gone found => ?_⟩, done.rank.trans alone.rank, done.type.trans alone.type⟩, msgb⟩
  cases still : wantw (update s.queue q last c) pri with
  | true => exact done.later.told c pri b still gone ((alike c).trans found)
  | false =>
    by_cases here : c = q
    · subst here
      rw [update_self] at still
      exact informed (clears pri waits still) b ((alike c).trans found)
    · rw [update_of_ne here, waits] at still
      cases still

theorem relieve_flags (q : Queue) (pri n : Nat) : (relieve q pri n).qi_srvp = q.qi_srvp ∧ (relieve q pri n).qenab = q.qenab := by
  unfold relieve
  split_ifs <;> exact ⟨rfl, rfl⟩

theorem gone_done {r : Msgb × Queue} (mem : Nat) (sound : Sound s l) (ends : (nearest time s q).isSome = true)
    (place : l q = before ++ mp :: after) (gone : Unlinked s.msgb (s.queue q) mp r)
    (is : relieve r.2 (s.msgb.b_band mp) (size s.msgb mp) = last) :
    ∃ t, tell time mem { s with msgb := r.1, queue := update s.queue q last } q
        (wantw (s.queue q) (s.msgb.b_band mp) && !wantw last (s.msgb.b_band mp)) (fun _ => [s.msgb.b_band mp]) = some t ∧
      Done time s t (update l q (before ++ after)) ∧ t.msgb = r.1 := by
  have queued := place ▸ sound.queued q
  have onward := gone.onward
  obtain ⟨srvp, enab⟩ := is ▸ relieve_flags r.2 (s.msgb.b_band mp) (size s.msgb mp)
  refine taken_done mem _ _ sound ends (is ▸ gone.queued queued) (is ▸ gone.flows (sound.flows q) ..) ?_ (fun b member => ?_)
    (srvp.trans onward.srvp) (fun runs => enab.trans (onward.enab runs)) fun pri waits over_ => ?_
  · rw [gone.msgb, place]
    exact unlink_local queued (by simp)
  · rw [place]
    rcases List.mem_append.mp member with early | late <;> simp [*]
  · by_cases same : pri = s.msgb.b_band mp
    · simp [← same, waits, over_]
    · rw [← is, wantw_relieve _ same, onward.wants pri waits] at over_
      cases over_

theorem erase_middle (once : (before ++ mp :: after).Nodup) : (before ++ mp :: after).erase mp = before ++ after := by
  have apart : mp ∉ before := fun early => (List.nodup_append.mp once).2.2 mp early mp (by simp) rfl
  rw [List.erase_append_right _ apart, List.erase_cons_head]

theorem rmvq_done (mem : Nat) (sound : Sound s l) (ends : (nearest time s q).isSome = true) (there : mp ∈ l q) :
    ∃ t, rmvq time mem s q mp = some t ∧ Done time s t (update l q ((l q).erase mp)) ∧ t.msgb = (unlink s.msgb (s.queue q) mp).1 := by
  obtain ⟨before, after, place⟩ := List.append_of_mem there
  have once := place ▸ (sound.queued q).list.nodup
  rw [place, erase_middle once]
  exact gone_done mem sound ends place (unlinked ..) rfl

theorem walk_find (stop : Nat → Bool) {next : Nat → Option Nat} {p : Option Nat} {l : List Nat} (linked : Linked next p l) (enough : l.length ≤ time) :
    ∃ prev, walk stop next time none p = some (prev, l.find? stop) := by
  cases first : l.find? stop with
  | none => exact ⟨_, walk_none stop time linked (by simpa using List.find?_eq_none.mp first) enough⟩
  | some a =>
    obtain ⟨stops, before, after, rfl, passes⟩ := List.find?_eq_some_iff_append.mp first
    rw [List.length_append, List.length_cons] at enough
    exact ⟨_, walk_found stop time linked (by simpa using passes) stops (by omega)⟩

theorem getq_done (mem : Nat) (noget : Nat → Bool) (sound : Sound s l) (ends : (nearest time s q).isSome = true) (enough : (l q).length ≤ time) :
    ∃ t, getq time mem noget s q = some ((l q).find? fun b => !noget b, t) ∧
      Done time s t (update l q (((l q).find? fun b => !noget b).elim (l q) (l q).erase)) := by
  have queued := sound.queued q
  have first := Linked.head queued.list.forward
  unfold getq
  rw [first]
  cases shape : l q with
  | nil =>
    have none_ : Queued s.msgb { s.queue q with qwantr := true, qwantw := false } (l q) := Queued.flags queued rfl rfl rfl rfl
    rw [shape] at none_
    have flows : Flows 0 { s.queue q with qwantr := true, qwantw := false } := by
      obtain ⟨⟨positive, full, -⟩, bands⟩ := sound.flows q
      exact ⟨⟨positive, full, nofun⟩, bands⟩
    have clears : ∀ pri, wantw (s.queue q) pri = true → wantw { s.queue q with qwantr := true, qwantw := false } pri = false →
        (s.queue q).qwantw = true := by
      intro pri waits over_
      unfold wantw at waits over_
      split_ifs at waits over_
      · exact waits
      · rw [waits] at over_
        cases over_
    obtain ⟨t, is, done, -⟩ := taken_done mem (s.queue q).qwantw (fun _ => [0]) sound ends none_ flows (Local.refl s.msgb _) nofun rfl id clears
    refine ⟨t, ?_, done⟩
    simp only [tell] at is
    rw [List.head?_nil, List.find?_nil]
    dsimp only
    split_ifs at is ⊢ with waits
    · obtain ⟨b, found, rfl⟩ := Option.map_eq_some_iff.mp is
      rw [found]
      rfl
    · exact congrArg (Option.map (Prod.mk none)) is
  | cons bp rest =>
    rw [List.head?_cons]
    dsimp only
    by_cases hidden : noget bp = true
    · rw [if_pos hidden]
      have onward : Linked s.msgb.b_next (some bp) (bp :: rest) := by
        have forward := queued.list.forward
        rwa [first, shape] at forward
      obtain ⟨prev, found⟩ := walk_find (fun b => !noget b) onward (shape ▸ enough)
      rw [found, Option.bind_some]
      dsimp only
      cases is : (bp :: rest).find? (fun b => !noget b) with
      | none =>
        refine ⟨s, rfl, ?_, Later.refl s, rfl, rfl⟩
        rw [Option.elim_none, ← shape, update_eq_self]
        exact sound
      | some mp =>
        obtain ⟨t, removed, done, -⟩ := rmvq_done mem sound ends (shape ▸ List.mem_of_find?_eq_some is)
        dsimp only
        rw [removed, Option.map_some]
        exact ⟨t, rfl, shape ▸ done⟩
    · rw [if_neg hidden]
      have taken := first_unlinked (shape ▸ queued)
      obtain ⟨t, is, done, -⟩ := gone_done mem sound ends (show l q = [] ++ bp :: rest from shape) taken rfl
      have found : (bp :: rest).find? (fun b => !noget b) = some bp := by simp [hidden]
      refine ⟨t, ?_, ?_⟩
      · rw [found]
        simp only [tell] at is
        split_ifs at is ⊢ with waits
        · obtain ⟨b, found, rfl⟩ := Option.map_eq_some_iff.mp is
          rw [found]
          rfl
        · exact congrArg (Option.map (Prod.mk (some bp))) is
      · rw [found, Option.elim_some, List.erase_cons_head]
        exact done

def reput (mem : Nat) (goes : Msgb → Nat → Bool) : Nat → Msgb → Queue → Option Nat → Option (Msgb × Queue)
  | _, m, q, none => some (m, q)
  | 0, _, _, some _ => none
  | time + 1, m, q, some mp =>
    if goes m mp then reput mem goes time m q (m.b_next mp)
    else (putq time mem m q mp).bind fun r => reput mem goes time r.2.1 r.2.2 (m.b_next mp)

theorem flushLoop_eq (time : Nat) (m : Msgb) (q : Queue) (mp : Option Nat) :
    flushLoop mem flag time m q mp = reput mem (fun m b => flag || datamsg (m.db_type b)) time m q mp := by
  induction time generalizing m q mp with
  | zero => cases mp <;> rfl
  | succ time ih =>
    cases mp with
    | none => rfl
    | some mp =>
      rw [flushLoop, reput, ih]
      simp only [ih]

theorem plain_iff : (m.b_band b = 0 && decide (m.db_type b < QPCTL)) = decide (rank m b = 0) := by
  rw [Bool.eq_iff_iff]
  have zero : rank m b = ((0 : Nat) : WithTop ℕ) ↔ _ := rank_eq_iff
  rw [Nat.cast_zero] at zero
  simp [zero, Ordinary, and_comm]

theorem flushbandLoop_eq (time : Nat) (m : Msgb) (q : Queue) (mp : Option Nat) :
    flushbandLoop mem flag time m q mp = reput mem (fun m b => decide (rank m b = 0) && (flag || datamsg (m.db_type b))) time m q mp := by
  induction time generalizing m q mp with
  | zero => cases mp <;> rfl
  | succ time ih =>
    cases mp with
    | none => rfl
    | some mp =>
      rw [flushbandLoop, reput, ih, plain_iff]
      simp only [ih]

theorem reput_done {goes : Msgb → Nat → Bool} {first : Option Nat} {q : Queue} (mem : Nat)
    (stable : ∀ m m', rank m' = rank m → m'.db_type = m.db_type → goes m' = goes m) (queued : Queued m q kept) (flows : Flows floor q)
    (linked : Linked m.b_next first rest) (once : (kept ++ rest).Nodup) (sorted : InOrder (rank m) (kept ++ rest))
    (high : ∀ b ∈ rest, ¬Ordinary m b → m.b_band b = 0) (within : ∀ b ∈ rest, m.b_band b ≤ q.q_nband)
    (enough : kept.length + 2 * rest.length ≤ time) :
    ∃ m' q', reput mem goes time m q first = some (m', q') ∧
      Placed floor m m' q q' (kept ++ rest.filter fun b => !goes m b) (kept ++ rest) := by
  induction rest generalizing time m q kept first with
  | nil =>
    obtain rfl : first = none := linked
    refine ⟨m, q, by cases time <;> rfl, by simpa using queued, flows, Local.refl m _, Onward.refl q⟩
  | cons bp rest ih =>
    obtain ⟨rfl, linked⟩ := linked
    obtain ⟨time, rfl⟩ := Nat.exists_eq_add_of_le' (show 1 ≤ time by simp at enough; omega)
    rw [List.length_cons] at enough
    rw [reput]
    by_cases leaves : goes m bp = true
    · have fewer := List.Sublist.append_left (List.sublist_cons_self bp rest) kept
      obtain ⟨m', q', is, placed⟩ := ih queued flows linked (once.sublist fewer) (sorted.sublist fewer) (fun b member => high b (by simp [member]))
        (fun b member => within b (by simp [member])) (show _ ≤ time by omega)
      refine ⟨m', q', by rw [if_pos leaves, is], ?_, placed.flows, ?_, placed.onward⟩
      · rw [List.filter_cons_of_neg (by simp [leaves])]
        exact placed.queued
      · exact placed.alone.trans (Local.refl m' _) fun b member => fewer.subset member
    · have stays : (!goes m bp) = true := by simpa using leaves
      have fresh : bp ∉ kept := fun early => (List.nodup_append.mp once).2.2 bp early bp (by simp) rfl
      have same := force_self (high bp (by simp))
      obtain ⟨ok, m₁, q₁, put, holds, placed⟩ := putq_done mem queued flows fresh (show _ ≤ time by omega)
      have put_ : ok = true := holds.mpr (by rw [same]; exact (within bp (by simp)).trans (Nat.le_add_right ..))
      rw [put_, if_pos rfl, behind_last fun a early => (List.pairwise_append.mp sorted).2.2 a early bp (by simp)] at placed
      have shape : kept ++ bp :: rest = kept ++ [bp] ++ rest := by simp
      rw [shape] at once sorted
      have outside : ∀ b ∈ rest, b ∉ bp :: kept := fun b member => by
        have apart := (List.nodup_append.mp once).2.2
        intro inside
        rcases List.mem_cons.mp inside with rfl | early
        · exact apart b (by simp) b member rfl
        · exact apart b (List.mem_append_left _ early) b member rfl
      have known := fun b member => placed.alone.apart b (outside b member)
      have normal : Ordinary m₁ = Ordinary m := by
        funext b
        rw [Ordinary, Ordinary, placed.alone.type]
      obtain ⟨m', q', is, placed'⟩ := ih placed.queued placed.flows (linked.congr fun b member => (known b member).1) once (placed.alone.rank ▸ sorted)
        (fun b member loose => by rw [(known b member).2.2]; exact high b (by simp [member]) (normal ▸ loose))
        (fun b member => by rw [(known b member).2.2]; exact (within b (by simp [member])).trans placed.onward.nband)
        (show _ ≤ time by rw [List.length_append, List.length_singleton]; omega)
      refine ⟨m', q', by rw [if_neg leaves, put, Option.bind_some]; exact is, ?_, placed'.flows, ?_, placed.onward.trans placed'.onward⟩
      · rw [List.filter_cons_of_pos (by simpa using leaves)]
        have staying := placed'.queued
        rwa [stable m m₁ placed.alone.rank placed.alone.type, List.append_assoc] at staying
      · rw [shape]
        refine placed.alone.trans placed'.alone fun b member => ?_
        rcases List.mem_cons.mp member with rfl | early
        · simp
        · simp [early]

def counts (q : Queue) : Nat → Nat
  | 0 => q.q_count
  | i + 1 => (q.q_bandp[i]?).elim 0 fun b => b.qb_count

theorem flows_empty {q : Queue} (flows : Flows 0 q) : Flows (counts q) (empty q) := by
  obtain ⟨⟨positive, -, wantw⟩, bands⟩ := flows
  refine ⟨⟨positive, (decide_eq_false (not_le.mpr positive)).symm, fun marks waits => ?_⟩, fun i b is => ?_⟩
  · exact (wantw marks waits).trans_le (by simp [counts, Strq.empty])
  · rw [Strq.empty, List.getElem?_map] at is
    obtain ⟨b, found, rfl⟩ := Option.map_eq_some_iff.mp is
    obtain ⟨positive, -, wantw⟩ := bands i b found
    refine ⟨positive, (decide_eq_false (not_le.mpr positive)).symm, fun marks waits => ?_⟩
    exact (wantw marks waits).trans_le (by simp [counts, found])

theorem reput_queue (goes : Msgb → Nat → Bool) (mem : Nat) (stable : ∀ m m', rank m' = rank m → m'.db_type = m.db_type → goes m' = goes m)
    (sound : Sound s l) (enough : 2 * (l q).length ≤ time) :
    ∃ m' q', reput mem goes time s.msgb (empty (s.queue q)) (s.queue q).q_first = some (m', q') ∧
      Placed (counts (s.queue q)) s.msgb m' (s.queue q) q' ((l q).filter fun b => !goes s.msgb b) (l q) := by
  have queued := sound.queued q
  have nband : (empty (s.queue q)).q_nband = (s.queue q).q_nband := List.length_map ..
  obtain ⟨m', q', is, placed⟩ := reput_done mem stable (queued_empty s.msgb (s.queue q)) (flows_empty (sound.flows q)) queued.list.forward
    (queued.list.nodup) (Queued.inOrder queued) queued.high (fun b member => nband ▸ queued.within b member)
    (show _ ≤ time by simpa using enough)
  refine ⟨m', q', is, placed.queued, placed.flows, placed.alone, placed.onward.srvp, placed.onward.enab, nband ▸ placed.onward.nband,
    fun pri waits => placed.onward.wants pri ?_⟩
  unfold wantw at *
  split_ifs at *
  · exact waits
  · rw [Strq.empty, List.getElem?_map]
    cases found : (s.queue q).q_bandp[pri - 1]? with
    | none =>
      rw [found] at waits
      cases waits
    | some b =>
      rw [found] at waits
      exact waits

theorem level_unwant {least count hiwat lowat : Nat} {full wantw : Bool} (level : Level least count hiwat lowat full wantw) :
    Level 0 count hiwat lowat full (wantw && decide (lowat < count)) := by
  refine ⟨level.positive, level.full, fun _ waits => ?_⟩
  exact (of_decide_eq_true (Bool.and_eq_true_iff.mp waits).2).trans_le (le_max_right ..)

theorem flows_unwant {q : Queue} (flows : Flows floor q) : Flows 0 (unwant q) := by
  refine ⟨level_unwant flows.queue, fun i b is => ?_⟩
  rw [Strq.unwant, List.getElem?_map] at is
  obtain ⟨b, found, rfl⟩ := Option.map_eq_some_iff.mp is
  exact level_unwant (flows.bands i b found)

theorem unwant_told {q : Queue} (waits : wantw q pri = true) (over_ : wantw (unwant q) pri = false) : (writable q).any id = true := by
  unfold wantw at waits over_
  unfold writable
  split_ifs at waits over_
  · simp only [unwant, waits, Bool.true_and] at over_
    simp only [List.any_cons, id, waits, Bool.true_and, Bool.or_eq_true]
    exact .inl (decide_eq_true (not_lt.mp (of_decide_eq_false over_)))
  · obtain ⟨b, found, want⟩ := (Option.any_eq_true ..).mp waits
    rw [unwant, List.getElem?_map, found] at over_
    simp only [Option.map_some, Option.any_some, want, Bool.true_and] at over_
    refine List.any_eq_true.mpr ⟨true, List.mem_cons_of_mem _ (List.mem_map.mpr ⟨b, List.mem_of_getElem? found, ?_⟩), rfl⟩
    rw [want, Bool.true_and]
    exact decide_eq_true (not_lt.mp (of_decide_eq_false over_))

theorem flushq_done (mem : Nat) (flag : Bool) (sound : Sound s l) (ends : (nearest time s q).isSome = true) (enough : 2 * (l q).length ≤ time) :
    ∃ t, flushq time mem s q flag = some t ∧ Done time s t (update l q ((l q).filter fun b => !(flag || datamsg (s.msgb.db_type b)))) := by
  obtain ⟨m', q', is, placed⟩ := reput_queue (fun m b => flag || datamsg (m.db_type b)) mem
    (fun m m' _ type => by rw [type]) sound enough
  have queued : Queued m' (unwant q') _ := Queued.flags placed.queued rfl rfl rfl (by rw [unwant, List.map_map]; rfl)
  obtain ⟨t, told, done, -⟩ := taken_done mem ((writable q').any id) (fun b =>
      let nband := (b.map fun b => (update s.queue q (unwant q') b).q_nband).getD 0
      (List.range (nband + 1)).reverse.filter fun pri => (writable q').getD pri false)
    sound ends queued (flows_unwant placed.flows) placed.alone (fun b member => (List.mem_filter.mp member).1) placed.onward.srvp placed.onward.enab
    fun pri waits over_ => unwant_told (placed.onward.wants pri waits) over_
  refine ⟨t, ?_, done⟩
  rw [flushq, flushLoop_eq, is, Option.bind_some]
  exact told

theorem flushOne_done (mem : Nat) (flag : Bool) (sound : Sound s l) (ends : (nearest time s q).isSome = true) (place : l q = before ++ mp :: after)
    (here : s.msgb.b_band mp = pri) :
    ∃ t, flushOne time mem flag pri s q mp = some t ∧
      Done time s t (update l q (before ++ ([mp].filter (fun b => !(flag || datamsg (s.msgb.db_type b))) ++ after))) := by
  have once := place ▸ (sound.queued q).list.nodup
  unfold flushOne
  by_cases goes : (flag || datamsg (s.msgb.db_type mp)) = true
  · obtain ⟨t, is, done, -⟩ := rmvq_done mem sound ends (show mp ∈ l q by simp [place])
    rw [place, erase_middle once] at done
    refine ⟨t, by rw [if_pos (by simp [here, goes]), is], ?_⟩
    rwa [List.filter_cons_of_neg (by simp [goes]), List.filter_nil, List.nil_append]
  · refine ⟨s, by rw [if_neg (by simp [goes])], ?_, Later.refl s, rfl, rfl⟩
    rw [List.filter_cons_of_pos (by simp [goes]), List.filter_nil, List.singleton_append, ← place, update_eq_self]
    exact sound

theorem between_last (time mem : Nat) (flag : Bool) (pri : Nat) (last : Option Nat) (q turns : Nat) (s : Streams) :
    flushBetween time mem flag pri last q (turns + 1) s last =
      match last with
      | none => some s
      | some mp => flushOne time mem flag pri s q mp :=
  if_pos rfl

theorem between_done {mids : List Nat} {z turns : Nat} (mem : Nat) (flag : Bool) (sound : Sound s l) (ends : (nearest time s q).isSome = true)
    (place : l q = before ++ (mids ++ z :: after)) (inside : ∀ b ∈ mids ++ [z], rank s.msgb b = (pri : WithTop ℕ)) (enough : mids.length < turns) :
    ∃ t, flushBetween time mem flag pri (some z) q turns s (mids ++ [z]).head? = some t ∧
      Done time s t (update l q (before ++ ((mids ++ [z]).filter (fun b => !(flag || datamsg (s.msgb.db_type b))) ++ after))) := by
  obtain ⟨turns, rfl⟩ := Nat.exists_eq_add_of_lt (Nat.zero_lt_of_lt enough)
  have here : ∀ b ∈ mids ++ [z], s.msgb.b_band b = pri := fun b member => (rank_eq_iff.mp (inside b member)).2
  induction mids generalizing s l before turns with
  | nil =>
    obtain ⟨t, is, done⟩ := flushOne_done mem flag sound ends place (here z (by simp))
    refine ⟨t, ?_, done⟩
    rw [List.nil_append, List.head?_cons, flushBetween, if_pos rfl]
    exact is
  | cons a mids ih =>
    have once := place ▸ (sound.queued q).list.nodup
    have other : a ≠ z := fun same => by
      have := (List.nodup_append.mp once).2.1
      simp [same] at this
    obtain ⟨t, is, done⟩ := flushOne_done mem flag sound ends (place.trans (by rw [List.cons_append])) (here a (by simp))
    have next : s.msgb.b_next a = (mids ++ [z]).head? := by
      have queued := place ▸ sound.queued q
      rw [List.cons_append] at queued
      rw [queued.list.next_eq]
      cases mids <;> rfl
    obtain ⟨turns, rfl⟩ := Nat.exists_eq_add_of_lt (show 0 < turns by simp at enough; omega)
    rw [Nat.zero_add] at *
    obtain ⟨u, is', done'⟩ := ih done.sound ((done.later.nearest time q).symm ▸ ends)
      (show _ = (before ++ [a].filter fun b => !(flag || datamsg (s.msgb.db_type b))) ++
        (mids ++ z :: after) by rw [update_self, List.append_assoc]) (fun b member => by
        rw [done.rank]
        exact inside b (List.mem_cons_of_mem _ member)) turns (by simp at enough; omega) (fun b member => by
        rw [← done.rank] at inside
        exact (rank_eq_iff.mp (inside b (List.mem_cons_of_mem _ member))).2)
    refine ⟨u, ?_, ?_⟩
    · rw [List.cons_append, List.head?_cons, flushBetween, if_neg (by simpa using other), Option.bind_some, is, Option.bind_some, next]
      exact is'
    · have whole := done.trans done'
      rwa [update_idem, done.type, List.append_assoc, ← List.append_assoc ([a].filter _), ← List.filter_append] at whole

def left (flag : Bool) (pri : Nat) (m : Msgb) (b : Nat) : Bool := !(decide (rank m b = pri) && (flag || datamsg (m.db_type b)))

theorem filter_left (flag : Bool) {front mid tail : List Nat} (before_ : ∀ b ∈ front, rank m b ≠ pri) (inside : ∀ b ∈ mid, rank m b = pri)
    (behind_ : ∀ b ∈ tail, rank m b ≠ pri) :
    (front ++ (mid ++ tail)).filter (left flag pri m) = front ++ (mid.filter (fun b => !(flag || datamsg (m.db_type b))) ++ tail) := by
  have apart : ∀ {l : List Nat}, (∀ b ∈ l, rank m b ≠ pri) → l.filter (left flag pri m) = l := fun others =>
    List.filter_eq_self.mpr fun b member => by simp [left, others b member]
  rw [List.filter_append, List.filter_append, apart before_, apart behind_]
  congr 2
  exact List.filter_congr fun b member => by simp [left, inside b member]

theorem reput_counts (flag : Bool) {q : Queue} {all : List Nat} (old : Queued m q all) (alone : Local m m' all)
    (placed : Queued m' q' (all.filter (left flag 0 m)))
    {i : Nat} {b : Qband} (is : q'.q_bandp[i]? = some b) : counts q (i + 1) ≤ b.qb_count := by
  have sizes : size m' = size m := by
    funext b
    rw [size, size, alone.cont]
  rw [counts]
  cases found : q.q_bandp[i]? with
  | none => exact Nat.zero_le _
  | some b' =>
    have same : band m' (i + 1) (all.filter (left flag 0 m)) = band m (i + 1) all := by
      have other : ((i + 1 : Nat) : WithTop ℕ) ≠ 0 := Nat.cast_ne_zero.mpr (Nat.succ_ne_zero i)
      rw [band_lane, band_lane, alone.rank, lane, lane, List.filter_filter]
      generalize ((i + 1 : Nat) : WithTop ℕ) = r at *
      refine List.filter_congr fun b _ => ?_
      by_cases here : rank m b = r <;> simp [left, here, other]
    rw [Option.elim_some, old.counted.bands i b' found, placed.counted.bands i b is, same, sizes]

theorem flushband_done (mem pri : Nat) (flag : Bool) (sound : Sound s l) (ends : (nearest time s q).isSome = true) (enough : 2 * (l q).length ≤ time) :
    ∃ t, flushband time mem s q pri flag = some t ∧ Done time s t (update l q ((l q).filter (left flag pri s.msgb))) := by
  have queued := sound.queued q
  have same : (∀ b ∈ l q, rank s.msgb b ≠ pri) → Done time s s (update l q ((l q).filter (left flag pri s.msgb))) := fun others => by
    rw [List.filter_eq_self.mpr fun b member => by simp [left, others b member], update_eq_self]
    exact ⟨sound, Later.refl s, rfl, rfl⟩
  unfold flushband
  split_ifs with missing zero
  · refine ⟨s, rfl, same fun b member is => ?_⟩
    have := queued.within b member
    rw [(rank_eq_iff.mp is).2] at this
    omega
  · subst zero
    obtain ⟨m', q', is, placed⟩ := reput_queue (fun m b => decide (rank m b = 0) && (flag || datamsg (m.db_type b))) mem
      (fun m m' rank type => by rw [rank, type]) sound enough
    have flows : Flows 0 { q' with qwantw := q'.qwantw && decide (q'.q_lowat < q'.q_count) } := by
      refine ⟨level_unwant placed.flows.queue, fun i b found => ?_⟩
      obtain ⟨positive, full, wantw⟩ := placed.flows.bands i b found
      have floor := reput_counts flag queued placed.alone placed.queued found
      exact ⟨positive, full, fun marks waits => (wantw marks waits).trans_le (max_le (floor.trans (le_max_right ..)) (le_max_right ..))⟩
    have kept : Queued m' { q' with qwantw := q'.qwantw && decide (q'.q_lowat < q'.q_count) } ((l q).filter (left flag 0 s.msgb)) :=
      Queued.flags placed.queued rfl rfl rfl rfl
    have clears : ∀ pri, wantw (s.queue q) pri = true → wantw { q' with qwantw := q'.qwantw && decide (q'.q_lowat < q'.q_count) } pri = false →
        (q'.qwantw && decide (q'.q_count ≤ q'.q_lowat)) = true := by
      intro pri waits over_
      have still := placed.onward.wants pri waits
      unfold wantw at still over_
      split_ifs at still over_
      · rw [still, Bool.true_and] at over_ ⊢
        exact decide_eq_true (not_lt.mp (of_decide_eq_false over_))
      · rw [still] at over_
        cases over_
    obtain ⟨t, told, done, -⟩ := taken_done mem (q'.qwantw && decide (q'.q_count ≤ q'.q_lowat)) (fun _ => [0]) sound ends kept flows placed.alone
      (fun b member => (List.mem_filter.mp member).1) placed.onward.srvp placed.onward.enab clears
    refine ⟨t, ?_, done⟩
    rw [flushbandLoop_eq, is, Option.bind_some]
    exact told
  · obtain ⟨front, tail, parts, before_, behind_⟩ := lane_parts (Queued.inOrder queued) (pri : WithTop ℕ)
    have within : pri - 1 < (s.queue q).q_bandp.length := by
      have : (s.queue q).q_nband = (s.queue q).q_bandp.length := rfl
      omega
    obtain ⟨first, last⟩ := queued.banded _ _ (List.getElem?_eq_getElem within)
    rw [show pri - 1 + 1 = pri by omega, band_lane] at first last
    rw [List.getElem?_eq_getElem within, Option.bind_some]
    have inside : ∀ b ∈ lane (rank s.msgb) pri (l q), rank s.msgb b = pri := fun b member => of_decide_eq_true (List.mem_filter.mp member).2
    generalize lane (rank s.msgb) pri (l q) = mid at *
    generalize (s.queue q).q_bandp[pri - 1] = band at *
    have once := parts ▸ queued.list.nodup
    have result := filter_left flag before_ inside behind_
    rw [← parts] at result
    rcases List.eq_nil_or_concat' mid with rfl | ⟨mids, z, rfl⟩
    · rw [first]
      refine ⟨s, rfl, same fun b member => ?_⟩
      rw [parts] at member
      rcases List.mem_append.mp member with early | late
      · exact before_ b early
      · exact behind_ b late
    rw [result]
    rw [List.append_assoc, List.singleton_append] at parts
    have long := congrArg List.length parts
    simp only [List.length_append, List.length_cons] at long
    cases mids with
    | nil =>
      -- the only message of its band, and the one behind it is of another band
      obtain ⟨t, is, done⟩ := flushOne_done mem flag sound ends parts (rank_eq_iff.mp (inside z (by simp))).2
      have next : s.msgb.b_next z = tail.head? := (parts ▸ queued).list.next_eq
      obtain ⟨time', rfl⟩ := Nat.exists_eq_add_of_le' (show 1 ≤ time by omega)
      refine ⟨t, ?_, done⟩
      have other : some z ≠ tail.head? := fun is => by
        have apart := (List.nodup_append.mp once).2.1
        exact (List.nodup_cons.mp apart).1 (List.mem_of_head? is.symm)
      rw [first, last]
      simp only [List.nil_append, List.head?_cons, List.getLast?_singleton, if_true, next]
      rw [flushBetween, if_neg other, Option.bind_some, is, Option.bind_some, next, between_last]
      cases shape : tail.head? with
      | none => rfl
      | some e =>
        have there := List.mem_of_head? shape
        have member : e ∈ update l q (front ++ ([z].filter (fun b => !(flag || datamsg (s.msgb.db_type b))) ++ tail)) q := by simp [there]
        refine if_neg fun goes => behind_ e there ?_
        have here : t.msgb.b_band e = pri := by simpa using (Bool.and_eq_true_iff.mp goes).1
        rw [← done.rank]
        refine rank_eq_iff.mpr ⟨?_, here⟩
        by_contra loose
        exact zero (here.symm.trans ((done.sound.queued q).high e member loose))
    | cons a mids =>
      have other : z ≠ a := fun same => by
        have apart := (List.nodup_append.mp once).2.1
        exact (List.nodup_cons.mp apart).1 (by simp [same])
      rw [List.length_cons] at long
      obtain ⟨t, is, done⟩ := between_done mem flag sound ends parts inside
        (show _ < time + 1 by rw [List.length_cons]; omega)
      refine ⟨t, ?_, done⟩
      rw [first, last, List.getLast?_concat]
      simp only [List.cons_append, List.head?_cons, Option.some.injEq, other, if_false]
      exact is

end Svr4.Proofs.StrqCalls
