import Svr4.Library.Ranked
import Svr4.Proofs.StrqFlush

/-! `putq` and `putbq`: a message goes behind or in front of the others of its rank, on a queue that is right. -/

namespace Svr4.Proofs.StrqPut
open Function Chain DoubleChain Strq StrqPlace StrqFlush Library.Ranked

variable {m m' : Msgb} {q q' : Queue} {l before after t : List Nat} {bp e mem time n i pri : Nat} {floor : Nat → Nat}

def rank (m : Msgb) (b : Nat) : WithTop ℕ := if Ordinary m b then (m.b_band b : WithTop ℕ) else ⊤

theorem rank_ordinary (ordinary : Ordinary m bp) : rank m bp = m.b_band bp := if_pos ordinary

theorem rank_high (high : ¬Ordinary m bp) : rank m bp = ⊤ := if_neg high

theorem rank_congr (type : m'.db_type bp = m.db_type bp) (bands : m'.b_band bp = m.b_band bp) : rank m' bp = rank m bp := by
  have same : Ordinary m' bp ↔ Ordinary m bp := by rw [Ordinary, Ordinary, type]
  rw [rank, rank, bands, if_congr same rfl rfl]

theorem before_iff {a b : Nat} : Before m a b ↔ rank m b ≤ rank m a := by
  unfold Before
  by_cases here : Ordinary m a
  · rw [rank_ordinary here]
    by_cases there : Ordinary m b
    · rw [rank_ordinary there]
      simp [here, there]
    · rw [rank_high there]
      simp [here, there]
  · rw [rank_high here]
    simp [here]

theorem Queued.inOrder (queued : Queued m q l) : InOrder (rank m) l := queued.ordered.imp before_iff.mp

theorem rank_eq_iff : rank m bp = (pri : WithTop ℕ) ↔ Ordinary m bp ∧ m.b_band bp = pri := by
  by_cases ordinary : Ordinary m bp
  · simp [rank_ordinary ordinary, ordinary]
  · simp [rank_high ordinary, ordinary]

theorem band_lane (m : Msgb) (pri : Nat) (l : List Nat) : band m pri l = lane (rank m) (pri : WithTop ℕ) l := by
  refine List.filter_congr fun b _ => ?_
  exact decide_eq_decide.mpr rank_eq_iff.symm

/-- A count with its marks. The flag of a writer that waits is only kept above the low water mark; while messages are put
on the queue again, the count that there was before goes for it. -/
structure Level (floor count hiwat lowat : Nat) (full wantw : Bool) : Prop where
  positive : 0 < hiwat
  full : full = decide (hiwat ≤ count)
  wantw : lowat < hiwat → wantw = true → lowat < max floor count

def BandLevel (floor : Nat) (b : Qband) : Prop := Level floor b.qb_count b.qb_hiwat b.qb_lowat b.qb_full b.qb_wantw

structure Flows (floor : Nat → Nat) (q : Queue) : Prop where
  queue : Level (floor 0) q.q_count q.q_hiwat q.q_lowat q.qfull q.qwantw
  bands : ∀ i b, q.q_bandp[i]? = some b → BandLevel (floor (i + 1)) b

section levels
variable {least count hiwat lowat : Nat} {full wantw : Bool}

theorem Level.charge (level : Level least count hiwat lowat full wantw) (n : Nat) :
    Level least (count + n) hiwat lowat (full || decide (count + n ≥ hiwat)) wantw := by
  refine ⟨level.positive, ?_, fun marks waits => (level.wantw marks waits).trans_le (max_le_max_left least (Nat.le_add_right count n))⟩
  rw [level.full]
  by_cases over_ : hiwat ≤ count
  · simp [over_, Nat.le_add_right_of_le over_]
  · simp [over_]

theorem Level.relieve (level : Level least count hiwat lowat full wantw) (n : Nat) :
    Level least (count - n) hiwat lowat (full && decide (hiwat ≤ count - n)) (wantw && decide (lowat < count - n)) := by
  refine ⟨level.positive, ?_, fun _ waits => ?_⟩
  · rw [level.full]
    by_cases still : hiwat ≤ count - n
    · simp [still, still.trans (Nat.sub_le ..)]
    · simp [still]
  · exact (of_decide_eq_true (Bool.and_eq_true_iff.mp waits).2).trans_le (le_max_right ..)

theorem Level.wait (level : Level least count hiwat lowat full wantw) (found : full = true) : Level least count hiwat lowat full true := by
  refine ⟨level.positive, level.full, fun marks _ => (marks.trans_le ?_).trans_le (le_max_right ..)⟩
  rw [level.full] at found
  exact of_decide_eq_true found

end levels

theorem Flows.modify (flows : Flows floor q) {f : Qband → Qband} {i : Nat}
    (keeps : ∀ b, q.q_bandp[i]? = some b → BandLevel (floor (i + 1)) b → BandLevel (floor (i + 1)) (f b)) :
    Flows floor { q with q_bandp := q.q_bandp.modify i f } := by
  refine ⟨flows.queue, fun j b is => ?_⟩
  rw [List.getElem?_modify] at is
  obtain ⟨b, found, rfl⟩ := Option.map_eq_some_iff.mp is
  split_ifs with here
  · subst here
    exact keeps b found (flows.bands i b found)
  · exact flows.bands j b found

theorem Flows.charge (flows : Flows floor q) (pri n : Nat) : Flows floor (charge q pri n) := by
  unfold Strq.charge
  split_ifs with zero
  · exact ⟨flows.queue.charge n, flows.bands⟩
  · refine flows.modify ?_
    exact fun _ _ level => Level.charge level n

theorem Flows.relieve (flows : Flows floor q) (pri n : Nat) : Flows floor (relieve q pri n) := by
  unfold Strq.relieve
  split_ifs
  · exact ⟨flows.queue.relieve n, flows.bands⟩
  · refine flows.modify ?_
    exact fun _ _ level => Level.relieve level n

theorem Flows.bands_more (flows : Flows floor q) (mem pri : Nat) : Flows floor (Strq.bands mem q pri).2 := by
  have positive := flows.queue.positive
  rw [bands_eq]
  refine ⟨flows.queue, fun i b is => ?_⟩
  rw [List.getElem?_append] at is
  split_ifs at is
  · exact flows.bands i b is
  · rw [List.eq_of_mem_replicate (List.mem_of_getElem? is)]
    exact ⟨positive, (decide_eq_false (not_le.mpr positive)).symm, nofun⟩

def OnlyEnds (change : Msgb → Qband → Qband) : Prop := ∀ m b, ∃ f e, change m b = { b with qb_first := f, qb_last := e }

theorem OnlyEnds.keeps {change : Msgb → Qband → Qband} (only : OnlyEnds change) : Keeps change := by
  intro m b
  obtain ⟨f, e, same⟩ := only m b
  rw [same]
  exact ⟨rfl, rfl, rfl⟩

theorem last_only (bp : Nat) : OnlyEnds fun _ b => b.last bp := fun _ _ => ⟨_, _, rfl⟩

theorem front_only (bp : Nat) : OnlyEnds fun _ b => b.front bp := fun _ _ => ⟨_, _, rfl⟩

theorem link_levels (m : Msgb) (q : Queue) (x y : Option Nat) (bp : Nat) :
    (link m q x y bp).2 = { q with q_first := (link m q x y bp).2.q_first, q_last := (link m q x y bp).2.q_last } := by
  cases x <;> cases y <;> rfl

theorem Flows.place {x y : Option Nat} {change : Msgb → Qband → Qband} (only : OnlyEnds change) (flows : Flows floor q) (m : Msgb) (bp : Nat) :
    Flows floor (place m q x y bp change).2 := by
  have linked : Flows floor (link m q x y bp).2 := by
    rw [link_levels]
    exact ⟨flows.queue, flows.bands⟩
  unfold Strq.place
  refine Flows.charge ?_ _ _
  split_ifs
  · exact linked
  · refine linked.modify fun b _ level => ?_
    obtain ⟨f, e, same⟩ := only (link m q x y bp).1 b
    rw [same]
    exact level

structure Local (m m' : Msgb) (t : List Nat) : Prop where
  type : m'.db_type = m.db_type
  cont : m'.b_cont = m.b_cont
  rank : rank m' = rank m
  apart : ∀ b, b ∉ t → m'.b_next b = m.b_next b ∧ m'.b_prev b = m.b_prev b ∧ m'.b_band b = m.b_band b

theorem Local.refl (m : Msgb) (t : List Nat) : Local m m t := ⟨rfl, rfl, rfl, fun _ _ => ⟨rfl, rfl, rfl⟩⟩

theorem Local.trans {m'' : Msgb} {t' : List Nat} (first : Local m m' t') (second : Local m' m'' t) (less : ∀ b ∈ t', b ∈ t) : Local m m'' t := by
  refine ⟨second.type.trans first.type, second.cont.trans first.cont, second.rank.trans first.rank, fun b outside => ?_⟩
  obtain ⟨next, prev, bands⟩ := first.apart b fun member => outside (less b member)
  obtain ⟨next', prev', bands'⟩ := second.apart b outside
  exact ⟨next'.trans next, prev'.trans prev, bands'.trans bands⟩

structure Alike (m m' : Msgb) (b : Nat) : Prop where
  next : m'.b_next b = m.b_next b
  prev : m'.b_prev b = m.b_prev b
  band : m'.b_band b = m.b_band b
  type : m'.db_type b = m.db_type b
  cont : m'.b_cont b = m.b_cont b

theorem Local.alike (change : Local m m' t) {b : Nat} (outside : b ∉ t) : Alike m m' b := by
  obtain ⟨next, prev, bands⟩ := change.apart b outside
  exact ⟨next, prev, bands, congrFun change.type b, congrFun change.cont b⟩

theorem Queued.elsewhere (queued : Queued m q l) (alike : ∀ b ∈ l, Alike m m' b) : Queued m' q l := by
  have normal : ∀ b ∈ l, (Ordinary m' b ↔ Ordinary m b) := fun b member => by rw [Ordinary, Ordinary, (alike b member).type]
  have sizes : ∀ b ∈ l, size m' b = size m b := fun b member => by rw [size, size, (alike b member).cont]
  have bands : ∀ b ∈ l, m'.b_band b = m.b_band b := fun b member => (alike b member).band
  have same : ∀ pri, band m' pri l = band m pri l := fun pri => band_congr (fun b member => (alike b member).type) bands pri
  refine ⟨queued.list.congr fun b member => ⟨(alike b member).next, (alike b member).prev⟩, queued.last, ?_, fun b member loose => ?_,
    fun b member => ?_, fun i b is => ?_, ?_, fun i b is => ?_⟩
  · refine queued.ordered.imp_of_mem fun {a b} here there order => ?_
    rw [before_iff, rank_congr (alike b there).type (bands b there), rank_congr (alike a here).type (bands a here)]
    exact before_iff.mp order
  · rw [bands b member]
    exact queued.high b member fun plain => loose ((normal b member).mpr plain)
  · rw [bands b member]
    exact queued.within b member
  · rw [same]
    exact queued.banded i b is
  · rw [plain_congr bands, queued.counted.queue]
    exact congrArg List.sum (List.map_congr_left fun b member => (sizes b (List.mem_filter.mp member).1).symm)
  · rw [same, queued.counted.bands i b is]
    exact congrArg List.sum (List.map_congr_left fun b member => (sizes b (List.mem_filter.mp member).1).symm)

theorem link_local (m : Msgb) (q : Queue) (before after : List Nat) (bp : Nat) :
    Local m (link m q before.getLast? after.head? bp).1 (bp :: (before ++ after)) := by
  obtain ⟨bands, type, cont, -⟩ := link_fields m q before.getLast? after.head? bp
  refine ⟨type, cont, ?_, fun b outside => ?_⟩
  · funext b
    exact rank_congr (congrFun type b) (congrFun bands b)
  · have other : b ≠ bp := fun is => outside (is ▸ List.mem_cons_self ..)
    have next : ∀ x, before.getLast? = some x → b ≠ x := by
      rintro x last rfl
      exact outside (List.mem_cons_of_mem _ (List.mem_append_left _ (List.mem_of_getLast? last)))
    have prev : ∀ y, after.head? = some y → b ≠ y := by
      rintro y first rfl
      exact outside (List.mem_cons_of_mem _ (List.mem_append_right _ (List.mem_of_head? first)))
    rw [bands]
    cases first : before.getLast? <;> cases last : after.head? <;> simp [link, other, next _, prev _, first, last]

structure Onward (q q' : Queue) : Prop where
  srvp : q'.qi_srvp = q.qi_srvp
  enab : q.qenab = true → q'.qenab = true
  nband : q.q_nband ≤ q'.q_nband
  wants : ∀ pri, wantw q pri = true → wantw q' pri = true

theorem Onward.refl (q : Queue) : Onward q q := ⟨rfl, id, le_rfl, fun _ => id⟩

theorem Onward.trans {q'' : Queue} (first : Onward q q') (second : Onward q' q'') : Onward q q'' :=
  ⟨second.srvp.trans first.srvp, fun runs => second.enab (first.enab runs), first.nband.trans second.nband,
    fun pri waits => second.wants pri (first.wants pri waits)⟩

structure Placed (floor : Nat → Nat) (m m' : Msgb) (q q' : Queue) (l t : List Nat) : Prop where
  queued : Queued m' q' l
  flows : Flows floor q'
  alone : Local m m' t
  onward : Onward q q'

theorem wantw_modify {f : Qband → Qband} (keeps : ∀ b ∈ q.q_bandp, (f b).qb_wantw = b.qb_wantw) (i pri : Nat) :
    wantw { q with q_bandp := q.q_bandp.modify i f } pri = wantw q pri := by
  unfold wantw
  split_ifs
  · rfl
  · rw [List.getElem?_modify]
    cases found : q.q_bandp[pri - 1]? with
    | none => rfl
    | some b =>
      have same := keeps b (List.mem_of_getElem? found)
      simp only [Option.map_eq_map, Option.map_some, Option.any_some]
      split_ifs
      · exact same
      · rfl

theorem wantw_charge (q : Queue) (pri' n pri : Nat) : wantw (charge q pri' n) pri = wantw q pri := by
  unfold charge
  split_ifs
  · rfl
  · refine wantw_modify ?_ _ _
    exact fun _ _ => rfl

theorem onward_place {x y : Option Nat} {change : Msgb → Qband → Qband} (only : OnlyEnds change) (m : Msgb) (q : Queue) (bp : Nat) :
    Onward q (place m q x y bp change).2 := by
  have linked : Onward q (link m q x y bp).2 := by
    rw [link_levels]
    exact ⟨rfl, id, (link_fields m q x y bp).2.2.2.1 ▸ le_rfl, fun _ => id⟩
  obtain ⟨-, -, -, nband, -⟩ := place_queue m q x y bp change
  have others : (place m q x y bp change).2.qi_srvp = (link m q x y bp).2.qi_srvp ∧ (place m q x y bp change).2.qenab = (link m q x y bp).2.qenab := by
    by_cases zero : m.b_band bp = 0
    · rw [place_zero zero, charge_zero]
      exact ⟨rfl, rfl⟩
    · rw [place_some zero, charge_some zero]
      exact ⟨rfl, rfl⟩
  refine ⟨others.1.trans linked.srvp, fun runs => others.2.trans (linked.enab runs), nband.ge, fun pri waits => ?_⟩
  · unfold place
    dsimp only
    rw [wantw_charge]
    split_ifs
    · exact linked.wants pri waits
    · refine (wantw_modify (fun b _ => ?_) _ _).trans (linked.wants pri waits)
      obtain ⟨f, e, same⟩ := only (link m q x y bp).1 b
      rw [same]

theorem onward_bands (mem : Nat) (q : Queue) (more : Nat) : Onward q (bands mem q more).2 := by
  rw [bands_eq]
  refine ⟨rfl, id, ?_, fun pri waits => ?_⟩
  · simp [Queue.q_nband]
  · unfold wantw at *
    split_ifs at *
    · exact waits
    · obtain ⟨b, found, is⟩ := Option.any_eq_true .. |>.mp waits
      rw [List.getElem?_append_left (List.getElem?_eq_some_iff.mp found).1, found]
      exact is

theorem force_local (m : Msgb) (bp : Nat) (t : List Nat) : Local m (force m bp) (bp :: t) := by
  unfold force
  split_ifs with high
  · refine ⟨rfl, rfl, funext fun b => ?_, fun b outside => ⟨rfl, rfl, update_of_ne (List.ne_of_not_mem_cons outside) ..⟩⟩
    by_cases is : b = bp
    · rw [is, rank_high (queclass_high.mp high)]
      exact rank_high (queclass_high.mp high)
    · exact rank_congr rfl (update_of_ne is ..)
  · exact Local.refl m _

theorem force_zero (high : ¬Ordinary (force m bp) bp) : (force m bp).b_band bp = 0 := by
  rw [force_normal] at high
  unfold force
  rw [if_pos (queclass_high.mpr high)]
  exact update_self ..

def putWith (neighbours : Msgb → Queue → Option (Option Nat × Option Nat)) (change : Qband → Qband) (mem : Nat) (m : Msgb) (q : Queue) (bp : Nat) :
    Option (Bool × Msgb × Queue) :=
  let m := force m bp
  let r := bands mem q (m.b_band bp)
  if r.1 then
    (neighbours m r.2).map fun p =>
      let s := place m r.2 p.1 p.2 bp fun _ b => change b
      (true, s.1, if queclass m bp > QNORM || (!s.2.qnoenb && s.2.qwantr) then qenable s.2 else s.2)
  else some (false, m, r.2)

theorem putq_eq : putq time mem m q bp = putWith (fun m q => putPlace time m q bp) (fun b => b.last bp) mem m q bp := rfl

theorem putbq_eq : putbq time mem m q bp = putWith (fun m q => putbPlace time m q bp) (fun b => b.front bp) mem m q bp := rfl

theorem enabled_same (c : Bool) (q : Queue) : (if c then qenable q else q) = { q with qenab := (if c then qenable q else q).qenab } := by
  unfold qenable
  split_ifs <;> rfl

theorem Queued.enabled (queued : Queued m q l) (c : Bool) : Queued m (if c then qenable q else q) l := by
  rw [enabled_same]
  exact ⟨queued.list, queued.last, queued.ordered, queued.high, queued.within, queued.banded, ⟨queued.counted.queue, queued.counted.bands⟩⟩

theorem Flows.enabled (flows : Flows floor q) (c : Bool) : Flows floor (if c then qenable q else q) := by
  rw [enabled_same]
  exact ⟨flows.queue, flows.bands⟩

theorem onward_enabled (c : Bool) (q : Queue) : Onward q (if c then qenable q else q) := by
  refine ⟨by rw [enabled_same], fun runs => ?_, by rw [enabled_same]; rfl, fun pri waits => by rw [enabled_same]; exact waits⟩
  unfold qenable
  split_ifs
  · rfl
  · exact runs
  · exact runs

theorem place_queued {change : Msgb → Qband → Qband} (only : OnlyEnds change) (queued : Queued m q (before ++ after)) (fresh : bp ∉ before ++ after)
    (within : m.b_band bp ≤ q.q_nband) (high : ¬Ordinary m bp → m.b_band bp = 0) (sorted : InOrder (rank m) (before ++ bp :: after))
    (ends : ∀ m' b, Ends m (m.b_band bp) (before ++ after) b → Ordinary m bp → Ends m (m.b_band bp) (before ++ bp :: after) (change m' b)) :
    Queued (place m q before.getLast? after.head? bp change).1 (place m q before.getLast? after.head? bp change).2 (before ++ bp :: after) := by
  have ordered : (before ++ bp :: after).Pairwise (Before m) := sorted.imp before_iff.mpr
  have right := (place_parts only.keeps queued fresh within high).mpr ⟨ordinary_sorted ordered, fun banded b is => ?_⟩
  swap
  · have ordinary : Ordinary m bp := by
      by_contra loose
      exact banded (high loose)
    refine ends _ b ?_ ordinary
    have known := queued.banded _ b is
    rwa [show m.b_band bp - 1 + 1 = m.b_band bp by omega] at known
  obtain ⟨same, -, -, nband, -⟩ := place_queue m q before.getLast? after.head? bp change
  obtain ⟨bands, type, -⟩ := link_fields m q before.getLast? after.head? bp
  rw [← same] at bands type
  generalize place m q before.getLast? after.head? bp change = r at *
  have normal : Ordinary r.1 = Ordinary m := by
    funext b
    rw [Ordinary, Ordinary, type]
  refine ⟨right.list, right.last, ?_, fun b member loose => ?_, fun b member => ?_, right.banded, right.counted⟩
  · refine ordered.imp fun order => ?_
    rw [Before, normal, bands]
    exact order
  · rw [normal] at loose
    rw [bands]
    rcases List.mem_append.mp member with early | late
    · exact queued.high b (List.mem_append_left _ early) loose
    · rcases List.mem_cons.mp late with rfl | late
      · exact high loose
      · exact queued.high b (List.mem_append_right _ late) loose
  · rw [bands, nband]
    rcases List.mem_append.mp member with early | late
    · exact queued.within b (List.mem_append_left _ early)
    · rcases List.mem_cons.mp late with rfl | late
      · exact within
      · exact queued.within b (List.mem_append_right _ late)

theorem putWith_done {neighbours : Msgb → Queue → Option (Option Nat × Option Nat)} {change : Qband → Qband} (mem : Nat)
    (queued : Queued m q (before ++ after)) (flows : Flows floor q) (fresh : bp ∉ before ++ after) (only : OnlyEnds fun _ => change)
    (sorted : InOrder (rank m) (before ++ bp :: after))
    (spot : ∀ m' q', rank m' = rank m → Queued m' q' (before ++ after) → m'.b_band bp ≤ q'.q_nband → (¬Ordinary m' bp → m'.b_band bp = 0) →
      neighbours m' q' = some (before.getLast?, after.head?))
    (ends : ∀ m' b, rank m' = rank m → Ordinary m' bp → Ends m' (m'.b_band bp) (before ++ after) b →
      Ends m' (m'.b_band bp) (before ++ bp :: after) (change b)) :
    ∃ ok m' q', putWith neighbours change mem m q bp = some (ok, m', q') ∧ (ok = true ↔ (force m bp).b_band bp ≤ q.q_nband + mem) ∧
      Placed floor m m' q q' (if ok then before ++ bp :: after else before ++ after) (bp :: (before ++ after)) := by
  have alone := force_local m bp (before ++ after)
  have forced := (queued.force fresh).bands mem ((force m bp).b_band bp)
  have grown := flows.bands_more mem ((force m bp).b_band bp)
  have onward := onward_bands mem q ((force m bp).b_band bp)
  have found := congrArg Prod.fst (bands_eq mem q ((force m bp).b_band bp))
  have size : (bands mem q ((force m bp).b_band bp)).2.q_nband = q.q_nband + min mem ((force m bp).b_band bp - q.q_nband) := by
    rw [bands_eq]
    simp [Queue.q_nband]
  unfold putWith
  dsimp only at found ⊢
  generalize bands mem q ((force m bp).b_band bp) = r at *
  by_cases enough : (force m bp).b_band bp ≤ q.q_nband + mem
  · have within : (force m bp).b_band bp ≤ r.2.q_nband := by omega
    rw [found, decide_eq_true enough, if_pos rfl, spot _ _ alone.rank forced within force_zero, Option.map_some]
    refine ⟨true, _, _, rfl, by simp [enough], ?_⟩
    have there := place_queued only forced fresh within force_zero (alone.rank ▸ sorted) fun m' b ends' ordinary => ends _ b alone.rank ordinary ends'
    obtain ⟨same, -⟩ := place_queue (force m bp) r.2 before.getLast? after.head? bp fun _ b => change b
    refine ⟨Queued.enabled there _, (Flows.place only grown _ _).enabled _, ?_, (onward.trans (onward_place only ..)).trans (onward_enabled ..)⟩
    dsimp only
    rw [same]
    exact alone.trans (link_local _ _ before after bp) fun b member => member
  · rw [found, decide_eq_false enough]
    exact ⟨false, _, _, rfl, by simp [enough], forced, grown, alone, onward⟩

theorem last_ends {b : Qband} (ordinary : Ordinary m bp) (none_ : band m (m.b_band bp) after = []) (ends : Ends m (m.b_band bp) (before ++ after) b) :
    Ends m (m.b_band bp) (before ++ bp :: after) (b.last bp) := by
  obtain ⟨first, -⟩ := ends
  rw [band, List.filter_append, show after.filter _ = [] from none_, List.append_nil] at first
  rw [Ends, band_split, if_pos ⟨ordinary, rfl⟩, none_]
  refine ⟨?_, by simp [Qband.last]⟩
  show b.qb_first.or (some bp) = _
  rw [first]
  simp [band]

theorem front_ends {b : Qband} (ordinary : Ordinary m bp) (none_ : band m (m.b_band bp) before = []) (ends : Ends m (m.b_band bp) (before ++ after) b) :
    Ends m (m.b_band bp) (before ++ bp :: after) (b.front bp) := by
  obtain ⟨-, last⟩ := ends
  rw [show band m (m.b_band bp) (before ++ after) = band m (m.b_band bp) before ++ band m (m.b_band bp) after from List.filter_append .., none_,
    List.nil_append] at last
  rw [Ends, band_split, if_pos ⟨ordinary, rfl⟩, none_, List.nil_append]
  refine ⟨rfl, ?_⟩
  show b.qb_last.or (some bp) = _
  rw [last, List.getLast?_cons]
  cases (band m (m.b_band bp) after).getLast? <;> rfl

theorem walk_bands {stop : Nat → Bool} (queued : Queued m q (before ++ e :: after)) (ordinary : Ordinary m e) (here : stop e = true)
    (passed : ∀ a ∈ before, Ordinary m a → stop a = false) (enough : (before ++ e :: after).length ≤ time) :
    ((walk (fun t => decide (m.db_type t < QPCTL)) m.b_next time none q.q_first).bind fun r =>
      (walk stop m.b_next time none r.2).bind fun r => r.2.map fun tmp => (m.b_prev tmp, some tmp)) = some (before.getLast?, some e) := by
  have prev := queued.list.prev_eq
  have sorted := queued.ordered
  have list := queued.list
  obtain ⟨highs, mid, rfl, high, head⟩ : ∃ highs mid, before = highs ++ mid ∧ (∀ a ∈ highs, ¬Ordinary m a) ∧ ∀ x ∈ mid.head?, Ordinary m x := by
    refine ⟨before.takeWhile fun a => ¬Ordinary m a, before.dropWhile fun a => ¬Ordinary m a, (List.takeWhile_append_dropWhile ..).symm,
      fun a member => by simpa using List.mem_takeWhile_imp member, fun x is => ?_⟩
    have stops := List.head?_dropWhile_not (fun a => decide (¬Ordinary m a)) before
    rw [is] at stops
    simpa using stops
  obtain ⟨x, rest, shape, starts⟩ : ∃ x rest, mid ++ e :: after = x :: rest ∧ Ordinary m x := by
    cases mid with
    | nil => exact ⟨e, after, rfl, ordinary⟩
    | cons x mid => exact ⟨x, mid ++ e :: after, rfl, head x rfl⟩
  rw [List.append_assoc] at list sorted enough
  have first : walk (fun t => decide (m.db_type t < QPCTL)) m.b_next time none q.q_first = some (highs.getLast?, some x) := by
    rw [shape] at list enough
    refine walk_found _ _ list.forward (fun a member => decide_eq_false (high a member)) (decide_eq_true starts) ?_
    rw [List.length_append, List.length_cons] at enough
    omega
  have second : walk stop m.b_next time none (some x) = some (mid.getLast?, some e) := by
    have onward : Linked m.b_next (some x) (mid ++ e :: after) := by
      rw [shape] at list ⊢
      exact list.onward
    refine walk_found _ _ onward (fun a member => passed a (List.mem_append_right _ member) ?_) here ?_
    · have inside : a ∈ x :: rest := shape ▸ List.mem_append_left _ member
      rcases List.mem_cons.mp inside with rfl | later
      · exact starts
      · rw [shape] at sorted
        exact ((List.pairwise_cons.mp (List.pairwise_append.mp sorted).2.1).1 a later starts).1
    · rw [List.length_append, List.length_append, List.length_cons] at enough
      omega
  rw [first, Option.bind_some, second, Option.bind_some, Option.map_some, prev]

theorem class_lt_iff {x : Nat} : queclass m bp < queclass m x ↔ Ordinary m bp ∧ ¬Ordinary m x := by
  by_cases here : Ordinary m bp
  · by_cases there : Ordinary m x
    · simp [queclass_normal.mpr here, queclass_normal.mpr there, there]
    · rw [queclass_normal.mpr here, queclass_high.mpr there]
      simp [here, there, QNORM, QPCTL]
  · by_cases there : Ordinary m x
    · rw [queclass_high.mpr here, queclass_normal.mpr there]
      simp [here, QNORM, QPCTL]
    · simp [queclass_high.mpr here, queclass_high.mpr there, here]

theorem rank_lt_iff {x : Nat} : rank m bp < rank m x ↔ Ordinary m bp ∧ (Ordinary m x → m.b_band bp < m.b_band x) := by
  by_cases here : Ordinary m bp
  · by_cases there : Ordinary m x
    · simp [rank_ordinary here, rank_ordinary there, here, there]
    · simp [rank_ordinary here, rank_high there, here, there]
  · simp [rank_high here, here]

theorem band_none (none_ : ∀ a ∈ l, rank m a ≠ (pri : WithTop ℕ)) : band m pri l = [] := by
  rw [band_lane]
  exact lane_empty none_

theorem own_band (queued : Queued m q l) (within : m.b_band bp ≤ q.q_nband) (banded : m.b_band bp ≠ 0) :
    ∃ b, q.q_bandp[m.b_band bp - 1]? = some b ∧ b.qb_first = (band m (m.b_band bp) l).head? ∧ b.qb_last = (band m (m.b_band bp) l).getLast? := by
  have there : m.b_band bp - 1 < q.q_bandp.length := by
    have : q.q_nband = q.q_bandp.length := rfl
    omega
  have ends := queued.banded _ _ (List.getElem?_eq_getElem there)
  rw [show m.b_band bp - 1 + 1 = m.b_band bp by omega] at ends
  exact ⟨_, List.getElem?_eq_getElem there, ends⟩

theorem putPlace_behind (queued : Queued m q (before ++ after)) (within : m.b_band bp ≤ q.q_nband) (high : ¬Ordinary m bp → m.b_band bp = 0)
    (first : ∀ a ∈ before, rank m bp ≤ rank m a) (last : ∀ b ∈ after, rank m b < rank m bp) (enough : (before ++ after).length ≤ time) :
    putPlace time m q bp = some (before.getLast?, after.head?) := by
  cases after with
  | nil =>
    rw [List.append_nil] at queued
    exact putPlace_last queued (fun a member => before_iff.mpr (first a member)) high within
  | cons e after =>
    have start : q.q_first ≠ none := by
      rw [Linked.head queued.list.forward]
      simp
    obtain ⟨x, final, member⟩ : ∃ x, q.q_last = some x ∧ x ∈ e :: after := by
      refine ⟨(e :: after).getLast (List.cons_ne_nil e after), ?_, List.getLast_mem _⟩
      rw [queued.last, List.getLast?_append, List.getLast?_eq_some_getLast (List.cons_ne_nil e after)]
      rfl
    have lower := last x member
    have lowest := last e (List.mem_cons_self ..)
    unfold putPlace
    rw [if_neg start, final, Option.bind_some, Option.bind_some]
    by_cases zero : m.b_band bp = 0
    · have loose : ¬Ordinary m bp := fun ordinary => by
        have below := (rank_lt_iff.mp lower).2 ordinary
        omega
      have plain : ∀ {b}, rank m b < rank m bp → Ordinary m b := fun less => (rank_lt_iff.mp less).1
      rw [if_pos zero, if_neg (by rw [not_le]; exact class_lt_iff.mpr ⟨plain lower, loose⟩)]
      have found := walk_found (fun t => decide (queclass m t < queclass m bp)) time queued.list.forward
        (fun a there => decide_eq_false fun less => loose (before_iff.mpr (first a there) (class_lt_iff.mp less).1).1)
        (decide_eq_true (class_lt_iff.mpr ⟨plain lowest, loose⟩)) (by rw [List.length_append, List.length_cons] at enough; omega)
      rw [found, Option.bind_some, Option.map_some, queued.list.prev_eq]
      rfl
    · have ordinary : Ordinary m bp := by
        by_contra loose
        exact zero (high loose)
      obtain ⟨b, is, begins, ends⟩ := own_band queued within zero
      rw [if_neg zero, is, Option.bind_some]
      have inside : ∀ a ∈ e :: after, Ordinary m a ∧ m.b_band a < m.b_band bp := fun a there =>
        ⟨(rank_lt_iff.mp (last a there)).1, (rank_lt_iff.mp (last a there)).2 ordinary⟩
      have none_ : band m (m.b_band bp) (e :: after) = [] :=
        band_none fun a there => (rank_ordinary ordinary).symm ▸ (last a there).ne
      have split : band m (m.b_band bp) (before ++ e :: after) = band m (m.b_band bp) before := by
        rw [show band m (m.b_band bp) (before ++ e :: after) = band m (m.b_band bp) before ++ band m (m.b_band bp) (e :: after) from
          List.filter_append .., none_, List.append_nil]
      rw [split] at begins ends
      by_cases some_ : b.qb_first = none
      · rw [if_pos some_, if_neg]
        · exact walk_bands queued (inside e (List.mem_cons_self ..)).1 (decide_eq_true (inside e (List.mem_cons_self ..)).2)
            (fun a there plain => decide_eq_false (not_lt.mpr (before_iff.mpr (first a there) plain).2)) enough
        · rintro (less | le)
          · exact (class_lt_iff.mp less).2 (inside x member).1
          · exact absurd (inside x member).2 (not_lt.mpr le)
      · -- the last message of its band is the last that is not lower
        rcases List.eq_nil_or_concat' before with rfl | ⟨front, z, rfl⟩
        · rw [begins] at some_
          exact absurd rfl some_
        rw [if_neg some_]
        have same : rank m z = (m.b_band bp : WithTop ℕ) := by
          refine le_antisymm ?_ (rank_ordinary ordinary ▸ first z (by simp))
          obtain ⟨y, there⟩ := List.exists_mem_of_ne_nil (band m (m.b_band bp) (front ++ [z])) fun empty => some_ (by rw [begins, empty]; rfl)
          obtain ⟨there, plain, equal⟩ := mem_band.mp there
          have sorted := (List.pairwise_append.mp (List.pairwise_append.mp (queued.ordered.imp before_iff.mp)).1).2.2
          rw [← rank_eq_iff.mpr ⟨plain, equal⟩]
          rcases List.mem_append.mp there with early | late
          · exact sorted y early z (by simp)
          · rw [List.mem_singleton.mp late]
        have tail : band m (m.b_band bp) (front ++ [z]) = band m (m.b_band bp) front ++ [z] := by
          simp [band, rank_eq_iff.mp same]
        have next : m.b_next z = some e := by
          have list := queued.list
          rw [List.append_assoc] at list
          exact list.next_eq
        rw [ends, tail, List.getLast?_concat, List.getLast?_concat, Option.map_some, next]
        rfl

theorem putbBehind_infront (queued : Queued m q (before ++ after)) (ordinary : Ordinary m bp) (some_ : before ++ after ≠ [])
    (first : ∀ a ∈ before, rank m bp < rank m a) (last : ∀ b ∈ after, rank m b ≤ rank m bp) (enough : (before ++ after).length ≤ time) :
    putbBehind time m q bp = some (before.getLast?, after.head?) := by
  have above : ∀ {x}, (queclass m bp < queclass m x ∨ m.b_band bp < m.b_band x) → (Ordinary m x → m.b_band bp < m.b_band x) := by
    rintro x (less | less) plain
    · exact absurd plain (class_lt_iff.mp less).2
    · exact less
  unfold putbBehind
  cases after with
  | nil =>
    rw [List.append_nil] at queued some_
    obtain ⟨front, x, rfl⟩ := (List.eq_nil_or_concat' before).resolve_left some_
    rw [queued.last, List.getLast?_concat, Option.bind_some, if_pos]
    · rfl
    · obtain ⟨-, higher⟩ := rank_lt_iff.mp (first x (by simp))
      by_cases plain : Ordinary m x
      · exact .inr (higher plain)
      · exact .inl (class_lt_iff.mpr ⟨ordinary, plain⟩)
  | cons e after =>
    obtain ⟨x, final, member⟩ : ∃ x, q.q_last = some x ∧ x ∈ e :: after := by
      refine ⟨(e :: after).getLast (List.cons_ne_nil e after), ?_, List.getLast_mem _⟩
      rw [queued.last, List.getLast?_append, List.getLast?_eq_some_getLast (List.cons_ne_nil e after)]
      rfl
    have inside : ∀ a ∈ e :: after, Ordinary m a ∧ m.b_band a ≤ m.b_band bp := fun a there => before_iff.mpr (last a there) ordinary
    rw [final, Option.bind_some, if_neg]
    · refine walk_bands queued (inside e (List.mem_cons_self ..)).1 (decide_eq_true (inside e (List.mem_cons_self ..)).2) (fun a there plain => ?_) enough
      exact decide_eq_false (not_le.mpr ((rank_lt_iff.mp (first a there)).2 plain))
    · exact fun higher => absurd (above higher (inside x member).1) (not_lt.mpr (inside x member).2)

theorem putbPlace_infront (queued : Queued m q (before ++ after)) (within : m.b_band bp ≤ q.q_nband)
    (first : ∀ a ∈ before, rank m bp < rank m a) (last : ∀ b ∈ after, rank m b ≤ rank m bp) (enough : (before ++ after).length ≤ time) :
    putbPlace time m q bp = some (before.getLast?, after.head?) := by
  have start := Linked.head queued.list.forward
  unfold putbPlace
  by_cases front : q.q_first = none ∨ queclass m bp = QPCTL
  · have none_ : before = [] := by
      rcases front with empty | loose
      · rw [start, List.head?_eq_none_iff] at empty
        exact (List.append_eq_nil_iff.mp empty).1
      · refine List.eq_nil_iff_forall_not_mem.mpr fun a there => ?_
        exact queclass_high.mp loose (rank_lt_iff.mp (first a there)).1
    rw [if_pos front, start, none_]
    rfl
  have ordinary : Ordinary m bp := by
    by_contra loose
    exact front (.inr (queclass_high.mpr loose))
  have some_ : before ++ after ≠ [] := by
    intro empty
    rw [start, empty] at front
    exact front (.inl rfl)
  rw [if_neg front]
  by_cases zero : m.b_band bp = 0
  · rw [if_pos zero]
    exact putbBehind_infront queued ordinary some_ first last enough
  obtain ⟨b, is, begins, -⟩ := own_band queued within zero
  have none_ : band m (m.b_band bp) before = [] := band_none fun a there => (rank_ordinary ordinary).symm ▸ (first a there).ne'
  rw [show band m (m.b_band bp) (before ++ after) = band m (m.b_band bp) before ++ band m (m.b_band bp) after from List.filter_append .., none_,
    List.nil_append] at begins
  rw [if_neg zero, is, Option.bind_some]
  cases found : b.qb_first with
  | none => exact putbBehind_infront queued ordinary some_ first last enough
  | some tmp =>
    -- the first message of its band is the first that is not higher
    have there := mem_band.mp (List.mem_of_head? (begins.symm.trans found))
    cases after with
    | nil => exact absurd there.1 List.not_mem_nil
    | cons e rest =>
      have same : rank m e = (m.b_band bp : WithTop ℕ) := by
        refine le_antisymm (rank_ordinary ordinary ▸ last e (List.mem_cons_self ..)) ?_
        rw [← rank_eq_iff.mpr there.2]
        rcases List.mem_cons.mp there.1 with rfl | later
        · exact le_rfl
        · exact before_iff.mp ((List.pairwise_cons.mp (List.pairwise_append.mp queued.ordered).2.1).1 tmp later)
      have head : band m (m.b_band bp) (e :: rest) = e :: band m (m.b_band bp) rest := by simp [band, rank_eq_iff.mp same]
      rw [begins, head, List.head?_cons, Option.some.injEq] at found
      rw [← found]
      show some (m.b_prev e, some e) = _
      rw [queued.list.prev_eq]
      rfl

theorem none_in (ordinary : Ordinary m bp) (apart : ∀ a ∈ l, rank m a ≠ rank m bp) : band m (m.b_band bp) l = [] :=
  band_none fun a there => (rank_ordinary ordinary).symm ▸ apart a there

theorem putq_done (mem : Nat) (queued : Queued m q l) (flows : Flows floor q) (fresh : bp ∉ l) (enough : l.length ≤ time) :
    ∃ ok m' q', putq time mem m q bp = some (ok, m', q') ∧ (ok = true ↔ (force m bp).b_band bp ≤ q.q_nband + mem) ∧
      Placed floor m m' q q' (if ok then behind (rank m) bp l else l) (bp :: l) := by
  obtain ⟨before, after, rfl, placed, first, last⟩ := behind_parts (Queued.inOrder queued) bp
  rw [putq_eq, placed]
  refine putWith_done mem queued flows fresh (last_only bp) (inOrder_middle (Queued.inOrder queued) first fun b there => (last b there).le) ?_ ?_
  · intro m' q' same queued' within high
    exact putPlace_behind queued' within high (same ▸ first) (same ▸ last) enough
  · intro m' b same ordinary ends
    exact last_ends ordinary (none_in ordinary fun a there => same ▸ (last a there).ne) ends

theorem putbq_done (mem : Nat) (queued : Queued m q l) (flows : Flows floor q) (fresh : bp ∉ l) (enough : l.length ≤ time) :
    ∃ ok m' q', putbq time mem m q bp = some (ok, m', q') ∧ (ok = true ↔ (force m bp).b_band bp ≤ q.q_nband + mem) ∧
      Placed floor m m' q q' (if ok then infront (rank m) bp l else l) (bp :: l) := by
  obtain ⟨before, after, rfl, placed, first, last⟩ := infront_parts (Queued.inOrder queued) bp
  rw [putbq_eq, placed]
  refine putWith_done mem queued flows fresh (front_only bp) (inOrder_middle (Queued.inOrder queued) (fun a there => (first a there).le) last) ?_ ?_
  · intro m' q' same queued' within _
    exact putbPlace_infront queued' within (same ▸ first) (same ▸ last) enough
  · intro m' b same ordinary ends
    exact front_ends ordinary (none_in ordinary fun a there => same ▸ (first a there).ne') ends

end Svr4.Proofs.StrqPut
