import Svr4.Proofs.StrqPlace

/-! `flushq`: the messages that stay, and the queue behind. -/

namespace Svr4.Proofs.StrqFlush
open Function Chain DoubleChain Strq StrqPlace

variable {m m' : Msgb} {q q' q'' : Queue} {l kept rest : List Nat} {bp b mem time : Nat} {flag : Bool}

structure Steady (q q' : Queue) : Prop where
  lowat : q'.q_lowat = q.q_lowat
  srvp : q'.qi_srvp = q.qi_srvp
  wantw : q'.qwantw = q.qwantw
  bands : q'.q_bandp.map (fun b => (b.qb_lowat, b.qb_wantw)) = q.q_bandp.map fun b => (b.qb_lowat, b.qb_wantw)

theorem Steady.refl (q : Queue) : Steady q q := ⟨rfl, rfl, rfl, rfl⟩

theorem Steady.trans (first : Steady q q') (second : Steady q' q'') : Steady q q'' :=
  ⟨second.lowat.trans first.lowat, second.srvp.trans first.srvp, second.wantw.trans first.wantw, second.bands.trans first.bands⟩

theorem Steady.nband (steady : Steady q q') : q'.q_nband = q.q_nband := by
  have lengths := congrArg List.length steady.bands
  rwa [List.length_map, List.length_map] at lengths

theorem putPlace_last (queued : Queued m q l) (order : ∀ a ∈ l, Before m a bp) (high : ¬ Ordinary m bp → m.b_band bp = 0)
    (within : m.b_band bp ≤ q.q_nband) : putPlace time m q bp = some (l.getLast?, none) := by
  have start := Linked.head queued.list.forward
  have last := queued.last
  unfold putPlace
  rcases List.eq_nil_or_concat' l with rfl | ⟨front, x, rfl⟩
  · rw [start, if_pos List.head?_nil]
    rfl
  rw [List.getLast?_concat] at last
  have some : q.q_first ≠ none := by
    rw [start]
    simp
  have follows := order x (by simp)
  rw [if_neg some, last, List.getLast?_concat]
  by_cases zero : m.b_band bp = 0
  · have class_le : queclass m bp ≤ queclass m x := by
      by_cases ordinary : Ordinary m bp
      · rw [queclass_normal.mpr ordinary]
        exact Nat.zero_le _
      · have also : ¬ Ordinary m x := fun plain => ordinary (follows plain).1
        rw [queclass_high.mpr ordinary, queclass_high.mpr also]
    rw [if_pos zero, Option.bind_some, if_pos class_le]
  · have ordinary : Ordinary m bp := by
      by_contra loose
      exact zero (high loose)
    have there : m.b_band bp - 1 < q.q_bandp.length := by
      have : q.q_nband = q.q_bandp.length := rfl
      omega
    have found := List.getElem?_eq_getElem there
    obtain ⟨first, final⟩ := queued.banded _ _ found
    rw [show m.b_band bp - 1 + 1 = m.b_band bp by omega] at first final
    rw [if_neg zero, found, Option.bind_some, Option.bind_some]
    split
    · by_cases plain : Ordinary m x
      · rw [if_pos (Or.inr (follows plain).2)]
      · rw [if_pos (Or.inl (by rw [queclass_normal.mpr ordinary, queclass_high.mpr plain]; decide))]
    · next some =>
      rw [first] at some
      have members : band m (m.b_band bp) (front ++ [x]) ≠ [] := by
        intro empty
        rw [empty] at some
        exact some rfl
      -- the last message of the queue is in the band as well
      have inside : Ordinary m x ∧ m.b_band x = m.b_band bp := by
        obtain ⟨y, member⟩ := List.exists_mem_of_ne_nil _ members
        obtain ⟨member, plain, same⟩ := mem_band.mp member
        rcases List.mem_append.mp member with early | late
        · obtain ⟨firm, below⟩ := (List.pairwise_append.mp queued.ordered).2.2 y early x (by simp) plain
          exact ⟨firm, le_antisymm (below.trans same.le) (follows firm).2⟩
        · obtain rfl := List.mem_singleton.mp late
          exact ⟨plain, same⟩
      have tail : band m (m.b_band bp) (front ++ [x]) = band m (m.b_band bp) front ++ [x] := by simp [band, inside]
      rw [tail, List.getLast?_concat] at final
      rw [final, Option.map_some, queued.list.next_eq, List.head?_nil]

theorem force_self (high : ¬ Ordinary m bp → m.b_band bp = 0) : force m bp = m := by
  unfold force
  split
  · next is =>
    rw [← high (queclass_high.mp is), update_eq_self]
  · rfl

theorem bands_enough (within : b ≤ q.q_nband) : bands mem q b = (true, q) := by
  rw [bands_eq]
  have none : min mem (b - q.q_nband) = 0 := by omega
  rw [none, decide_eq_true (by omega)]
  simp

theorem last_keeps (bp : Nat) : Keeps fun _ b => b.last bp := fun _ _ => ⟨rfl, rfl, rfl⟩

theorem place_steady (m : Msgb) (q : Queue) (x y : Option Nat) (bp : Nat) : Steady q (place m q x y bp fun _ b => b.last bp).2 := by
  have fields : (place m q x y bp fun _ b => b.last bp).2.q_lowat = q.q_lowat ∧
      (place m q x y bp fun _ b => b.last bp).2.qi_srvp = q.qi_srvp ∧ (place m q x y bp fun _ b => b.last bp).2.qwantw = q.qwantw := by
    have linked : (link m q x y bp).2.q_lowat = q.q_lowat ∧ (link m q x y bp).2.qi_srvp = q.qi_srvp ∧
        (link m q x y bp).2.qwantw = q.qwantw := by cases x <;> cases y <;> exact ⟨rfl, rfl, rfl⟩
    by_cases zero : m.b_band bp = 0
    · rw [place_zero zero, charge_zero]
      exact linked
    · rw [place_some zero, charge_some zero]
      exact linked
  refine ⟨fields.1, fields.2.1, fields.2.2, List.ext_getElem? fun i => ?_⟩
  rw [List.getElem?_map, List.getElem?_map, place_band, Option.map_map]
  congr 1
  funext b
  rw [comp_apply]
  split <;> rfl

theorem enabled_steady (c : Bool) (q : Queue) : Steady q (if c then qenable q else q) := by
  unfold qenable
  cases c with
  | false => exact Steady.refl q
  | true =>
    rw [if_pos rfl]
    split
    · exact ⟨rfl, rfl, rfl, rfl⟩
    · exact Steady.refl q

theorem putq_last (time mem : Nat) (queued : Queued m q l) (fresh : bp ∉ l) (order : ∀ a ∈ l, Before m a bp)
    (high : ¬ Ordinary m bp → m.b_band bp = 0) (within : m.b_band bp ≤ q.q_nband) :
    ∃ m' q', putq time mem m q bp = some (true, m', q') ∧ Queued m' q' (l ++ [bp]) ∧ Steady q q' ∧
      (m'.b_band = m.b_band ∧ m'.db_type = m.db_type ∧ m'.b_cont = m.b_cont) ∧
      ∀ c, c ≠ bp → c ∉ l → m'.b_next c = m.b_next c := by
  have sorted : (l ++ [bp]).Pairwise (Before m) :=
    List.pairwise_append.mpr ⟨queued.ordered, List.pairwise_singleton .., fun a member c is => List.mem_singleton.mp is ▸ order a member⟩
  have whole : Queued m q (l ++ []) := by rwa [List.append_nil]
  have right := (place_parts (last_keeps bp) whole (by rwa [List.append_nil]) within high).mpr ⟨ordinary_sorted sorted, fun banded c is => ?_⟩
  swap
  · have ordinary : Ordinary m bp := by
      by_contra loose
      exact banded (high loose)
    obtain ⟨first, _⟩ := queued.banded _ _ is
    rw [show m.b_band bp - 1 + 1 = m.b_band bp by omega] at first
    rw [Ends, band_split, if_pos ⟨ordinary, rfl⟩]
    refine ⟨?_, ?_⟩
    · simp [Qband.last, first, band]
    · simp [Qband.last, band]
  have steady := place_steady m q l.getLast? none bp
  obtain ⟨same, _, _, nband, _⟩ := place_queue m q l.getLast? none bp fun _ b => b.last bp
  obtain ⟨bands, type, cont, _⟩ := link_fields m q l.getLast? none bp
  unfold putq
  dsimp only
  rw [force_self high, bands_enough within, if_pos rfl, putPlace_last queued order high within, Option.map_some]
  rw [List.head?_nil] at right
  generalize place m q l.getLast? none bp (fun _ b => b.last bp) = r at *
  rw [← same] at bands type cont
  have enabled := enabled_steady (decide (queclass m bp > QNORM) || (!r.2.qnoenb && r.2.qwantr)) r.2
  have right := (right_enabled (c := decide (queclass m bp > QNORM) || (!r.2.qnoenb && r.2.qwantr))).mpr right
  refine ⟨_, _, rfl, ?_, steady.trans enabled, ⟨bands, type, cont⟩, fun c other outside => ?_⟩
  · refine ⟨right.list, right.last, ?_, fun c member loose => ?_, fun c member => ?_, right.banded, right.counted⟩
    · apply sorted.imp
      intro a b order
      rw [Before, Ordinary, Ordinary, type, bands]
      exact order
    · rw [Ordinary, type] at loose
      rw [bands]
      rcases List.mem_append.mp member with early | late
      · exact queued.high c early loose
      · obtain rfl := List.mem_singleton.mp late
        exact high loose
    · rw [bands, enabled.nband, nband]
      rcases List.mem_append.mp member with early | late
      · exact queued.within c early
      · obtain rfl := List.mem_singleton.mp late
        exact within
  · rw [same]
    rcases List.eq_nil_or_concat' l with rfl | ⟨front, x, rfl⟩
    · exact update_of_ne other ..
    · rw [List.getLast?_concat]
      have apart : c ≠ x := fun is => outside (by simp [is])
      show update (update m.b_next bp none) x (some bp) c = _
      rw [update_of_ne apart, update_of_ne other]

def stays (flag : Bool) (m : Msgb) (b : Nat) : Bool := !(flag || datamsg (m.db_type b))

theorem flush_loop (mem : Nat) (flag : Bool) {mp : Option Nat} (queued : Queued m q kept) (linked : Linked m.b_next mp rest) (once : (kept ++ rest).Nodup)
    (sorted : (kept ++ rest).Pairwise (Before m)) (high : ∀ b ∈ rest, ¬ Ordinary m b → m.b_band b = 0)
    (within : ∀ b ∈ rest, m.b_band b ≤ q.q_nband) (enough : rest.length ≤ time) :
    ∃ m' q', flushLoop mem flag time m q mp = some (m', q') ∧ Queued m' q' (kept ++ rest.filter (stays flag m)) ∧ Steady q q' ∧
      m'.b_band = m.b_band ∧ m'.db_type = m.db_type ∧ m'.b_cont = m.b_cont := by
  induction rest generalizing time m q kept mp with
  | nil =>
    obtain rfl : mp = none := linked
    refine ⟨m, q, ?_, by simpa using queued, Steady.refl q, rfl, rfl, rfl⟩
    cases time <;> rfl
  | cons bp rest ih =>
    obtain ⟨rfl, linked⟩ := linked
    obtain ⟨time, rfl⟩ := Nat.exists_eq_add_of_le' (show 1 ≤ time by simp at enough; omega)
    have fewer : rest.length ≤ time := by simpa using enough
    unfold flushLoop
    by_cases goes : (flag || datamsg (m.db_type bp)) = true
    · have gone : stays flag m bp = false := by simp [stays, goes]
      rw [if_pos goes, List.filter_cons_of_neg (by simp [gone])]
      apply ih queued linked ?_ ?_ (fun b member => high b (by simp [member])) (fun b member => within b (by simp [member])) fewer
      · exact once.sublist (List.Sublist.append_left (List.sublist_cons_self ..) kept)
      · exact sorted.sublist (List.Sublist.append_left (List.sublist_cons_self ..) kept)
    · have stay : stays flag m bp = true := by simpa [stays] using goes
      have fresh : bp ∉ kept := by
        rw [List.nodup_append] at once
        exact fun member => once.2.2 bp member bp (by simp) rfl
      have order : ∀ a ∈ kept, Before m a bp := fun a member => (List.pairwise_append.mp sorted).2.2 a member bp (by simp)
      obtain ⟨m', q', put, queued, steady, ⟨bands, type, cont⟩, next⟩ :=
        putq_last time mem queued fresh order (high bp (by simp)) (within bp (by simp))
      have shape : kept ++ bp :: rest = kept ++ [bp] ++ rest := by simp
      rw [shape] at once sorted
      have later : ∀ c ∈ rest, c ≠ bp ∧ c ∉ kept := by
        intro c member
        have apart := (List.nodup_append.mp once).2.2
        exact ⟨fun is => apart bp (by simp) c member is.symm, fun early => apart c (by simp [early]) c member rfl⟩
      have linked : Linked m'.b_next (m.b_next bp) rest := linked.congr fun c member => next c (later c member).1 (later c member).2
      have alike : stays flag m' = stays flag m := by
        funext c
        rw [stays, stays, type]
      have normal : Ordinary m' = Ordinary m := by
        funext c
        rw [Ordinary, Ordinary, type]
      have befores : Before m' = Before m := by
        funext a c
        rw [Before, Before, normal, bands]
      obtain ⟨m'', q'', looped, queued, steady', bands', type', cont'⟩ := ih queued linked once (befores ▸ sorted)
        (fun c member loose => by rw [bands]; exact high c (by simp [member]) (normal ▸ loose))
        (fun c member => by rw [bands, steady.nband]; exact within c (by simp [member])) fewer
      refine ⟨m'', q'', ?_, ?_, steady.trans steady', bands'.trans bands, type'.trans type, cont'.trans cont⟩
      · rw [if_neg goes, put]
        exact looped
      · rw [List.filter_cons_of_pos stay]
        rwa [alike, List.append_assoc] at queued

theorem queued_empty (m : Msgb) (q : Queue) : Queued m (empty q) [] := by
  have found : ∀ (i : Nat) (b : Qband), (empty q).q_bandp[i]? = some b → b.qb_first = none ∧ b.qb_last = none ∧ b.qb_count = 0 := by
    intro i b is
    rw [empty, List.getElem?_map] at is
    obtain ⟨b, _, rfl⟩ := Option.map_eq_some_iff.mp is
    exact ⟨rfl, rfl, rfl⟩
  refine ⟨⟨rfl, rfl⟩, rfl, .nil, nofun, nofun, fun i b is => ?_, rfl, fun i b is => ?_⟩
  · obtain ⟨first, last, _⟩ := found i b is
    exact ⟨first, last⟩
  · exact (found i b is).2.2

theorem empty_steady (q : Queue) : Steady q (empty q) := by
  refine ⟨rfl, rfl, rfl, ?_⟩
  rw [empty, List.map_map]
  rfl

/-- A writer waits for a band, and the messages on it are not above the low water mark. -/
def Wanted (m : Msgb) (q : Queue) (l : List Nat) (pri : Nat) : Prop :=
  if pri = 0 then q.qwantw = true ∧ ((plain m l).map (size m)).sum ≤ q.q_lowat
  else ∃ b, q.q_bandp[pri - 1]? = some b ∧ b.qb_wantw = true ∧ ((band m pri l).map (size m)).sum ≤ b.qb_lowat

theorem wanted_congr (bands : m'.b_band = m.b_band) (type : m'.db_type = m.db_type) (cont : m'.b_cont = m.b_cont) (pri : Nat) :
    Wanted m' q l pri ↔ Wanted m q l pri := by
  have sizes : size m' = size m := by
    funext b
    rw [size, size, cont]
  rw [Wanted, Wanted, sizes, plain_congr (fun b _ => congrFun bands b),
    band_congr (fun b _ => congrFun type b) (fun b _ => congrFun bands b)]

theorem writable_wanted (queued : Queued m q' l) (steady : Steady q q') (pri : Nat) :
    (writable q').getD pri false = true ↔ Wanted m q l pri := by
  cases pri with
  | zero =>
    rw [writable, List.getD_cons_zero, Wanted, if_pos rfl, ← queued.counted.queue, steady.wantw, steady.lowat]
    simp
  | succ i =>
    have same := congrArg (fun l => l[i]?) steady.bands
    simp only [List.getElem?_map] at same
    rw [writable, List.getD_cons_succ, List.getD_eq_getElem?_getD, List.getElem?_map, Wanted, if_neg (Nat.succ_ne_zero i),
      Nat.succ_sub_one]
    cases known : q'.q_bandp[i]? with
    | none =>
      rw [known, Option.map_none] at same
      have none := Option.map_eq_none_iff.mp same.symm
      simp [none]
    | some b =>
      rw [known, Option.map_some] at same
      obtain ⟨b', known', equal⟩ := Option.map_eq_some_iff.mp same.symm
      obtain ⟨lowat, wantw⟩ := Prod.mk.inj equal
      have count := queued.counted.bands i b known
      rw [known', Option.map_some, Option.getD_some, count, ← lowat, ← wantw]
      simp

/-- The queue is marked as enabled from before for a band. -/
def Backed (q : Queue) (pri : Nat) : Prop :=
  if pri = 0 then q.qback = true else ∃ b, q.q_bandp[pri - 1]? = some b ∧ b.qb_back = true

theorem Backed.within {pri : Nat} (backed : Backed q pri) : pri ≤ q.q_nband := by
  unfold Backed at backed
  split at backed
  · omega
  · obtain ⟨b, found, _⟩ := backed
    have := (List.getElem?_eq_some_iff.mp found).1
    rw [Queue.q_nband]
    omega

theorem setqback_backs (mem : Nat) {pri : Nat} (within : pri ≤ q.q_nband) :
    Backed (setqback mem q pri) pri ∧ (∀ i, Backed q i → Backed (setqback mem q pri) i) ∧
      (setqback mem q pri).q_nband = q.q_nband ∧ (setqback mem q pri).qenab = q.qenab := by
  unfold setqback
  by_cases zero : pri = 0
  · rw [if_pos zero]
    refine ⟨by rw [Backed, if_pos zero], fun i backed => ?_, rfl, rfl⟩
    unfold Backed at *
    split
    · rfl
    · next some => rwa [if_neg some] at backed
  · have there : pri - 1 < q.q_bandp.length := by
      have : q.q_nband = q.q_bandp.length := rfl
      omega
    rw [if_neg zero]
    dsimp only
    rw [bands_enough within, if_pos rfl]
    refine ⟨?_, fun i backed => ?_, ?_, rfl⟩
    · rw [Backed, if_neg zero]
      exact ⟨_, by rw [List.getElem?_modify_eq, List.getElem?_eq_getElem there]; rfl, rfl⟩
    · unfold Backed at *
      split
      · next zero => rwa [if_pos zero] at backed
      · next some =>
        rw [if_neg some] at backed
        obtain ⟨b, found, is⟩ := backed
        rw [List.getElem?_modify, found, Option.map_eq_map, Option.map_some]
        by_cases same : pri - 1 = i - 1
        · exact ⟨_, by rw [if_pos same], rfl⟩
        · exact ⟨b, by rw [if_neg same], is⟩
    · simp [Queue.q_nband]

theorem foldl_setqback (mem : Nat) {pris : List Nat} (within : ∀ pri ∈ pris, pri ≤ q.q_nband) :
    (∀ pri ∈ pris, Backed (pris.foldl (setqback mem) q) pri) ∧ (∀ i, Backed q i → Backed (pris.foldl (setqback mem) q) i) ∧
      (pris.foldl (setqback mem) q).q_nband = q.q_nband ∧ (pris.foldl (setqback mem) q).qenab = q.qenab := by
  induction pris generalizing q with
  | nil => exact ⟨nofun, fun _ backed => backed, rfl, rfl⟩
  | cons pri pris ih =>
    obtain ⟨first, others, nband, enab⟩ := setqback_backs mem (within pri (by simp))
    obtain ⟨marked, kept, nband', enab'⟩ := ih (q := setqback mem q pri) (fun i member => by rw [nband]; exact within i (by simp [member]))
    refine ⟨fun i member => ?_, fun i backed => kept i (others i backed), nband'.trans nband, enab'.trans enab⟩
    rcases List.mem_cons.mp member with rfl | later
    · exact kept i first
    · exact marked i later

theorem unwant_fields (q : Queue) : (unwant q).qi_srvp = q.qi_srvp ∧ (unwant q).q_nband = q.q_nband := by
  refine ⟨rfl, ?_⟩
  rw [Queue.q_nband, Queue.q_nband, unwant, List.length_map]

theorem nearest_congr {s t : Streams} (next : t.q_next = s.q_next) (other : t.otherq = s.otherq)
    (srvp : ∀ b, (t.queue b).qi_srvp = (s.queue b).qi_srvp) (q : Nat) : nearest time t q = nearest time s q := by
  have back : backq t = backq s := by
    funext q
    rw [backq, backq, next, other]
  have stop : (fun b => (t.queue b).qi_srvp) = fun b => (s.queue b).qi_srvp := funext srvp
  rw [nearest, nearest, back, stop]

theorem walk_stops {stop : Nat → Bool} {next : Nat → Option Nat} {prev p r : Option Nat} (found : walk stop next time prev p = some (r, some b)) :
    stop b = true := by
  induction time generalizing prev p with
  | zero => cases p <;> cases found
  | succ time ih =>
    cases p with
    | none => cases found
    | some a =>
      rw [walk] at found
      split at found
      · next stops =>
        cases found
        exact stops
      · exact ih found

theorem nearest_srvp {s : Streams} {q : Nat} (found : nearest time s q = some (some b)) : (s.queue b).qi_srvp = true := by
  obtain ⟨⟨prev, r⟩, walked, is⟩ := Option.map_eq_some_iff.mp found
  obtain rfl : r = some b := is
  exact walk_stops walked

theorem flushq_marks (mem : Nat) (flag : Bool) {s : Streams} {q : Nat} (queued : Queued s.msgb (s.queue q) l) (found : nearest time s q = some (some b))
    (enough : l.length ≤ time) :
    ∃ t, flushq time mem s q flag = some t ∧ ∀ pri, Wanted s.msgb (s.queue q) (l.filter (stays flag s.msgb)) pri →
      (t.queue b).qenab = true ∧ (Backed (t.queue b) pri ↔ pri ≤ (s.queue b).q_nband) := by
  obtain ⟨m', q', looped, stayed, steady, bands, type, cont⟩ := flush_loop mem flag (queued_empty s.msgb (s.queue q))
    queued.list.forward (by simpa using queued.list.forward.nodup) (by simpa using queued.ordered) queued.high
    (fun b member => by rw [(empty_steady _).nband]; exact queued.within b member) enough
  rw [List.nil_append] at stayed
  have wanted : ∀ pri, (writable q').getD pri false = true ↔ Wanted s.msgb (s.queue q) (l.filter (stays flag s.msgb)) pri :=
    fun pri => (writable_wanted stayed ((empty_steady _).trans steady) pri).trans (wanted_congr bands type cont pri)
  have whole := (empty_steady (s.queue q)).trans steady
  have srvp : ∀ b, (update s.queue q (unwant q') b).qi_srvp = (s.queue b).qi_srvp := by
    intro b
    by_cases same : b = q
    · subst same
      rw [update_self, (unwant_fields q').1, whole.srvp]
    · rw [update_of_ne same]
  have nband : (update s.queue q (unwant q') b).q_nband = (s.queue b).q_nband := by
    by_cases same : b = q
    · subst same
      rw [update_self, (unwant_fields q').2, whole.nband]
    · rw [update_of_ne same]
  unfold flushq
  rw [looped, Option.bind_some]
  dsimp only
  by_cases some : (writable q').any id = true
  · have alike : nearest time { s with msgb := m', queue := update s.queue q (unwant q') } q = nearest time s q := by
      apply nearest_congr
      · rfl
      · rfl
      · exact srvp
    rw [if_pos some, alike, found, Option.map_some]
    dsimp only [Option.map_some, Option.getD_some, backenable]
    rw [nband]
    refine ⟨_, rfl, ?_⟩
    simp only [update_self]
    have same : (qenable (update s.queue q (unwant q') b)).q_nband = (s.queue b).q_nband := by
      rw [← nband]
      unfold qenable
      split <;> rfl
    have within : ∀ pri ∈ (List.range ((s.queue b).q_nband + 1)).reverse.filter (fun pri => (writable q').getD pri false),
        pri ≤ (qenable (update s.queue q (unwant q') b)).q_nband := by
      intro pri member
      have := List.mem_range.mp (List.mem_reverse.mp (List.mem_filter.mp member).1)
      rw [same]
      omega
    obtain ⟨marked, _, size, enab⟩ := foldl_setqback mem within
    refine fun pri want => ⟨?_, fun backed => ?_, fun has => marked pri ?_⟩
    · rw [enab, qenable, if_pos ((srvp b).trans (nearest_srvp found))]
    · have bound := backed.within
      rwa [size, same] at bound
    · apply List.mem_filter.mpr
      refine ⟨List.mem_reverse.mpr (List.mem_range.mpr ?_), (wanted pri).mpr want⟩
      exact Nat.lt_succ_of_le has
  · rw [if_neg some]
    refine ⟨_, rfl, ?_⟩
    have none : ∀ pri, ¬ Wanted s.msgb (s.queue q) (l.filter (stays flag s.msgb)) pri := by
      intro pri want
      apply some
      have there := (wanted pri).mpr want
      rw [List.getD_eq_getElem?_getD] at there
      cases known : (writable q')[pri]? with
      | none =>
        rw [known] at there
        cases there
      | some c =>
        rw [known] at there
        exact List.any_eq_true.mpr ⟨c, List.mem_of_getElem? known, there⟩
    exact fun pri want => absurd want (none pri)

end Svr4.Proofs.StrqFlush
