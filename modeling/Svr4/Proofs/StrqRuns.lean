import Svr4.Proofs.StrqCalls

/-! Runs of calls on the queues of the streams. -/

namespace Svr4.Proofs.StrqRuns
open Function Chain Strq StrqPlace StrqFlush StrqPut StrqCalls Library.Ranked

variable {s t u : Streams} {l l' : Nat → List Nat} {kept : List Nat} {q bp mem time pri : Nat}

/-- The calls of the modules. A module may also write into a message that is on no queue. -/
inductive Call where
  | putq (q bp : Nat)
  | putbq (q bp : Nat)
  | getq (noget : Nat → Bool) (q : Nat)
  | rmvq (q mp : Nat)
  | flushq (q : Nat) (flag : Bool)
  | flushband (q pri : Nat) (flag : Bool)
  | canput (q : Nat)
  | bcanput (q pri : Nat)
  | write (bp type band : Nat) (cont : List Nat)

inductive Answer where
  | done
  | ok (b : Bool)
  | message (bp : Option Nat)

def put (s : Streams) (q : Nat) (r : Bool × Msgb × Queue) : Answer × Streams := (.ok r.1, { s with msgb := r.2.1, queue := update s.queue q r.2.2 })

def written (m : Msgb) (bp type band : Nat) (cont : List Nat) : Msgb :=
  { m with db_type := update m.db_type bp type, b_band := update m.b_band bp band, b_cont := update m.b_cont bp cont }

/-- `mem` is how many bands can be allocated during the call. -/
def perform (time mem : Nat) (s : Streams) : Call → Option (Answer × Streams)
  | .putq q bp => (putq time mem s.msgb (s.queue q) bp).map (put s q)
  | .putbq q bp => (putbq time mem s.msgb (s.queue q) bp).map (put s q)
  | .getq noget q => (getq time mem noget s q).map fun r => (.message r.1, r.2)
  | .rmvq q mp => (rmvq time mem s q mp).map fun t => (.done, t)
  | .flushq q flag => (flushq time mem s q flag).map fun t => (.done, t)
  | .flushband q pri flag => (flushband time mem s q pri flag).map fun t => (.done, t)
  | .canput q => (canput time s q).map fun r => (.ok r.1, r.2)
  | .bcanput q pri => (bcanput time s q pri).map fun r => (.ok r.1, r.2)
  | .write bp type band cont => some (.done, { s with msgb := written s.msgb bp type band cont })

def Meant (l : Nat → List Nat) : Call → Prop
  | .putq _ bp => ∀ q, bp ∉ l q
  | .putbq _ bp => ∀ q, bp ∉ l q
  | .rmvq q mp => mp ∈ l q
  | .write bp .. => ∀ q, bp ∉ l q
  | _ => True

def after (m : Msgb) (l : Nat → List Nat) : Call → Answer → Nat → List Nat
  | .putq q bp, .ok true => update l q (behind (rank m) bp (l q))
  | .putbq q bp, .ok true => update l q (infront (rank m) bp (l q))
  | .getq _ q, .message (some bp) => update l q ((l q).erase bp)
  | .rmvq q mp, _ => update l q ((l q).erase mp)
  | .flushq q flag, _ => update l q ((l q).filter fun b => !(flag || datamsg (m.db_type b)))
  | .flushband q pri flag, _ => update l q ((l q).filter (left flag pri m))
  | _, _ => l

def Room (q : Queue) (pri : Nat) : Prop :=
  if pri = 0 then q.q_count < q.q_hiwat else ∀ b, q.q_bandp[pri - 1]? = some b → b.qb_count < b.qb_hiwat

/-- A probe says whether there is room ahead, and where there is none, its writer waits. -/
def Probed (time : Nat) (s t : Streams) (q pri : Nat) (b : Bool) : Prop :=
  ∃ c, ahead time s q = some (some c) ∧ (b = true ↔ Room (s.queue c) pri) ∧ (b = false → wantw (t.queue c) pri = true)

def Answered (time mem : Nat) (s t : Streams) (l : Nat → List Nat) : Call → Answer → Prop
  | .putq q bp, .ok b => b = true ↔ (force s.msgb bp).b_band bp ≤ (s.queue q).q_nband + mem
  | .putbq q bp, .ok b => b = true ↔ (force s.msgb bp).b_band bp ≤ (s.queue q).q_nband + mem
  | .getq noget q, .message x => x = (l q).find? fun b => !noget b
  | .canput q, .ok b => Probed time s t q 0 b
  | .bcanput q pri, .ok b => Probed time s t q pri b
  | .rmvq .., .done => True
  | .flushq .., .done => True
  | .flushband .., .done => True
  | .write .., .done => True
  | _, _ => False

/-- The queues behind and ahead of each queue come to an end. -/
structure Built (time : Nat) (s : Streams) : Prop where
  back : ∀ q, (nearest time s q).isSome = true
  front : ∀ q, (ahead time s q).isSome = true

theorem Built.later (built : Built time s) (later : Later time s t) : Built time t := by
  refine ⟨fun q => (later.nearest time q).symm ▸ built.back q, fun q => ?_⟩
  have stop : (fun b => (t.q_next b).isNone || (t.queue b).qi_srvp) = fun b => (s.q_next b).isNone || (s.queue b).qi_srvp := by
    funext b
    rw [later.next, later.srvp]
  have front := built.front q
  rw [ahead] at front ⊢
  rwa [stop, later.next]

theorem ahead_some {next : Nat → Option Nat} {stop : Nat → Bool} {prev : Option Nat} {r : Option Nat × Option Nat}
    (last : ∀ b, next b = none → stop b = true) (found : walk stop next time prev (some q) = some r) : ∃ c, r.2 = some c := by
  induction time generalizing prev q with
  | zero => cases found
  | succ time ih =>
    rw [walk] at found
    split at found
    · cases found
      exact ⟨q, rfl⟩
    · next goes =>
      cases onward : next q with
      | none => exact absurd (last q onward) goes
      | some b =>
        rw [onward] at found
        exact ih found

theorem put_done {m' : Msgb} {q' : Queue} (sound : Sound s l) (placed : Placed 0 s.msgb m' (s.queue q) q' kept (bp :: l q)) (fresh : ∀ c, bp ∉ l c)
    (inside : ∀ b ∈ kept, b ∈ bp :: l q) : Done time s { s with msgb := m', queue := update s.queue q q' } (update l q kept) := by
  refine ⟨sound.changed placed.queued placed.flows placed.alone (fun c other b member there => ?_) inside, Later.onward placed.onward m',
    placed.alone.rank, placed.alone.type⟩
  rcases List.mem_cons.mp there with rfl | there
  · exact fresh c member
  · exact sound.apart c q other b member there

def full (q : Queue) (pri : Nat) : Bool := if pri = 0 then q.qfull else (q.q_bandp[pri - 1]?).any fun b => b.qb_full

def wait (q : Queue) (pri : Nat) : Queue :=
  if pri = 0 then { q with qwantw := true } else { q with q_bandp := q.q_bandp.modify (pri - 1) fun b => { b with qb_wantw := true } }

theorem full_iff {q : Queue} (flows : Flows 0 q) (pri : Nat) : full q pri = false ↔ Room q pri := by
  unfold full Room
  split_ifs
  · rw [flows.queue.full, decide_eq_false_iff_not, not_le]
  · rw [Option.any_eq_false]
    refine forall₂_congr fun b is => ?_
    rw [(flows.bands _ b is).full]
    simp

theorem wait_quiet {q : Queue} (over_ : full q pri = true) : Quiet q (wait q pri) ∧ wantw (wait q pri) pri = true := by
  unfold full at over_
  unfold wait
  split_ifs at * with zero
  · refine ⟨⟨fun queued => Queued.flags queued rfl rfl rfl rfl, fun flows => ⟨flows.queue.wait over_, flows.bands⟩, rfl, id,
      le_rfl, fun pri waits => ?_⟩, ?_⟩
    · unfold wantw at *
      split_ifs at *
      · rfl
      · exact waits
    · exact if_pos zero
  · obtain ⟨b, there, over_⟩ := (Option.any_eq_true ..).mp over_
    refine ⟨⟨fun queued => Queued.flags queued rfl rfl rfl ?_, fun flows => flows.modify fun b is level => level.wait ?_, rfl,
      id, ?_, fun i waits => ?_⟩, ?_⟩
    · refine map_modify ?_ _ _
      exact fun _ => rfl
    · rw [there] at is
      exact Option.some.inj is ▸ over_
    · simp [Queue.q_nband]
    · unfold wantw at *
      split_ifs at *
      · exact waits
      · obtain ⟨b, is, want⟩ := (Option.any_eq_true ..).mp waits
        rw [List.getElem?_modify, is]
        simp only [Option.map_eq_map, Option.map_some, Option.any_some]
        split_ifs
        · rfl
        · exact want
    · simp [wantw, zero, there]

theorem bcanput_eq (time : Nat) (s : Streams) (q pri : Nat) : bcanput time s q pri = (ahead time s q).bind fun b => b.map fun c =>
    if full (s.queue c) pri then (false, { s with queue := update s.queue c (wait (s.queue c) pri) }) else (true, s) := by
  unfold bcanput canput full wait
  split_ifs <;> rfl

theorem bcanput_done (sound : Sound s l) (built : Built time s) (q pri : Nat) :
    ∃ b t, bcanput time s q pri = some (b, t) ∧ Done time s t l ∧ Probed time s t q pri b := by
  obtain ⟨r, found⟩ := Option.isSome_iff_exists.mp (built.front q)
  obtain ⟨r', walked, is⟩ := Option.map_eq_some_iff.mp found
  obtain ⟨c, some_⟩ := ahead_some (fun b none_ => by simp [none_]) walked
  rw [is] at some_
  subst some_
  have room := full_iff (sound.flows c) pri
  rw [bcanput_eq, found, Option.bind_some, Option.map_some]
  cases over_ : full (s.queue c) pri with
  | true =>
    obtain ⟨quiet, waits⟩ := wait_quiet over_
    refine ⟨false, _, rfl, sound.quiet quiet, c, found, ?_, fun _ => ?_⟩
    · rw [← room, over_]
      simp
    · exact (congrArg (wantw · pri) (update_self c _ s.queue)).trans waits
  | false => exact ⟨true, s, rfl, ⟨sound, Later.refl s, rfl, rfl⟩, c, found, by simp [← room, over_], nofun⟩

theorem write_done (sound : Sound s l) (fresh : ∀ c, bp ∉ l c) (type band : Nat) (cont : List Nat) :
    Sound { s with msgb := written s.msgb bp type band cont } l ∧ Later time s { s with msgb := written s.msgb bp type band cont } := by
  refine ⟨⟨fun c => Queued.elsewhere (sound.queued c) fun b member => ?_, sound.flows, sound.apart⟩, ?_⟩
  · have other : b ≠ bp := fun is => fresh c (is ▸ member)
    exact ⟨rfl, rfl, update_of_ne other .., update_of_ne other .., update_of_ne other ..⟩
  · have later : Later time s _ := Later.onward (Onward.refl (s.queue 0)) (written s.msgb bp type band cont)
    rwa [update_eq_self] at later

theorem perform_done {call : Call} (mem : Nat) (sound : Sound s l) (built : Built time s) (meant : Meant l call) (enough : ∀ q, 2 * (l q).length ≤ time) :
    ∃ answer t, perform time mem s call = some (answer, t) ∧ Sound t (after s.msgb l call answer) ∧ Later time s t ∧
      Answered time mem s t l call answer ∧ ∀ b, (∀ type band cont, call ≠ .write b type band cont) → rank t.msgb b = rank s.msgb b := by
  have short : ∀ q, (l q).length ≤ time := fun q => (Nat.le_mul_of_pos_left _ two_pos).trans (enough q)
  cases call with
  | putq q bp =>
    obtain ⟨ok, m', q', put, holds, placed⟩ := putq_done mem (sound.queued q) (sound.flows q) (show bp ∉ l q from meant q) (short q)
    have done : Done time s _ _ := put_done sound placed meant fun b member => by
      cases ok with
      | false => exact List.mem_cons_of_mem bp member
      | true => exact (behind_perm ..).subset member
    refine ⟨.ok ok, _, by rw [perform, put, Option.map_some]; rfl, ?_, done.later, holds, fun b _ => congrFun done.rank b⟩
    cases ok with
    | false => exact (update_eq_self q l) ▸ done.sound
    | true => exact done.sound
  | putbq q bp =>
    obtain ⟨ok, m', q', put, holds, placed⟩ := putbq_done mem (sound.queued q) (sound.flows q) (show bp ∉ l q from meant q) (short q)
    have done : Done time s _ _ := put_done sound placed meant fun b member => by
      cases ok with
      | false => exact List.mem_cons_of_mem bp member
      | true => exact (infront_perm ..).subset member
    refine ⟨.ok ok, _, by rw [perform, put, Option.map_some]; rfl, ?_, done.later, holds, fun b _ => congrFun done.rank b⟩
    cases ok with
    | false => exact (update_eq_self q l) ▸ done.sound
    | true => exact done.sound
  | getq noget q =>
    obtain ⟨t, is, done⟩ := getq_done mem noget sound (built.back q) (short q)
    refine ⟨.message _, t, by rw [perform, is, Option.map_some], ?_, done.later, rfl, fun b _ => congrFun done.rank b⟩
    cases found : (l q).find? (fun b => !noget b) with
    | none =>
      rw [found, Option.elim_none, update_eq_self] at done
      exact done.sound
    | some bp =>
      rw [found] at done
      exact done.sound
  | rmvq q mp =>
    obtain ⟨t, is, done, -⟩ := rmvq_done mem sound (built.back q) meant
    exact ⟨.done, t, by rw [perform, is, Option.map_some], done.sound, done.later, trivial, fun b _ => congrFun done.rank b⟩
  | flushq q flag =>
    obtain ⟨t, is, done⟩ := flushq_done mem flag sound (built.back q) (enough q)
    exact ⟨.done, t, by rw [perform, is, Option.map_some], done.sound, done.later, trivial, fun b _ => congrFun done.rank b⟩
  | flushband q pri flag =>
    obtain ⟨t, is, done⟩ := flushband_done mem pri flag sound (built.back q) (enough q)
    exact ⟨.done, t, by rw [perform, is, Option.map_some], done.sound, done.later, trivial, fun b _ => congrFun done.rank b⟩
  | canput q =>
    obtain ⟨b, t, is, done, probed⟩ := bcanput_done sound built q 0
    exact ⟨.ok b, t, by rw [perform, show canput time s q = _ from is, Option.map_some], done.sound, done.later, probed, fun b _ => congrFun done.rank b⟩
  | bcanput q pri =>
    obtain ⟨b, t, is, done, probed⟩ := bcanput_done sound built q pri
    exact ⟨.ok b, t, by rw [perform, is, Option.map_some], done.sound, done.later, probed, fun b _ => congrFun done.rank b⟩
  | write bp type band cont =>
    obtain ⟨sound', later⟩ := write_done sound meant type band cont
    refine ⟨.done, _, rfl, sound', later, trivial, fun b apart => ?_⟩
    have other : b ≠ bp := fun is => apart type band cont (is ▸ rfl)
    exact rank_congr (update_of_ne other ..) (update_of_ne other ..)

/-- A run of calls, with what is on the queues before and after it. -/
inductive Run (time : Nat) : Streams → (Nat → List Nat) → List (Call × Answer) → Streams → (Nat → List Nat) → Prop
  | nil (s : Streams) (l : Nat → List Nat) : Run time s l [] s l
  | cons {s t u : Streams} {l l' : Nat → List Nat} {mem : Nat} {call : Call} {answer : Answer} {trace : List (Call × Answer)}
      (meant : Meant l call) (is : perform time mem s call = some (answer, t)) (rest : Run time t (after s.msgb l call answer) trace u l') :
      Run time s l ((call, answer) :: trace) u l'

theorem after_length (m : Msgb) (l : Nat → List Nat) (call : Call) (answer : Answer) (c : Nat) : (after m l call answer c).length ≤ (l c).length + 1 := by
  have each : ∀ (q : Nat) {l' : List Nat}, l'.length ≤ (l q).length + 1 → (update l q l' c).length ≤ (l c).length + 1 := by
    intro q l' le
    by_cases here : c = q
    · rwa [here, update_self]
    · rw [update_of_ne here]
      exact Nat.le_succ _
  unfold after
  split
  · exact each _ (behind_perm ..).length_eq.le
  · exact each _ (infront_perm ..).length_eq.le
  · exact each _ ((List.erase_sublist ..).length_le.trans (Nat.le_succ _))
  · exact each _ ((List.erase_sublist ..).length_le.trans (Nat.le_succ _))
  · exact each _ ((List.length_filter_le ..).trans (Nat.le_succ _))
  · exact each _ ((List.length_filter_le ..).trans (Nat.le_succ _))
  · exact Nat.le_succ _

theorem Run.sound {trace : List (Call × Answer)} (run : Run time s l trace t l') (sound : Sound s l) (built : Built time s)
    (enough : ∀ q, 2 * ((l q).length + trace.length) ≤ time) :
    Sound t l' ∧ Built time t ∧ Later time s t ∧ ∀ q, (l' q).length ≤ (l q).length + trace.length := by
  induction run with
  | nil s l => exact ⟨sound, built, Later.refl s, fun q => le_rfl⟩
  | @cons s t u l l' mem call answer trace meant is rest ih =>
    simp only [List.length_cons] at enough
    obtain ⟨answer', t', is', sound', later, -⟩ := perform_done mem sound built meant fun q => by
      have := enough q
      omega
    rw [is] at is'
    obtain ⟨rfl, rfl⟩ := Prod.mk.inj (Option.some.inj is')
    have longer := after_length s.msgb l call answer
    obtain ⟨sound'', built', later', length⟩ := ih sound' (built.later later) fun q => by
      have := enough q
      have := longer q
      omega
    refine ⟨sound'', built', later.trans later', fun q => ?_⟩
    have := length q
    have := longer q
    rw [List.length_cons]
    omega

/-- In every run of calls, whatever memory there is, all queues stay right, and every call that is meant ends. -/
theorem run_sound {trace : List (Call × Answer)} (sound : Sound s l) (built : Built time s) (enough : ∀ q, 2 * ((l q).length + trace.length) ≤ time)
    (run : Run time s l trace t l') : Sound t l' ∧ ∀ mem call, Meant l' call → (perform time mem t call).isSome = true := by
  obtain ⟨sound', built', -, length⟩ := run.sound sound built enough
  refine ⟨sound', fun mem call meant => ?_⟩
  obtain ⟨answer, u, is, -⟩ := perform_done mem sound' built' meant fun q => (Nat.mul_le_mul_left 2 (length q)).trans (enough q)
  rw [is]
  rfl

theorem Run.append {trace later : List (Call × Answer)} {l'' : Nat → List Nat} (run : Run time s l trace t l') (onward : Run time t l' later u l'') :
    Run time s l (trace ++ later) u l'' := by
  induction run with
  | nil => exact onward
  | cons meant is rest ih => exact .cons meant is (ih onward)

/-- The queue 0 and, behind it, the queue 1 with a service procedure. The message 1 is of band 1, and 2 of high priority. -/
def busy : Streams where
  msgb := ⟨fun _ => none, fun _ => none, fun bp => if bp = 1 then 1 else 0, fun bp => if bp = 2 then M_PCPROTO else M_DATA, fun _ => [2]⟩
  queue q := ⟨none, none, 0, 4, 1, [], q = 1, false, false, false, false, false, false⟩
  q_next
    | 1 => some 0
    | 2 => some 3
    | _ => none
  otherq
    | 0 => 2
    | 1 => 3
    | 2 => 0
    | 3 => 1
    | q => q

theorem busy_sound : Sound busy fun _ => [] :=
  ⟨fun q => queued_empty busy.msgb (busy.queue q), fun _ => ⟨⟨show 0 < 4 by decide, rfl, nofun⟩, nofun⟩, fun _ _ _ _ => nofun⟩

theorem busy_built : Built 32 busy where
  back
    | 0 | 1 | 2 | 3 => rfl
    | _ + 4 => rfl
  front
    | 0 | 1 | 2 | 3 => rfl
    | _ + 4 => rfl

/-- Four messages, and a writer that finds the queue full. -/
def filling : List (Call × Answer) :=
  [(.putq 0 0, .ok true), (.putq 0 1, .ok true), (.putq 0 2, .ok true), (.putq 0 3, .ok true), (.canput 0, .ok false)]

def draining : List (Call × Answer) :=
  [(.getq (fun _ => false) 0, .message (some 2)), (.getq (fun _ => false) 0, .message (some 1)), (.getq (fun _ => false) 0, .message (some 0)),
    (.getq (fun _ => false) 0, .message (some 3))]

theorem put_meant {q bp : Nat} (others : ∀ c, c ≠ q → l c = []) (fresh : bp ∉ l q) : Meant l (.putq q bp) := by
  intro c member
  by_cases here : c = q
  · exact fresh (here ▸ member)
  · rw [others c here] at member
    cases member

theorem put_others {q : Nat} {kept : List Nat} (others : ∀ c, c ≠ q → l c = []) : ∀ c, c ≠ q → update l q kept c = [] := by
  intro c other
  rw [update_of_ne other]
  exact others c other

theorem busy_runs : ∃ s l t l', Run 32 busy (fun _ => []) filling s l ∧ Run 32 s l draining t l' ∧ wantw (s.queue 0) 0 = true ∧
    wantw (t.queue 0) 0 = false ∧ nearest 32 s 0 = some (some 1) := by
  have none_ : ∀ c : Nat, c ≠ 0 → (fun _ => [] : Nat → List Nat) c = [] := fun _ _ => rfl
  have one := @put_others _ 0 (behind (rank busy.msgb) 0 []) none_
  refine ⟨_, _, _, _, @Run.cons 32 _ _ _ _ _ 0 _ _ _ (put_meant none_ ?_) rfl (@Run.cons 32 _ _ _ _ _ 1 _ _ _ (put_meant one ?_) rfl
    (@Run.cons 32 _ _ _ _ _ 0 _ _ _ (put_meant (put_others one) ?_) rfl (@Run.cons 32 _ _ _ _ _ 0 _ _ _ (put_meant (put_others (put_others one)) ?_) rfl
    (@Run.cons 32 _ _ _ _ _ 0 _ _ _ trivial rfl (.nil ..))))), @Run.cons 32 _ _ _ _ _ 0 _ _ _ trivial rfl (@Run.cons 32 _ _ _ _ _ 0 _ _ _ trivial rfl
    (@Run.cons 32 _ _ _ _ _ 0 _ _ _ trivial rfl (@Run.cons 32 _ _ _ _ _ 0 _ _ _ trivial rfl (.nil ..)))), ?_, ?_, ?_⟩
  all_goals decide +kernel

theorem run_sound_busy : ∃ t l, Run 32 busy (fun _ => []) (filling ++ draining) t l ∧ Sound t l ∧
    ∀ mem call, Meant l call → (perform 32 mem t call).isSome = true := by
  obtain ⟨_, _, t, l, filled, drained, -⟩ := busy_runs
  have run := filled.append drained
  exact ⟨t, l, run, run_sound busy_sound busy_built (fun _ => by decide) run⟩

/-- The count of a band is above its low water mark, if that is below the high one. -/
def Above (q : Queue) (pri : Nat) : Prop :=
  if pri = 0 then q.q_lowat < q.q_hiwat → q.q_lowat < q.q_count
  else ∀ b, q.q_bandp[pri - 1]? = some b → b.qb_lowat < b.qb_hiwat → b.qb_lowat < b.qb_count

/-- No writer is forgotten. One that waits does so above the low water mark; where one has ceased to wait, the nearest queue
behind with a service procedure has been enabled; and a probe is refused just where there is no room, and its writer waits. -/
theorem run_writers {trace : List (Call × Answer)} (sound : Sound s l) (built : Built time s) (enough : ∀ q, 2 * ((l q).length + trace.length) ≤ time)
    (run : Run time s l trace t l') :
    (∀ q pri, wantw (t.queue q) pri = true → Above (t.queue q) pri) ∧
      (∀ q pri b, wantw (s.queue q) pri = true → wantw (t.queue q) pri = false → nearest time s q = some (some b) → (t.queue b).qenab = true) ∧
      ∀ q pri, ∃ ok u, bcanput time t q pri = some (ok, u) ∧ Probed time t u q pri ok := by
  obtain ⟨sound', built', later, -⟩ := run.sound sound built enough
  refine ⟨fun q pri waits => ?_, later.told, fun q pri => ?_⟩
  · have flows := sound'.flows q
    unfold wantw at waits
    unfold Above
    split_ifs at * with zero
    · exact fun marks => by simpa using flows.queue.wantw marks waits
    · intro b is marks
      rw [is] at waits
      simpa using (flows.bands _ b is).wantw marks waits
  · obtain ⟨ok, u, is, -, probed⟩ := bcanput_done sound' built' q pri
    exact ⟨ok, u, is, probed⟩

/-- The waiting writer has been told when the queue is empty. -/
theorem run_writers_busy : ∃ s l t l', Run 32 busy (fun _ => []) filling s l ∧ Run 32 s l draining t l' ∧ wantw (s.queue 0) 0 = true ∧
    (t.queue 1).qenab = true := by
  obtain ⟨s, l, t, l', filled, drained, waits, over_, behind_⟩ := busy_runs
  obtain ⟨sound, built, -, length⟩ := filled.sound busy_sound busy_built fun _ => by decide
  have enough : ∀ q, 2 * ((l q).length + draining.length) ≤ 32 := fun q =>
    (Nat.mul_le_mul_left 2 (Nat.add_le_add_right (length q) _)).trans (show 2 * (0 + 5 + 4) ≤ 32 by decide)
  exact ⟨s, l, t, l', filled, drained, waits, (run_writers sound built enough drained).2.1 0 0 1 waits over_ behind_⟩

def lanes (m : Msgb) (l : Nat → List Nat) (q : Nat) (r : WithTop ℕ) : List Nat := lane (rank m) r (l q)

def moved (m : Msgb) (a : Nat → WithTop ℕ → List Nat) : Call → Answer → Nat → WithTop ℕ → List Nat
  | .putq q bp, .ok true => update a q (update (a q) (rank m bp) (a q (rank m bp) ++ [bp]))
  | .putbq q bp, .ok true => update a q (update (a q) (rank m bp) (bp :: a q (rank m bp)))
  | .getq _ q, .message (some bp) => update a q (update (a q) (rank m bp) ((a q (rank m bp)).erase bp))
  | .rmvq q mp, _ => update a q (update (a q) (rank m mp) ((a q (rank m mp)).erase mp))
  | .flushq q flag, _ => update a q fun r => (a q r).filter fun b => !(flag || datamsg (m.db_type b))
  | .flushband q pri flag, _ => update a q (update (a q) pri ((a q pri).filter fun b => !(flag || datamsg (m.db_type b))))
  | _, _ => a

/-- The message that is got is the first of the highest list that is not empty. -/
def First (a : WithTop ℕ → List Nat) (m : Msgb) : Option Nat → Prop
  | none => ∀ r, a r = []
  | some bp => (a (rank m bp)).head? = some bp ∧ ∀ r, rank m bp < r → a r = []

theorem lanes_after {call : Call} {answer : Answer} (sound : Sound s l) :
    lanes s.msgb (after s.msgb l call answer) = moved s.msgb (lanes s.msgb l) call answer := by
  have sorted := fun q => Queued.inOrder (sound.queued q)
  have once := fun q => (sound.queued q).list.nodup
  have each : ∀ {q : Nat} {kept : List Nat} {a : WithTop ℕ → List Nat}, (∀ r, lane (rank s.msgb) r kept = a r) →
      lanes s.msgb (update l q kept) = update (lanes s.msgb l) q a := by
    intro q kept a same
    funext c r
    by_cases here : c = q
    · rw [here, lanes, update_self, update_self, same]
    · rw [lanes, update_of_ne here, update_of_ne here, lanes]
  have one : ∀ {q : Nat} {kept : List Nat} {x : WithTop ℕ} {new : List Nat},
      (∀ r, lane (rank s.msgb) r kept = if x = r then new else lane (rank s.msgb) r (l q)) →
      lanes s.msgb (update l q kept) = update (lanes s.msgb l) q (update (lanes s.msgb l q) x new) := by
    intro q kept x new same
    refine each fun r => (same r).trans ?_
    by_cases here : r = x
    · rw [here, if_pos rfl, update_self]
    · rw [if_neg (Ne.symm here), update_of_ne here, lanes]
  unfold after moved
  split
  · next q bp =>
    refine one fun r => (lane_behind (sorted q) bp r).trans ?_
    split_ifs with here
    · rw [lanes, here]
    · rfl
  · next q bp =>
    refine one fun r => (lane_infront (sorted q) bp r).trans ?_
    split_ifs with here
    · rw [lanes, here]
    · rfl
  · next q bp =>
    refine one fun r => (lane_erase (once q) bp r).trans ?_
    split_ifs with here
    · rw [lanes, here]
    · rfl
  · next q mp =>
    refine one fun r => (lane_erase (once q) mp r).trans ?_
    split_ifs with here
    · rw [lanes, here]
    · rfl
  · next q flag =>
    refine each fun r => ?_
    rw [lane, lanes, lane, List.filter_filter, List.filter_filter]
    exact List.filter_congr fun b _ => Bool.and_comm ..
  · next q pri flag =>
    refine one fun r => ?_
    rw [lane, List.filter_filter, lanes, lane, List.filter_filter]
    split_ifs with here
    · refine List.filter_congr fun b _ => ?_
      subst here
      by_cases same : rank s.msgb b = pri <;> simp [left, same]
    · refine List.filter_congr fun b _ => ?_
      by_cases same : rank s.msgb b = r
      · simp [left, same, Ne.symm here]
      · simp [same]
  · rfl

theorem first_lane (sound : Sound s l) (q : Nat) : First (lanes s.msgb l q) s.msgb (l q).head? := by
  have sorted := Queued.inOrder (sound.queued q)
  unfold lanes
  cases shape : l q with
  | nil => exact fun r => rfl
  | cons bp rest =>
    rw [shape] at sorted
    obtain ⟨highest, head, -⟩ := head_lane sorted
    exact ⟨head, fun r above => lane_empty fun a member is => absurd (highest a member) (not_le.mpr (is ▸ above))⟩

theorem lanes_congr {m m' : Msgb} (same : ∀ q, ∀ b ∈ l q, rank m' b = rank m b) : lanes m' l = lanes m l := by
  funext q r
  exact List.filter_congr fun b member => by rw [same q b member]

/-- A queue is a list for each rank, first in, first out. In every state of a run, each call does to these lists what it says:
`putq` appends, `putbq` prepends, `getq` takes the first message of the highest list that has one, the flushes remove the messages they
are meant to remove and keep the order of the others, and a put without memory for its band changes nothing. -/
theorem run_lanes {trace : List (Call × Answer)} {call : Call} {answer : Answer} (sound : Sound s l) (built : Built time s)
    (enough : ∀ q, 2 * ((l q).length + trace.length) ≤ time) (run : Run time s l trace t l') (meant : Meant l' call)
    (is : perform time mem t call = some (answer, u)) :
    Sound u (after t.msgb l' call answer) ∧ lanes u.msgb (after t.msgb l' call answer) = moved t.msgb (lanes t.msgb l') call answer ∧
      Answered time mem t u l' call answer ∧
      ∀ q, call = .getq (fun _ => false) q → ∃ x, answer = .message x ∧ First (lanes t.msgb l' q) t.msgb x := by
  obtain ⟨sound', built', -, length⟩ := run.sound sound built enough
  obtain ⟨answer', u', is', sound'', -, answered, same⟩ := perform_done mem sound' built' meant fun q =>
    (Nat.mul_le_mul_left 2 (length q)).trans (enough q)
  rw [is] at is'
  obtain ⟨rfl, rfl⟩ := Prod.mk.inj (Option.some.inj is')
  have kept : ∀ q, ∀ b ∈ after t.msgb l' call answer q, rank u.msgb b = rank t.msgb b := fun q b member => by
    refine same b fun type band cont shape => ?_
    subst shape
    exact meant q member
  refine ⟨sound'', (lanes_congr kept).trans (lanes_after sound'), answered, fun q shape => ?_⟩
  subst shape
  cases answer with
  | message x =>
    have found : x = (l' q).find? fun _ => !false := answered
    refine ⟨x, rfl, ?_⟩
    rw [found, show (l' q).find? (fun _ => !false) = (l' q).head? by cases l' q <;> rfl]
    exact first_lane sound' q
  | done => exact absurd answered id
  | ok b => exact absurd answered id

/-- The message of high priority is the first that is got. -/
theorem run_lanes_busy : ∃ t l u, Run 32 busy (fun _ => []) filling t l ∧
    Sound u (after t.msgb l (.getq (fun _ => false) 0) (.message (some 2))) ∧
    lanes u.msgb (after t.msgb l (.getq (fun _ => false) 0) (.message (some 2))) =
      moved t.msgb (lanes t.msgb l) (.getq (fun _ => false) 0) (.message (some 2)) := by
  obtain ⟨t, l, _, _, filled, drained, -⟩ := busy_runs
  obtain _ | ⟨meant, got, -⟩ := drained
  obtain ⟨sound, moves, -⟩ := run_lanes busy_sound busy_built (fun _ => by decide) filled meant got
  exact ⟨t, l, _, filled, sound, moves⟩

/-- A queue is only written to and read from, each in the plain way, and messages are not written. -/
def Plain (q : Nat) : Call → Prop
  | .putbq c _ => c ≠ q
  | .rmvq c _ => c ≠ q
  | .flushq c _ => c ≠ q
  | .flushband c .. => c ≠ q
  | .getq noget c => c = q → ∀ b, noget b = false
  | .write .. => False
  | _ => True

def puts (m : Msgb) (q : Nat) (r : WithTop ℕ) (trace : List (Call × Answer)) : List Nat :=
  trace.filterMap fun e => match e with
    | (.putq c bp, .ok true) => if c = q ∧ rank m bp = r then some bp else none
    | _ => none

def gets (m : Msgb) (q : Nat) (r : WithTop ℕ) (trace : List (Call × Answer)) : List Nat :=
  trace.filterMap fun e => match e with
    | (.getq _ c, .message (some bp)) => if c = q ∧ rank m bp = r then some bp else none
    | _ => none

theorem step_fifo {call : Call} {answer : Answer} (sound : Sound s l) (plain : Plain q call) (answered : Answered time mem s t l call answer)
    (r : WithTop ℕ) : lanes s.msgb l q r ++ puts s.msgb q r [(call, answer)] =
      gets s.msgb q r [(call, answer)] ++ lanes s.msgb (after s.msgb l call answer) q r := by
  rw [lanes_after sound]
  have others : ∀ {c : Nat} {a : WithTop ℕ → List Nat}, c ≠ q → update (lanes s.msgb l) c a q r = lanes s.msgb l q r := fun other => by
    rw [update_of_ne (Ne.symm other)]
  cases call with
  | putq c bp =>
    cases answer with
    | ok ok =>
      cases ok with
      | false => simp [puts, gets, moved]
      | true =>
        by_cases here : c = q
        · subst here
          by_cases same : rank s.msgb bp = r
          · subst same
            simp [puts, gets, moved]
          · simp [puts, gets, moved, same, update_of_ne (Ne.symm same)]
        · simp [puts, gets, moved, here, others here]
    | done => exact absurd answered id
    | message x => exact absurd answered id
  | getq noget c =>
    cases answer with
    | message x =>
      cases x with
      | none => simp [puts, gets, moved]
      | some bp =>
        by_cases here : c = q
        · subst here
          have found : some bp = (l c).find? fun b => !noget b := answered
          rw [show (fun b => !noget b) = fun _ => true by funext b; rw [plain rfl b]; rfl] at found
          cases shape : l c with
          | nil =>
            rw [shape] at found
            cases found
          | cons x rest =>
            rw [shape] at found
            obtain rfl : bp = x := Option.some.inj found
            by_cases same : rank s.msgb bp = r
            · subst same
              simp [puts, gets, moved, lanes, lane, shape]
            · simp [puts, gets, moved, same, update_of_ne (Ne.symm same)]
        · simp [puts, gets, moved, here, others here]
    | done => exact absurd answered id
    | ok b => exact absurd answered id
  | putbq c bp =>
    cases answer with
    | ok ok => cases ok <;> simp [puts, gets, moved, others plain]
    | done => exact absurd answered id
    | message x => exact absurd answered id
  | rmvq c mp => simp [puts, gets, moved, others plain]
  | flushq c flag => simp [puts, gets, moved, others plain]
  | flushband c pri flag => simp [puts, gets, moved, others plain]
  | canput c => simp [puts, gets, moved]
  | bcanput c pri => simp [puts, gets, moved]
  | write => exact absurd plain id

/-- Over a run, what was on a queue and what has been put on it is what has been got from it and what is still there, in this order,
for each rank of its own. -/
theorem run_fifo {trace : List (Call × Answer)} (sound : Sound s l) (built : Built time s) (enough : ∀ q, 2 * ((l q).length + trace.length) ≤ time)
    (run : Run time s l trace t l') (plain : ∀ e ∈ trace, Plain q e.1) (r : WithTop ℕ) :
    lanes s.msgb l q r ++ puts s.msgb q r trace = gets s.msgb q r trace ++ lanes t.msgb l' q r := by
  induction run with
  | nil s l => simp [puts, gets]
  | @cons s t u l l' mem call answer trace meant is rest ih =>
    simp only [List.length_cons] at enough
    obtain ⟨answer', t', is', sound', later, answered, same⟩ := perform_done mem sound built meant fun q => by
      have := enough q
      omega
    rw [is] at is'
    obtain ⟨rfl, rfl⟩ := Prod.mk.inj (Option.some.inj is')
    have longer := after_length s.msgb l call answer
    have unwritten : rank t.msgb = rank s.msgb := by
      funext b
      refine same b fun type band cont shape => ?_
      subst shape
      exact plain _ (List.mem_cons_self ..)
    have onward := ih sound' (built.later later) (fun q => by
      have := enough q
      have := longer q
      omega) fun e member => plain e (List.mem_cons_of_mem _ member)
    have first := step_fifo sound (plain _ (List.mem_cons_self ..)) answered r
    have puts_eq : puts t.msgb q r trace = puts s.msgb q r trace := by rw [puts, puts, unwritten]
    have gets_eq : gets t.msgb q r trace = gets s.msgb q r trace := by rw [gets, gets, unwritten]
    have lanes_eq : lanes t.msgb (after s.msgb l call answer) q r = lanes s.msgb (after s.msgb l call answer) q r := by rw [lanes, lanes, unwritten]
    rw [puts_eq, gets_eq, lanes_eq] at onward
    calc lanes s.msgb l q r ++ puts s.msgb q r ((call, answer) :: trace)
        = (lanes s.msgb l q r ++ puts s.msgb q r [(call, answer)]) ++ puts s.msgb q r trace := by
          rw [List.append_assoc, puts, puts, puts, ← List.filterMap_append, List.singleton_append]
      _ = gets s.msgb q r [(call, answer)] ++ (lanes s.msgb (after s.msgb l call answer) q r ++ puts s.msgb q r trace) := by
          rw [first, List.append_assoc]
      _ = gets s.msgb q r ((call, answer) :: trace) ++ lanes u.msgb l' q r := by
          rw [onward, ← List.append_assoc, gets, gets, gets, ← List.filterMap_append, List.singleton_append]

theorem run_fifo_busy : ∃ t l', Run 32 busy (fun _ => []) (filling ++ draining) t l' ∧
    ∀ r, lanes busy.msgb (fun _ => []) 0 r ++ puts busy.msgb 0 r (filling ++ draining) =
      gets busy.msgb 0 r (filling ++ draining) ++ lanes t.msgb l' 0 r := by
  obtain ⟨_, _, t, l', filled, drained, -⟩ := busy_runs
  have run := filled.append drained
  refine ⟨t, l', run, run_fifo busy_sound busy_built (fun _ => by decide) run fun e member => ?_⟩
  simp only [filling, draining, List.cons_append, List.nil_append, List.mem_cons, List.not_mem_nil, or_false] at member
  rcases member with rfl | rfl | rfl | rfl | rfl | rfl | rfl | rfl | rfl
  all_goals first | trivial | exact fun _ _ => rfl

end Svr4.Proofs.StrqRuns
