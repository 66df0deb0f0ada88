import Mathlib

/-! The time-sharing class (disp/ts.c): the user priorities and nice values of its processes,
their time slices, and the dispatcher as far as it takes the next process to run. -/

namespace Svr4.Ts
open Function

def TS_NOCHANGE : Int := -32768
def NZERO : Int := 20
def PMASK : Nat := 127

def char (x : Int) : Int := x.bmod 256

def short (x : Int) : Int := x.bmod 65536

structure Tsdpent where
  ts_globpri : Int
  ts_quantum : Int
  ts_tqexp : Int
  ts_slpret : Int
  ts_maxwait : Int
  ts_lwait : Int

structure Config where
  ts_dptbl : Int → Tsdpent
  ts_kmdpris : Int → Int
  ts_maxupri : Int
  ts_maxumdpri : Int
  ts_maxkmdpri : Int

structure Tsproc where
  ts_timeleft : Int
  ts_cpupri : Int
  ts_uprilim : Int
  ts_upri : Int
  ts_umdpri : Int
  ts_nice : Int
  ts_dispwait : Int
  tskpri : Bool
  tsbackq : Bool
  tsfork : Bool
  deriving DecidableEq

structure Tsparms where
  ts_uprilim : Int
  ts_upri : Int

inductive Errno
  | EPERM | ENOMEM | EINVAL
  deriving DecidableEq

inductive Stat
  | SSLEEP | SRUN | SSTOP | SIDL | SONPROC
  deriving DecidableEq

/-- The processes of the class, and all that are on the dispatcher queues. -/
structure State where
  tsproc : Nat → Option Tsproc
  ts_plist : List Nat
  p_stat : Nat → Stat
  p_pri : Nat → Int
  dispq : List Nat
  curproc : Nat

def State.set (s : State) (p : Nat) (t : Tsproc) : State := { s with tsproc := update s.tsproc p (some t) }
def State.set_pri (s : State) (p : Nat) (pri : Int) : State := { s with p_pri := update s.p_pri p pri }
def State.set_stat (s : State) (p : Nat) (stat : Stat) : State := { s with p_stat := update s.p_stat p stat }

theorem set_tsproc (s : State) (p : Nat) (t : Tsproc) : (s.set p t).tsproc p = some t := update_self ..

def setbackdq (s : State) (p : Nat) : State := { s with dispq := s.dispq ++ [p] }
def setfrontdq (s : State) (p : Nat) : State := { s with dispq := p :: s.dispq }
def dispdeq (s : State) (p : Nat) : State := { s with dispq := s.dispq.filter (· ≠ p) }

def tsmedumdpri (c : Config) : Int := c.ts_maxumdpri / 2

def TS_NEWUMDPRI (c : Config) (t : Tsproc) : Tsproc :=
  let umdpri := short (t.ts_cpupri + t.ts_upri)
  { t with ts_umdpri := if umdpri > c.ts_maxumdpri then c.ts_maxumdpri else if umdpri < 0 then 0 else umdpri }

def quantum (c : Config) (t : Tsproc) : Int := (c.ts_dptbl t.ts_umdpri).ts_quantum
def globpri (c : Config) (t : Tsproc) : Int := (c.ts_dptbl t.ts_umdpri).ts_globpri

/-- Behind `wasonq = dispdeq`: the process is queued again, or will be when it is preempted. -/
def requeue (c : Config) (s : State) (p : Nat) (t : Tsproc) (wasonq : Bool) : State :=
  if wasonq then setbackdq (s.set p { t with ts_timeleft := quantum c t }) p else s.set p { t with tsbackq := true }

def resetpri (c : Config) (s : State) (p : Nat) (t : Tsproc) (maxrunpri : Int) : State :=
  if p = s.curproc then
    if globpri c t > maxrunpri then (s.set_pri p (globpri c t)).set p { t with ts_timeleft := quantum c t }
    else (s.set_pri p (globpri c t)).set p { t with tsbackq := true }
  else requeue c ((dispdeq s p).set_pri p (globpri c t)) p t (p ∈ s.dispq)

def enter_uprilim (parms : Tsparms) : Int := if parms.ts_uprilim = TS_NOCHANGE then 0 else parms.ts_uprilim

def enter_upri (parms : Tsparms) : Int :=
  if parms.ts_upri = TS_NOCHANGE then enter_uprilim parms
  else if parms.ts_upri > enter_uprilim parms then enter_uprilim parms
  else parms.ts_upri

/-- `tsproc` as `ts_enterclass` makes it; `timeleft` is what is in the new memory, and a
credential tells if it is that of the super-user. -/
def new_tsproc (c : Config) (timeleft : Int) (cred : Option Bool) : Option Tsparms → Except Errno Tsproc
  | none => .ok ⟨timeleft, tsmedumdpri c, 0, 0, tsmedumdpri c, 20, 0, false, false, false⟩
  | some parms =>
    if enter_uprilim parms > 0 ∧ cred = some false then .error .EPERM
    else
      .ok (TS_NEWUMDPRI c ⟨timeleft, tsmedumdpri c, enter_uprilim parms, enter_upri parms, 0,
        char (20 - (20 * enter_upri parms).tdiv c.ts_maxupri), 0, false, false, false⟩)

def ts_enterclass (c : Config) (s : State) (p : Nat) (parms : Option Tsparms) (cred : Option Bool) (memory : Option Int)
    (maxrunpri : Int) : Except Errno State :=
  match memory with
  | none => .error .ENOMEM
  | some timeleft => (new_tsproc c timeleft cred parms).map fun t => resetpri c { s with ts_plist := p :: s.ts_plist } p t maxrunpri

def ts_fork (c : Config) (s : State) (child : Nat) (t : Tsproc) : State :=
  { s.set child { t with ts_timeleft := quantum c t, ts_dispwait := 0, tsbackq := false } with ts_plist := child :: s.ts_plist }

def ts_forkret (s : State) (child : Nat) (parent : Option (Nat × Tsproc)) : State :=
  match parent with
  | none => setbackdq s child
  | some (p, t) => (setbackdq s child).set p { t with tsbackq := true, tsfork := true }

def ts_parmsin (c : Config) (parms : Tsparms) (cred : Option Bool) (target : Option Tsproc) : Option Errno :=
  if (parms.ts_uprilim > c.ts_maxupri ∨ parms.ts_uprilim < -c.ts_maxupri) ∧ parms.ts_uprilim ≠ TS_NOCHANGE then some .EINVAL
  else if (parms.ts_upri > c.ts_maxupri ∨ parms.ts_upri < -c.ts_maxupri) ∧ parms.ts_upri ≠ TS_NOCHANGE then some .EINVAL
  else if cred = none ∨ parms.ts_uprilim = TS_NOCHANGE then none
  else
    match target with
    | some t => if parms.ts_uprilim > t.ts_uprilim ∧ cred = some false then some .EPERM else none
    | none => if parms.ts_uprilim > 0 ∧ cred = some false then some .EPERM else none

def reqtsuprilim (parms : Tsparms) (t : Tsproc) : Int := if parms.ts_uprilim = TS_NOCHANGE then t.ts_uprilim else parms.ts_uprilim

def reqtsupri (parms : Tsparms) (t : Tsproc) : Int :=
  let upri := if parms.ts_upri = TS_NOCHANGE then t.ts_upri else parms.ts_upri
  if upri > reqtsuprilim parms t then reqtsuprilim parms t else upri

def parms_nice (c : Config) (parms : Tsparms) : Int :=
  let nice := char (20 - (parms.ts_upri * 20).tdiv c.ts_maxupri)
  if nice = 40 then 39 else nice

def with_parms (c : Config) (parms : Tsparms) (t : Tsproc) : Tsproc :=
  { TS_NEWUMDPRI c { t with ts_uprilim := reqtsuprilim parms t, ts_upri := reqtsupri parms t } with ts_nice := parms_nice c parms }

def ts_parmsset (c : Config) (s : State) (p : Nat) (t : Tsproc) (parms : Tsparms) (cred : Option Bool) (maxrunpri : Int) :
    Except Errno State :=
  if reqtsuprilim parms t > t.ts_uprilim ∧ cred = some false then .error .EPERM
  else if t.tskpri then .ok (s.set p (with_parms c parms t))
  else .ok (resetpri c s p { with_parms c parms t with ts_dispwait := 0 } maxrunpri)

def ts_preempt (c : Config) (s : State) (p : Nat) (t : Tsproc) : State :=
  match t.tsbackq, t.tskpri, t.tsfork with
  | true, false, false => setbackdq (s.set p { t with ts_timeleft := quantum c t, ts_dispwait := 0, tsbackq := false }) p
  | true, true, false => setbackdq (s.set p { t with tsbackq := false }) p
  | true, false, true => setbackdq (s.set p { t with ts_dispwait := 0, tsbackq := false, tsfork := false }) p
  | _, _, _ => setfrontdq s p

def ts_setrun (c : Config) (s : State) (p : Nat) (t : Tsproc) : State :=
  let t := if t.tskpri then t else { t with ts_timeleft := quantum c t, ts_dispwait := 0 }
  setbackdq (s.set p { t with tsbackq := false, tsfork := false }) p

def ts_sleep (c : Config) (s : State) (p : Nat) (t : Tsproc) (disp : Nat) : State :=
  (s.set p { t with tskpri := true }).set_pri p (c.ts_kmdpris (c.ts_maxkmdpri - (disp &&& PMASK : Nat)))

def ts_wakeup (s : State) (p : Nat) (t : Tsproc) : State := setbackdq (s.set p { t with tsbackq := false, tsfork := false }) p

def expired (c : Config) (t : Tsproc) : Tsproc :=
  { TS_NEWUMDPRI c { t with ts_timeleft := t.ts_timeleft - 1, ts_cpupri := (c.ts_dptbl t.ts_cpupri).ts_tqexp } with ts_dispwait := 0 }

def ts_tick (c : Config) (s : State) (p : Nat) (t : Tsproc) : State :=
  if t.tskpri then s
  else if t.ts_timeleft - 1 = 0 then
    requeue c ((dispdeq s p).set_pri p (globpri c (expired c t))) p (expired c t) (p ∈ s.dispq)
  else s.set p { t with ts_timeleft := t.ts_timeleft - 1 }

def returned (c : Config) (t : Tsproc) : Tsproc := TS_NEWUMDPRI c { t with ts_cpupri := (c.ts_dptbl t.ts_cpupri).ts_slpret }

def ts_trapret (c : Config) (s : State) (p : Nat) (t : Tsproc) : State :=
  if t.tskpri then
    (s.set_pri p (globpri c (returned c t))).set p
      { returned c t with tskpri := false, ts_timeleft := quantum c (returned c t), ts_dispwait := 0 }
  else s

def waited (c : Config) (t : Tsproc) : Tsproc :=
  { TS_NEWUMDPRI c { t with ts_cpupri := (c.ts_dptbl t.ts_cpupri).ts_lwait } with ts_dispwait := 0 }

/-- The body of the loop of `ts_update`; `sprocio` is the flag SPROCIO of the processes. -/
def update_one (c : Config) (sprocio : Nat → Bool) (s : State) (p : Nat) : State :=
  match s.tsproc p with
  | none => s
  | some t =>
    if t.tskpri then s
    else if (s.p_stat p ≠ .SRUN ∧ s.p_stat p ≠ .SONPROC) ∨ sprocio p then s
    else if short (t.ts_dispwait + 1) ≤ (c.ts_dptbl t.ts_umdpri).ts_maxwait then
      s.set p { t with ts_dispwait := short (t.ts_dispwait + 1) }
    else requeue c ((dispdeq s p).set_pri p (globpri c (waited c t))) p (waited c t) (p ∈ s.dispq)

def ts_update (c : Config) (s : State) (sprocio : Nat → Bool) : State := s.ts_plist.foldl (update_one c sprocio) s

def newnice (t : Tsproc) (incr : Int) : Int :=
  let incr := if incr > 2 * NZERO - 1 then 2 * NZERO - 1 else incr
  if t.ts_nice + incr ≥ 2 * NZERO then 2 * NZERO - 1 else if t.ts_nice + incr < 0 then 0 else t.ts_nice + incr

def nice_parms (c : Config) (nice : Int) : Tsparms :=
  let upri := short ((-((nice - NZERO) * c.ts_maxupri)).tdiv NZERO)
  ⟨upri, upri⟩

def set_nice (nice : Int) (s : State) (p : Nat) : State :=
  { s with tsproc := update s.tsproc p ((s.tsproc p).map fun t => { t with ts_nice := nice }) }

def ts_donice (c : Config) (s : State) (p : Nat) (t : Tsproc) (incr maxrunpri : Int) : Except Errno State :=
  (ts_parmsset c s p t (nice_parms c (newnice t incr)) none maxrunpri).map fun s => set_nice (char (newnice t incr)) s p

/-- What happens to the processes: the calls of the class, by those who make them, the switch
to the next process, and what queues a process of another class. -/
inductive Event
  | enterclass (p : Nat) (parms : Option Tsparms) (cred : Option Bool) (memory : Option Int) (maxrunpri : Int)
  | fork (child : Nat)
  | forkret (child : Nat)
  | parmsset (p : Nat) (parms : Tsparms) (cred : Option Bool) (maxrunpri : Int)
  | donice (p : Nat) (incr maxrunpri : Int)
  | preempt
  | tick
  | trapret
  | sleep (disp : Nat)
  | wakeup (p : Nat)
  | setrun (p : Nat)
  | stop
  | update (sprocio : Nat → Bool)
  | swtch (p : Nat)
  | other (p : Nat)

def done (s : State) : Except Errno State → State
  | .ok s' => s'
  | .error _ => s

def State.running (s : State) : Prop := s.p_stat s.curproc = .SONPROC ∧ s.curproc ∉ s.dispq

instance (s : State) : Decidable s.running := inferInstanceAs (Decidable (_ ∧ _))

def pswtch (s : State) (p : Nat) : State :=
  let s := if s.p_stat s.curproc = .SONPROC then s.set_stat s.curproc .SRUN else s
  { (dispdeq s p).set_stat p .SONPROC with curproc := p }

/-- The state behind an event; none is an event that does not happen in such a state. -/
def step (c : Config) (s : State) : Event → Option State
  | .enterclass p parms cred memory maxrunpri =>
    if s.tsproc p = none ∧ (∀ ps ∈ parms, ts_parmsin c ps cred none = none) then
      some (done s (ts_enterclass c s p parms cred memory maxrunpri))
    else none
  | .fork child =>
    if s.running ∧ s.tsproc child = none ∧ child ∉ s.dispq ∧ child ≠ s.curproc then
      (s.tsproc s.curproc).map fun t => ts_fork c (s.set_stat child .SIDL) child t
    else none
  | .forkret child =>
    if s.running ∧ s.p_stat child = .SIDL ∧ child ∉ s.dispq then
      (s.tsproc s.curproc).map fun t => ts_forkret (s.set_stat child .SRUN) child (some (s.curproc, t))
    else none
  | .parmsset p parms cred maxrunpri =>
    (s.tsproc p).bind fun t =>
      if ts_parmsin c parms cred (some t) = none then some (done s (ts_parmsset c s p t parms cred maxrunpri)) else none
  | .donice p incr maxrunpri => (s.tsproc p).map fun t => done s (ts_donice c s p t incr maxrunpri)
  | .preempt => if s.running then (s.tsproc s.curproc).map fun t => ts_preempt c s s.curproc t else none
  | .tick => if s.p_stat s.curproc = .SONPROC then (s.tsproc s.curproc).map fun t => ts_tick c s s.curproc t else none
  | .trapret => if s.running then (s.tsproc s.curproc).map fun t => ts_trapret c s s.curproc t else none
  | .sleep disp =>
    if s.running then (s.tsproc s.curproc).map fun t => ts_sleep c (s.set_stat s.curproc .SSLEEP) s.curproc t disp else none
  | .wakeup p => if s.p_stat p = .SSLEEP then (s.tsproc p).map fun t => ts_wakeup (s.set_stat p .SRUN) p t else none
  | .setrun p =>
    if s.p_stat p = .SSLEEP ∨ s.p_stat p = .SSTOP then (s.tsproc p).map fun t => ts_setrun c (s.set_stat p .SRUN) p t else none
  | .stop => if s.running then some (s.set_stat s.curproc .SSTOP) else none
  | .update sprocio => some (ts_update c s sprocio)
  | .swtch p => if p ∈ s.dispq ∧ (¬ s.running ∨ s.tsproc s.curproc = none) then some (pswtch s p) else none
  | .other p => if s.tsproc p = none then some (setbackdq s p) else none

def steps (c : Config) : State → List Event → Option State
  | s, [] => some s
  | s, e :: events => (step c s e).bind fun s => steps c s events

/-- The states that are reached by events which meet a condition. -/
inductive Run (c : Config) (meets : State → Event → Prop) (s : State) : State → Prop
  | start : Run c meets s s
  | next {s' s'' : State} {e : Event} (before : Run c meets s s') (met : meets s' e) (happens : step c s' e = some s'') : Run c meets s s''

theorem Run.steps {c : Config} {meets : State → Event → Prop} {s s' s'' : State} (events : List Event)
    (before : Run c meets s s') (met : ∀ e ∈ events, ∀ s, meets s e) (happen : steps c s' events = some s'') : Run c meets s s'' := by
  induction events generalizing s' with
  | nil =>
    cases happen
    exact before
  | cons e events ih =>
    obtain ⟨s1, first, rest⟩ := Option.bind_eq_some_iff.mp happen
    exact ih (before.next (met e List.mem_cons_self s') first) (fun e member => met e (List.mem_cons_of_mem _ member)) rest

end Svr4.Ts
