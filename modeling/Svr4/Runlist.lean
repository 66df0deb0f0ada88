import Svr4.Library.Chain

/-! The list of enabled queues (io/stream.c, os/strsubr.c, os/streamio.c): `qenable`,
the turns of `queuerun`, and the removals of `qdetach` and `strclose`. -/

namespace Svr4.Runlist
open Function Chain

structure Queue where
  pair : Nat
  qreadr : Bool
  deriving DecidableEq

def RD (q : Queue) : Queue := { q with qreadr := true }

def WR (q : Queue) : Queue := { q with qreadr := false }

def OTHERQ (q : Queue) : Queue := { q with qreadr := !q.qreadr }

/-- The procedures of a queue: those of a module, of the stream head, or of a dead end. -/
inductive Qinit
  | module (srvp : Bool)
  | strdata | stwdata | deadrend | deadwend
  deriving DecidableEq

def Qinit.qiSrvp : Qinit → Bool
  | .module srvp => srvp
  | .stwdata => true
  | .strdata | .deadrend | .deadwend => false

structure Streams where
  qinfo : Queue → Qinit
  qNext : Queue → Option Queue
  qLink : Queue → Option Queue
  qenab : Queue → Bool
  qback : Queue → Bool
  bandBack : Queue → List Bool
  inUse : Nat → Bool
  qhead : Option Queue
  qtail : Option Queue

def SAMESTR (q : Queue) (s : Streams) : Bool :=
  match s.qNext q with
  | none => false
  | some n => q.qreadr = n.qreadr

def backq (q : Queue) (s : Streams) : Option Queue := (s.qNext (OTHERQ q)).map OTHERQ

def allocq (pair : Nat) (rinit winit : Qinit) (s : Streams) : Streams :=
  let r : Queue := ⟨pair, true⟩
  let both {α : Type} (f : Queue → α) (v : α) : Queue → α := update (update f r v) (WR r) v
  { s with
    qinfo := update (update s.qinfo r rinit) (WR r) winit, qNext := both s.qNext none, qLink := both s.qLink none
    qenab := both s.qenab false, qback := both s.qback false, bandBack := both s.bandBack []
    inUse := update s.inUse pair true }

def setq (rq : Queue) (rinit winit : Qinit) (s : Streams) : Streams :=
  { s with qinfo := update (update s.qinfo rq rinit) (WR rq) winit }

def freeq (qp : Queue) (s : Streams) : Streams := { s with inUse := update s.inUse qp.pair false }

/-- Put a queue on the list of those whose service procedures are ready to run. -/
def qenable (q : Queue) (s : Streams) : Streams :=
  if ¬ (s.qinfo q).qiSrvp then s
  else if s.qenab q then s
  else
    let s := { s with qenab := update s.qenab q true }
    let s :=
      match s.qhead with
      | none => { s with qhead := some q }
      | some _ =>
        match s.qtail with
        | none => s
        | some last => { s with qLink := update s.qLink last (some q) }
    { s with qtail := some q, qLink := update s.qLink q none }

def qenables (qs : List Queue) (s : Streams) : Streams := qs.foldl (fun s q => qenable q s) s

def takeQueue (s : Streams) : Option (Queue × Streams) := do
  let q ← s.qhead
  let s := { s with qhead := s.qLink q, qtail := if s.qLink q = none then none else s.qtail }
  return (q, { s with qenab := update s.qenab q false })

/-- A turn of the loop of `queuerun`. While the service procedure runs, it and interrupts
enable the queues `served`. -/
def queuerunTurn (served : List Queue) (s : Streams) : Option (Queue × Streams) := do
  let (q, s) ← takeQueue s
  if (s.qinfo q).qiSrvp then
    let s := qenables served s
    return (q, { s with qback := update s.qback q false, bandBack := update s.bandBack q ((s.bandBack q).map (fun _ => false)) })
  else return (q, s)

def splice (prev : Option Queue) (q : Queue) (s : Streams) : Streams :=
  let s :=
    match prev with
    | some p => { s with qLink := update s.qLink p (s.qLink q) }
    | none => { s with qhead := s.qLink q }
  if s.qtail = some q then { s with qtail := prev } else s

/-- Takes queues off the list, from `q` on, with `prev` the one before it. With `all` it
goes on after the first. -/
def unlist (gone : Queue → Bool) (all : Bool) : Nat → Option Queue → Option Queue → Streams → Option Streams
  | _, _, none, s => some s
  | 0, _, some _, _ => none
  | time + 1, prev, some q, s =>
    if gone q then
      let s := splice prev q s
      if all then unlist gone all time prev (s.qLink q) s else some s
    else unlist gone all time (some q) (s.qLink q) s

/-- The part of `qdetach` that takes the queues off the run list. -/
def qdetachUnlist (time : Nat) (qp : Queue) (s : Streams) : Option Streams :=
  if s.qenab qp || s.qenab (WR qp) then unlist (fun q => q = qp ∨ q = WR qp) true time none s.qhead s else some s

def strcloseUnlist (time : Nat) (qp : Queue) (s : Streams) : Option Streams :=
  if s.qenab qp then unlist (fun q => q = qp) false time none s.qhead s else some s

/-- `qp` is a read queue. If the queue was opened, the close routine enables the queues
`closing`, and flushing the pair enables `flushed`. -/
def qdetach (time : Nat) (qp : Queue) (clmode : Bool) (closing flushed : List Queue) (s : Streams) : Option Streams := do
  let s ← (if clmode then (qdetachUnlist time qp (qenables closing s)).map (qenables flushed) else some s)
  let s :=
    match s.qNext (WR qp), backq qp s with
    | some _, some b => { s with qNext := update s.qNext b (s.qNext qp) }
    | _, _ => s
  let s :=
    match s.qNext qp, backq (WR qp) s with
    | some _, some b => { s with qNext := update s.qNext b (s.qNext (WR qp)) }
    | _, _ => s
  return freeq qp s

/-- The end of `strclose`: `qp` is the write queue of the stream head, which is all that
is left. Flushing its pair enables the queues `flushed`. -/
def strclose (time : Nat) (qp : Queue) (flushed : List Queue) (s : Streams) : Option Streams := do
  let s ← strcloseUnlist time qp (qenables flushed s)
  match s.qNext qp with
  | some n =>
    if SAMESTR qp s then return freeq (RD qp) s
    -- half-closed pipe
    else if s.qinfo n = .deadrend then return freeq (RD qp) (freeq n s)
    -- fifo
    else if n = RD qp then return freeq (RD qp) s
    -- pipe
    else return { s with qinfo := update (update s.qinfo qp .deadwend) (RD qp) .deadrend }
  | none => return freeq (RD qp) s

end Svr4.Runlist
