import Svr4.Runlist

/-! The messages that `strwrite` holds back (os/streamio.c, os/strsubr.c): the list from
`scanqhead`, which runs through the same links as the list of enabled queues. -/

namespace Svr4.Strhold
open Function Chain Runlist

def HZ : Int := 100

def STRSCANP : Int := (10 * HZ + 999) / 1000

structure State where
  streams : Streams
  /-- The message that the write queue of a stream head holds. -/
  qFirst : Queue → Option Nat
  qhlist : Queue → Bool
  sdRtime : Queue → Int
  strclose : Queue → Bool
  scanqhead : Option Queue
  scanqtail : Option Queue
  lbolt : Int

/-- A pair of queues; that of a stream head is one of a stream that is not being closed. -/
def stropen (pair : Nat) (rinit winit : Qinit) (s : State) : State :=
  let both {α : Type} (f : Queue → α) (v : α) : Queue → α := update (update f ⟨pair, true⟩ v) ⟨pair, false⟩ v
  { s with
    streams := allocq pair rinit winit s.streams, qFirst := both s.qFirst none, qhlist := both s.qhlist false
    strclose := both s.strclose false }

/-- The data went into the message `mp` that was held. It stays there, or goes downstream. -/
def strwriteCopied (wqp : Queue) (mp : Nat) (keeps : Bool) (s : State) : Option Nat × State :=
  if keeps then (none, s) else (some mp, { s with qFirst := update s.qFirst wqp none })

def strwriteSend (wqp : Queue) (mp : Nat) (s : State) : Option Nat × State :=
  (some mp, { s with qFirst := update s.qFirst wqp none })

def strwriteHold (wqp : Queue) (mp : Nat) (s : State) : State :=
  let s := { s with qFirst := update s.qFirst wqp (some mp), sdRtime := update s.sdRtime wqp (s.lbolt + STRSCANP) }
  if s.qhlist wqp then s
  else
    let s := { s with qhlist := update s.qhlist wqp true }
    let s :=
      match s.scanqhead with
      | none => { s with scanqhead := some wqp }
      | some _ =>
        match s.scanqtail with
        | none => s
        | some last => { s with streams := { s.streams with qLink := update s.streams.qLink last (some wqp) } }
    { s with scanqtail := some wqp, streams := { s.streams with qLink := update s.streams.qLink wqp none } }

/-- The first loop of `queuerun`: a turn and the message that it sends or frees. -/
def queuerunHeld (s : State) : Option (Option Nat × State) := do
  let q ← s.scanqhead
  if s.sdRtime q ≤ s.lbolt then
    let s := { s with scanqhead := s.streams.qLink q, scanqtail := if s.streams.qLink q = none then none else s.scanqtail }
    let s := { s with qhlist := update s.qhlist q false }
    return (s.qFirst q, { s with qFirst := update s.qFirst q none })
  else none

/-- The beginning of `strclose`, with the message that it sends or frees. -/
def strcloseHeld (time : Nat) (qp : Queue) (s : State) : Option (Option Nat × State) := do
  let mp := s.qFirst qp
  let s := { s with strclose := update s.strclose qp true, qFirst := update s.qFirst qp none }
  let (prev, found) ← walk (fun q => q = qp) s.streams.qLink time none s.scanqhead
  match found with
  | none => return (mp, s)
  | some q =>
    let s :=
      match prev with
      | some p => { s with streams := { s.streams with qLink := update s.streams.qLink p (s.streams.qLink q) } }
      | none => { s with scanqhead := s.streams.qLink q }
    return (mp, if s.scanqtail = some q then { s with scanqtail := prev } else s)

end Svr4.Strhold
