import Svr4.Library.Doubly

/-! The messages of a stream queue and its priority bands (io/stream.c, os/strsubr.c): `putq`, `putbq`, `insq`,
`getq`, `rmvq`, `flushq`, `flushband`, `canput`, `bcanput` and the flow control of the queue behind. -/

namespace Svr4.Strq
open Function Chain

def QNORM : Nat := 0x00
def QPCTL : Nat := 0x80

def M_DATA : Nat := 0x00
def M_PROTO : Nat := 0x01
def M_DELAY : Nat := 0x0c
def M_PCPROTO : Nat := 0x83

/-- The fields of the messages, with the sizes of the blocks of each. -/
structure Msgb where
  b_next : Nat → Option Nat
  b_prev : Nat → Option Nat
  b_band : Nat → Nat
  db_type : Nat → Nat
  b_cont : Nat → List Nat

structure Qband where
  qb_count : Nat
  qb_first : Option Nat
  qb_last : Option Nat
  qb_hiwat : Nat
  qb_lowat : Nat
  qb_full : Bool
  qb_wantw : Bool
  qb_back : Bool
  deriving DecidableEq

structure Queue where
  q_first : Option Nat
  q_last : Option Nat
  q_count : Nat
  q_hiwat : Nat
  q_lowat : Nat
  q_bandp : List Qband
  qi_srvp : Bool
  qfull : Bool
  qenab : Bool
  qwantr : Bool
  qwantw : Bool
  qnoenb : Bool
  qback : Bool
  deriving DecidableEq

def Queue.q_nband (q : Queue) : Nat := q.q_bandp.length

def queclass (m : Msgb) (bp : Nat) : Nat := if m.db_type bp ≥ QPCTL then QPCTL else QNORM

def datamsg (type : Nat) : Bool := type = M_DATA || type = M_PROTO || type = M_PCPROTO || type = M_DELAY

def size (m : Msgb) (bp : Nat) : Nat := (m.b_cont bp).sum

def force (m : Msgb) (bp : Nat) : Msgb := if queclass m bp = QPCTL then { m with b_band := update m.b_band bp 0 } else m

def allocband (q : Queue) : Qband := ⟨0, none, none, q.q_hiwat, q.q_lowat, false, false, false⟩

/-- The missing bands are allocated while there is memory for them. -/
def bands : Nat → Queue → Nat → Bool × Queue
  | 0, q, pri => (decide (pri ≤ q.q_nband), q)
  | mem + 1, q, pri =>
    if pri > q.q_nband then bands mem { q with q_bandp := q.q_bandp ++ [allocband q] } pri
    else (true, q)

def qenable (q : Queue) : Queue := if q.qi_srvp then { q with qenab := true } else q

/-- `bp` goes between two neighbours, of which `before` was the one before `after`. -/
def link (m : Msgb) (q : Queue) (before after : Option Nat) (bp : Nat) : Msgb × Queue :=
  let m := { m with b_next := update m.b_next bp after, b_prev := update m.b_prev bp before }
  let m := match before with
    | none => m
    | some b => { m with b_next := update m.b_next b (some bp) }
  let m := match after with
    | none => m
    | some a => { m with b_prev := update m.b_prev a (some bp) }
  (m, { q with
    q_first := if before = none then some bp else q.q_first
    q_last := if after = none then some bp else q.q_last })

def Qband.charge (b : Qband) (n : Nat) : Qband :=
  { b with qb_count := b.qb_count + n, qb_full := b.qb_full || decide (b.qb_count + n ≥ b.qb_hiwat) }

/-- A band, or the queue itself for band zero, takes a message into account. -/
def charge (q : Queue) (pri n : Nat) : Queue :=
  if pri = 0 then { q with q_count := q.q_count + n, qfull := q.qfull || decide (q.q_count + n ≥ q.q_hiwat) }
  else { q with q_bandp := q.q_bandp.modify (pri - 1) fun b => b.charge n }

def badord (m : Msgb) (q : Queue) (emp : Option Nat) (mp : Nat) : Bool :=
  match emp with
  | some e =>
    (queclass m mp = QPCTL && (m.b_prev e).any fun b => m.db_type b < QPCTL) ||
      (queclass m mp = QNORM && m.b_band mp < m.b_band e) ||
      (m.b_prev e).any fun b => m.db_type b < QPCTL && m.b_band b < m.b_band mp
  | none => q.q_last.any fun b => queclass m mp = QNORM && m.b_band mp > m.b_band b

/-- The ends of the band of `mp` after `mp` went in before `emp`. -/
def adjust (m : Msgb) (emp : Option Nat) (mp : Nat) (b : Qband) : Qband :=
  if b.qb_first = none then { b with qb_first := some mp, qb_last := some mp }
  else if b.qb_first = emp then { b with qb_first := some mp }
  else if (m.b_next mp).any fun n => m.b_band n ≠ m.b_band mp then { b with qb_last := some mp }
  else b

/-- A message goes between two neighbours, and its band is changed. -/
def place (m : Msgb) (q : Queue) (before after : Option Nat) (bp : Nat) (change : Msgb → Qband → Qband) : Msgb × Queue :=
  let s := link m q before after bp
  let pri := m.b_band bp
  let q := if pri = 0 then s.2 else { s.2 with q_bandp := s.2.q_bandp.modify (pri - 1) (change s.1) }
  (s.1, charge q pri (size m bp))

def enter (m : Msgb) (q : Queue) (emp : Option Nat) (mp : Nat) : Msgb × Queue :=
  let before := match emp with
    | some e => m.b_prev e
    | none => q.q_last
  place m q before emp mp fun m b => adjust m emp mp b

def insq (mem : Nat) (m : Msgb) (q : Queue) (emp : Option Nat) (mp : Nat) : Bool × Msgb × Queue :=
  let m := force m mp
  if badord m q emp mp then (false, m, q)
  else
    let r := bands mem q (m.b_band mp)
    if r.1 then
      let s := enter m r.2 emp mp
      (true, s.1, if !s.2.qnoenb && s.2.qwantr then qenable s.2 else s.2)
    else (false, m, r.2)

/-- The neighbours between which `putq` puts a message; none is a null pointer that is followed, or a walk that has not
ended in time. -/
def putPlace (time : Nat) (m : Msgb) (q : Queue) (bp : Nat) : Option (Option Nat × Option Nat) :=
  if q.q_first = none then some (none, none)
  else if m.b_band bp = 0 then
    q.q_last.bind fun tmp =>
      if queclass m bp ≤ queclass m tmp then some (some tmp, none)
      else
        (walk (fun t => queclass m t < queclass m bp) m.b_next time none q.q_first).bind fun r =>
          r.2.map fun tmp => (m.b_prev tmp, some tmp)
  else
    (q.q_bandp[m.b_band bp - 1]?).bind fun b =>
      if b.qb_first = none then
        q.q_last.bind fun tmp =>
          if queclass m bp < queclass m tmp ∨ m.b_band bp ≤ m.b_band tmp then some (some tmp, none)
          else
            (walk (fun t => m.db_type t < QPCTL) m.b_next time none q.q_first).bind fun r =>
              (walk (fun t => m.b_band t < m.b_band bp) m.b_next time none r.2).bind fun r =>
                r.2.map fun tmp => (m.b_prev tmp, some tmp)
      else b.qb_last.map fun tmp => (some tmp, m.b_next tmp)

def Qband.last (b : Qband) (bp : Nat) : Qband := { b with qb_first := b.qb_first.or (some bp), qb_last := some bp }

def putq (time mem : Nat) (m : Msgb) (q : Queue) (bp : Nat) : Option (Bool × Msgb × Queue) :=
  let m := force m bp
  let r := bands mem q (m.b_band bp)
  if r.1 then
    (putPlace time m r.2 bp).map fun p =>
      let s := place m r.2 p.1 p.2 bp fun _ b => b.last bp
      (true, s.1, if queclass m bp > QNORM || (!s.2.qnoenb && s.2.qwantr) then qenable s.2 else s.2)
  else some (false, m, r.2)

/-- Behind the messages of high priority and those of higher bands. -/
def putbBehind (time : Nat) (m : Msgb) (q : Queue) (bp : Nat) : Option (Option Nat × Option Nat) :=
  q.q_last.bind fun tmp =>
    if queclass m bp < queclass m tmp ∨ m.b_band bp < m.b_band tmp then some (some tmp, none)
    else
      (walk (fun t => m.db_type t < QPCTL) m.b_next time none q.q_first).bind fun r =>
        (walk (fun t => m.b_band t ≤ m.b_band bp) m.b_next time none r.2).bind fun r =>
          r.2.map fun tmp => (m.b_prev tmp, some tmp)

def putbPlace (time : Nat) (m : Msgb) (q : Queue) (bp : Nat) : Option (Option Nat × Option Nat) :=
  if q.q_first = none ∨ queclass m bp = QPCTL then some (none, q.q_first)
  else if m.b_band bp = 0 then putbBehind time m q bp
  else
    (q.q_bandp[m.b_band bp - 1]?).bind fun b =>
      match b.qb_first with
      | some tmp => some (m.b_prev tmp, some tmp)
      | none => putbBehind time m q bp

def Qband.front (b : Qband) (bp : Nat) : Qband := { b with qb_first := some bp, qb_last := b.qb_last.or (some bp) }

def putbq (time mem : Nat) (m : Msgb) (q : Queue) (bp : Nat) : Option (Bool × Msgb × Queue) :=
  let m := force m bp
  let r := bands mem q (m.b_band bp)
  if r.1 then
    (putbPlace time m r.2 bp).map fun p =>
      let s := place m r.2 p.1 p.2 bp fun _ b => b.front bp
      (true, s.1, if queclass m bp > QNORM || (!s.2.qnoenb && s.2.qwantr) then qenable s.2 else s.2)
  else some (false, m, r.2)

structure Streams where
  msgb : Msgb
  queue : Nat → Queue
  q_next : Nat → Option Nat
  otherq : Nat → Nat

def backq (s : Streams) (q : Nat) : Option Nat := (s.q_next (s.otherq q)).map s.otherq

def nearest (time : Nat) (s : Streams) (q : Nat) : Option (Option Nat) :=
  (walk (fun b => (s.queue b).qi_srvp) (backq s) time none (backq s q)).map fun r => r.2

def setqback (mem : Nat) (q : Queue) (pri : Nat) : Queue :=
  if pri = 0 then { q with qback := true }
  else
    let r := bands mem q pri
    if r.1 then { r.2 with q_bandp := r.2.q_bandp.modify (pri - 1) fun b => { b with qb_back := true } } else r.2

def unlink (m : Msgb) (q : Queue) (mp : Nat) : Msgb × Queue :=
  let same (b : Option Nat) : Bool := b.any fun b => m.b_band mp = m.b_band b
  let ends (b : Qband) : Qband :=
    { b with
      qb_first := if b.qb_first = some mp then (if same (m.b_next mp) then m.b_next mp else none) else b.qb_first
      qb_last := if b.qb_last = some mp then (if same (m.b_prev mp) then m.b_prev mp else none) else b.qb_last }
  let bandp := if m.b_band mp = 0 then q.q_bandp else q.q_bandp.modify (m.b_band mp - 1) ends
  let next := match m.b_prev mp with
    | none => m.b_next
    | some b => update m.b_next b (m.b_next mp)
  let prev := match m.b_next mp with
    | none => m.b_prev
    | some a => update m.b_prev a (m.b_prev mp)
  ({ m with b_next := update next mp none, b_prev := update prev mp none },
    { q with
      q_first := if m.b_prev mp = none then m.b_next mp else q.q_first
      q_last := if m.b_next mp = none then m.b_prev mp else q.q_last
      q_bandp := bandp })

/-- A band takes off its count what has left it, and says whether the queue behind is to be enabled. -/
def Qband.relieve (b : Qband) (n : Nat) : Qband :=
  { b with
    qb_count := b.qb_count - n
    qb_full := b.qb_full && decide (b.qb_hiwat ≤ b.qb_count - n)
    qb_wantw := b.qb_wantw && decide (b.qb_lowat < b.qb_count - n) }

def relieve (q : Queue) (pri n : Nat) : Queue :=
  if pri = 0 then
    { q with
      q_count := q.q_count - n
      qfull := q.qfull && decide (q.q_hiwat ≤ q.q_count - n)
      qwantw := q.qwantw && decide (q.q_lowat < q.q_count - n) }
  else { q with q_bandp := q.q_bandp.modify (pri - 1) fun b => b.relieve n }

def wantw (q : Queue) (pri : Nat) : Bool :=
  if pri = 0 then q.qwantw else (q.q_bandp[pri - 1]?).any fun b => b.qb_wantw

def backenable (mem : Nat) (s : Streams) (b : Option Nat) (pris : List Nat) : Streams :=
  match b with
  | none => s
  | some b => { s with queue := update s.queue b (pris.foldl (setqback mem) (qenable (s.queue b))) }

def rmvq (time mem : Nat) (s : Streams) (q mp : Nat) : Option Streams :=
  let pri := s.msgb.b_band mp
  let r := unlink s.msgb (s.queue q) mp
  let last := relieve r.2 pri (size s.msgb mp)
  let t := { s with msgb := r.1, queue := update s.queue q last }
  if wantw (s.queue q) pri && !wantw last pri then (nearest time t q).map fun b => backenable mem t b [pri] else some t

/-- The first message leaves the queue. Its band has its last message left only if it was the last. -/
def takeFirst (m : Msgb) (q : Queue) (bp : Nat) : Msgb × Queue :=
  let next := m.b_next bp
  let ends (b : Qband) : Qband :=
    if b.qb_first = b.qb_last then { b with qb_first := none, qb_last := none } else { b with qb_first := next }
  let prev := match next with
    | none => m.b_prev
    | some n => update m.b_prev n none
  ({ m with b_next := update m.b_next bp none, b_prev := update prev bp none },
    { q with
      q_first := next
      q_last := if next = none then none else q.q_last
      q_bandp := if m.b_band bp = 0 then q.q_bandp else q.q_bandp.modify (m.b_band bp - 1) ends
      qwantr := false })

/-- `noget` are the messages with MSGNOGET. When there is no message, the reader waits, and a writer does no longer. -/
def getq (time mem : Nat) (noget : Nat → Bool) (s : Streams) (q : Nat) : Option (Option Nat × Streams) :=
  match (s.queue q).q_first with
  | none =>
    let t := { s with queue := update s.queue q { s.queue q with qwantr := true, qwantw := false } }
    if (s.queue q).qwantw then (nearest time t q).map fun b => (none, backenable mem t b [0]) else some (none, t)
  | some bp =>
    if noget bp then
      (walk (fun b => !noget b) s.msgb.b_next time none (some bp)).bind fun r =>
        match r.2 with
        | none => some (none, s)
        | some bp => (rmvq time mem s q bp).map fun t => (some bp, t)
    else
      let pri := s.msgb.b_band bp
      let r := takeFirst s.msgb (s.queue q) bp
      let last := relieve r.2 pri (size s.msgb bp)
      let t := { s with msgb := r.1, queue := update s.queue q last }
      if wantw (s.queue q) pri && !wantw last pri then (nearest time t q).map fun b => (some bp, backenable mem t b [pri])
      else some (some bp, t)

def empty (q : Queue) : Queue :=
  { q with
    q_first := none
    q_last := none
    q_count := 0
    q_bandp := q.q_bandp.map fun b => { b with qb_first := none, qb_last := none, qb_count := 0, qb_full := false }
    qfull := false }

/-- The messages that are not removed are put on the queue again. -/
def flushLoop (mem : Nat) (flag : Bool) : Nat → Msgb → Queue → Option Nat → Option (Msgb × Queue)
  | _, m, q, none => some (m, q)
  | 0, _, _, some _ => none
  | time + 1, m, q, some mp =>
    if flag || datamsg (m.db_type mp) then flushLoop mem flag time m q (m.b_next mp)
    else (putq time mem m q mp).bind fun r => flushLoop mem flag time r.2.1 r.2.2 (m.b_next mp)

/-- The bands for which a writer waits and that are at or below their low water marks. -/
def writable (q : Queue) : List Bool :=
  (q.qwantw && decide (q.q_count ≤ q.q_lowat)) :: q.q_bandp.map fun b => b.qb_wantw && decide (b.qb_count ≤ b.qb_lowat)

def unwant (q : Queue) : Queue :=
  { q with
    qwantw := q.qwantw && decide (q.q_lowat < q.q_count)
    q_bandp := q.q_bandp.map fun b => { b with qb_wantw := b.qb_wantw && decide (b.qb_lowat < b.qb_count) } }

def flushq (time mem : Nat) (s : Streams) (q : Nat) (flag : Bool) : Option Streams :=
  (flushLoop mem flag time s.msgb (empty (s.queue q)) (s.queue q).q_first).bind fun r =>
    let qbf := writable r.2
    let t := { s with msgb := r.1, queue := update s.queue q (unwant r.2) }
    if qbf.any id then
      (nearest time t q).map fun b =>
        let nband := (b.map fun b => (t.queue b).q_nband).getD 0
        backenable mem t b ((List.range (nband + 1)).reverse.filter fun pri => qbf.getD pri false)
    else some t

/-- The messages of band zero that are not of high priority are removed, and all others put on the queue again. -/
def flushbandLoop (mem : Nat) (flag : Bool) : Nat → Msgb → Queue → Option Nat → Option (Msgb × Queue)
  | _, m, q, none => some (m, q)
  | 0, _, _, some _ => none
  | time + 1, m, q, some mp =>
    if m.b_band mp = 0 && decide (m.db_type mp < QPCTL) && (flag || datamsg (m.db_type mp)) then
      flushbandLoop mem flag time m q (m.b_next mp)
    else (putq time mem m q mp).bind fun r => flushbandLoop mem flag time r.2.1 r.2.2 (m.b_next mp)

def flushOne (time mem : Nat) (flag : Bool) (pri : Nat) (s : Streams) (q mp : Nat) : Option Streams :=
  if s.msgb.b_band mp = pri && (flag || datamsg (s.msgb.db_type mp)) then rmvq time mem s q mp else some s

/-- The messages of a band are looked through up to `last`, which is looked at after the loop. -/
def flushBetween (time mem : Nat) (flag : Bool) (pri : Nat) (last : Option Nat) (q : Nat) :
    Nat → Streams → Option Nat → Option Streams
  | 0, _, _ => none
  | turns + 1, s, mp =>
    if mp = last then
      match mp with
      | none => some s
      | some mp => flushOne time mem flag pri s q mp
    else
      mp.bind fun mp =>
        (flushOne time mem flag pri s q mp).bind fun t => flushBetween time mem flag pri last q turns t (s.msgb.b_next mp)

def flushband (time mem : Nat) (s : Streams) (q pri : Nat) (flag : Bool) : Option Streams :=
  if pri > (s.queue q).q_nband then some s
  else if pri = 0 then
    (flushbandLoop mem flag time s.msgb (empty (s.queue q)) (s.queue q).q_first).bind fun r =>
      let writer := r.2.qwantw && decide (r.2.q_count ≤ r.2.q_lowat)
      let last := { r.2 with qwantw := r.2.qwantw && decide (r.2.q_lowat < r.2.q_count) }
      let t := { s with msgb := r.1, queue := update s.queue q last }
      if writer then (nearest time t q).map fun b => backenable mem t b [0] else some t
  else
    ((s.queue q).q_bandp[pri - 1]?).bind fun b =>
      match b.qb_first with
      | none => some s
      | some mp =>
        let last := if b.qb_last = some mp then s.msgb.b_next mp else b.qb_last
        flushBetween time mem flag pri last q (time + 1) s (some mp)

/-- The queue that a writer to a queue has to look at: the nearest one with a service procedure, or the last. -/
def ahead (time : Nat) (s : Streams) (q : Nat) : Option (Option Nat) :=
  (walk (fun b => (s.q_next b).isNone || (s.queue b).qi_srvp) s.q_next time none (some q)).map fun r => r.2

def canput (time : Nat) (s : Streams) (q : Nat) : Option (Bool × Streams) :=
  (ahead time s q).bind fun b => b.map fun q =>
    if (s.queue q).qfull then (false, { s with queue := update s.queue q { s.queue q with qwantw := true } }) else (true, s)

def bcanput (time : Nat) (s : Streams) (q pri : Nat) : Option (Bool × Streams) :=
  if pri = 0 then canput time s q
  else
    (ahead time s q).bind fun b => b.map fun q =>
      if ((s.queue q).q_bandp[pri - 1]?).any fun b => b.qb_full then
        (false, { s with queue := update s.queue q { s.queue q with
          q_bandp := (s.queue q).q_bandp.modify (pri - 1) fun b => { b with qb_wantw := true } } })
      else (true, s)

end Svr4.Strq
