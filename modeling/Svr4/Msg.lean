import Svr4.Rmap
import Svr4.Sem

/-! Message queues (os/msg.c). A call is cut where it can sleep: it waits for the lock of
its queue in `msgconv`, for a change of the queue, or for a page in `copyin` and `copyout`,
and then it holds the lock. -/

namespace Svr4.Msg
open Function
open Sem (IpcPerm Cred ipcaccess IPC_ALLOC)

inductive Errno
  | EPERM | ENOENT | EINTR | E2BIG | EAGAIN | EACCES | EFAULT | EEXIST | EINVAL | ENOSPC | ENOMSG | EIDRM
  deriving DecidableEq, Repr

/-- `struct msginfo`. The number of segments must be below 32768, as its comment says. -/
structure Msginfo where
  msgmap : Nat
  msgmax : Nat
  msgmnb : Nat
  msgmni : Nat
  msgssz : Nat
  msgtql : Nat
  msgseg : Nat
  someQueue : 0 < msgmni
  someBytes : 0 < msgssz
  someHeader : 0 < msgtql
  segLimit : msgseg < 32768
  mapRoom : 2 ≤ msgmap
  mapLimit : msgmap < 2 ^ 32

def MSG_R : Nat := 0o400
def MSG_W : Nat := 0o200
def MSG_NOERROR : Nat := 0o10000
def IPC_NOWAIT : Nat := 0o4000
def IPC_CREAT : Nat := 0o1000
def IPC_EXCL : Nat := 0o2000
def IPC_PRIVATE : Int := 0
def MAXUID : Int := 60002
def LONG_MIN : Int := -2 ^ 31

/-- `rwait` and `wwait` are the bits MSG_RWAIT and MSG_WWAIT of `msg_perm.mode`. -/
structure MsqidDs where
  msgPerm : IpcPerm
  key : Int
  rwait : Bool
  wwait : Bool
  msgFirst : Option Nat
  msgLast : Option Nat
  msgCbytes : Nat
  msgQnum : Nat
  msgQbytes : Nat

structure Header where
  msgType : Int
  msgTs : Nat
  msgSpot : Int

inductive Channel
  | queue (qp : Nat)
  | qnum (qp : Nat)
  | msgfp
  | msgmap
  | lock (qp : Nat)
  deriving DecidableEq

/-- `woken` records the calls of `wakeprocs`, `lost` the warnings of `rmfree`. -/
structure State where
  msgque : Nat → MsqidDs
  msglock : Nat → Bool
  msgNext : Nat → Option Nat
  msgh : Nat → Header
  msgfp : Option Nat
  msgmap : Rmap.Map
  woken : List Channel
  lost : Nat

def long (n : Int) : Int := Int.bmod n (2 ^ 32)

def short (n : Int) : Int := Int.bmod n (2 ^ 16)

def setQueue (s : State) (qp : Nat) (ds : MsqidDs) : State := { s with msgque := update s.msgque qp ds }

def wakeup (s : State) (channel : Channel) : State := { s with woken := channel :: s.woken }

def btoq (info : Msginfo) (n : Nat) : Nat := (n + info.msgssz - 1) / info.msgssz

/-- `rmfree` on `msgmap`: it wakes who wants space, or it warns that the map overflows. -/
def freeSpace (s : State) (size a : Nat) : Option State := do
  let map ← Rmap.rmfree s.msgmap size a
  return { s with
    msgmap := map
    lost := if map = s.msgmap ∧ size ≠ 0 then s.lost + 1 else s.lost
    woken := if map.mapwant ≠ s.msgmap.mapwant then .msgmap :: s.woken else s.woken }

def putHeader (s : State) (mp : Nat) : State :=
  { s with
    msgNext := update s.msgNext mp s.msgfp
    msgfp := some mp
    woken := if s.msgfp = none then .msgfp :: s.woken else s.woken }

/-- The message leaves its queue, and who waits for room is woken. -/
def unlinkMsg (s : State) (qp : Nat) (pmp : Option Nat) (mp : Nat) : State :=
  let s :=
    match pmp with
    | none => setQueue s qp { s.msgque qp with msgFirst := s.msgNext mp }
    | some pmp => { s with msgNext := update s.msgNext pmp (s.msgNext mp) }
  let s := if s.msgNext mp = none then setQueue s qp { s.msgque qp with msgLast := pmp } else s
  let s := setQueue s qp { s.msgque qp with msgQnum := (s.msgque qp).msgQnum - 1 }
  if (s.msgque qp).wwait then wakeup (setQueue s qp { s.msgque qp with wwait := false }) (.queue qp) else s

def msgfree (info : Msginfo) (s : State) (qp : Nat) (pmp : Option Nat) (mp : Nat) : Option State := do
  let s := unlinkMsg s qp pmp mp
  let s ←
    (if (s.msgh mp).msgTs ≠ 0 then freeSpace s (btoq info (s.msgh mp).msgTs) ((s.msgh mp).msgSpot + 1).toNat else some s)
  return putHeader s mp

def unlock (s : State) (qp : Nat) : State := wakeup { s with msglock := update s.msglock qp false } (.lock qp)

def slot (info : Msginfo) (id : Int) : Nat := id.toNat % info.msgmni

def msgconv (info : Msginfo) (s : State) (id : Int) : Except Errno Nat × State :=
  if id < 0 then (.error .EINVAL, s)
  else
    let qp := slot info id
    let s := { s with msglock := update s.msglock qp true }
    if (s.msgque qp).msgPerm.mode &&& IPC_ALLOC = 0 ∨ id.toNat / info.msgmni ≠ (s.msgque qp).msgPerm.seq then
      (.error .EINVAL, unlock s qp)
    else (.ok qp, s)

structure Rcv where
  msqid : Int
  msgsz : Int
  msgtyp : Int
  msgflg : Nat

/-- `msgrcv` up to the label `findmsg`, where it comes when there is no error. -/
def msgrcv (info : Msginfo) (s : State) (uap : Rcv) (cred : Cred) : Option Errno × State :=
  match msgconv info s uap.msqid with
  | (.error error, s) => (some error, s)
  | (.ok qp, s) =>
    match ipcaccess (s.msgque qp).msgPerm MSG_R cred with
    | some _ => (some .EACCES, unlock s qp)
    | none => if uap.msgsz < 0 then (some .EINVAL, unlock s qp) else (none, unlock s qp)

/-- The search for a message with its predecessor, when `msgtyp` is not 0; `smp` is the best
one yet. `none` says that the list did not end in that many turns. -/
def scan (s : State) (msgtyp : Int) :
    Nat → Option Nat → Option Nat → Option (Option Nat × Nat) → Option (Option (Option Nat × Nat))
  | _, _, none, smp => some smp
  | 0, _, some _, _ => none
  | time + 1, pmp, some mp, smp =>
    if msgtyp > 0 then
      if msgtyp ≠ (s.msgh mp).msgType then scan s msgtyp time (some mp) (s.msgNext mp) smp else some (some (pmp, mp))
    else if (s.msgh mp).msgType ≤ long (-msgtyp) then
      match smp with
      | some (spmp, best) =>
        if (s.msgh best).msgType ≤ (s.msgh mp).msgType then scan s msgtyp time (some mp) (s.msgNext mp) (some (spmp, best))
        else scan s msgtyp time (some mp) (s.msgNext mp) (some (pmp, mp))
      | none => scan s msgtyp time (some mp) (s.msgNext mp) (some (pmp, mp))
    else scan s msgtyp time (some mp) (s.msgNext mp) smp

/-- How `findmsg` goes on: with an error, asleep on `msg_qnum`, or in `copyout`. -/
inductive Found
  | error (error : Errno)
  | asleep
  | copyout (spmp : Option Nat) (smp sz : Nat)
  deriving DecidableEq

def findmsg (info : Msginfo) (time : Nat) (s : State) (uap : Rcv) : Option (Found × State) :=
  match msgconv info s uap.msqid with
  | (.error _, s) => some (.error .EIDRM, s)
  | (.ok qp, s) => do
    let smp ← (if uap.msgtyp = 0 then some ((s.msgque qp).msgFirst.map fun mp => (none, mp))
      else scan s uap.msgtyp time none (s.msgque qp).msgFirst none)
    match smp with
    | some (spmp, smp) =>
      if uap.msgsz.toNat < (s.msgh smp).msgTs then
        if uap.msgflg &&& MSG_NOERROR = 0 then return (.error .E2BIG, unlock s qp)
        else return (.copyout spmp smp uap.msgsz.toNat, s)
      else return (.copyout spmp smp (s.msgh smp).msgTs, s)
    | none =>
      if uap.msgflg &&& IPC_NOWAIT ≠ 0 then return (.error .ENOMSG, unlock s qp)
      else return (.asleep, unlock (setQueue s qp { s.msgque qp with rwait := true }) qp)

def msgrcvEnd (info : Msginfo) (s : State) (qp : Nat) (spmp : Option Nat) (smp : Nat) (fault : Bool) :
    Option (Option Errno × State) :=
  if fault then some (some .EFAULT, unlock s qp)
  else do
    let s := setQueue s qp { s.msgque qp with msgCbytes := (s.msgque qp).msgCbytes - (s.msgh smp).msgTs }
    let s ← msgfree info s qp spmp smp
    return (none, unlock s qp)

/-- The arguments of `msgsnd`, with the type that it copies in. -/
structure Snd where
  msqid : Int
  cnt : Nat
  type : Int
  msgflg : Nat

/-- `msgsnd` up to the label `getres`. `type` is what is copied in, `none` for a fault. -/
def msgsnd (info : Msginfo) (s : State) (msqid msgsz : Int) (msgflg : Nat) (type : Option Int) (cred : Cred) :
    Except Errno Snd × State :=
  match msgconv info s msqid with
  | (.error error, s) => (.error error, s)
  | (.ok qp, s) =>
    match ipcaccess (s.msgque qp).msgPerm MSG_W cred with
    | some _ => (.error .EACCES, unlock s qp)
    | none =>
      if msgsz < 0 ∨ msgsz > info.msgmax then (.error .EINVAL, unlock s qp)
      else
        match type with
        | none => (.error .EFAULT, unlock s qp)
        | some type => if type < 1 then (.error .EINVAL, unlock s qp) else (.ok ⟨msqid, msgsz.toNat, type, msgflg⟩, unlock s qp)

/-- How `getres` goes on. In `copyin` the call has a header, and the number of a segment. -/
inductive Got
  | error (error : Errno)
  | asleep (channel : Channel)
  | copyin (mp : Nat) (spot : Nat)
  deriving DecidableEq

def getres (info : Msginfo) (s : State) (uap : Snd) : Option (Got × State) :=
  match msgconv info s uap.msqid with
  | (.error _, s) => some (.error .EIDRM, s)
  | (.ok qp, s) =>
    if uap.cnt + (s.msgque qp).msgCbytes > (s.msgque qp).msgQbytes then
      if uap.msgflg &&& IPC_NOWAIT ≠ 0 then some (.error .EAGAIN, unlock s qp)
      else some (.asleep (.queue qp), unlock (setQueue s qp { s.msgque qp with wwait := true }) qp)
    else
      match s.msgfp with
      | none =>
        if uap.msgflg &&& IPC_NOWAIT ≠ 0 then some (.error .EAGAIN, unlock s qp) else some (.asleep .msgfp, unlock s qp)
      | some mp => do
        let s := { s with msgfp := s.msgNext mp }
        if uap.cnt = 0 then return (.copyin mp 0, s)
        else
          let (spot, map) ← Rmap.rmalloc s.msgmap (btoq info uap.cnt)
          if spot = 0 then
            if uap.msgflg &&& IPC_NOWAIT ≠ 0 then return (.error .EAGAIN, unlock (putHeader s mp) qp)
            else
              let s := { s with msgmap := { s.msgmap with mapwant := s.msgmap.mapwant + 1 } }
              return (.asleep .msgmap, unlock (putHeader s mp) qp)
          else return (.copyin mp (spot - 1), { s with msgmap := map })

def enqueue (s : State) (qp : Nat) (uap : Snd) (mp spot : Nat) : State :=
  let s := setQueue s qp { s.msgque qp with
    msgQnum := (s.msgque qp).msgQnum + 1, msgCbytes := (s.msgque qp).msgCbytes + uap.cnt }
  let s := { s with
    msgNext := update s.msgNext mp none
    msgh := update s.msgh mp ⟨uap.type, uap.cnt % 2 ^ 16, if uap.cnt = 0 then -1 else short spot⟩ }
  match (s.msgque qp).msgLast with
  | none => setQueue s qp { s.msgque qp with msgFirst := some mp, msgLast := some mp }
  | some last =>
    setQueue { s with msgNext := update s.msgNext last (some mp) } qp { s.msgque qp with msgLast := some mp }

/-- `msgsnd` after `copyin` of the text, which may have faulted. -/
def msgsndEnd (info : Msginfo) (s : State) (qp : Nat) (uap : Snd) (mp spot : Nat) (fault : Bool) :
    Option (Option Errno × State) :=
  if uap.cnt ≠ 0 ∧ fault then do
    let s ← freeSpace s (btoq info uap.cnt) (spot + 1)
    return (some .EFAULT, unlock (putHeader s mp) qp)
  else
    let s := enqueue s qp uap mp spot
    let s := if (s.msgque qp).rwait then wakeup (setQueue s qp { s.msgque qp with rwait := false }) (.qnum qp) else s
    some (none, unlock s qp)

def msgsndIntr (info : Msginfo) (s : State) (uap : Snd) (channel : Channel) : Errno × State :=
  match msgconv info s uap.msqid with
  | (.error error, s) => (error, s)
  | (.ok qp, s) =>
    if channel = .queue qp then (.EINTR, unlock (wakeup (setQueue s qp { s.msgque qp with wwait := false }) (.queue qp)) qp)
    else (.EINTR, unlock s qp)

structure SetArg where
  uid : Int
  gid : Int
  mode : Nat
  msgQbytes : Nat

/-- The commands that change a queue, with what the copy from the user gives. -/
inductive Cmd
  | IPC_RMID
  | IPC_SET (copyin : Option SetArg)

/-- `while (qp->msg_first) msgfree(qp, NULL, qp->msg_first, PRMPT);` -/
def freeAll (info : Msginfo) (qp : Nat) : Nat → State → Option State
  | 0, s => if (s.msgque qp).msgFirst = none then some s else none
  | time + 1, s =>
    match (s.msgque qp).msgFirst with
    | none => some s
    | some mp => (msgfree info s qp none mp).bind (freeAll info qp time)

def removeQueue (info : Msginfo) (time : Nat) (s : State) (qp : Nat) (msgid : Int) : Option State := do
  let s ← freeAll info qp time s
  let ds := s.msgque qp
  let seq := if msgid + info.msgmni > 32767 then 0 else ds.msgPerm.seq + 1
  let s := if ds.rwait then wakeup s (.qnum qp) else s
  let s := if ds.wwait then wakeup s (.queue qp) else s
  return setQueue s qp { ds with msgCbytes := 0, msgPerm := { ds.msgPerm with seq, mode := 0 }, rwait := false, wwait := false }

def owner (perm : IpcPerm) (cred : Cred) : Bool := cred.crUid = perm.uid ∨ cred.crUid = perm.cuid ∨ cred.crUid = 0

def msgctl (info : Msginfo) (time : Nat) (s : State) (msgid : Int) (cmd : Cmd) (cred : Cred) : Option (Option Errno × State) :=
  match msgconv info s msgid with
  | (.error error, s) => some (some error, s)
  | (.ok qp, s) =>
    let ds := s.msgque qp
    if ¬ owner ds.msgPerm cred then some (some .EPERM, unlock s qp)
    else
      match cmd with
      | .IPC_RMID => (removeQueue info time s qp msgid).map fun s => (none, unlock s qp)
      | .IPC_SET none => some (some .EFAULT, unlock s qp)
      | .IPC_SET (some arg) =>
        if arg.msgQbytes > ds.msgQbytes ∧ cred.crUid ≠ 0 then some (some .EPERM, unlock s qp)
        else if arg.uid < 0 ∨ arg.uid > MAXUID ∨ arg.gid < 0 ∨ arg.gid > MAXUID then some (some .EINVAL, unlock s qp)
        else
          let mode := ds.msgPerm.mode / 512 * 512 + arg.mode % 512
          let perm := { ds.msgPerm with uid := arg.uid.toNat, gid := arg.gid.toNat, mode }
          some (none, unlock (setQueue s qp { ds with msgPerm := perm, msgQbytes := arg.msgQbytes }) qp)

def allocated (s : State) (qp : Nat) : Bool := (s.msgque qp).msgPerm.mode &&& IPC_ALLOC ≠ 0

def ipcget (info : Msginfo) (s : State) (key : Int) (flag : Nat) : Except Errno (Bool × Nat) :=
  let spare := (List.range info.msgmni).find? (fun qp => ¬ allocated s qp)
  if key = IPC_PRIVATE then
    match spare with
    | some qp => .ok (true, qp)
    | none => .error .ENOSPC
  else
    match (List.range info.msgmni).find? (fun qp => allocated s qp ∧ (s.msgque qp).key = key) with
    | some qp =>
      if flag &&& (IPC_CREAT ||| IPC_EXCL) = IPC_CREAT ||| IPC_EXCL then .error .EEXIST
      else if (flag % 512) &&& (s.msgque qp).msgPerm.mode ≠ flag % 512 then .error .EACCES
      else .ok (false, qp)
    | none =>
      if flag &&& IPC_CREAT = 0 then .error .ENOENT
      else
        match spare with
        | some qp => .ok (true, qp)
        | none => .error .ENOSPC

def msgget (info : Msginfo) (s : State) (key : Int) (msgflg : Nat) (uid gid : Nat) : Except Errno Int × State :=
  match ipcget info s key msgflg with
  | .error error => (.error error, s)
  | .ok (new, qp) =>
    let s :=
      if new then
        let perm := { (s.msgque qp).msgPerm with uid, cuid := uid, gid, cgid := gid, mode := IPC_ALLOC + msgflg % 512 }
        setQueue s qp { s.msgque qp with
          msgPerm := perm, key, rwait := false, wwait := false
          msgFirst := none, msgLast := none, msgQnum := 0, msgQbytes := info.msgmnb % 2 ^ 16 }
      else s
    (.ok ((s.msgque qp).msgPerm.seq * info.msgmni + qp), s)

def msginit (info : Msginfo) : Option State :=
  freeSpace {
    msgque := fun _ => ⟨⟨0, 0, 0, 0, 0, 0⟩, 0, false, false, none, none, 0, 0, 0⟩
    msglock := fun _ => false
    msgNext := fun mp => if mp + 1 < info.msgtql then some (mp + 1) else none
    msgh := fun _ => ⟨0, 0, 0⟩
    msgfp := some 0
    msgmap := Rmap.mapinit info.msgmap
    woken := []
    lost := 0 } info.msgseg 1

end Svr4.Msg
