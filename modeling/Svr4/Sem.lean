import Mathlib

/-! Semaphores (os/sem.c): `semop` applies its operations one by one, and undoes
them through `semundo` when one fails or has to wait. -/

namespace Svr4.Sem
open Function

inductive Errno
  | EPERM | EINTR | E2BIG | EAGAIN | EACCES | EFAULT | EINVAL | EFBIG | ENOSPC | ERANGE | EIDRM
  deriving DecidableEq, Repr

/-- `struct seminfo`, within the limits that the tunables have: values stay in
`short`, and a sum of two adjustments cannot come round to one in range. -/
structure Seminfo where
  semmni : Nat
  semopm : Nat
  semume : Nat
  semvmx : Nat
  semaem : Nat
  vmxLimit : semvmx ≤ 32767
  aemLimit : semaem ≤ 16384

def SEM_UNDO : UInt16 := 0o10000
def IPC_NOWAIT : UInt16 := 0o4000
def SEM_A : Nat := 0o200
def SEM_R : Nat := 0o400
def IPC_ALLOC : Nat := 0o100000

structure Sembuf where
  semNum : Nat
  semOp : Int16
  semFlg : UInt16
  deriving DecidableEq

structure IpcPerm where
  uid : Nat
  gid : Nat
  cuid : Nat
  cgid : Nat
  mode : Nat
  seq : Nat

structure SemidDs where
  semPerm : IpcPerm
  semBase : Nat
  semNsems : Nat
  semOtime : Int

structure Semaphore where
  semval : UInt16
  sempid : Int
  semncnt : UInt16
  semzcnt : UInt16
  deriving DecidableEq

structure Undo where
  unAoe : Int
  unNum : Nat
  unId : Int
  deriving DecidableEq

/-- The addresses that sleepers wait on: `&semp->semncnt` and `&semp->semzcnt`. -/
inductive Channel
  | ncnt (semp : Nat)
  | zcnt (semp : Nat)
  deriving DecidableEq

/-- `semu u` is `un_ent` up to `un_cnt`. The two chains through `un_np` are the lists
of the structures on them, and `woken` records the calls of `wakeprocs`. -/
structure State where
  sema : Nat → SemidDs
  sem : Nat → Semaphore
  semUndo : Nat → Option Nat
  semu : Nat → List Undo
  semunp : List Nat
  semfup : List Nat
  woken : List Channel

def short (n : Int) : Int := Int.bmod n (2 ^ 16)

def setSem (s : State) (j : Nat) (semp : Semaphore) : State := { s with sem := update s.sem j semp }

def setUndo (s : State) (up : Nat) (ent : List Undo) : State := { s with semu := update s.semu up ent }

/-- The undo structure of a process, taken from the free chain at its first use. -/
def undoOf (s : State) (slot : Nat) : Option (Nat × State) :=
  match s.semUndo slot with
  | some up => some (up, s)
  | none =>
    match s.semfup with
    | [] => none
    | up :: rest => some (up, { s with semfup := rest, semUndo := update s.semUndo slot (some up) })

def scan (id : Int) (num : Nat) : List Undo → Nat
  | [] => 0
  | uup :: rest => if uup.unId < id ∨ (uup.unId = id ∧ uup.unNum < num) then scan id num rest + 1 else 0

def addEntry (info : Seminfo) (s : State) (up i : Nat) (val id : Int) (num : Nat) : Option Errno × State :=
  let ent := s.semu up
  if ent.length ≥ info.semume then (some .EINVAL, s)
  else
    let s := if ent.length = 0 then { s with semunp := up :: s.semunp } else s
    (none, setUndo s up (ent.insertIdx i ⟨short (-val), num, id⟩))

def changeEntry (info : Seminfo) (s : State) (up i : Nat) (uup : Undo) (val : Int) : Option Errno × State :=
  let ent := s.semu up
  let aoe := short (uup.unAoe - val)
  if aoe > info.semaem ∨ aoe < -info.semaem then
    (some .ERANGE, setUndo s up (ent.set i { uup with unAoe := short (aoe + val) }))
  else if aoe = 0 then
    let ent := ent.eraseIdx i
    let s := setUndo s up ent
    (none, if ent.length = 0 then { s with semunp := s.semunp.erase up } else s)
  else (none, setUndo s up (ent.set i { uup with unAoe := aoe }))

def placeEntry (info : Seminfo) (s : State) (up : Nat) (val id : Int) (num : Nat) : Option Errno × State :=
  let i := scan id num (s.semu up)
  match (s.semu up)[i]? with
  | some uup =>
    if uup.unId = id ∧ uup.unNum = num then changeEntry info s up i uup val else addEntry info s up i val id num
  | none => addEntry info s up i val id num

def semaoe (info : Seminfo) (s : State) (slot : Nat) (val id : Int) (num : Nat) : Option Errno × State :=
  if val = 0 then (none, s)
  else if val > info.semaem ∨ val < -info.semaem then (some .ERANGE, s)
  else
    match undoOf s slot with
    | none => (some .ENOSPC, s)
    | some (up, s) => placeEntry info s up val id num

def undoOp (info : Seminfo) (slot : Nat) (id : Int) (base : Nat) (op : Sembuf) (s : State) : State :=
  if op.semOp = 0 then s
  else
    let j := base + op.semNum
    let s := setSem s j { s.sem j with semval := (s.sem j).semval - op.semOp.toUInt16 }
    if op.semFlg &&& SEM_UNDO ≠ 0 then (semaoe info s slot (short (-op.semOp.toInt)) id op.semNum).2 else s

def semundo (info : Seminfo) (slot : Nat) (id : Int) (base : Nat) (ops : List Sembuf) (s : State) : State :=
  ops.foldr (undoOp info slot id base) s

def semconv (info : Seminfo) (s : State) (semid : Int) : Except Errno Nat :=
  if semid < 0 then .error .EINVAL
  else
    let sp := semid.toNat % info.semmni
    if (s.sema sp).semPerm.mode &&& IPC_ALLOC = 0 ∨ semid.toNat / info.semmni ≠ (s.sema sp).semPerm.seq then
      .error .EINVAL
    else .ok sp

structure Cred where
  crUid : Nat
  crGroups : List Nat

def ipcaccess (p : IpcPerm) (mode : Nat) (cr : Cred) : Option Errno :=
  if cr.crUid = 0 then none
  else
    let mode :=
      if cr.crUid ≠ p.uid ∧ cr.crUid ≠ p.cuid then
        let mode := mode >>> 3
        if p.gid ∉ cr.crGroups ∧ p.cgid ∉ cr.crGroups then mode >>> 3 else mode
      else mode
    if mode &&& p.mode ≠ 0 then none else some .EACCES

def wakeNcnt (s : State) (j : Nat) : State :=
  if (s.sem j).semncnt ≠ 0 then
    { setSem s j { s.sem j with semncnt := 0 } with woken := .ncnt j :: s.woken }
  else s

def wakeZcnt (s : State) (j : Nat) : State :=
  if (s.sem j).semzcnt ≠ 0 ∧ (s.sem j).semval = 0 then
    { setSem s j { s.sem j with semzcnt := 0 } with woken := .zcnt j :: s.woken }
  else s

/-- What an operation comes to: the next one follows, the call fails, or the
process has to wait on a channel. -/
inductive Turn
  | next
  | fail (error : Errno)
  | block (channel : Channel)
  deriving DecidableEq

structure Caller where
  slot : Nat
  pid : Int
  semid : Int
  sp : Nat

def base (s : State) (c : Caller) : Nat := (s.sema c.sp).semBase

def record (info : Seminfo) (s : State) (c : Caller) (op : Sembuf) : Option Errno × State :=
  if op.semFlg &&& SEM_UNDO ≠ 0 then semaoe info s c.slot op.semOp.toInt c.semid op.semNum else (none, s)

def doOp (info : Seminfo) (s : State) (c : Caller) (op : Sembuf) : Turn × State :=
  let j := base s c + op.semNum
  let val := (s.sem j).semval
  if op.semOp.toInt > 0 then
    if op.semOp.toInt + val.toNat > info.semvmx then (.fail .ERANGE, s)
    else
      match record info s c op with
      | (some error, s) => (.fail error, s)
      | (none, s) =>
        let s := setSem s j { s.sem j with semval := (s.sem j).semval + op.semOp.toUInt16 }
        (.next, wakeZcnt (wakeNcnt s j) j)
  else if op.semOp.toInt < 0 then
    if (val.toNat : Int) ≥ -op.semOp.toInt then
      match record info s c op with
      | (some error, s) => (.fail error, s)
      | (none, s) =>
        let s := setSem s j { s.sem j with semval := (s.sem j).semval + op.semOp.toUInt16 }
        (.next, wakeZcnt s j)
    else (.block (.ncnt j), s)
  else if val ≠ 0 then (.block (.zcnt j), s)
  else (.next, s)

def bumpWaiters (s : State) : Channel → State
  | .ncnt j => setSem s j { s.sem j with semncnt := (s.sem j).semncnt + 1 }
  | .zcnt j => setSem s j { s.sem j with semzcnt := (s.sem j).semzcnt + 1 }

/-- How a stretch of the call ends: it returns 0, returns an error, or sleeps at its `i`-th operation. -/
inductive Outcome
  | done
  | error (error : Errno)
  | asleep (i : Nat) (channel : Channel)
  deriving DecidableEq

def semopLoop (info : Seminfo) (c : Caller) (ops : List Sembuf) (i : Nat) (s : State) : Outcome × State :=
  if inside : i < ops.length then
    let op := ops[i]
    match doOp info s c op with
    | (.next, s) => semopLoop info c ops (i + 1) s
    | (.fail error, s) =>
      let s := if i ≠ 0 then semundo info c.slot c.semid (base s c) (ops.take i) s else s
      (.error error, s)
    | (.block channel, s) =>
      let s := if i ≠ 0 then semundo info c.slot c.semid (base s c) (ops.take i) s else s
      if op.semFlg &&& IPC_NOWAIT ≠ 0 then (.error .EAGAIN, s) else (.asleep i channel, bumpWaiters s channel)
  else (.done, s)
termination_by ops.length - i

/-- `sempid` of each semaphore that was operated on, and the time of the call. -/
def stamp (s : State) (c : Caller) (ops : List Sembuf) (now : Int) : State :=
  let j := base s c
  let s := ops.foldl (fun s op => setSem s (j + op.semNum) { s.sem (j + op.semNum) with sempid := c.pid }) s
  { s with sema := update s.sema c.sp { s.sema c.sp with semOtime := now } }

def check (info : Seminfo) (s : State) (c : Caller) (ops : List Sembuf) (now : Int) : Outcome × State :=
  match semopLoop info c ops 0 s with
  | (.done, s) => (.done, stamp s c ops now)
  | other => other

def verify (s : State) (sp : Nat) (cred : Cred) : List Sembuf → Option Errno
  | [] => none
  | op :: ops =>
    match ipcaccess (s.sema sp).semPerm (if op.semOp ≠ 0 then SEM_A else SEM_R) cred with
    | some error => some error
    | none => if op.semNum ≥ (s.sema sp).semNsems then some .EFBIG else verify s sp cred ops

/-- A call up to its return or first sleep. `copyin` is what the copy from the user
gives, `none` when it faults. -/
def semop (info : Seminfo) (s : State) (slot : Nat) (pid semid : Int) (nsops : Nat) (cred : Cred)
    (copyin : Option (List Sembuf)) (now : Int) : Outcome × State :=
  match semconv info s semid with
  | .error error => (.error error, s)
  | .ok sp =>
    if nsops > info.semopm then (.error .E2BIG, s)
    else
      match copyin with
      | none => (.error .EFAULT, s)
      | some ops =>
        match verify s sp cred ops with
        | some error => (.error error, s)
        | none => check info s ⟨slot, pid, semid, sp⟩ ops now

/-- The call after it is woken, up to its return or next sleep. -/
def resume (info : Seminfo) (s : State) (c : Caller) (copyin : Option (List Sembuf)) (now : Int) : Outcome × State :=
  match semconv info s c.semid with
  | .error _ => (.error .EIDRM, s)
  | .ok _ =>
    match copyin with
    | none => (.error .EFAULT, s)
    | some ops => check info s c ops now

def interrupted (s : State) : Channel → Outcome × State
  | .ncnt j =>
    let old := (s.sem j).semncnt
    let s := setSem s j { s.sem j with semncnt := old - 1 }
    (.error .EINTR,
      if old.toNat ≤ 1 then { setSem s j { s.sem j with semncnt := 0 } with woken := .ncnt j :: s.woken } else s)
  | .zcnt j =>
    let old := (s.sem j).semzcnt
    let s := setSem s j { s.sem j with semzcnt := old - 1 }
    (.error .EINTR,
      if old.toNat ≤ 1 then { setSem s j { s.sem j with semzcnt := 0 } with woken := .zcnt j :: s.woken } else s)

def exitEntry (info : Seminfo) (uup : Undo) (s : State) : State :=
  match semconv info s uup.unId with
  | .error _ => s
  | .ok sp =>
    let j := (s.sema sp).semBase + uup.unNum
    let v := (s.sem j).semval.toNat + uup.unAoe
    if v < 0 ∨ v > info.semvmx then s
    else
      let s := setSem s j { s.sem j with semval := UInt16.ofInt v }
      let s := wakeZcnt s j
      if uup.unAoe > 0 then wakeNcnt s j else s

def semexit (info : Seminfo) (s : State) (slot : Nat) : State :=
  match s.semUndo slot with
  | none => s
  | some up =>
    let ent := s.semu up
    let s :=
      if ent.length = 0 then s
      else
        let s := setUndo (ent.foldr (exitEntry info) s) up []
        { s with semunp := s.semunp.erase up }
    { s with semfup := up :: s.semfup, semUndo := update s.semUndo slot none }

def unrmScan (id : Int) (low high : Nat) : List Undo → List Undo
  | [] => []
  | up :: rest =>
    if id < up.unId then up :: rest
    else if id > up.unId ∨ low > up.unNum then up :: unrmScan id low high rest
    else if high < up.unNum then up :: rest
    else unrmScan id low high rest

def semunrm (s : State) (id : Int) (low high : Nat) : State :=
  let semu := fun p => if p ∈ s.semunp then unrmScan id low high (s.semu p) else s.semu p
  { s with semu, semunp := s.semunp.filter (fun p => (semu p).length ≠ 0) }

def setSemval (pid : Int) (s : State) (j : Nat) (val : UInt16) : State :=
  let s := setSem s j { s.sem j with semval := val, sempid := pid }
  if val ≠ 0 then wakeNcnt s j else wakeZcnt s j

def removeSem (s : State) (j : Nat) : State :=
  let s := setSem s j { s.sem j with semval := 0, sempid := 0 }
  wakeZcnt (wakeNcnt s j) j

/-- The commands that change values, with what the copy from the user gives. -/
inductive Cmd
  | IPC_RMID
  | SETVAL (semnum : Nat) (arg : UInt32)
  | SETALL (copyin : Option (Nat → UInt16))

def semctl (info : Seminfo) (s : State) (semid : Int) (cmd : Cmd) (cred : Cred) (pid : Int) : Option Errno × State :=
  match semconv info s semid with
  | .error error => (some error, s)
  | .ok sp =>
    let perm := (s.sema sp).semPerm
    let first := (s.sema sp).semBase
    let nsems := (s.sema sp).semNsems
    match cmd with
    | .IPC_RMID =>
      if cred.crUid ≠ perm.uid ∧ cred.crUid ≠ perm.cuid ∧ cred.crUid ≠ 0 then (some .EPERM, s)
      else
        let s := semunrm s semid 0 nsems
        let s := (List.range nsems).foldl (fun s i => removeSem s (first + i)) s
        let seq := if semid + info.semmni > 32767 then 0 else perm.seq + 1
        (none, { s with sema := update s.sema sp { s.sema sp with semPerm := { perm with seq, mode := 0 } } })
    | .SETVAL semnum arg =>
      match ipcaccess perm SEM_A cred with
      | some error => (some error, s)
      | none =>
        if semnum ≥ nsems then (some .EINVAL, s)
        else if arg.toNat > info.semvmx then (some .ERANGE, s)
        else (none, semunrm (setSemval pid s (first + semnum) arg.toUInt16) semid semnum semnum)
    | .SETALL copyin =>
      match ipcaccess perm SEM_A cred with
      | some error => (some error, s)
      | none =>
        match copyin with
        | none => (some .EFAULT, s)
        | some semvals =>
          if ∃ i < nsems, (semvals i).toNat > info.semvmx then (some .ERANGE, s)
          else
            let s := semunrm s semid 0 nsems
            (none, (List.range nsems).foldl (fun s i => setSemval pid s (first + i) (semvals i)) s)

/-- The tables as the kernel starts, with `semmnu` undo structures. -/
def seminit (sema : Nat → SemidDs) (sem : Nat → Semaphore) (semmnu : Nat) : State :=
  ⟨sema, sem, fun _ => none, fun _ => [], [], List.range semmnu, []⟩

end Svr4.Sem
