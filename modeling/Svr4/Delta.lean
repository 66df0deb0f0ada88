import Svr4.Library.Decimal

/-! The body of an s-file (sccs/lib/comobj/rdmod.c, sccs/cmd/delta.c, sccs/cmd/rmchg.c): `readmod`
finds the lines of a version in it, `delta` weaves a new version into it, and `rmchg` takes one out.
Lines are strings that fit into their buffers. -/

namespace Svr4.Delta
open Decimal

abbrev Line := List UInt8

def CTLCHAR : UInt8 := 1
def INS : UInt8 := 73
def DEL : UInt8 := 68
def END : UInt8 := 69

inductive Keep
  | yes | no | null
  deriving DecidableEq

structure Queue where
  q_sernum : Nat
  q_keep : Keep
  q_iord : UInt8
  deriving DecidableEq

/-- `apply` tells which serials have the code APPLY; `xfile` is what has been written. -/
structure Packet where
  maxser : Nat
  apply : Nat → Bool
  p_upd : Bool
  p_q : List Queue
  p_keep : Keep
  p_line : Line
  p_wrttn : Bool
  p_glnno : Nat
  xfile : List Line

def putline (pkt : Packet) (newline : Line) : Packet :=
  if pkt.p_upd then { pkt with xfile := pkt.xfile ++ [newline] } else pkt

/-- `putline(pkt,(char *) 0)`: write out the current line, if it is not yet written. -/
def put_current (pkt : Packet) : Packet :=
  if pkt.p_upd ∧ ¬ pkt.p_wrttn then { pkt with xfile := pkt.xfile ++ [pkt.p_line], p_wrttn := true } else pkt

def getline (pkt : Packet) (l : Line) : Packet := { (if pkt.p_wrttn then pkt else put_current pkt) with p_line := l, p_wrttn := false }

def getline_eof (pkt : Packet) : Packet := if pkt.p_wrttn then pkt else put_current pkt

def setkeep : List Queue → Keep
  | [] => .no
  | q :: rest => if q.q_keep ≠ .null then q.q_keep else setkeep rest

def addq (new : Queue) : List Queue → Option (List Queue)
  | [] => some [new]
  | cur :: rest =>
    if cur.q_sernum ≤ new.q_sernum then
      if cur.q_sernum = new.q_sernum then none else some (new :: cur :: rest)
    else (addq new rest).map (cur :: ·)

def remq (ser : Nat) : List Queue → Option (List Queue)
  | [] => none
  | cur :: rest => if cur.q_sernum = ser then some rest else (remq ser rest).map (cur :: ·)

def nonblank : Line → Line
  | [] => []
  | c :: p => if c = 32 ∨ c = 9 then nonblank p else c :: p

def satoi (p : Line) : Nat × Line := read 0 p

/-- What a control line does to the queue; none is a format error. -/
def control (maxser : Nat) (apply : Nat → Bool) (q : List Queue) : Line → Option (List Queue)
  | [] => none
  | iord :: p =>
    if ¬ (iord = INS ∨ iord = DEL ∨ iord = END) then none
    else
      let ser := (satoi (nonblank p)).1
      if ¬ (ser > 0 ∧ ser ≤ maxser) then none
      else if iord = END then remq ser q
      else if apply ser then addq ⟨ser, if iord = INS then .yes else .no, iord⟩ q
      else addq ⟨ser, if iord = INS then .no else .null, iord⟩ q

def count_line (pkt : Packet) : Packet := { pkt with p_glnno := pkt.p_glnno + 1 }

/-- Reads the input up to the next line of the version; what follows is left to read. None
is a fatal error. -/
def readmod : List Line → Packet → Option (Packet × List Line × Bool)
  | [], pkt => if pkt.p_q = [] then some (getline_eof pkt, [], false) else none
  | l :: rest, pkt =>
    let pkt := getline pkt l
    match l with
    | c :: p =>
      if c ≠ CTLCHAR then
        if pkt.p_keep = .yes then some (count_line pkt, rest, true) else readmod rest pkt
      else (control pkt.maxser pkt.apply pkt.p_q p).bind fun q => readmod rest { pkt with p_q := q, p_keep := setkeep q }
    | [] => none

def readmod_all : Nat → List Line → Packet → Option (Packet × List Line)
  | 0, _, _ => none
  | time + 1, input, pkt =>
    (readmod input pkt).bind fun r =>
      if r.2.2 then (readmod_all time r.2.1 r.1).map fun all => (all.1, r.1.p_line :: all.2) else some (r.1, [])

def before : Nat → List Line → Packet → Nat → Option (Packet × List Line)
  | 0, input, pkt, n => if pkt.p_glnno < n then none else some (pkt, input)
  | time + 1, input, pkt, n =>
    if pkt.p_glnno < n then
      (readmod input pkt).bind fun r => if r.2.2 then before time r.2.1 r.1 n else some (r.1, r.2.1)
    else some (pkt, input)

def after (input : List Line) (pkt : Packet) (n : Nat) : Option (Packet × List Line) :=
  (before n input pkt n).map fun r => (if r.1.p_glnno = n then put_current r.1 else r.1, r.2)

def ctl (iord : UInt8) (ser : Nat) : Line := [CTLCHAR, iord, 32] ++ digits ser ++ [10]

/-- A line of the differences; at their end the string stays as it is. -/
def rddiff : List Line → Line → Option (List Line × Line)
  | [], s => some ([], s)
  | l :: diffin, _ => if l.getLast? = some 10 then some (diffin, l) else none

/-- The lines that are inserted, each without its first two bytes. -/
def copy_lines : Nat → List Line → Line → Packet → Option (List Line × Packet)
  | 0, diffin, _, pkt => some (diffin, pkt)
  | n + 1, diffin, str, pkt => (rddiff diffin str).bind fun r => copy_lines n r.1 r.2 (putline pkt (r.2.drop 2))

def insert (input : List Line) (diffin : List Line) (pkt : Packet) (linenum n ser : Nat) : Option (Packet × List Line × List Line) :=
  (after input pkt linenum).bind fun r =>
    (copy_lines n diffin (ctl INS ser) (putline r.1 (ctl INS ser))).map fun copied =>
      (putline copied.2 (ctl END ser), r.2, copied.1)

def delete (input : List Line) (pkt : Packet) (linenum n ser : Nat) : Option (Packet × List Line) :=
  (before linenum input pkt linenum).bind fun r =>
    (after r.2 (putline r.1 (ctl DEL ser)) (linenum + n - 1)).map fun r => (putline r.1 (ctl END ser), r.2)

def linerange (cp : Line) : Nat × Nat × Line :=
  let low := satoi cp
  match low.2 with
  | 44 :: p => (low.1, satoi p)
  | p => (low.1, low.1, p)

def skipline : Nat → List Line → Line → Option (List Line × Line)
  | 0, diffin, lp => some (diffin, lp)
  | num + 1, diffin, lp => (rddiff diffin lp).bind fun r => skipline num r.1 r.2

/-- The differences that are left, and the statics `chg_num` and `chg_ln` of `getdiff`. -/
structure Differ where
  diffin : List Line
  chg_num : Nat
  chg_ln : Nat

structure Change where
  type : UInt8
  linenum : Nat
  num_lines : Nat

/-- The next change; none in the place of a change is the end of the differences, none at
all a line that is no line of a difference. -/
def getdiff (d : Differ) : Option (Differ × Option Change) :=
  match d.diffin with
  | [] => some (d, none)
  | _ =>
    (rddiff d.diffin []).bind fun r =>
      if r.2.head? = some 45 then some ({ d with diffin := r.1 }, some ⟨INS, d.chg_ln, d.chg_num⟩)
      else
        let range := linerange r.2
        match range.2.2 with
        | [] => none
        | c :: p =>
          if c = 100 then
            (skipline (range.2.1 - range.1 + 1) r.1 r.2).map fun skipped =>
              ({ d with diffin := skipped.1 }, some ⟨DEL, range.1, range.2.1 - range.1 + 1⟩)
          else if c = 97 then
            let new := linerange p
            some ({ d with diffin := r.1 }, some ⟨INS, range.1, new.2.1 - new.1 + 1⟩)
          else if c = 99 then
            let new := linerange p
            (skipline (range.2.1 - range.1 + 1) r.1 r.2).map fun skipped =>
              (⟨skipped.1, new.2.1 - new.1 + 1, range.1⟩, some ⟨DEL, range.1, range.2.1 - range.1 + 1⟩)
          else none

/-- The changes one after the other, up to one of no lines, and then the rest of the body. -/
def rewrite_body (newser : Nat) : Nat → List Line → Packet → Differ → Option Packet
  | 0, _, _, _ => none
  | time + 1, input, pkt, d =>
    (getdiff d).bind fun r =>
      match r.2 with
      | none => (readmod_all (input.length + 1) input pkt).map (·.1)
      | some change =>
        if change.num_lines = 0 then (readmod_all (input.length + 1) input pkt).map (·.1)
        else if change.type = INS then
          (insert input r.1.diffin pkt change.linenum change.num_lines newser).bind fun done =>
            rewrite_body newser time done.2.1 done.1 { r.1 with diffin := done.2.2 }
        else
          (delete input pkt change.linenum change.num_lines newser).bind fun done =>
            rewrite_body newser time done.2 done.1 r.1

/-- The packet at the beginning of the body, whose last line is already written. -/
def at_body (maxser : Nat) (apply : Nat → Bool) (p_upd : Bool) : Packet :=
  ⟨maxser, apply, p_upd, [], .null, [], true, 0, []⟩

def retrieve (maxser : Nat) (apply : Nat → Bool) (body : List Line) : Option (List Line) :=
  (readmod_all (body.length + 1) body (at_body maxser apply false)).map (·.2)

def delta (maxser : Nat) (apply : Nat → Bool) (newser : Nat) (body diffin : List Line) : Option (List Line) :=
  (rewrite_body newser (diffin.length + 1) body (at_body maxser apply true) ⟨diffin, 0, 0⟩).map (·.xfile)

structure Removal where
  pkt : Packet
  keep : Keep
  found : Bool
  numdelts : Nat

def Removal.skipped (r : Removal) : Removal := { r with pkt := { r.pkt with p_wrttn := true } }

def rmchg_control (D_serial : Nat) (r : Removal) : Line → Option Removal
  | [] => none
  | iord :: p =>
    let n := satoi (nonblank p)
    if n.2.head? ≠ some 10 then none
    else
      let r := if n.1 = D_serial then
          { r.skipped with found := r.found || iord = INS, keep := if iord = INS then .no else .yes }
        else r
      some { r with numdelts := if iord = INS then r.numdelts + 1 else r.numdelts }

def rmchg_line (D_serial : Nat) (r : Removal) (l : Line) : Option Removal :=
  let r := { r with pkt := getline r.pkt l }
  match l with
  | c :: p => if c = CTLCHAR then rmchg_control D_serial r p else some (if r.keep = .no then r.skipped else r)
  | [] => none

/-- The loop over the body, in which `rmdel` leaves a delta out. -/
def rmchg_body (D_serial maxser : Nat) (body : List Line) : Option Removal :=
  (body.foldlM (rmchg_line D_serial) ⟨at_body maxser (fun _ => false) true, .yes, false, 0⟩).map fun r => { r with pkt := getline_eof r.pkt }

def rmdel (D_serial maxser : Nat) (body : List Line) : Option (List Line) :=
  (rmchg_body D_serial maxser body).bind fun r => if r.numdelts < 2 ∧ r.found then none else some r.pkt.xfile

end Svr4.Delta
