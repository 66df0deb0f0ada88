import Svr4.Library.Chain

/-! Canonical input of the terminal line discipline (io/ldterm.c): `ldterm_docanon` edits a
line that is kept as a chain of small message blocks. What it echoes is left out. -/

namespace Svr4.Ldterm
open Function

def MAX_CANON : Nat := 256

/-- The modes that canonical input looks at; `maxeuc` is `t_maxeuc`. -/
structure Modes where
  verase : UInt8
  vwerase : UInt8
  vkill : UInt8
  vreprint : UInt8
  vlnext : UInt8
  veof : UInt8
  veol : UInt8
  veol2 : UInt8
  iexten : Bool
  xcase : Bool
  imaxbel : Bool
  maxeuc : Nat

/-- What a character typed behind a backslash stands for in XCASE mode, zero if nothing. -/
def imaptab (c : UInt8) : UInt8 :=
  if c = 33 then 124 else if c = 39 then 96 else if c = 40 then 123 else if c = 41 then 125
  else if c = 92 then 92 else if c = 94 then 126
  else if 97 ≤ c ∧ c ≤ 122 then c - 32 else 0

/-- A message block. `b_rptr` stays at the beginning of the buffer. -/
structure Mblk where
  buf : Nat → UInt8
  wptr : Nat
  cont : Option Nat

def Mblk.bytes (b : Mblk) : List UInt8 := (List.range b.wptr).map b.buf

/-- `lim` is the room that `allocb` gives for IBSIZE bytes; `slnch` and `quot` are TS_SLNCH
and TS_QUOT, and `sent` the lines that have gone upstream. -/
structure LdtermState where
  mblk : Nat → Mblk
  fresh : Nat
  lim : Nat
  t_message : Option Nat
  t_endmsg : Option Nat
  t_msglen : Nat
  slnch : Bool
  quot : Bool
  sent : List (List UInt8)

def allocb (s : LdtermState) : LdtermState × Nat :=
  ({ s with mblk := update s.mblk s.fresh { s.mblk s.fresh with wptr := 0, cont := none }, fresh := s.fresh + 1 }, s.fresh)

def newmsg (s : LdtermState) : LdtermState × Nat :=
  match s.t_endmsg with
  | some bp => (s, bp)
  | none => ({ (allocb s).1 with t_message := some (allocb s).2, t_endmsg := some (allocb s).2 }, (allocb s).2)

def text (mblk : Nat → Mblk) : Nat → Option Nat → List UInt8
  | _, none => []
  | 0, some _ => []
  | time + 1, some bp => (mblk bp).bytes ++ text mblk time (mblk bp).cont

def ldterm_msg_upstream (s : LdtermState) : LdtermState :=
  let sent :=
    match s.t_message with
    | some bp => s.sent ++ [text s.mblk s.fresh (some bp)]
    | none => s.sent
  { s with sent := sent, t_message := none, t_endmsg := none, t_msglen := 0 }

def ldterm_unget (s : LdtermState) : LdtermState × Option UInt8 :=
  match s.t_endmsg with
  | none => (s, none)
  | some bpt =>
    let b := s.mblk bpt
    if b.wptr = 0 then (s, none)
    else
      ({ s with t_msglen := s.t_msglen - 1, mblk := update s.mblk bpt { b with wptr := b.wptr - 1 } }, some (b.buf (b.wptr - 1)))

def previous (mblk : Nat → Mblk) (bpt : Nat) : Nat → Nat → Option Nat
  | 0, _ => none
  | time + 1, bp =>
    match (mblk bp).cont with
    | none => none
    | some next => if next = bpt then some bp else previous mblk bpt time next

/-- If the last block is now empty, throw it away, unless it's the first one. -/
def ldterm_trim (s : LdtermState) : Option LdtermState :=
  match s.t_endmsg, s.t_message with
  | some bpt, some first =>
    if (s.mblk bpt).wptr = 0 then
      if first ≠ bpt then
        (previous s.mblk bpt s.fresh first).map fun bp =>
          { s with mblk := update s.mblk bp { s.mblk bp with cont := none }, t_endmsg := some bp }
      else some s
    else some s
  | _, _ => none

def ldterm_erase (s : LdtermState) : Option LdtermState :=
  match (ldterm_unget s).2 with
  | some _ => ldterm_trim (ldterm_unget s).1
  | none => some (ldterm_unget s).1

def blank (c : UInt8) : Bool := c = 32 ∨ c = 9

/-- Take off bytes as long as they pass: the first one that does not, which is off as well. -/
def unget_while (pass : UInt8 → Bool) : Nat → LdtermState × Option UInt8 → Option (LdtermState × Option UInt8)
  | 0, _ => none
  | time + 1, (s, c) =>
    match c with
    | none => some (s, none)
    | some c => if pass c then (ldterm_trim s).bind fun s => unget_while pass time (ldterm_unget s) else some (s, some c)

/-- We removed one too many characters; put the last one back. -/
def put_back (s : LdtermState) : Option LdtermState :=
  s.t_endmsg.map fun bpt =>
    { s with mblk := update s.mblk bpt { s.mblk bpt with wptr := (s.mblk bpt).wptr + 1 }, t_msglen := s.t_msglen + 1 }

/-- Erase trailing white space, if any, and then the characters in front of it. -/
def ldterm_werase (s : LdtermState) : Option LdtermState :=
  let time := s.t_msglen + 1
  (unget_while blank time (ldterm_unget s)).bind fun spaces =>
    (unget_while (fun c => !blank c) time spaces).bind fun word =>
      match word.2 with
      | some _ => put_back word.1
      | none => some word.1

/-- Both ways of `ldterm_kill`, which differ in what they echo. -/
def ldterm_kill (s : LdtermState) : Option LdtermState :=
  (unget_while (fun _ => true) (s.t_msglen + 1) (ldterm_unget s)).map fun last => { last.1 with quot := false, slnch := false }

def full (modes : Modes) (length : Nat) : Bool := (length : Int) > MAX_CANON + 1 - (modes.maxeuc : Int)

def ends_line (modes : Modes) (c : UInt8) : Bool := c = 10 ∨ (c ≠ 0 ∧ (c = modes.veol ∨ c = modes.veol2))

def end_of_line (modes : Modes) (c : UInt8) (s : LdtermState) (bpt : Nat) : LdtermState × Nat :=
  if ¬ s.slnch ∧ ends_line modes c then newmsg (ldterm_msg_upstream s)
  else ({ s with slnch := false, quot := c = 92 }, bpt)

def store (c : UInt8) (s : LdtermState) (bpt : Nat) : LdtermState :=
  let b := s.mblk bpt
  { s with mblk := update s.mblk bpt { b with buf := update b.buf b.wptr c, wptr := b.wptr + 1 }, t_msglen := s.t_msglen + 1 }

def another (s : LdtermState) (last : Nat) : LdtermState × Nat :=
  let new := (allocb s).2
  let mblk := (allocb s).1.mblk
  ({ (allocb s).1 with mblk := update mblk last { mblk last with cont := some new }, t_endmsg := some new }, new)

/-- Add the character to the current line, in a new block if there is no more room. -/
def add_char (modes : Modes) (c : UInt8) (s : LdtermState) (bpt : Nat) : Option (LdtermState × Nat) :=
  if (s.mblk bpt).wptr ≥ s.lim then
    s.t_endmsg.map fun last => end_of_line modes c (store c (another s last).1 (another s last).2) (another s last).2
  else some (end_of_line modes c (store c s bpt) bpt)

def escaped (modes : Modes) (c : UInt8) (s : LdtermState) (bpt : Nat) : Option (LdtermState × Nat) :=
  if full modes s.t_msglen then
    if modes.imaxbel then some (s, bpt)
    else
      -- free everything in the current line and start with the current character
      let s := { s with t_message := none, t_endmsg := none, t_msglen := 0, slnch := false }
      add_char modes c (newmsg s).1 (newmsg s).2
  else add_char modes c s bpt

/-- Get rid of the backslash, and put the character in its place. -/
def replace (modes : Modes) (c : UInt8) (s : LdtermState) : Option (LdtermState × Nat) :=
  (ldterm_erase s).bind fun s => s.t_endmsg.bind fun bpt => escaped modes c s bpt

def edited (s : LdtermState) : Option (LdtermState × Nat) := s.t_endmsg.map fun bpt => (s, bpt)

def ldterm_docanon (modes : Modes) (c : UInt8) (s : LdtermState) (bpt : Nat) : Option (LdtermState × Nat) :=
  if s.slnch then escaped modes c s bpt
  else if c = 0 then escaped modes c { s with quot := false } bpt
  else if modes.iexten ∧ c = modes.vlnext then some ({ s with slnch := true }, bpt)
  else if c = modes.verase then
    if s.quot then replace modes c s else (ldterm_erase s).bind edited
  else if modes.iexten ∧ c = modes.vwerase then (ldterm_werase s).bind edited
  else if c = modes.vkill then
    if s.quot then replace modes c s else (ldterm_kill s).bind edited
  else if modes.iexten ∧ c = modes.vreprint then some (s, bpt)
  else if s.quot then
    if c = modes.veof then replace modes c { s with quot := false }
    else if modes.xcase ∧ imaptab c ≠ 0 then replace modes (imaptab c) { s with quot := false }
    else escaped modes c { s with quot := false } bpt
  else if c = modes.veof then some (newmsg (ldterm_msg_upstream s))
  else escaped modes c s bpt

/-- The bytes of the input one after the other, each under the modes of its time. -/
def docanon_all : List (Modes × UInt8) → LdtermState → Nat → Option (LdtermState × Nat)
  | [], s, bpt => some (s, bpt)
  | (modes, c) :: rest, s, bpt => (ldterm_docanon modes c s bpt).bind fun r => docanon_all rest r.1 r.2

def ldtermopen (mblk : Nat → Mblk) (lim : Nat) : LdtermState := ⟨mblk, 0, lim, none, none, 0, false, false, []⟩

end Svr4.Ldterm
