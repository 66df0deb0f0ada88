import Mathlib

/-! The output of an object file (libelf, update.c): where its parts go when the library lays them out, and what is
written. `size_t` has 32 bits. -/

namespace Svr4.ElfUpdate

def size_t (n : Nat) : Nat := n % 2 ^ 32
def Elf32_Half (n : Nat) : Nat := n % 2 ^ 16
def off_t (n : Nat) : Int := (n : Int).bmod (2 ^ 32)

def EV_CURRENT : Nat := 1
def ELFDATANONE : Nat := 0
def ELF32_FSZ_WORD : Nat := 4
def SHT_NULL : Nat := 0
def SHT_NOBITS : Nat := 8
def ELF_T_BYTE : Nat := 0
def ELF_T_EHDR : Nat := 3
def ELF_T_PHDR : Nat := 6
def ELF_T_SHDR : Nat := 9

/-- The sizes of each type in a file and in memory, from ELF_T_BYTE to ELF_T_WORD. -/
def fmsize : List (Nat × Nat) :=
  [(1, 1), (4, 4), (8, 8), (52, 52), (2, 2), (4, 4), (32, 32), (12, 12), (8, 8), (40, 40), (4, 4), (16, 16), (4, 4)]

/-- The types of what sections hold, from SHT_NULL to SHT_DYNSYM. -/
def mtype : List Nat := [0, 0, 11, 0, 7, 12, 2, 0, 0, 8, 0, 11]

def elf32_fsize (type count ver : Nat) : Nat :=
  if ver ≠ EV_CURRENT then 0
  else match fmsize[type]? with
    | none => 0
    | some sizes => size_t (sizes.1 * count)

def _elf32_msize (type : Nat) : Nat := (fmsize.getD type (0, 0)).2

def _elf32_entsz (shtype ver : Nat) : Nat :=
  match mtype[shtype]? with
  | none => 0
  | some ttype => if ttype = ELF_T_BYTE then 0 else elf32_fsize ttype 1 ver

structure Elf_Data where
  d_type : Nat
  d_size : Nat
  d_off : Nat
  d_align : Nat
  d_size_lt : d_size < 2 ^ 32
  d_align_lt : d_align < 2 ^ 32

structure Dnode where
  db_data : Elf_Data
  db_osz : Nat

structure Elf32_Shdr where
  sh_type : Nat
  sh_offset : Nat
  sh_size : Nat
  sh_addralign : Nat
  sh_entsize : Nat
  deriving DecidableEq

def sb_shdr : Elf32_Shdr := ⟨SHT_NULL, 0, 0, 0, 0⟩

structure Elf_Scn where
  s_shdr : Elf32_Shdr
  s_nodes : List Dnode

structure Elf32_Ehdr where
  e_version : Nat
  ei_data : Nat
  e_ehsize : Nat
  e_phoff : Nat
  e_phentsize : Nat
  e_phnum : Nat
  e_shoff : Nat
  e_shentsize : Nat
  e_shnum : Nat

/-- A descriptor. It has the sections from index zero on, and `phdrs` program headers, whose number is kept in `e_phnum`. -/
structure Elf where
  coffaout : Bool
  edf_write : Bool
  ed_ehdr : Option Elf32_Ehdr
  phdrs : Nat
  ed_scns : List Elf_Scn
  counted : ∀ eh ∈ ed_ehdr, eh.e_phnum = Elf32_Half phdrs

def elf32_newphdr (elf : Elf) (count : Nat) : Elf :=
  { elf with
    ed_ehdr := elf.ed_ehdr.map fun eh => { eh with e_phnum := Elf32_Half count, e_phentsize := if count = 0 then 0 else elf32_fsize ELF_T_PHDR 1 EV_CURRENT }
    phdrs := count
    counted := by
      intro eh member
      obtain ⟨eh', -, rfl⟩ := Option.map_eq_some_iff.mp member
      rfl }

def align (hi j : Nat) : Nat := if hi % j ≠ 0 then size_t (hi + (j - hi % j)) else hi

/-- The buffers of a section, with the size and the alignment that the section gets from them. -/
def upd_data (ver : Nat) : Nat → Nat → List Dnode → Option (Nat × Nat × List Dnode)
  | sz, addralign, [] => some (sz, addralign, [])
  | sz, addralign, d :: rest => do
    let fsz := elf32_fsize d.db_data.d_type 1 ver
    if fsz = 0 then none
    else
      let fsz := size_t (fsz * (d.db_data.d_size / _elf32_msize d.db_data.d_type))
      let j := d.db_data.d_align
      let (sz, addralign) := if j > 1 then (align sz j, if j > addralign then j else addralign) else (sz, addralign)
      let (size, al, rest) ← upd_data ver (size_t (sz + fsz)) addralign rest
      return (size, al, { d with db_data := { d.db_data with d_off := sz }, db_osz := fsz } :: rest)

def upd_scn (ver hi : Nat) (s : Elf_Scn) : Option (Nat × Elf_Scn) :=
  if s.s_shdr.sh_type = SHT_NULL then some (hi, { s with s_shdr := sb_shdr })
  else do
    let entsz := _elf32_entsz s.s_shdr.sh_type ver
    let (sz, addralign, nodes) ← upd_data ver 0 1 s.s_nodes
    let hi := align hi addralign
    let shdr := { s.s_shdr with
      sh_entsize := if entsz ≠ 0 then entsz else s.s_shdr.sh_entsize, sh_addralign := addralign, sh_size := sz, sh_offset := hi }
    return (if s.s_shdr.sh_type ≠ SHT_NOBITS then size_t (hi + sz) else hi, ⟨shdr, nodes⟩)

def upd_scns (ver : Nat) : Nat → Nat → List Elf_Scn → Option (Nat × Nat × List Elf_Scn)
  | hi, shnum, [] => some (hi, shnum, [])
  | hi, shnum, s :: rest => do
    let (hi, s) ← upd_scn ver hi s
    let (hi, shnum, rest) ← upd_scns ver hi (Elf32_Half (shnum + 1)) rest
    return (hi, shnum, s :: rest)

def upd_list (ver hi : Nat) : List Elf_Scn → Option (Nat × Nat × List Elf_Scn)
  | [] => some (hi, 0, [])
  | s :: rest => do
    let (hi, shnum, rest) ← upd_scns ver hi 1 rest
    return (hi, shnum, { s with s_shdr := sb_shdr } :: rest)

/-- The size of the file, and the headers and sections with their places. -/
def upd_lib (eh : Elf32_Ehdr) (scns : List Elf_Scn) : Option (Nat × Elf32_Ehdr × List Elf_Scn) := do
  let ver := eh.e_version
  let hi := elf32_fsize ELF_T_EHDR 1 ver
  let eh := { eh with e_ehsize := Elf32_Half hi }
  let (hi, eh) :=
    if eh.e_phnum ≠ 0 then
      let phentsize := elf32_fsize ELF_T_PHDR 1 ver
      (size_t (hi + phentsize * eh.e_phnum), { eh with e_phentsize := phentsize, e_phoff := hi })
    else (hi, { eh with e_phoff := 0, e_phentsize := 0 })
  let (hi, shnum, scns) ← upd_list ver hi scns
  let eh := { eh with e_shnum := shnum }
  if shnum ≠ 0 then
    let hi := align hi ELF32_FSZ_WORD
    let shentsize := elf32_fsize ELF_T_SHDR 1 ver
    return (size_t (hi + shentsize * shnum), { eh with e_shoff := hi, e_shentsize := shentsize }, scns)
  else return (hi, { eh with e_shoff := 0, e_shentsize := 0 }, scns)

/-- What bytes are of: the header, the program headers, a buffer of a section, a section header, or the fill byte. -/
inductive Source
  | ehdr
  | phdrs
  | data (s k : Nat)
  | shdr (s : Nat)
  | fill
  deriving DecidableEq

structure Write where
  off : Nat
  len : Nat
  source : Source

def memset_before (here sz : Nat) : Write := ⟨size_t (here + (2 ^ 32 - sz)), sz, .fill⟩

/-- What is left to the file and to the translations: the image and its way to the file, and whether each of the
translations is done. -/
structure Outside where
  outmap : Bool
  outsync : Bool
  xlatetof : Source → Bool

/-- The buffers of the section `s` from the `k`-th on; `off` is the end of what has been written of it. -/
def wrt_data (e : Outside) (start s : Nat) : Nat → Nat → List Dnode → Option (List Write)
  | _, _, [] => some []
  | k, off, d :: rest => do
    let here := size_t (start + d.db_data.d_off)
    let gap := if d.db_data.d_off > off then [memset_before here (d.db_data.d_off - off)] else []
    if e.xlatetof (.data s k) then
      let rest ← wrt_data e start s (k + 1) (size_t (d.db_data.d_off + d.db_osz)) rest
      return gap ++ ⟨here, d.db_osz, .data s k⟩ :: rest
    else none

/-- The sections from the `s`-th on; `hi` is the end of what has been written of the file. -/
def wrt_scns (e : Outside) : Nat → Nat → List Elf_Scn → Option (Nat × List Write)
  | _, hi, [] => some (hi, [])
  | s, hi, scn :: rest =>
    let sh := scn.s_shdr
    if sh.sh_type = SHT_NOBITS ∨ sh.sh_type = SHT_NULL then wrt_scns e (s + 1) hi rest
    else do
      let gap := if sh.sh_offset > hi then [memset_before sh.sh_offset (sh.sh_offset - hi)] else []
      let data ← wrt_data e sh.sh_offset s 0 0 scn.s_nodes
      let (hi, rest) ← wrt_scns e (s + 1) (size_t (sh.sh_offset + sh.sh_size)) rest
      return (hi, gap ++ data ++ rest)

/-- The section headers from the `s`-th on. Each is only translated when there is room for all of it. -/
def wrt_shdrs (e : Outside) (shentsize : Nat) : Nat → Nat → List Elf_Scn → Option (List Write)
  | _, _, [] => some []
  | s, at_, _ :: rest =>
    let bytes := elf32_fsize ELF_T_SHDR 1 EV_CURRENT
    if e.xlatetof (.shdr s) ∧ bytes ≤ shentsize then do
      let rest ← wrt_shdrs e shentsize (s + 1) (size_t (at_ + shentsize)) rest
      return ⟨at_, bytes, .shdr s⟩ :: rest
    else none

/-- The table of program headers, if one exists. It is only translated when there is room for all of it. -/
def wrt_phdr (e : Outside) (eh : Elf32_Ehdr) (phdrs : Nat) : Option (Nat × List Write) :=
  if eh.e_phnum ≠ 0 then
    let size := eh.e_phnum * eh.e_phentsize
    let bytes := elf32_fsize ELF_T_PHDR 1 EV_CURRENT * phdrs
    if e.xlatetof .phdrs ∧ bytes ≤ size then some (size_t (eh.e_phoff + size), [⟨eh.e_phoff, bytes, .phdrs⟩]) else none
  else some (eh.e_ehsize, [])

def wrt (e : Outside) (eh : Elf32_Ehdr) (phdrs : Nat) (scns : List Elf_Scn) : Option (List Write) :=
  if !e.outmap ∨ !e.xlatetof .ehdr then none
  else do
    let (hi, table) ← wrt_phdr e eh phdrs
    let (hi, sections) ← wrt_scns e 0 hi scns
    let gap := if eh.e_shoff > hi then [⟨hi, eh.e_shoff - hi, .fill⟩] else []
    let headers ← wrt_shdrs e eh.e_shentsize 0 eh.e_shoff scns
    if e.outsync then return ⟨0, eh.e_ehsize, .ehdr⟩ :: table ++ sections ++ gap ++ headers else none

/-- A file with its headers and sections as they have been laid out, and what was written. -/
structure Output where
  ret : Int
  size : Nat
  ehdr : Elf32_Ehdr
  scns : List Elf_Scn
  writes : List Write

/-- `elf_update` with ELF_C_WRITE, without ELF_F_LAYOUT. It returns -1 where the result is `none`. -/
def elf_update (e : Outside) (encode : Nat) (elf : Elf) : Option Output := do
  if elf.coffaout ∨ !elf.edf_write then none
  else
    let eh ← elf.ed_ehdr
    if eh.e_version > EV_CURRENT then none
    else
      let eh := if eh.e_version = 0 then { eh with e_version := EV_CURRENT } else eh
      if eh.ei_data = ELFDATANONE ∧ encode = ELFDATANONE then none
      else
        let eh := if eh.ei_data = ELFDATANONE then { eh with ei_data := encode } else eh
        let (size, eh, scns) ← upd_lib eh elf.ed_scns
        if size = 0 then none
        else
          let writes ← wrt e eh elf.phdrs scns
          return ⟨off_t size, size, eh, scns, writes⟩

end Svr4.ElfUpdate
