import Svr4.ElfUpdate
import Svr4.Library.Packing

/-! The layout of an output file: where the buffers go in their sections and the sections in the file. Both are packings
in the arithmetic of `size_t`. -/

namespace Svr4.Proofs.ElfLayout
open ElfUpdate Library.Packing

variable {ver hi hi' n n' sz al size al' x : Nat} {d : Dnode} {s s' : Elf_Scn} {l l' : List Dnode} {t t' : List Elf_Scn}

def word : Nat := 2 ^ 32

def osz (d : Elf_Data) : Nat := (fmsize.getD d.d_type (0, 0)).1 * (d.d_size / (fmsize.getD d.d_type (0, 0)).2)

def item (d : Dnode) : Item := ⟨max 1 d.db_data.d_align, osz d.db_data⟩

def place (d : Dnode) : Nat × Item := (d.db_data.d_off, ⟨max 1 d.db_data.d_align, d.db_osz⟩)

def scnAlign (s : Elf_Scn) : Nat := s.s_nodes.foldl (fun al d => max al d.db_data.d_align) 1

def scnSize (m : Nat) (s : Elf_Scn) : Nat := finish m 0 (s.s_nodes.map item)

def scnItem (m : Nat) (s : Elf_Scn) : Item := ⟨scnAlign s, if s.s_shdr.sh_type = SHT_NOBITS then 0 else scnSize m s⟩

def scnPlace (s : Elf_Scn) : Nat × Item :=
  (s.s_shdr.sh_offset, ⟨s.s_shdr.sh_addralign, if s.s_shdr.sh_type = SHT_NOBITS then 0 else s.s_shdr.sh_size⟩)

def used (t : List Elf_Scn) : List Elf_Scn := t.filter fun s => s.s_shdr.sh_type ≠ SHT_NULL

theorem align_eq {j : Nat} (few : hi < word) : align hi j = up j hi % word := by
  unfold align up size_t word
  split_ifs
  · rfl
  · exact (Nat.mod_eq_of_lt few).symm

theorem align_one (few : hi < word) (j : Nat) : (if j > 1 then align hi j else hi) = up (max 1 j) hi % word := by
  split_ifs with wide
  · rw [align_eq few, max_eq_right (by omega)]
  · rw [max_eq_left (by omega), up, if_neg (by simp [Nat.mod_one]), Nat.mod_eq_of_lt few]

theorem fmsize_le (type : Nat) : (fmsize.getD type (0, 0)).1 ≤ (fmsize.getD type (0, 0)).2 := by
  rcases Nat.lt_or_ge type fmsize.length with inside | outside
  · change type < 13 at inside
    interval_cases type <;> decide
  · rw [List.getD_eq_default _ _ outside]

theorem osz_lt (d : Elf_Data) : osz d < word := by
  have le := Nat.mul_le_mul_right (d.d_size / (fmsize.getD d.d_type (0, 0)).2) (fmsize_le d.d_type)
  exact Nat.lt_of_le_of_lt (le.trans (Nat.mul_div_le ..)) d.d_size_lt

theorem fsize_one {type : Nat} (some_ : elf32_fsize type 1 ver ≠ 0) : elf32_fsize type 1 ver = (fmsize.getD type (0, 0)).1 := by
  unfold elf32_fsize at some_ ⊢
  split_ifs at some_ ⊢ with version
  · exact absurd rfl some_
  · rcases Nat.lt_or_ge type fmsize.length with inside | outside
    · change type < 13 at inside
      interval_cases type <;> rfl
    · rw [List.getElem?_eq_none outside] at some_
      exact absurd rfl some_

structure Data (sz al : Nat) (l : List Dnode) (size al' : Nat) (l' : List Dnode) : Prop where
  size : size = finish word sz (l.map item)
  align : al' = l.foldl (fun al d => max al d.db_data.d_align) al
  places : l'.map place = placed word sz (l.map item)

theorem upd_data_done (few : sz < word) (one : 1 ≤ al) (run : upd_data ver sz al l = some (size, al', l')) : Data sz al l size al' l' := by
  induction l generalizing sz al size al' l' with
  | nil =>
    obtain ⟨rfl, rfl, rfl⟩ : sz = size ∧ al = al' ∧ [] = l' := by simpa [upd_data] using run
    exact ⟨rfl, rfl, rfl⟩
  | cons d l ih =>
    simp only [upd_data] at run
    by_cases none_ : elf32_fsize d.db_data.d_type 1 ver = 0
    · simp [none_] at run
    have bytes : size_t ((fmsize.getD d.db_data.d_type (0, 0)).1 * (d.db_data.d_size / _elf32_msize d.db_data.d_type)) = osz d.db_data :=
      Nat.mod_eq_of_lt (osz_lt d.db_data)
    have aligned : (if d.db_data.d_align > 1 then (align sz d.db_data.d_align, if d.db_data.d_align > al then d.db_data.d_align else al) else (sz, al)) =
        (up (max 1 d.db_data.d_align) sz % word, max al d.db_data.d_align) := by
      rw [← align_one few]
      split_ifs <;> simp only [Prod.mk.injEq, true_and] <;> omega
    rw [if_neg none_, fsize_one none_, bytes, aligned] at run
    obtain ⟨⟨size', al'', rest⟩, more, same⟩ := Option.bind_eq_some_iff.mp run
    obtain ⟨rfl, rfl, rfl⟩ : size' = size ∧ al'' = al' ∧ _ = l' := by simpa using same
    obtain ⟨size_eq, align_eq_, places⟩ := ih (Nat.mod_lt _ (by decide)) (one.trans (le_max_left ..)) more
    exact ⟨size_eq, align_eq_, congrArg _ places⟩

def Laid (s s' : Elf_Scn) : Prop :=
  if s.s_shdr.sh_type = SHT_NULL then s' = { s with s_shdr := sb_shdr }
  else s'.s_shdr.sh_type = s.s_shdr.sh_type ∧ s'.s_shdr.sh_size = scnSize word s ∧ s'.s_shdr.sh_addralign = scnAlign s ∧
    s'.s_nodes.map place = placed word 0 (s.s_nodes.map item)

theorem Laid.type (laid : Laid s s') : s'.s_shdr.sh_type = s.s_shdr.sh_type := by
  unfold Laid at laid
  split_ifs at laid with null
  · rw [laid]
    exact null.symm
  · exact laid.1

theorem scnAlign_bounds (s : Elf_Scn) : 1 ≤ scnAlign s ∧ scnAlign s < word := by
  have all : ∀ (l : List Dnode) (al : Nat), 1 ≤ al → al < word →
      1 ≤ l.foldl (fun al d => max al d.db_data.d_align) al ∧ l.foldl (fun al d => max al d.db_data.d_align) al < word := by
    intro l
    induction l with
    | nil => exact fun _ low high => ⟨low, high⟩
    | cons d l ih => exact fun al low high => ih _ (low.trans (le_max_left ..)) (max_lt high d.db_data.d_align_lt)
  exact all s.s_nodes 1 le_rfl (by decide)

theorem upd_scn_done (few : hi < word) (run : upd_scn ver hi s = some (hi', s')) :
    Laid s s' ∧ if s.s_shdr.sh_type = SHT_NULL then hi' = hi
      else s'.s_shdr.sh_offset = up (scnAlign s) hi % word ∧ hi' = (up (scnAlign s) hi % word + (scnItem word s).size) % word := by
  unfold upd_scn at run
  unfold Laid
  by_cases null : s.s_shdr.sh_type = SHT_NULL
  · rw [if_pos null] at run ⊢
    obtain ⟨rfl, rfl⟩ : hi = hi' ∧ _ = s' := by simpa using run
    rw [if_pos null]
    exact ⟨rfl, rfl⟩
  · rw [if_neg null] at run ⊢
    rw [if_neg null]
    obtain ⟨⟨size, al, nodes⟩, data, same⟩ := Option.bind_eq_some_iff.mp run
    obtain ⟨size_eq, align_eq_, places⟩ := upd_data_done (by decide) le_rfl data
    have align_eq_ : al = scnAlign s := align_eq_
    have size_eq : size = scnSize word s := size_eq
    obtain ⟨rfl, rfl⟩ := Prod.mk.inj (Option.some.inj same)
    refine ⟨⟨rfl, size_eq, align_eq_, places⟩, by rw [← align_eq_]; exact align_eq few, ?_⟩
    rw [align_eq_, align_eq few, size_eq, scnItem]
    by_cases nobits : s.s_shdr.sh_type = SHT_NOBITS
    · rw [if_neg (not_not.mpr nobits), if_pos nobits, add_zero, Nat.mod_mod]
    · rw [if_pos nobits, if_neg nobits]
      rfl

structure Sections (hi n : Nat) (t : List Elf_Scn) (hi' n' : Nat) (t' : List Elf_Scn) : Prop where
  laid : List.Forall₂ Laid t t'
  ends : hi' = finish word hi ((used t).map (scnItem word))
  places : (used t').map scnPlace = placed word hi ((used t).map (scnItem word))
  count : n' = Elf32_Half (n + t.length)

theorem upd_scns_done (few : hi < word) (low : n < 2 ^ 16) (run : upd_scns ver hi n t = some (hi', n', t')) : Sections hi n t hi' n' t' := by
  induction t generalizing hi n hi' n' t' with
  | nil =>
    obtain ⟨rfl, rfl, rfl⟩ : hi = hi' ∧ n = n' ∧ [] = t' := by simpa [upd_scns] using run
    exact ⟨.nil, rfl, rfl, (Nat.mod_eq_of_lt low).symm⟩
  | cons s t ih =>
    unfold upd_scns at run
    obtain ⟨⟨hi₁, s'⟩, one, more⟩ := Option.bind_eq_some_iff.mp run
    obtain ⟨⟨hi₂, n₂, rest⟩, others, same⟩ := Option.bind_eq_some_iff.mp more
    obtain ⟨rfl, rfl, rfl⟩ : hi₂ = hi' ∧ n₂ = n' ∧ s' :: rest = t' := by simpa using same
    obtain ⟨laid, end_⟩ := upd_scn_done few one
    have count : Elf32_Half (Elf32_Half (n + 1) + t.length) = Elf32_Half (n + (s :: t).length) := by
      unfold Elf32_Half
      rw [List.length_cons]
      omega
    have half : Elf32_Half (n + 1) < 2 ^ 16 := Nat.mod_lt _ (by decide)
    have type := laid.type
    by_cases null : s.s_shdr.sh_type = SHT_NULL
    · rw [if_pos null] at end_
      subst end_
      obtain ⟨laid', hi_eq, places, count'⟩ := ih few half others
      refine ⟨.cons laid laid', ?_, ?_, count'.trans count⟩
      · rw [used, List.filter_cons_of_neg (by simp [null])]
        exact hi_eq
      · rw [used, used, List.filter_cons_of_neg (by simpa using type.trans null), List.filter_cons_of_neg (by simp [null])]
        exact places
    · rw [if_neg null] at end_
      obtain ⟨offset, rfl⟩ := end_
      obtain ⟨laid', hi_eq, places, count'⟩ := ih (Nat.mod_lt _ (by decide)) half others
      have shape := laid
      rw [Laid, if_neg null] at shape
      refine ⟨.cons laid laid', ?_, ?_, count'.trans count⟩
      · rw [used, List.filter_cons_of_pos (by simp [null])]
        exact hi_eq
      · rw [used, used, List.filter_cons_of_pos (by simpa using fun gone => null (type.symm.trans gone)), List.filter_cons_of_pos (by simp [null])]
        have here : scnPlace s' = (up (scnAlign s) hi % word, scnItem word s) := by
          rw [scnPlace, scnItem, offset, shape.1, shape.2.1, shape.2.2.1]
        exact List.cons_eq_cons.mpr ⟨here, places⟩

def start (phnum : Nat) : Nat := 52 + 32 * phnum

theorem start_lt {phnum : Nat} (few : phnum < 2 ^ 16) : start phnum < word := by
  unfold start word
  omega

def fileItems (m : Nat) (scns : List Elf_Scn) : List Item :=
  (used scns.tail).map (scnItem m) ++ if scns = [] then [] else [⟨4, 40 * scns.length⟩]

structure Built (scns : List Elf_Scn) (size : Nat) (eh : Elf32_Ehdr) (scns' : List Elf_Scn) : Prop where
  ehsize : eh.e_ehsize = 52
  phentsize : eh.e_phentsize = if eh.e_phnum = 0 then 0 else 32
  phoff : eh.e_phoff = if eh.e_phnum = 0 then 0 else 52
  shnum : eh.e_shnum = Elf32_Half scns.length
  shentsize : eh.e_shentsize = if eh.e_shnum = 0 then 0 else 40
  head : ∀ s ∈ scns'.head?, s.s_shdr = sb_shdr
  laid : List.Forall₂ Laid scns.tail scns'.tail
  length : scns'.length = scns.length
  places : (used scns').map scnPlace = placed word (start eh.e_phnum) ((used scns.tail).map (scnItem word))
  last : if eh.e_shnum = 0 then eh.e_shoff = 0 ∧ size = finish word (start eh.e_phnum) ((used scns.tail).map (scnItem word))
    else eh.e_shoff = up 4 (finish word (start eh.e_phnum) ((used scns.tail).map (scnItem word))) % word ∧ size = (eh.e_shoff + 40 * eh.e_shnum) % word

structure Listed (hi : Nat) (t : List Elf_Scn) (hi' n' : Nat) (t' : List Elf_Scn) : Prop where
  head : ∀ s ∈ t'.head?, s.s_shdr = sb_shdr
  laid : List.Forall₂ Laid t.tail t'.tail
  length : t'.length = t.length
  ends : hi' = finish word hi ((used t.tail).map (scnItem word))
  places : (used t').map scnPlace = placed word hi ((used t.tail).map (scnItem word))
  count : n' = Elf32_Half t.length

theorem upd_list_done (few : hi < word) (run : upd_list ver hi t = some (hi', n', t')) : Listed hi t hi' n' t' := by
  cases t with
  | nil =>
    obtain ⟨rfl, rfl, rfl⟩ : hi = hi' ∧ 0 = n' ∧ [] = t' := by simpa [upd_list] using run
    exact ⟨nofun, .nil, rfl, rfl, rfl, rfl⟩
  | cons s t =>
    obtain ⟨⟨hi₁, n₁, rest⟩, others, same⟩ := Option.bind_eq_some_iff.mp run
    obtain ⟨rfl, rfl, rfl⟩ : hi₁ = hi' ∧ n₁ = n' ∧ _ = t' := by simpa using same
    obtain ⟨laid, ends, places, count⟩ := upd_scns_done few (by decide) others
    refine ⟨?_, laid, ?_, ends, ?_, ?_⟩
    · rintro s ⟨⟩
      rfl
    · exact congrArg (· + 1) laid.length_eq.symm
    · rw [used, List.filter_cons_of_neg (by simp [sb_shdr])]
      exact places
    · rw [count, List.length_cons, Nat.add_comm]

theorem half_lt (n : Nat) : Elf32_Half n < 2 ^ 16 := Nat.mod_lt _ (by decide)

theorem upd_lib_done {eh eh' : Elf32_Ehdr} (version : eh.e_version = EV_CURRENT) (few : eh.e_phnum < 2 ^ 16) (run : upd_lib eh t = some (size, eh', t')) :
    Built t size eh' t' ∧ eh'.e_phnum = eh.e_phnum := by
  have sizes : elf32_fsize ELF_T_EHDR 1 eh.e_version = 52 ∧ elf32_fsize ELF_T_PHDR 1 eh.e_version = 32 ∧ elf32_fsize ELF_T_SHDR 1 eh.e_version = 40 := by
    rw [version]
    decide
  have half : Elf32_Half 52 = 52 := by decide
  have whole : size_t (52 + 32 * eh.e_phnum) = start eh.e_phnum := Nat.mod_eq_of_lt (start_lt few)
  have table : (if eh.e_phnum ≠ 0 then (size_t (52 + 32 * eh.e_phnum), { eh with e_ehsize := 52, e_phentsize := 32, e_phoff := 52 })
      else (52, { eh with e_ehsize := 52, e_phoff := 0, e_phentsize := 0 })) =
      (start eh.e_phnum, { eh with e_ehsize := 52, e_phentsize := if eh.e_phnum = 0 then 0 else 32, e_phoff := if eh.e_phnum = 0 then 0 else 52 }) := by
    by_cases none_ : eh.e_phnum = 0
    · simp [none_, start]
    · simp [none_, whole]
  unfold upd_lib at run
  simp only [sizes.1, sizes.2.1, sizes.2.2, half] at run
  rw [table] at run
  obtain ⟨⟨hi, shnum, scns⟩, listed, same⟩ := Option.bind_eq_some_iff.mp run
  obtain ⟨head, laid, length, ends, places, count⟩ := upd_list_done (start_lt few) listed
  by_cases none_ : shnum = 0
  · simp only [none_, ne_eq, not_true, if_false] at same
    obtain ⟨rfl, rfl, rfl⟩ : hi = size ∧ _ = eh' ∧ scns = t' := by simpa using same
    exact ⟨⟨rfl, rfl, rfl, none_.symm.trans count, rfl, head, laid, length, places, by rw [if_pos rfl]; exact ⟨rfl, ends⟩⟩, rfl⟩
  · simp only [none_, ne_eq, not_false_eq_true, if_true] at same
    obtain ⟨rfl, rfl, rfl⟩ : _ = size ∧ _ = eh' ∧ scns = t' := by simpa using same
    have small : hi < word := ends ▸ finish_lt (start_lt few)
    refine ⟨⟨rfl, rfl, rfl, count, (if_neg none_).symm, head, laid, length, places, ?_⟩, rfl⟩
    rw [if_neg none_]
    exact ⟨(align_eq small).trans (by rw [ends]; rfl), rfl⟩

end Svr4.Proofs.ElfLayout
