import Svr4.Proofs.ElfLayout

/-! What is written of an output file. Its parts lie apart and each byte is written once exactly when no size comes round
and the counts fit into their fields. -/

namespace Svr4.Proofs.ElfWritten
open ElfUpdate Library.Packing ElfLayout

def Has (q : Nat × Nat) (b : Nat) : Prop := q.1 ≤ b ∧ b < q.1 + q.2

def Apart (q r : Nat × Nat) : Prop := ∀ b, ¬(Has q b ∧ Has r b)

def Filed (s : Elf_Scn) : Prop := s.s_shdr.sh_type ≠ SHT_NULL ∧ s.s_shdr.sh_type ≠ SHT_NOBITS

instance (s : Elf_Scn) : Decidable (Filed s) := inferInstanceAs (Decidable (_ ∧ _))

def regions (o : Output) : List (Nat × Nat) :=
  (0, o.ehdr.e_ehsize) :: (o.ehdr.e_phoff, o.ehdr.e_phentsize * o.ehdr.e_phnum) ::
    ((o.scns.filter fun s => Filed s).map fun s => (s.s_shdr.sh_offset, s.s_shdr.sh_size)) ++ [(o.ehdr.e_shoff, o.ehdr.e_shentsize * o.ehdr.e_shnum)]

def buffer (d : Dnode) : Nat × Nat := (d.db_data.d_off, d.db_osz)

def dataWrites (at_ n : Nat) (l : List (Dnode × Nat)) : List Write := l.map fun d => ⟨at_ + d.1.db_data.d_off, d.1.db_osz, .data n d.2⟩

def scnWrites (l : List (Elf_Scn × Nat)) : List Write :=
  l.flatMap fun s => if Filed s.1 then dataWrites s.1.s_shdr.sh_offset s.2 s.1.s_nodes.zipIdx else []

def phdrWrites (eh : Elf32_Ehdr) : List Write := if eh.e_phnum = 0 then [] else [⟨eh.e_phoff, eh.e_phentsize * eh.e_phnum, .phdrs⟩]

def shdrWrites (at_ size : Nat) (l : List (Elf_Scn × Nat)) : List Write := l.map fun s => ⟨at_ + size * s.2, size, .shdr s.2⟩

def described (eh : Elf32_Ehdr) (scns : List Elf_Scn) : List Write :=
  ⟨0, eh.e_ehsize, .ehdr⟩ :: phdrWrites eh ++ scnWrites scns.zipIdx ++ shdrWrites eh.e_shoff eh.e_shentsize scns.zipIdx

def parts (ws : List Write) : List Write := ws.filter fun w => w.source ≠ .fill

structure LaidOut (elf : Elf) (o : Output) : Prop where
  apart : (regions o).Pairwise Apart
  inside : ∀ q ∈ regions o, ∀ b, Has q b → b < o.size
  sections : ∀ s ∈ used o.scns, s.s_shdr.sh_addralign ∣ s.s_shdr.sh_offset
  buffers : ∀ s ∈ used o.scns, ∀ d ∈ s.s_nodes, max 1 d.db_data.d_align ∣ d.db_data.d_off
  contents : ∀ s ∈ used o.scns, (s.s_nodes.map buffer).Pairwise Apart ∧ ∀ d ∈ s.s_nodes, ∀ b, Has (buffer d) b → b < s.s_shdr.sh_size
  once : ∀ b, (o.writes.countP fun w => w.off ≤ b ∧ b < w.off + w.len) = if b < o.size then 1 else 0
  written : parts o.writes = described o.ehdr o.scns
  ehsize : o.ehdr.e_ehsize = 52
  phdrs : o.ehdr.e_phnum = elf.phdrs ∧ o.ehdr.e_phentsize * o.ehdr.e_phnum = 32 * elf.phdrs
  shdrs : o.ehdr.e_shnum = elf.ed_scns.length ∧ o.ehdr.e_shentsize * o.ehdr.e_shnum = 40 * elf.ed_scns.length

/-- The counts fit into 16 bits, and the sizes of the sections and of the file into 32. -/
structure Fits (elf : Elf) : Prop where
  phdrs : elf.phdrs < 2 ^ 16
  shdrs : elf.ed_scns.length < 2 ^ 16
  sections : ∀ s ∈ used elf.ed_scns.tail, scnSize 0 s < word
  file : finish 0 (start elf.phdrs) (fileItems 0 elf.ed_scns) < word

variable {elf : Elf} {o : Output} {size : Nat} {eh : Elf32_Ehdr} {t t' : List Elf_Scn} {s s' : Elf_Scn}

theorem fits_half {n : Nat} (few : n < 2 ^ 16) : Elf32_Half n = n := Nat.mod_eq_of_lt few

theorem scn_exact (laid : s'.s_nodes.map place = placed word 0 (s.s_nodes.map item)) (size : s'.s_shdr.sh_size = scnSize word s)
    (buffers : ∀ d ∈ s'.s_nodes, max 1 d.db_data.d_align ∣ d.db_data.d_off) (apart : (s'.s_nodes.map buffer).Pairwise Apart)
    (inside : ∀ d ∈ s'.s_nodes, ∀ b, Has (buffer d) b → b < s'.s_shdr.sh_size) : scnSize 0 s < word := by
  refine shows_exact (by decide) ?_ ?_ ?_ ?_ (fun positive => absurd positive (lt_irrefl 0))
  · intro i member
    obtain ⟨d, -, rfl⟩ := List.mem_map.mp member
    exact ⟨lt_of_lt_of_le Nat.one_pos (le_max_left ..), max_lt (by decide) d.db_data.d_align_lt⟩
  · rw [← laid]
    intro q member
    obtain ⟨d, found, rfl⟩ := List.mem_map.mp member
    exact .inl (buffers d found)
  · rw [← laid]
    intro q member some_
    obtain ⟨d, found, rfl⟩ := List.mem_map.mp member
    have some_ : 0 < d.db_osz := some_
    have last := inside d found (d.db_data.d_off + d.db_osz - 1) ⟨by show d.db_data.d_off ≤ _; omega, by show _ < d.db_data.d_off + d.db_osz; omega⟩
    rw [size] at last
    show d.db_data.d_off + d.db_osz ≤ scnSize word s
    omega
  · rw [← laid, List.pairwise_map]
    rw [List.pairwise_map] at apart
    refine apart.imp ?_
    rintro d d' none_ ⟨first, second, at_, at'⟩
    have first : 0 < d.db_osz := first
    have second : 0 < d'.db_osz := second
    have at_ : d.db_data.d_off = 0 := at_
    have at' : d'.db_data.d_off = 0 := at'
    exact none_ 0 ⟨⟨at_.le, by show 0 < d.db_data.d_off + d.db_osz; omega⟩, at'.le, by show 0 < d'.db_data.d_off + d'.db_osz; omega⟩

theorem laid_used (laid : List.Forall₂ Laid t t') : List.Forall₂ (fun s s' => s'.s_shdr.sh_type = s.s_shdr.sh_type ∧ s'.s_shdr.sh_size = scnSize word s ∧
    s'.s_shdr.sh_addralign = scnAlign s ∧ s'.s_nodes.map place = placed word 0 (s.s_nodes.map item)) (used t) (used t') := by
  induction laid with
  | nil => exact .nil
  | @cons s s' t t' one _ ih =>
    have type := one.type
    by_cases null : s.s_shdr.sh_type = SHT_NULL
    · rw [used, used, List.filter_cons_of_neg (by simp [null]), List.filter_cons_of_neg (by simpa using type.trans null)]
      exact ih
    · rw [used, used, List.filter_cons_of_pos (by simp [null]), List.filter_cons_of_pos (by simpa using fun gone => null (type.symm.trans gone))]
      rw [Laid, if_neg null] at one
      exact .cons one ih

theorem related_right {R : Elf_Scn → Elf_Scn → Prop} (each : List.Forall₂ R t t') (member : s' ∈ t') : ∃ s ∈ t, R s s' := by
  induction each with
  | nil => exact absurd member List.not_mem_nil
  | cons one _ ih =>
    rcases List.mem_cons.mp member with rfl | member
    · exact ⟨_, List.mem_cons_self .., one⟩
    · obtain ⟨s, found, related⟩ := ih member
      exact ⟨s, List.mem_cons_of_mem _ found, related⟩

theorem used_tail (head : ∀ s ∈ t.head?, s.s_shdr = sb_shdr) : used t = used t.tail := by
  cases t with
  | nil => rfl
  | cons s t => exact List.filter_cons_of_neg (by simp [head s rfl, sb_shdr])

theorem items_exact (sections : ∀ s ∈ used t.tail, scnSize 0 s < word) : fileItems word t = fileItems 0 t := by
  have same : (used t.tail).map (scnItem word) = (used t.tail).map (scnItem 0) := by
    refine List.map_congr_left fun s member => ?_
    rw [scnItem, scnItem, scnSize, scnSize, (exact_ (sections s member)).2]
  rw [fileItems, fileItems, same]

theorem packed (built : Built t size eh t') (few : t.length < 2 ^ 16) :
    placed word (start eh.e_phnum) (fileItems word t) = (used t').map scnPlace ++ (if t = [] then [] else [(eh.e_shoff, ⟨4, 40 * t.length⟩)]) ∧
      size = finish word (start eh.e_phnum) (fileItems word t) := by
  have shnum := built.shnum
  have last := built.last
  rw [fits_half few] at shnum
  rw [fileItems, placed_append, finish_append, ← built.places]
  by_cases none_ : t = []
  · rw [shnum, none_, if_pos (by rfl)] at last
    simp only [none_, if_true, placed, finish]
    exact ⟨trivial, last.2⟩
  · rw [if_neg (by rw [shnum]; simpa using none_)] at last
    simp only [none_, if_false, placed, finish]
    rw [last.2, shnum, ← last.1]
    exact ⟨rfl, rfl⟩

theorem Has.of_pos {q : Nat × Nat} (some_ : 0 < q.2) : Has q q.1 ∧ Has q (q.1 + q.2 - 1) := by
  unfold Has
  omega

theorem fits_of_laid (built : Built elf.ed_scns o.size o.ehdr o.scns) (half : o.ehdr.e_phnum = Elf32_Half elf.phdrs) (laid : LaidOut elf o) :
    Fits elf := by
  obtain ⟨apart, inside, sections, buffers, contents, -, -, ehsize, ⟨phnum, -⟩, shnum, shsize⟩ := laid
  have few_ph : elf.phdrs < 2 ^ 16 := by
    rw [← phnum, half]
    exact half_lt _
  have few_sh : elf.ed_scns.length < 2 ^ 16 := by
    rw [← shnum, built.shnum]
    exact half_lt _
  have exact_scns : ∀ s ∈ used elf.ed_scns.tail, scnSize 0 s < word := by
    intro s member
    obtain ⟨s', found, -, size, -, places⟩ : ∃ s' ∈ used o.scns, s'.s_shdr.sh_type = s.s_shdr.sh_type ∧ s'.s_shdr.sh_size = scnSize word s ∧
        s'.s_shdr.sh_addralign = scnAlign s ∧ s'.s_nodes.map place = placed word 0 (s.s_nodes.map item) := by
      rw [used_tail built.head]
      exact related_right (laid_used built.laid).flip member
    exact scn_exact places size (buffers s' found) (contents s' found).1 (contents s' found).2
  have same := items_exact exact_scns
  obtain ⟨places, size⟩ := packed built few_sh
  rw [phnum] at places size
  refine ⟨few_ph, few_sh, exact_scns, ?_⟩
  rw [← same]
  obtain ⟨header, -⟩ := List.pairwise_cons.mp apart
  -- What has bytes is one of the regions.
  have filed : ∀ q ∈ placed word (start elf.phdrs) (fileItems word elf.ed_scns), 0 < q.2.size → (q.1, q.2.size) ∈ (regions o).tail := by
    rw [places]
    intro q member some_
    rcases List.mem_append.mp member with member | member
    · obtain ⟨s, found, rfl⟩ := List.mem_map.mp member
      obtain ⟨found, null⟩ := List.mem_filter.mp found
      have nobits : s.s_shdr.sh_type ≠ SHT_NOBITS := by
        intro nobits
        rw [scnPlace, if_pos nobits] at some_
        exact lt_irrefl 0 some_
      rw [scnPlace, if_neg nobits]
      refine List.mem_cons_of_mem _ (List.mem_append_left _ (List.mem_map.mpr ⟨s, List.mem_filter.mpr ⟨found, ?_⟩, rfl⟩))
      exact decide_eq_true ⟨of_decide_eq_true null, nobits⟩
    · split_ifs at member with none_
      · exact absurd member List.not_mem_nil
      · obtain rfl := List.mem_singleton.mp member
        refine List.mem_cons_of_mem _ (List.mem_append_right _ (List.mem_singleton.mpr ?_))
        rw [shsize]
  have away : ∀ q ∈ placed word (start elf.phdrs) (fileItems word elf.ed_scns), 0 < q.2.size → q.1 ≠ 0 := by
    intro q member some_ zero
    refine header _ (filed q member some_) 0 ⟨⟨le_rfl, ?_⟩, (by rw [zero]), ?_⟩
    · show 0 < 0 + o.ehdr.e_ehsize
      rw [ehsize]
      decide
    · show 0 < q.1 + q.2.size
      omega
  have full : 0 < o.size := inside _ (List.mem_cons_self ..) 0 ⟨le_rfl, by show 0 < 0 + o.ehdr.e_ehsize; rw [ehsize]; decide⟩
  refine shows_exact (start_lt few_ph) ?_ ?_ ?_ ?_ fun _ => ⟨away, size ▸ full⟩
  · intro i member
    rw [fileItems] at member
    rcases List.mem_append.mp member with member | member
    · obtain ⟨s, -, rfl⟩ := List.mem_map.mp member
      exact ⟨(scnAlign_bounds s).1, (scnAlign_bounds s).2⟩
    · split_ifs at member
      · exact absurd member List.not_mem_nil
      · obtain rfl := List.mem_singleton.mp member
        exact ⟨show 0 < 4 by decide, show 4 < word by decide⟩
  · rw [places]
    intro q member
    rcases List.mem_append.mp member with member | member
    · obtain ⟨s, found, rfl⟩ := List.mem_map.mp member
      exact .inl (sections s found)
    · split_ifs at member
      · exact absurd member List.not_mem_nil
      · obtain rfl := List.mem_singleton.mp member
        exact .inr (show 4 ∣ word by decide)
  · intro q member some_
    have last := inside _ (List.mem_of_mem_tail (filed q member some_)) _ (Has.of_pos some_).2
    rw [← size]
    dsimp only at last
    omega
  · refine List.Pairwise.imp_of_mem ?_ (List.pairwise_of_forall fun _ _ => trivial)
    rintro q r found - - ⟨some_, -, zero, -⟩
    exact away q found some_ zero

def range (w : Write) : Nat × Nat := (w.off, w.len)

variable {e : Outside} {n k x hi hi' off at_ at' : Nat} {l : List Dnode} {ws : List Write} {items : List Item}

theorem gap_tiles {here low : Nat} (le : low ≤ here) (few : here < word) :
    Tiles ((if here > low then [memset_before here (here - low)] else []).map range) low here := by
  split_ifs with more
  · have back : size_t (here + (2 ^ 32 - (here - low))) = low := by
      unfold size_t
      unfold word at few
      omega
    have tiles := Tiles.one low (here - low)
    rw [Nat.add_sub_cancel' le] at tiles
    rw [List.map_cons, List.map_nil, range, memset_before, back]
    exact tiles
  · obtain rfl : here = low := by omega
    exact .nil _

theorem parts_append (ws ws' : List Write) : parts (ws ++ ws') = parts ws ++ parts ws' := List.filter_append ..

theorem gap_parts {p : Prop} [Decidable p] {w : Write} (fills : w.source = .fill) : parts (if p then [w] else []) = [] := by
  split_ifs
  · exact List.filter_cons_of_neg (by simp [fills])
  · rfl

theorem part_cons {w : Write} (part : w.source ≠ .fill) (ws : List Write) : parts (w :: ws) = w :: parts ws :=
  List.filter_cons_of_pos (decide_eq_true part)

theorem wrt_data_tiles (places : l.map place = placed 0 off items) (few : at_ + finish 0 off items < word) (run : wrt_data e at_ n k off l = some ws) :
    Tiles (ws.map range) (at_ + off) (at_ + finish 0 off items) ∧ parts ws = dataWrites at_ n (l.zipIdx k) := by
  induction l generalizing items k off ws with
  | nil =>
    cases items with
    | nil =>
      obtain rfl : [] = ws := by simpa [wrt_data] using run
      exact ⟨.nil _, rfl⟩
    | cons i items => simp [placed] at places
  | cons d l ih =>
    cases items with
    | nil => simp [placed] at places
    | cons i items =>
      simp only [List.map_cons, placed, Nat.mod_zero, List.cons.injEq] at places
      obtain ⟨here, places⟩ := places
      have offset : d.db_data.d_off = up i.align off := congrArg Prod.fst here
      have bytes : d.db_osz = i.size := congrArg (fun q => q.2.size) here
      have low := le_up i.align off
      simp only [finish, Nat.mod_zero] at few ⊢
      have ends := le_finish (up i.align off + i.size) items
      unfold wrt_data at run
      have start_eq : size_t (at_ + d.db_data.d_off) = at_ + d.db_data.d_off := Nat.mod_eq_of_lt (by unfold word at few; omega)
      have next : size_t (d.db_data.d_off + d.db_osz) = d.db_data.d_off + d.db_osz := Nat.mod_eq_of_lt (by unfold word at few; omega)
      simp only [start_eq, next] at run
      by_cases done : e.xlatetof (.data n k) = true
      swap
      · simp [done] at run
      rw [if_pos done] at run
      obtain ⟨rest, more, same⟩ := Option.bind_eq_some_iff.mp run
      obtain rfl := Option.some.inj same
      rw [offset, bytes] at more
      have gap := gap_tiles (Nat.add_le_add_left low at_) (show at_ + up i.align off < word by omega)
      simp only [gt_iff_lt, Nat.add_lt_add_iff_left, Nat.add_sub_add_left] at gap
      obtain ⟨tail, sources⟩ := ih places few more
      rw [← Nat.add_assoc] at tail
      refine ⟨?_, ?_⟩
      · rw [List.map_append, List.map_cons, range, offset, bytes]
        exact gap.append ((Tiles.one (at_ + up i.align off) i.size).append tail)
      · rw [parts_append, gap_parts rfl, List.nil_append, part_cons (by simp), sources]
        rfl

def Packed (s : Elf_Scn) : Prop := ∃ items, s.s_nodes.map place = placed 0 0 items ∧ s.s_shdr.sh_size = finish 0 0 items

/-- The sections and the gaps before them are written once. A section without contents leaves its gap to the next. -/
theorem wrt_scns_tiles (places : (used t).map scnPlace = placed 0 x items) (le : hi ≤ x) (few : finish 0 x items < word)
    (packed : ∀ s ∈ used t, Packed s) (run : wrt_scns e n hi t = some (hi', ws)) :
    Tiles (ws.map range) hi hi' ∧ hi' ≤ finish 0 x items ∧ parts ws = scnWrites (t.zipIdx n) := by
  induction t generalizing items x hi n ws with
  | nil =>
    obtain ⟨rfl, rfl⟩ : hi = hi' ∧ [] = ws := by simpa [wrt_scns] using run
    exact ⟨.nil _, le.trans (le_finish ..), rfl⟩
  | cons s t ih =>
    unfold wrt_scns at run
    dsimp only at run
    rw [List.zipIdx_cons, scnWrites, List.flatMap_cons, ← scnWrites]
    have skipped : ¬ Filed s → (if Filed s then dataWrites s.s_shdr.sh_offset n s.s_nodes.zipIdx else []) ++ scnWrites (t.zipIdx (n + 1)) =
        scnWrites (t.zipIdx (n + 1)) := fun none_ => by rw [if_neg none_, List.nil_append]
    by_cases null : s.s_shdr.sh_type = SHT_NULL
    · rw [if_pos (.inr null)] at run
      rw [used, List.filter_cons_of_neg (by simp [null])] at places packed
      rw [skipped fun filed => filed.1 null]
      exact ih places le few packed run
    rw [used, List.filter_cons_of_pos (by simp [null])] at places packed
    cases items with
    | nil => simp [placed] at places
    | cons i items =>
      simp only [List.map_cons, placed, Nat.mod_zero, List.cons.injEq] at places
      obtain ⟨here, places⟩ := places
      have offset : s.s_shdr.sh_offset = up i.align x := congrArg Prod.fst here
      have bytes : (if s.s_shdr.sh_type = SHT_NOBITS then 0 else s.s_shdr.sh_size) = i.size := congrArg (fun q => q.2.size) here
      have low := le_up i.align x
      simp only [finish, Nat.mod_zero] at few ⊢
      have ends := le_finish (up i.align x + i.size) items
      have packed' : ∀ s ∈ used t, Packed s := fun s member => packed s (List.mem_cons_of_mem _ member)
      by_cases nobits : s.s_shdr.sh_type = SHT_NOBITS
      · rw [if_pos (.inl nobits)] at run
        rw [skipped fun filed => filed.2 nobits]
        exact ih places (by omega) few packed' run
      · rw [if_neg nobits] at bytes
        rw [if_neg (by simp [null, nobits])] at run
        obtain ⟨data, inner, more⟩ := Option.bind_eq_some_iff.mp run
        obtain ⟨⟨hi₁, rest⟩, others, same⟩ := Option.bind_eq_some_iff.mp more
        obtain ⟨rfl, rfl⟩ := Prod.mk.inj (Option.some.inj same)
        obtain ⟨buffers, laid, size⟩ := packed s (List.mem_cons_self ..)
        have next : size_t (s.s_shdr.sh_offset + s.s_shdr.sh_size) = up i.align x + i.size := by
          rw [offset, bytes]
          exact Nat.mod_eq_of_lt (Nat.lt_of_le_of_lt ends few)
        rw [next] at others
        obtain ⟨tail, last, later⟩ := ih places le_rfl few packed' others
        have gap := gap_tiles (show hi ≤ s.s_shdr.sh_offset by omega) (by omega)
        obtain ⟨inside, sources⟩ := wrt_data_tiles laid (show s.s_shdr.sh_offset + finish 0 0 buffers < word by rw [← size]; omega) inner
        rw [← size, Nat.add_zero, bytes, offset] at inside
        refine ⟨?_, last, ?_⟩
        · rw [offset] at gap
          rw [offset, List.map_append, List.map_append]
          exact (gap.append inside).append tail
        · rw [parts_append, parts_append, gap_parts rfl, List.nil_append, sources, later, if_pos (show Filed s from ⟨null, nobits⟩)]

theorem wrt_shdrs_tiles {first : Nat} (few : at_ + 40 * t.length < word) (index : at_ = first + 40 * n) (run : wrt_shdrs e 40 n at_ t = some ws) :
    Tiles (ws.map range) at_ (at_ + 40 * t.length) ∧ parts ws = shdrWrites first 40 (t.zipIdx n) := by
  induction t generalizing at_ n ws with
  | nil =>
    obtain rfl : [] = ws := by simpa [wrt_shdrs] using run
    exact ⟨.nil _, rfl⟩
  | cons s t ih =>
    rw [List.length_cons] at few ⊢
    unfold wrt_shdrs at run
    rw [show elf32_fsize ELF_T_SHDR 1 EV_CURRENT = 40 by decide] at run
    dsimp only at run
    by_cases done : e.xlatetof (.shdr n) = true ∧ 40 ≤ 40
    swap
    · rw [if_neg done] at run
      cases run
    rw [if_pos done, show size_t (at_ + 40) = at_ + 40 from Nat.mod_eq_of_lt (by unfold word at few; omega)] at run
    obtain ⟨rest, more, same⟩ := Option.bind_eq_some_iff.mp run
    obtain rfl := Option.some.inj same
    obtain ⟨tail, later⟩ := ih (by omega) (by rw [index]; ring) more
    rw [show at_ + 40 + 40 * t.length = at_ + 40 * (t.length + 1) by omega] at tail
    refine ⟨(Tiles.one at_ 40).append tail, ?_⟩
    rw [part_cons (by simp), later, index]
    rfl

theorem packed_scns (laid : List.Forall₂ Laid t t') (sections : ∀ s ∈ used t, scnSize 0 s < word) : ∀ s' ∈ used t', Packed s' := by
  intro s' member
  obtain ⟨s, found, -, size, -, places⟩ := related_right (laid_used laid) member
  obtain ⟨same, size'⟩ := exact_ (sections s found)
  exact ⟨_, places.trans same, size.trans size'⟩

theorem wrt_phdr_tiles {phdrs h : Nat} (built : Built t size eh t') (phnum : eh.e_phnum = phdrs) (few : phdrs < 2 ^ 16)
    (run : wrt_phdr e eh phdrs = some (h, ws)) : Tiles (ws.map range) 52 h ∧ h = start phdrs ∧ parts ws = phdrWrites eh := by
  have ehsize := built.ehsize
  have phoff := built.phoff
  have phentsize := built.phentsize
  rw [phnum] at phoff phentsize
  unfold wrt_phdr at run
  by_cases none_ : phdrs = 0
  · rw [if_neg (by simp [phnum, none_])] at run
    obtain ⟨rfl, rfl⟩ := Prod.mk.inj (Option.some.inj run)
    rw [ehsize, phdrWrites, if_pos (phnum.trans none_), none_]
    exact ⟨.nil 52, rfl, rfl⟩
  · rw [if_neg none_] at phoff phentsize
    rw [if_pos (by simp [phnum, none_]), phoff, phentsize, phnum, show elf32_fsize ELF_T_PHDR 1 EV_CURRENT = 32 by decide] at run
    have whole : size_t (52 + phdrs * 32) = start phdrs := by
      rw [Nat.mul_comm]
      exact Nat.mod_eq_of_lt (start_lt few)
    dsimp only at run
    by_cases done : e.xlatetof .phdrs = true ∧ 32 * phdrs ≤ phdrs * 32
    swap
    · simp [done] at run
    rw [if_pos done, whole] at run
    obtain ⟨rfl, rfl⟩ := Prod.mk.inj (Option.some.inj run)
    refine ⟨Tiles.one 52 (32 * phdrs), rfl, ?_⟩
    rw [part_cons (by simp), phdrWrites, if_neg (by rw [phnum]; exact none_), phoff, phentsize, phnum]
    rfl

theorem wrt_once {phdrs : Nat} (built : Built t size eh t') (phnum : eh.e_phnum = phdrs) (few_ph : phdrs < 2 ^ 16) (few : t.length < 2 ^ 16)
    (sections : ∀ s ∈ used t.tail, scnSize 0 s < word) (file : finish 0 (start phdrs) (fileItems 0 t) < word) (run : wrt e eh phdrs t' = some ws) :
    Tiles (ws.map range) 0 size ∧ parts ws = described eh t' := by
  obtain ⟨places, size_eq⟩ := packed built few
  have same := items_exact sections
  rw [phnum, same, (exact_ file).1] at places
  rw [phnum, same, (exact_ file).2] at size_eq
  unfold wrt at run
  by_cases fails : (!e.outmap) = true ∨ (!e.xlatetof .ehdr) = true
  · simp only [fails, if_true, reduceCtorEq] at run
  rw [if_neg fails] at run
  obtain ⟨⟨h, table⟩, first, run⟩ := Option.bind_eq_some_iff.mp run
  obtain ⟨⟨h', body⟩, middle, run⟩ := Option.bind_eq_some_iff.mp run
  obtain ⟨headers, last, run⟩ := Option.bind_eq_some_iff.mp run
  by_cases synced : e.outsync = true
  swap
  · simp [synced] at run
  rw [if_pos synced] at run
  obtain rfl := Option.some.inj run
  obtain ⟨head, rfl, tables⟩ := wrt_phdr_tiles built phnum few_ph first
  have header : Tiles [range ⟨0, eh.e_ehsize, .ehdr⟩] 0 52 := by
    rw [range, built.ehsize]
    exact Tiles.one 0 52
  have each := used_tail built.head ▸ packed_scns built.laid sections
  have shnum := built.shnum
  rw [fits_half few] at shnum
  by_cases none_ : t = []
  · obtain rfl : t' = [] := List.eq_nil_of_length_eq_zero (by rw [built.length, none_]; rfl)
    obtain ⟨rfl, rfl⟩ : start phdrs = h' ∧ [] = body := by simpa [wrt_scns] using middle
    obtain rfl : [] = headers := by simpa [wrt_shdrs] using last
    have shoff := built.last
    rw [shnum, none_, if_pos (by rfl)] at shoff
    rw [if_neg (by omega), List.append_nil, List.append_nil, List.append_nil, List.map_cons, size_eq, none_]
    refine ⟨header.append head, ?_⟩
    rw [part_cons (by simp), tables, described]
    simp [scnWrites, shdrWrites]
  · have some_ : eh.e_shnum ≠ 0 := by
      rw [shnum]
      simpa using none_
    have shentsize := built.shentsize
    rw [if_neg some_] at shentsize
    rw [fileItems, if_neg none_, if_neg none_, placed_append] at places
    rw [fileItems, if_neg none_, finish_append] at file size_eq
    obtain ⟨places, shoff⟩ := List.append_inj' places rfl
    have shoff : eh.e_shoff = up 4 (finish 0 (start phdrs) ((used t.tail).map (scnItem 0))) :=
      (congrArg Prod.fst (List.cons.inj shoff).1).symm.trans (Nat.mod_zero _)
    simp only [finish, Nat.mod_zero, ← shoff] at file size_eq
    have low := le_up 4 (finish 0 (start phdrs) ((used t.tail).map (scnItem 0)))
    rw [← shoff] at low
    obtain ⟨middle, last_le, contents⟩ := wrt_scns_tiles places.symm le_rfl (by omega) each middle
    have gap : Tiles ((if eh.e_shoff > h' then [⟨h', eh.e_shoff - h', .fill⟩] else ([] : List Write)).map range) h' eh.e_shoff := by
      split_ifs
      · have tiles := Tiles.one h' (eh.e_shoff - h')
        rw [Nat.add_sub_cancel' (last_le.trans low)] at tiles
        exact tiles
      · obtain same : eh.e_shoff = h' := by omega
        exact same ▸ Tiles.nil h'
    rw [shentsize] at last
    obtain ⟨headers, shdrs⟩ := wrt_shdrs_tiles (by rw [built.length]; exact file) (show eh.e_shoff = eh.e_shoff + 40 * 0 from rfl) last
    rw [built.length, ← size_eq] at headers
    refine ⟨?_, ?_⟩
    · rw [List.map_append, List.map_append, List.map_append, List.map_cons]
      exact (((header.append head).append middle).append gap).append headers
    · rw [parts_append, parts_append, parts_append, part_cons (by simp), gap_parts rfl, List.append_nil, tables, contents, shdrs, described, shentsize]

theorem Apart.of_le {q r : Nat × Nat} (le : q.1 + q.2 ≤ r.1) : Apart q r := by
  rintro b ⟨first, second⟩
  unfold Has at first second
  omega

theorem Apart.left {q r : Nat × Nat} (none_ : q.2 = 0) : Apart q r := by
  rintro b ⟨first, -⟩
  unfold Has at first
  omega

theorem Apart.right {q r : Nat × Nat} (none_ : r.2 = 0) : Apart q r := by
  rintro b ⟨-, second⟩
  unfold Has at second
  omega

structure Ordered (o : Output) (low high : Nat) : Prop where
  order : (used o.scns).Pairwise fun s r => s.s_shdr.sh_offset + (scnPlace s).2.size ≤ r.s_shdr.sh_offset
  inside : ∀ s ∈ used o.scns, low ≤ s.s_shdr.sh_offset ∧ s.s_shdr.sh_offset + (scnPlace s).2.size ≤ high
  aligned : ∀ s ∈ used o.scns, s.s_shdr.sh_addralign ∣ s.s_shdr.sh_offset

theorem ordered_of_placed (places : (used o.scns).map scnPlace = placed 0 x items) (positive : ∀ i ∈ items, 0 < i.align) :
    Ordered o x (finish 0 x items) := by
  have order := placed_ordered x items
  have inside := placed_inside x items
  have kept := placed_items 0 x items
  rw [← places] at order inside kept
  refine ⟨List.pairwise_map.mp order, fun s member => ?_, fun s member => ?_⟩
  · obtain ⟨low, high, -⟩ := inside _ (List.mem_map_of_mem member)
    exact ⟨low, high⟩
  · obtain ⟨-, -, divides⟩ := inside _ (List.mem_map_of_mem member)
    refine divides (positive _ ?_)
    rw [← kept]
    exact List.mem_map_of_mem (List.mem_map_of_mem member)

theorem filed_sublist (t : List Elf_Scn) : (t.filter fun s => Filed s).Sublist (used t) := by
  refine List.monotone_filter_right t fun s filed => ?_
  exact decide_eq_true (of_decide_eq_true filed).1

theorem filed_size (filed : Filed s) : (scnPlace s).2.size = s.s_shdr.sh_size := if_neg filed.2

theorem data_laid (packed : Packed s) :
    (∀ d ∈ s.s_nodes, max 1 d.db_data.d_align ∣ d.db_data.d_off) ∧ (s.s_nodes.map buffer).Pairwise Apart ∧
      ∀ d ∈ s.s_nodes, ∀ b, Has (buffer d) b → b < s.s_shdr.sh_size := by
  obtain ⟨items, places, size⟩ := packed
  have order := placed_ordered 0 items
  have inside := placed_inside 0 items
  rw [← places] at order inside
  refine ⟨fun d member => ?_, ?_, fun d member b has => ?_⟩
  · exact (inside _ (List.mem_map_of_mem member)).2.2 (lt_of_lt_of_le Nat.one_pos (le_max_left ..))
  · exact List.pairwise_map.mpr ((List.pairwise_map.mp order).imp fun le => Apart.of_le le)
  · have high : d.db_data.d_off + d.db_osz ≤ finish 0 0 items := (inside _ (List.mem_map_of_mem member)).2.1
    rw [size]
    exact Nat.lt_of_lt_of_le has.2 high

theorem laid_of_fits (built : Built elf.ed_scns o.size o.ehdr o.scns) (half : o.ehdr.e_phnum = Elf32_Half elf.phdrs) (fits : Fits elf)
    (once : Tiles (o.writes.map range) 0 o.size) (written : parts o.writes = described o.ehdr o.scns) : LaidOut elf o := by
  obtain ⟨few_ph, few_sh, exact_scns, file⟩ := fits
  have phnum := half.trans (fits_half few_ph)
  have shnum := built.shnum.trans (fits_half few_sh)
  have each := used_tail built.head ▸ packed_scns built.laid exact_scns
  obtain ⟨places, size⟩ := packed built few_sh
  have same := items_exact exact_scns
  rw [phnum, same, (exact_ file).1] at places
  rw [phnum, same, (exact_ file).2] at size
  have phsize : o.ehdr.e_phentsize * o.ehdr.e_phnum = 32 * elf.phdrs := by
    rw [built.phentsize, phnum]
    split_ifs with none_
    · rw [none_]
    · rfl
  have shsize : o.ehdr.e_shentsize * o.ehdr.e_shnum = 40 * elf.ed_scns.length := by
    rw [built.shentsize, shnum]
    split_ifs with none_
    · rw [none_]
    · rfl
  have phend : o.ehdr.e_phentsize * o.ehdr.e_phnum = 0 ∨ o.ehdr.e_phoff = 52 := by
    rw [built.phoff]
    split_ifs with none_
    · exact .inl (by rw [none_, Nat.mul_zero])
    · exact .inr rfl
  have positive : ∀ i ∈ (used elf.ed_scns.tail).map (scnItem 0), 0 < i.align := by
    intro i member
    obtain ⟨s, -, rfl⟩ := List.mem_map.mp member
    exact (scnAlign_bounds s).1
  -- The sections come behind the tables at the start, and their headers behind them.
  obtain ⟨F, ordered, start_le, last⟩ : ∃ F, Ordered o (start elf.phdrs) F ∧ start elf.phdrs ≤ F ∧
      (elf.ed_scns.length = 0 ∧ F = o.size ∨ F ≤ o.ehdr.e_shoff ∧ o.ehdr.e_shoff + 40 * elf.ed_scns.length = o.size) := by
    refine ⟨finish 0 (start elf.phdrs) ((used elf.ed_scns.tail).map (scnItem 0)), ?_, le_finish .., ?_⟩
    · refine ordered_of_placed ?_ positive
      rw [fileItems, placed_append] at places
      refine ((List.append_inj' places ?_).1).symm
      split_ifs <;> rfl
    · rw [fileItems, finish_append] at size
      rw [fileItems, placed_append] at places
      by_cases none_ : elf.ed_scns = []
      · rw [if_pos none_] at size
        exact .inl ⟨by rw [none_]; rfl, size.symm⟩
      · rw [if_neg none_] at size
        rw [if_neg none_, if_neg none_] at places
        have shoff := congrArg Prod.fst (List.cons.inj (List.append_inj' places rfl).2).1
        simp only [finish, Nat.mod_zero] at size shoff
        rw [shoff] at size
        exact .inr ⟨shoff ▸ le_up .., size.symm⟩
  have tables : start elf.phdrs = 52 + 32 * elf.phdrs := rfl
  refine ⟨?_, ?_, ordered.aligned, fun s member => (data_laid (each s member)).1, fun s member => (data_laid (each s member)).2, ?_, written,
    built.ehsize,
    ⟨phnum, phsize⟩, shnum, shsize⟩
  · have behind : ∀ r ∈ ((o.scns.filter fun s => Filed s).map fun s => (s.s_shdr.sh_offset, s.s_shdr.sh_size)) ++
        [(o.ehdr.e_shoff, o.ehdr.e_shentsize * o.ehdr.e_shnum)], start elf.phdrs ≤ r.1 ∨ r.2 = 0 := by
      intro r member
      rcases List.mem_append.mp member with member | member
      · obtain ⟨s, found, rfl⟩ := List.mem_map.mp member
        exact .inl (ordered.inside s ((filed_sublist o.scns).subset found)).1
      · obtain rfl := List.mem_singleton.mp member
        rcases last with ⟨none_, -⟩ | ⟨shoff, -⟩
        · exact .inr (shsize.trans (by rw [none_]))
        · exact .inl (start_le.trans shoff)
    refine .cons ?_ (.cons ?_ (List.pairwise_append.mpr ⟨?_, List.pairwise_singleton .., ?_⟩))
    · intro r member
      rcases List.mem_cons.mp member with rfl | member
      · rcases phend with none_ | phoff
        · exact .right none_
        · exact .of_le (by rw [built.ehsize]; exact phoff.ge)
      · rcases behind r member with le | none_
        · exact .of_le (by rw [built.ehsize]; dsimp only; omega)
        · exact .right none_
    · intro r member
      rcases phend with none_ | phoff
      · exact .left none_
      · rcases behind r member with le | none_
        · exact .of_le (by rw [phoff, phsize]; exact le)
        · exact .right none_
    · refine List.pairwise_map.mpr ((ordered.order.sublist (filed_sublist o.scns)).imp_of_mem ?_)
      rintro s r found - le
      rw [filed_size (of_decide_eq_true (List.mem_filter.mp found).2)] at le
      exact .of_le le
    · intro q member r member'
      obtain ⟨s, found, rfl⟩ := List.mem_map.mp member
      obtain rfl := List.mem_singleton.mp member'
      have ends := (ordered.inside s ((filed_sublist o.scns).subset found)).2
      rw [filed_size (of_decide_eq_true (List.mem_filter.mp found).2)] at ends
      rcases last with ⟨none_, -⟩ | ⟨shoff, -⟩
      · exact .right (shsize.trans (by rw [none_]))
      · exact .of_le (ends.trans shoff)
  · intro q member b has
    have high : F ≤ o.size := by
      rcases last with ⟨-, same⟩ | ⟨shoff, same⟩ <;> omega
    unfold Has at has
    rcases List.mem_cons.mp member with rfl | member
    · have := built.ehsize
      omega
    rcases List.mem_cons.mp member with rfl | member
    · dsimp only at has
      omega
    rcases List.mem_append.mp member with member | member
    · obtain ⟨s, found, rfl⟩ := List.mem_map.mp member
      have ends := (ordered.inside s ((filed_sublist o.scns).subset found)).2
      rw [filed_size (of_decide_eq_true (List.mem_filter.mp found).2)] at ends
      dsimp only at has
      omega
    · obtain rfl := List.mem_singleton.mp member
      dsimp only at has
      omega
  · intro b
    have covers := once.2 b
    rw [List.countP_map] at covers
    exact covers.trans (if_congr (and_iff_right (Nat.zero_le b)) rfl rfl)

theorem elf_update_done {encode : Nat} (run : elf_update e encode elf = some o) :
    Built elf.ed_scns o.size o.ehdr o.scns ∧ o.ehdr.e_phnum = Elf32_Half elf.phdrs ∧ wrt e o.ehdr elf.phdrs o.scns = some o.writes := by
  unfold elf_update at run
  by_cases refused : elf.coffaout = true ∨ (!elf.edf_write) = true
  · simp only [refused, if_true, reduceCtorEq] at run
  rw [if_neg refused] at run
  obtain ⟨eh, found, run⟩ := Option.bind_eq_some_iff.mp run
  have counted := elf.counted eh found
  by_cases newer : eh.e_version > EV_CURRENT
  · simp only [newer, if_true, reduceCtorEq] at run
  rw [if_neg newer] at run
  dsimp only at run
  generalize named : (if eh.e_version = 0 then { eh with e_version := EV_CURRENT } else eh) = eh₁ at run
  have version : eh₁.e_version = EV_CURRENT ∧ eh₁.e_phnum = eh.e_phnum := by
    rw [← named]
    split_ifs with zero
    · exact ⟨rfl, rfl⟩
    · exact ⟨Nat.le_antisymm (not_lt.mp newer) (Nat.pos_of_ne_zero zero), rfl⟩
  by_cases unknown : eh₁.ei_data = ELFDATANONE ∧ encode = ELFDATANONE
  · simp only [unknown, and_self, if_true, reduceCtorEq] at run
  rw [if_neg unknown] at run
  generalize encoded : (if eh₁.ei_data = ELFDATANONE then { eh₁ with ei_data := encode } else eh₁) = eh₂ at run
  have kept : eh₂.e_version = EV_CURRENT ∧ eh₂.e_phnum = Elf32_Half elf.phdrs := by
    rw [← encoded, ← counted]
    split_ifs <;> exact version
  obtain ⟨⟨size, eh', scns⟩, laid, run⟩ := Option.bind_eq_some_iff.mp run
  dsimp only at run
  by_cases empty : size = 0
  · simp only [empty, if_true, reduceCtorEq] at run
  rw [if_neg empty] at run
  obtain ⟨writes, written, same⟩ := Option.bind_eq_some_iff.mp run
  obtain rfl := Option.some.inj same
  obtain ⟨built, phnum⟩ := upd_lib_done kept.1 (kept.2 ▸ half_lt _) laid
  exact ⟨built, phnum.trans kept.2, written⟩

/-- `elf_update` lays a file out and writes each of its bytes once exactly when the counts and the sizes fit. -/
theorem update_lays_out {encode : Nat} (run : elf_update e encode elf = some o) : LaidOut elf o ↔ Fits elf := by
  obtain ⟨built, half, written⟩ := elf_update_done run
  refine ⟨fits_of_laid built half, fun fits => ?_⟩
  obtain ⟨once, parts⟩ := wrt_once built (half.trans (fits_half fits.phdrs)) fits.phdrs fits.shdrs fits.sections fits.file written
  exact laid_of_fits built half fits once parts

def blank : Elf32_Ehdr := ⟨0, 0, 0, 0, 0, 0, 0, 0, 0⟩

def calm : Outside := ⟨true, true, fun _ => true⟩

def bytes (size al : Nat) (size_lt : size < 2 ^ 32) (al_lt : al < 2 ^ 32) : Dnode := ⟨⟨ELF_T_BYTE, size, 0, al, size_lt, al_lt⟩, 0⟩

/-- Two buffers, the second aligned to 4 bytes, and a section without contents. -/
def twoSections : Elf :=
  { coffaout := false, edf_write := true, ed_ehdr := some blank, phdrs := 0
    ed_scns := [⟨sb_shdr, []⟩, ⟨⟨1, 0, 0, 0, 0⟩, [bytes 5 1 (by decide) (by decide), bytes 3 4 (by decide) (by decide)]⟩,
      ⟨⟨SHT_NOBITS, 0, 0, 0, 0⟩, [bytes 100 64 (by decide) (by decide)]⟩]
    counted := by
      rintro eh ⟨⟩
      rfl }

theorem update_lays_out_sections : ∃ o, elf_update calm 1 twoSections = some o ∧ LaidOut twoSections o := by
  have run : elf_update calm 1 twoSections = some ((elf_update calm 1 twoSections).get rfl) := (Option.some_get _).symm
  exact ⟨_, run, (update_lays_out run).mpr ⟨by decide, by decide, by decide, by decide⟩⟩

def manyHeaders : Elf :=
  elf32_newphdr { coffaout := false, edf_write := true, ed_ehdr := some blank, phdrs := 0, ed_scns := [], counted := by rintro eh ⟨⟩; rfl } 65536

/-- They are not in the file of 52 bytes that is said to be whole. -/
theorem headers_left_out : ∃ o, elf_update calm 1 manyHeaders = some o ∧ o.ret = 52 ∧ ¬LaidOut manyHeaders o := by
  have run : elf_update calm 1 manyHeaders = some ((elf_update calm 1 manyHeaders).get rfl) := (Option.some_get _).symm
  refine ⟨_, run, by decide, fun laid => ?_⟩
  have counted := (elf_update_done run).2.1.symm.trans laid.phdrs.1
  exact (half_lt manyHeaders.phdrs).ne counted

end Svr4.Proofs.ElfWritten
