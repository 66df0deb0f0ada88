import Svr4.Rmap
import Svr4.Library.Extents

/-! A resource map represents a set of free units. The table invariant carries
every in-place shift: the slots behind the entries are all zero, so the address
copied with the terminator is 0 as well. -/

namespace Svr4.Proofs.RmapFree
open Rmap Extents

def extent (slot : MapSlot) : Nat × Nat := (slot.mAddr, slot.mAddr + slot.mSize)

def freeSet (slots : List MapSlot) : Set Nat := cover (slots.map extent)

def blank : MapSlot := ⟨0, 0⟩

/-- Entries in ascending order and apart, then only zero slots, of which there
is always one more than `mapsize` counts. -/
structure Valid (capacity : Nat) (entries : List MapSlot) (mp : Map) : Prop where
  table : ∃ spare, mp.slots = entries ++ List.replicate (spare + 1) blank ∧ mp.mapsize ≤ spare
  capacity : entries.length + mp.mapsize = capacity
  separated : Separated (entries.map extent)
  bounded : ∀ e ∈ entries, e.mAddr + e.mSize ≤ 2 ^ 32
  positive : ∀ e ∈ entries, 0 < e.mAddr

@[simp] theorem freeSet_append (first second : List MapSlot) :
    freeSet (first ++ second) = freeSet first ∪ freeSet second := by simp [freeSet]

@[simp] theorem freeSet_cons (slot : MapSlot) (rest : List MapSlot) :
    freeSet (slot :: rest) = Set.Ico slot.mAddr (slot.mAddr + slot.mSize) ∪ freeSet rest := by
  simp [freeSet, extent]

@[simp] theorem freeSet_blanks (count : Nat) : freeSet (List.replicate count blank) = ∅ := by
  induction count with
  | zero => simp [freeSet]
  | succ count ih =>
    rw [List.replicate_succ, freeSet_cons, ih]
    simp [blank]

theorem Valid.freeSet_eq {capacity : Nat} {entries : List MapSlot} {mp : Map}
    (valid : Valid capacity entries mp) : freeSet mp.slots = freeSet entries := by
  obtain ⟨spare, slots, _⟩ := valid.table
  simp [slots]

theorem Valid.inhabited {capacity : Nat} {entries : List MapSlot} {mp : Map}
    (valid : Valid capacity entries mp) : ∀ e ∈ entries, 0 < e.mSize := by
  intro e member
  have := valid.separated.inhabited _ (List.mem_map_of_mem member)
  simp only [extent] at this
  omega

/-! ### The loops on a table of entries and zero slots -/

theorem shiftDown_eq (slot : MapSlot) (upper : List MapSlot) (spare : Nat)
    (inhabited : ∀ e ∈ upper, 0 < e.mSize) :
    shiftDown (slot :: (upper ++ List.replicate (spare + 1) blank)) =
      some (upper ++ List.replicate (spare + 2) blank) := by
  induction upper generalizing slot with
  | nil => simp [shiftDown, List.replicate_succ, blank]
  | cons next rest ih =>
    have positive : next.mSize ≠ 0 := (inhabited next (by simp)).ne'
    simp [shiftDown, positive, ih next (fun e member => inhabited e (by simp [member]))]

theorem compress_eq (slot : MapSlot) (upper : List MapSlot) (spare : Nat)
    (inhabited : ∀ e ∈ slot :: upper, 0 < e.mSize) :
    compress (slot :: (upper ++ List.replicate (spare + 1) blank)) =
      some (upper ++ List.replicate (spare + 2) blank) := by
  induction upper generalizing slot with
  | nil =>
    have positive : slot.mSize ≠ 0 := (inhabited slot (by simp)).ne'
    simp [compress, positive, List.replicate_succ, blank]
  | cons next rest ih =>
    have positive : slot.mSize ≠ 0 := (inhabited slot (by simp)).ne'
    rw [List.cons_append, compress, if_neg positive, ih next (fun e member => inhabited e (by simp [member]))]
    simp

theorem shiftUp_eq (size a : Nat) (upper : List MapSlot) (spare : Nat)
    (inhabited : ∀ e ∈ upper, 0 < e.mSize) :
    shiftUp size a (upper ++ List.replicate (spare + 1) blank) =
      some (⟨size, a⟩ :: (upper ++ List.replicate spare blank)) := by
  induction upper generalizing size a with
  | nil => simp [shiftUp, List.replicate_succ, blank]
  | cons next rest ih =>
    have positive : next.mSize ≠ 0 := (inhabited next (by simp)).ne'
    simp [shiftUp, positive, ih next.mSize next.mAddr (fun e member => inhabited e (by simp [member]))]

theorem seek_eq (a spare : Nat) (entries : List MapSlot) (inhabited : ∀ e ∈ entries, 0 < e.mSize) :
    ∃ lower upper, entries = lower ++ upper ∧
      seek a (entries ++ List.replicate (spare + 1) blank) =
        some (lower, upper ++ List.replicate (spare + 1) blank) ∧
      (∀ e ∈ lower, e.mAddr ≤ a) ∧ ∀ f ∈ upper.head?, a < f.mAddr := by
  induction entries with
  | nil => exact ⟨[], [], rfl, by simp [seek, List.replicate_succ, blank], by simp, by simp⟩
  | cons e rest ih =>
    have positive : e.mSize ≠ 0 := (inhabited e (by simp)).ne'
    by_cases below : e.mAddr ≤ a
    · obtain ⟨lower, upper, rfl, found, low, high⟩ := ih (fun e member => inhabited e (by simp [member]))
      exact ⟨e :: lower, upper, rfl, by simpa [seek, below, positive] using found, by simpa [below] using low, high⟩
    · exact ⟨[], e :: rest, rfl, by simp [seek, below], by simp, by simpa using below⟩

theorem firstFit_eq (size spare : Nat) (entries : List MapSlot) (positive : 0 < size)
    (inhabited : ∀ e ∈ entries, 0 < e.mSize) (bounded : ∀ e ∈ entries, e.mAddr + e.mSize ≤ 2 ^ 32) :
    ((∀ e ∈ entries, e.mSize < size) ∧
      firstFit size (entries ++ List.replicate (spare + 1) blank) = some .absent) ∨
    ∃ lower e upper, entries = lower ++ e :: upper ∧ (∀ d ∈ lower, d.mSize < size) ∧ size ≤ e.mSize ∧
      firstFit size (entries ++ List.replicate (spare + 1) blank) = some
        (if e.mSize = size then .taken e.mAddr true (lower ++ upper ++ List.replicate (spare + 2) blank)
         else .taken e.mAddr false
          (lower ++ ⟨e.mSize - size, e.mAddr + size⟩ :: upper ++ List.replicate (spare + 1) blank)) := by
  induction entries with
  | nil => exact .inl ⟨by simp, by simp [firstFit, List.replicate_succ, blank]⟩
  | cons e rest ih =>
    have here : e.mSize ≠ 0 := (inhabited e (by simp)).ne'
    have above : ∀ f ∈ rest, 0 < f.mSize := fun f member => inhabited f (by simp [member])
    have bound : e.mAddr + e.mSize ≤ 2 ^ 32 := bounded e (by simp)
    by_cases fits : size ≤ e.mSize
    · refine .inr ⟨[], e, rest, rfl, by simp, fits, ?_⟩
      by_cases exact_ : e.mSize = size
      · simp [firstFit, exact_, positive.ne', shiftDown_eq _ rest spare above]
      · have left : e.mSize - size ≠ 0 := by omega
        have small : ulong (e.mAddr + size) = e.mAddr + size := Nat.mod_eq_of_lt (by omega)
        simp [firstFit, here, fits, left, small, exact_]
    · rcases ih above (fun f member => bounded f (by simp [member])) with ⟨short, absent⟩ |
        ⟨lower, f, upper, rfl, short, large, taken⟩
      · refine .inl ⟨by simpa using ⟨by omega, short⟩, ?_⟩
        simp [firstFit, here, fits, absent, Fit.behind]
      · refine .inr ⟨e :: lower, f, upper, rfl, by simpa using ⟨by omega, short⟩, large, ?_⟩
        rw [List.cons_append, firstFit, if_neg here, if_neg fits, taken]
        split <;> simp [Fit.behind]

/-! ### One call -/

variable {capacity : Nat} {entries : List MapSlot} {mp : Map}

theorem initial (count : Nat) (room : 2 ≤ count) : Valid (count - 2) [] (mapinit count) := by
  refine ⟨⟨count - 2, ?_, le_rfl⟩, by simp [mapinit], .nil, by simp, by simp⟩
  simp only [mapinit, List.nil_append, blank]
  congr 1
  omega

theorem rmalloc_spec (valid : Valid capacity entries mp) (small : capacity + 1 < 2 ^ 32) (size : Nat) :
    (rmalloc mp size = some (0, mp) ∧ (size = 0 ∨ ∀ e ∈ entries, e.mSize < size)) ∨
    ∃ lower e upper mp' entries', entries = lower ++ e :: upper ∧ 0 < size ∧ size ≤ e.mSize ∧
      (∀ d ∈ lower, d.mSize < size) ∧ rmalloc mp size = some (e.mAddr, mp') ∧
      mp'.slots.length = mp.slots.length ∧ Valid capacity entries' mp' ∧
      freeSet entries' = freeSet entries \ Set.Ico e.mAddr (e.mAddr + size) := by
  obtain ⟨spare, slots, fits⟩ := valid.table
  by_cases none_ : size = 0
  · exact .inl ⟨by simp [rmalloc, none_], .inl none_⟩
  have count := valid.capacity
  rcases firstFit_eq size spare entries (by omega) valid.inhabited valid.bounded with ⟨short, absent⟩ |
    ⟨lower, e, upper, rfl, short, large, taken⟩
  · exact .inl ⟨by simp [rmalloc, none_, slots, absent], .inr short⟩
  have separated := valid.separated
  have bounded := valid.bounded
  have positive := valid.positive
  simp only [List.map_append, List.map_cons] at separated
  simp only [List.mem_append, List.mem_cons] at bounded positive
  simp only [List.length_append, List.length_cons] at count
  rw [← slots] at taken
  right
  by_cases exact_ : e.mSize = size
  · refine ⟨lower, e, upper, ⟨mp.mapsize + 1, mp.mapwant, lower ++ upper ++ List.replicate (spare + 2) blank⟩,
      lower ++ upper, rfl, by omega, large, short, ?_, ?_, ?_, ?_⟩
    · have grow : ulong (mp.mapsize + 1) = mp.mapsize + 1 := Nat.mod_eq_of_lt (by omega)
      simp [rmalloc, none_, taken, exact_, grow]
    · simp [slots]
      omega
    · refine ⟨⟨spare + 1, rfl, by simpa using fits⟩, by simp; omega, ?_, ?_, ?_⟩
      · simpa using separated.remove
      · intro d member
        exact bounded d ((List.mem_append.mp member).imp_right .inr)
      · intro d member
        exact positive d ((List.mem_append.mp member).imp_right .inr)
    · subst exact_
      simpa [freeSet, extent] using separated.cover_remove
  · refine ⟨lower, e, upper, ⟨mp.mapsize, mp.mapwant,
        lower ++ ⟨e.mSize - size, e.mAddr + size⟩ :: upper ++ List.replicate (spare + 1) blank⟩,
      lower ++ ⟨e.mSize - size, e.mAddr + size⟩ :: upper, rfl, by omega, large, short, ?_, ?_, ?_, ?_⟩
    · simp [rmalloc, none_, taken, exact_]
    · simp [slots]
    · have stop : e.mAddr + size + (e.mSize - size) = e.mAddr + e.mSize := by omega
      refine ⟨⟨spare, rfl, fits⟩, by simpa using count, ?_, ?_, ?_⟩
      · obtain ⟨below, here, above, low, high, between⟩ := Separated.middle_iff.mp separated
        simp only [List.map_append, List.map_cons]
        refine Separated.middle_iff.mpr ⟨below, ?_, above, ?_, ?_, between⟩
        · simp only [extent]
          omega
        · intro d member
          have := low d member
          simp only [extent] at this ⊢
          omega
        · simpa only [extent, stop] using high
      · simp only [List.mem_append, List.mem_cons]
        rintro d (member | rfl | member)
        · exact bounded d (.inl member)
        · simpa only [stop] using bounded e (.inr (.inl rfl))
        · exact bounded d (.inr (.inr member))
      · simp only [List.mem_append, List.mem_cons]
        rintro d (member | rfl | member)
        · exact positive d (.inl member)
        · exact Nat.add_pos_left (positive e (.inr (.inl rfl))) size
        · exact positive d (.inr (.inr member))
    · have cut := separated.cover_cut (e.mAddr + size) (by simp [extent]) (by simp only [extent]; omega)
      have stop : e.mAddr + size + (e.mSize - size) = e.mAddr + e.mSize := by omega
      simpa [freeSet, extent, stop] using cut

theorem freed_between {lower upper : List MapSlot} {size a : Nat}
    (separated : Separated ((lower ++ upper).map extent)) (some_ : 0 < size)
    (outside : Disjoint (Set.Ico a (a + size)) (freeSet (lower ++ upper)))
    (low : ∀ e ∈ lower, e.mAddr ≤ a) (high : ∀ f ∈ upper.head?, a < f.mAddr) :
    (∀ e ∈ lower, e.mAddr + e.mSize ≤ a) ∧ ∀ f ∈ upper, a + size ≤ f.mAddr := by
  have apart : ∀ e ∈ lower ++ upper, ∀ x, a ≤ x → x < a + size → ¬ (e.mAddr ≤ x ∧ x < e.mAddr + e.mSize) := by
    intro e member x first last inside
    have disjoint := disjoint_cover_iff.mp outside _ (List.mem_map_of_mem (f := extent) member)
    exact Set.disjoint_left.mp disjoint ⟨first, last⟩ inside
  constructor
  · intro e member
    have := apart e (by simp [member]) a le_rfl (by omega)
    have := low e member
    omega
  · intro f member
    have above : a < f.mAddr := by
      cases upper with
      | nil => simp at member
      | cons u rest =>
        have first := high u (by simp)
        rcases List.mem_cons.mp member with rfl | later
        · exact first
        · have order := (Separated.middle_iff.mp (by simpa using separated)).2.2.2.2.1 (extent f)
            (List.mem_map_of_mem later)
          simp only [extent] at order
          omega
    have inhabited := separated.inhabited _ (List.mem_map_of_mem (f := extent) (List.mem_append_right lower member))
    simp only [extent] at inhabited
    have := apart f (by simp [member]) f.mAddr
    omega

theorem leftNeighbour_eq {lower : List MapSlot} {a : Nat} (small : a < 2 ^ 32)
    (low : ∀ e ∈ lower, e.mAddr + e.mSize ≤ a) :
    (leftNeighbour a lower = none ∧ ∀ e ∈ lower.getLast?, e.mAddr + e.mSize < a) ∨
    ∃ rest prev, lower = rest ++ [prev] ∧ leftNeighbour a lower = some (rest, prev) ∧ prev.mAddr + prev.mSize = a := by
  rcases List.eq_nil_or_concat' lower with rfl | ⟨rest, prev, rfl⟩
  · exact .inl ⟨rfl, by simp⟩
  · have stop := low prev (by simp)
    have wrap : ulong (prev.mAddr + prev.mSize) = prev.mAddr + prev.mSize := Nat.mod_eq_of_lt (by omega)
    by_cases touches : prev.mAddr + prev.mSize = a
    · have unwrapped : ulong a = a := Nat.mod_eq_of_lt small
      exact .inr ⟨rest, prev, rfl, by simp [leftNeighbour, touches, unwrapped], touches⟩
    · exact .inl ⟨by simp [leftNeighbour, wrap, touches], by simp; omega⟩

theorem Valid.placed (valid : Valid capacity entries mp) {lower upper : List MapSlot} {slot : MapSlot} {mp' : Map}
    {spare : Nat} (kept : (lower ++ upper).Sublist entries) (inhabited : 0 < slot.mSize)
    (low : ∀ d ∈ lower, d.mAddr + d.mSize < slot.mAddr) (high : ∀ f ∈ upper, slot.mAddr + slot.mSize < f.mAddr)
    (positive : 0 < slot.mAddr) (bounded : slot.mAddr + slot.mSize ≤ 2 ^ 32)
    (slots : mp'.slots = lower ++ slot :: upper ++ List.replicate (spare + 1) blank) (fits : mp'.mapsize ≤ spare)
    (count : lower.length + upper.length + 1 + mp'.mapsize = capacity) :
    Valid capacity (lower ++ slot :: upper) mp' := by
  have apart := valid.separated.sublist (kept.map extent)
  simp only [List.map_append] at apart
  have members : ∀ d, d ∈ lower ∨ d ∈ upper → d ∈ entries := fun d member =>
    kept.subset (List.mem_append.mpr member)
  refine ⟨⟨spare, slots, fits⟩, by simp only [List.length_append, List.length_cons]; omega, ?_, ?_, ?_⟩
  · simp only [List.map_append, List.map_cons]
    apply apart.insert
    · simp only [extent]
      omega
    · simpa [extent] using low
    · simpa [extent] using high
  all_goals
    intro d member
    rcases List.mem_append.mp member with member | member
    · first | exact valid.bounded d (members d (.inl member)) | exact valid.positive d (members d (.inl member))
    · rcases List.mem_cons.mp member with rfl | member
      · assumption
      · first | exact valid.bounded d (members d (.inr member)) | exact valid.positive d (members d (.inr member))

def Isolated (entries : List MapSlot) (size a : Nat) : Prop :=
  ∀ e ∈ entries, e.mAddr + e.mSize ≠ a ∧ e.mAddr ≠ a + size

def Frees (capacity : Nat) (entries : List MapSlot) (mp : Map) (size a : Nat) : Prop :=
  ∃ mp' entries', rmfree mp size a = some mp' ∧ mp'.slots.length = mp.slots.length ∧
    Valid capacity entries' mp' ∧ freeSet entries' = freeSet entries ∪ Set.Ico a (a + size)

theorem Valid.around {lower upper : List MapSlot} {e : MapSlot} (valid : Valid capacity (lower ++ e :: upper) mp) :
    (∀ d ∈ lower, d.mAddr + d.mSize < e.mAddr) ∧ ∀ f ∈ upper, e.mAddr + e.mSize < f.mAddr := by
  have separated := valid.separated
  simp only [List.map_append, List.map_cons] at separated
  obtain ⟨_, _, _, low, high, _⟩ := Separated.middle_iff.mp separated
  exact ⟨fun d member => low _ (List.mem_map_of_mem member), fun f member => high _ (List.mem_map_of_mem member)⟩

structure AtBp (capacity : Nat) (mp : Map) (size a spare : Nat) (lower upper : List MapSlot) : Prop where
  valid : Valid capacity (lower ++ upper) mp
  small : capacity + 1 < 2 ^ 32
  slots : mp.slots = lower ++ upper ++ List.replicate (spare + 1) blank
  fits : mp.mapsize ≤ spare
  found : seek a mp.slots = some (lower, upper ++ List.replicate (spare + 1) blank)
  some_ : 0 < size
  positive : 0 < a
  bound : a + size ≤ 2 ^ 32
  below : ∀ e ∈ lower, e.mAddr + e.mSize ≤ a
  above : ∀ f ∈ upper, a + size ≤ f.mAddr

namespace AtBp
variable {size a spare : Nat} {lower upper : List MapSlot} {prev next : MapSlot}

theorem unwrapped (at_ : AtBp capacity mp size a spare lower (next :: upper)) : ulong (a + size) = a + size := by
  have := at_.above next (by simp)
  have := at_.valid.inhabited next (by simp)
  have := at_.valid.bounded next (by simp)
  exact Nat.mod_eq_of_lt (by omega)

theorem apart (at_ : AtBp capacity mp size a spare lower upper)
    (right : ∀ u ∈ upper.head?, u.mAddr ≠ a + size) : ∀ f ∈ upper, a + size < f.mAddr := by
  cases upper with
  | nil => simp
  | cons u us =>
    have near := at_.above u (by simp)
    have distinct := right u (by simp)
    have order := at_.valid.around.2
    intro f member
    rcases List.mem_cons.mp member with rfl | member
    · omega
    · have := order f member
      omega

theorem unmerged (at_ : AtBp capacity mp size a spare lower upper)
    (right : ∀ u ∈ upper.head?, u.mAddr ≠ a + size) :
    ∃ bp, (upper ++ List.replicate (spare + 1) blank).head? = some bp ∧
      ¬ (bp.mAddr ≠ 0 ∧ ulong (a + size) = bp.mAddr) ∧ ¬ (ulong (a + size) = bp.mAddr ∧ bp.mSize ≠ 0) := by
  cases upper with
  | nil => exact ⟨blank, by simp [List.replicate_succ], by simp [blank]⟩
  | cons u us =>
    have distinct := right u (by simp)
    have unwrapped := at_.unwrapped
    exact ⟨u, by simp, by omega, by omega⟩

theorem joins_both (at_ : AtBp capacity mp size a spare (lower ++ [prev]) (next :: upper))
    (left : leftNeighbour a (lower ++ [prev]) = some (lower, prev))
    (touches : prev.mAddr + prev.mSize = a) (meets : a + size = next.mAddr) :
    Frees capacity (lower ++ [prev] ++ next :: upper) mp size a := by
  have valid := at_.valid
  have bound := at_.bound
  have wrap := at_.unwrapped
  have count := valid.capacity
  have here := valid.inhabited next (by simp)
  have limit := valid.bounded next (by simp)
  have prior := valid.inhabited prev (by simp)
  have start := valid.positive prev (by simp)
  have distinct : next.mAddr ≠ 0 := (valid.positive next (by simp)).ne'
  have small := at_.small
  simp only [List.length_append, List.length_cons, List.length_nil] at count
  have grown : ulong (prev.mSize + size) = prev.mSize + size := Nat.mod_eq_of_lt (by omega)
  have total : ulong (prev.mSize + size + next.mSize) = prev.mSize + size + next.mSize := Nat.mod_eq_of_lt (by omega)
  have grow : ulong (mp.mapsize + 1) = mp.mapsize + 1 := Nat.mod_eq_of_lt (by omega)
  have copied := compress_eq next upper spare (fun e member => valid.inhabited e (by simp [List.mem_cons.mp member]))
  refine ⟨⟨mp.mapsize + 1, 0, lower ++ ⟨prev.mSize + size + next.mSize, prev.mAddr⟩ :: upper ++
      List.replicate (spare + 2) blank⟩,
    lower ++ ⟨prev.mSize + size + next.mSize, prev.mAddr⟩ :: upper, ?_, ?_, ?_, ?_⟩
  · rw [meets] at wrap
    simp [rmfree, at_.some_.ne', at_.found, left, wrap, meets, distinct, copied, grown, total, grow, wakeup]
  · simp [at_.slots]
    omega
  · have later := valid.around.2
    rw [List.append_assoc] at valid
    refine valid.placed (by simp) (by simp only []; omega) valid.around.1 ?_ start (by simp only []; omega) rfl
      (by simpa using at_.fits) (by simp only []; omega)
    intro f member
    have := later f member
    simp only []
    omega
  · have first : Set.Ico prev.mAddr next.mAddr =
        Set.Ico prev.mAddr (prev.mAddr + prev.mSize) ∪ Set.Ico a (a + size) := by
      rw [touches, meets, Set.Ico_union_Ico_eq_Ico (by omega) (by omega)]
    have wide : Set.Ico prev.mAddr (prev.mAddr + (prev.mSize + size + next.mSize)) =
        Set.Ico prev.mAddr next.mAddr ∪ Set.Ico next.mAddr (next.mAddr + next.mSize) := by
      rw [Set.Ico_union_Ico_eq_Ico (by omega) (by omega)]
      congr 1
      omega
    rw [List.append_assoc]
    simp only [freeSet_append, freeSet_cons, List.singleton_append, wide, first]
    ext x
    simp only [Set.mem_union]
    tauto

theorem joins_left (at_ : AtBp capacity mp size a spare (lower ++ [prev]) upper)
    (left : leftNeighbour a (lower ++ [prev]) = some (lower, prev))
    (touches : prev.mAddr + prev.mSize = a) (right : ∀ u ∈ upper.head?, u.mAddr ≠ a + size) :
    Frees capacity (lower ++ [prev] ++ upper) mp size a := by
  have valid := at_.valid
  have bound := at_.bound
  have count := valid.capacity
  have prior := valid.inhabited prev (by simp)
  have start := valid.positive prev (by simp)
  obtain ⟨bp, head, unmerged, _⟩ := at_.unmerged right
  simp only [List.length_append, List.length_cons, List.length_nil] at count
  have grown : ulong (prev.mSize + size) = prev.mSize + size := Nat.mod_eq_of_lt (by omega)
  refine ⟨⟨mp.mapsize, 0, lower ++ ⟨prev.mSize + size, prev.mAddr⟩ :: upper ++ List.replicate (spare + 1) blank⟩,
    lower ++ ⟨prev.mSize + size, prev.mAddr⟩ :: upper, ?_, by simp [at_.slots], ?_, ?_⟩
  · simp [rmfree, at_.some_.ne', at_.found, left, head, unmerged, grown, wakeup]
  · have apart := at_.apart right
    rw [List.append_assoc] at valid
    refine valid.placed (by simp) (by simp only []; omega) valid.around.1 ?_ start (by simp only []; omega) rfl
      at_.fits (by simp only []; omega)
    intro f member
    have := apart f member
    simp only []
    omega
  · have join : Set.Ico prev.mAddr (prev.mAddr + (prev.mSize + size)) =
        Set.Ico prev.mAddr (prev.mAddr + prev.mSize) ∪ Set.Ico a (a + size) := by
      rw [touches, Set.Ico_union_Ico_eq_Ico (by omega) (by omega)]
      congr 1
      omega
    rw [List.append_assoc]
    simp only [freeSet_append, freeSet_cons, List.singleton_append, join]
    ext x
    simp only [Set.mem_union]
    tauto

theorem joins_right (at_ : AtBp capacity mp size a spare lower (next :: upper))
    (left : leftNeighbour a lower = none) (gap : ∀ d ∈ lower, d.mAddr + d.mSize < a)
    (meets : a + size = next.mAddr) : Frees capacity (lower ++ next :: upper) mp size a := by
  have valid := at_.valid
  have bound := at_.bound
  have wrap := at_.unwrapped
  have count := valid.capacity
  have positive := at_.positive
  have here := valid.inhabited next (by simp)
  have limit := valid.bounded next (by simp)
  simp only [List.length_append, List.length_cons] at count
  have grown : ulong (next.mSize + size) = next.mSize + size := Nat.mod_eq_of_lt (by omega)
  have start : ulong (next.mAddr + 2 ^ 32 - size) = a := by
    have : next.mAddr + 2 ^ 32 - size = a + 2 ^ 32 := by omega
    rw [this, ulong, Nat.add_mod_right, Nat.mod_eq_of_lt (by omega)]
  refine ⟨⟨mp.mapsize, 0, lower ++ ⟨next.mSize + size, a⟩ :: upper ++ List.replicate (spare + 1) blank⟩,
    lower ++ ⟨next.mSize + size, a⟩ :: upper, ?_, by simp [at_.slots], ?_, ?_⟩
  · rw [meets] at wrap
    simp only [rmfree, at_.some_.ne', ite_false, at_.found, left, Option.bind_eq_bind, Option.bind_some,
      List.cons_append, List.head?_cons, meets, wrap, here.ne', ne_eq, not_false_eq_true, and_self, ite_true,
      grown, start, List.tail_cons, wakeup, List.append_assoc]
  · refine valid.placed (by simp) (by simp only []; omega) gap ?_ positive (by simp only []; omega) rfl at_.fits
      (by simp only []; omega)
    intro f member
    have := valid.around.2 f member
    simp only []
    omega
  · have join : Set.Ico a (a + (next.mSize + size)) =
        Set.Ico a (a + size) ∪ Set.Ico next.mAddr (next.mAddr + next.mSize) := by
      rw [meets, Set.Ico_union_Ico_eq_Ico (by omega) (by omega)]
      congr 1
      omega
    simp only [freeSet_append, freeSet_cons, join]
    ext x
    simp only [Set.mem_union]
    tauto

theorem inserts (at_ : AtBp capacity mp size a spare lower upper)
    (left : leftNeighbour a lower = none) (gap : ∀ d ∈ lower, d.mAddr + d.mSize < a)
    (right : ∀ u ∈ upper.head?, u.mAddr ≠ a + size) (room : mp.mapsize ≠ 0) :
    Frees capacity (lower ++ upper) mp size a := by
  have valid := at_.valid
  have count := valid.capacity
  have fits := at_.fits
  obtain ⟨bp, head, _, here⟩ := at_.unmerged right
  simp only [List.length_append] at count
  obtain ⟨less, rfl⟩ : ∃ n, spare = n + 1 := ⟨spare - 1, by omega⟩
  have shifted := shiftUp_eq size a upper (less + 1) (fun e member => valid.inhabited e (by simp [member]))
  refine ⟨⟨mp.mapsize - 1, 0, lower ++ ⟨size, a⟩ :: upper ++ List.replicate (less + 1) blank⟩,
    lower ++ ⟨size, a⟩ :: upper, ?_, ?_, ?_, ?_⟩
  · simp [rmfree, at_.some_.ne', at_.found, left, head, here, room, shifted, wakeup]
  · simp [at_.slots]
    omega
  · exact valid.placed (by simp) at_.some_ gap (at_.apart right) at_.positive at_.bound rfl (by simp only []; omega)
      (by simp only []; omega)
  · simp only [freeSet_append, freeSet_cons]
    ext x
    simp only [Set.mem_union]
    tauto

end AtBp

theorem rmfree_spec (valid : Valid capacity entries mp) (small : capacity + 1 < 2 ^ 32) (size a : Nat)
    (positive : 0 < a) (bound : a + size ≤ 2 ^ 32)
    (outside : Disjoint (Set.Ico a (a + size)) (freeSet entries)) :
    (rmfree mp size a = some mp ∧ (size = 0 ∨ mp.mapsize = 0 ∧ Isolated entries size a)) ∨
    (0 < size ∧ (mp.mapsize = 0 → ¬ Isolated entries size a) ∧ Frees capacity entries mp size a) := by
  by_cases none_ : size = 0
  · exact .inl ⟨by simp [rmfree, none_], .inl none_⟩
  have some_ : 0 < size := Nat.pos_of_ne_zero none_
  obtain ⟨spare, slots, fits⟩ := valid.table
  obtain ⟨lower, upper, rfl, found, low, high⟩ := seek_eq a spare entries valid.inhabited
  rw [← slots] at found
  obtain ⟨below, above⟩ := freed_between valid.separated some_ outside low high
  have at_ : AtBp capacity mp size a spare lower upper :=
    ⟨valid, small, slots, fits, found, some_, positive, bound, below, above⟩
  rcases leftNeighbour_eq (by omega) below with ⟨absent, last⟩ | ⟨rest, prev, rfl, left, touches⟩
  · have gap : ∀ d ∈ lower, d.mAddr + d.mSize < a := by
      rcases List.eq_nil_or_concat' lower with rfl | ⟨rest, prev, rfl⟩
      · simp
      · have near := last prev (by simp)
        have order := (List.append_assoc rest [prev] upper ▸ valid).around.1
        intro d member
        rcases List.mem_append.mp member with member | member
        · have := order d member
          omega
        · rwa [List.mem_singleton.mp member]
    by_cases right : ∃ u ∈ upper.head?, u.mAddr = a + size
    · obtain ⟨next, head, meets⟩ := right
      obtain ⟨us, rfl⟩ := List.head?_eq_some_iff.mp head
      exact .inr ⟨some_, fun _ isolated => (isolated next (by simp)).2 meets, at_.joins_right absent gap meets.symm⟩
    have right : ∀ u ∈ upper.head?, u.mAddr ≠ a + size := fun u head meets => right ⟨u, head, meets⟩
    by_cases full : mp.mapsize = 0
    · obtain ⟨bp, head, _, here⟩ := at_.unmerged right
      refine .inl ⟨by simp [rmfree, none_, found, absent, head, here, full], .inr ⟨full, ?_⟩⟩
      intro e member
      have inhabited := valid.inhabited e member
      rcases List.mem_append.mp member with member | member
      · have := gap e member
        omega
      · have := at_.apart right e member
        omega
    · exact .inr ⟨some_, fun zero => absurd zero full, at_.inserts absent gap right full⟩
  · refine .inr ⟨some_, fun _ isolated => (isolated prev (by simp)).1 touches, ?_⟩
    by_cases right : ∃ u ∈ upper.head?, u.mAddr = a + size
    · obtain ⟨next, head, meets⟩ := right
      obtain ⟨us, rfl⟩ := List.head?_eq_some_iff.mp head
      exact at_.joins_both left touches meets.symm
    · exact at_.joins_left left touches (fun u head meets => right ⟨u, head, meets⟩)

end Svr4.Proofs.RmapFree

/-! Resource maps over any history of calls. Units are numbered from 1, as every
caller in the kernel numbers them: the address 0 is what a failed `rmalloc`
returns. -/

namespace Svr4.Proofs.RmapHistory
open Rmap RmapFree

/-- A map of `count` slots after any calls. A freed range may have been handed
out before or be new to the map, but no unit of it is free. -/
inductive Reachable (count : Nat) : Map → Prop
  | start : Reachable count (mapinit count)
  | rmalloc {mp mp' : Map} {size a : Nat} (before : Reachable count mp)
      (call : rmalloc mp size = some (a, mp')) : Reachable count mp'
  | rmfree {mp mp' : Map} {size a : Nat} (before : Reachable count mp) (positive : 0 < a)
      (bound : a + size ≤ 2 ^ 32) (outside : Disjoint (Set.Ico a (a + size)) (freeSet mp.slots))
      (call : rmfree mp size a = some mp') : Reachable count mp'
  | want {mp : Map} (flag : Nat) (before : Reachable count mp) : Reachable count { mp with mapwant := flag }

theorem Reachable.valid {count : Nat} {mp : Map} (reached : Reachable count mp) (room : 2 ≤ count)
    (small : count ≤ 2 ^ 32) : ∃ entries, Valid (count - 2) entries mp ∧ mp.slots.length = count - 1 := by
  induction reached with
  | start => exact ⟨[], initial count room, by simp [mapinit]⟩
  | @rmalloc mp mp' size a _ call ih =>
    obtain ⟨entries, valid, length⟩ := ih
    rcases rmalloc_spec valid (by omega) size with ⟨same, _⟩ | ⟨_, _, _, after, entries', _, _, _, _, taken, kept, valid', _⟩
    · rw [same] at call
      cases call
      exact ⟨entries, valid, length⟩
    · rw [taken] at call
      cases call
      exact ⟨entries', valid', kept.trans length⟩
  | @rmfree mp mp' size a _ positive bound outside call ih =>
    obtain ⟨entries, valid, length⟩ := ih
    rw [valid.freeSet_eq] at outside
    rcases rmfree_spec valid (by omega) size a positive bound outside with ⟨same, _⟩ |
      ⟨_, _, after, entries', freed, kept, valid', _⟩
    · rw [same] at call
      cases call
      exact ⟨entries, valid, length⟩
    · rw [freed] at call
      cases call
      exact ⟨entries', valid', kept.trans length⟩
  | want flag _ ih =>
    obtain ⟨entries, valid, length⟩ := ih
    exact ⟨entries, ⟨valid.table, valid.capacity, valid.separated, valid.bounded, valid.positive⟩, length⟩

/-- The table invariant holds after every history, and each call changes the
represented set exactly as it should. -/
theorem rmap_calls_exact (count : Nat) (room : 2 ≤ count) (small : count ≤ 2 ^ 32) (mp : Map)
    (reached : Reachable count mp) :
    ∃ entries, Valid (count - 2) entries mp ∧ mp.slots.length = count - 1 ∧
      (∀ size, ∃ a mp', rmalloc mp size = some (a, mp') ∧ mp'.slots.length = mp.slots.length ∧
        (a = 0 → mp' = mp ∧ (size = 0 ∨ ∀ e ∈ entries, e.mSize < size)) ∧
        (a ≠ 0 → Set.Ico a (a + size) ⊆ freeSet mp.slots ∧
          freeSet mp'.slots = freeSet mp.slots \ Set.Ico a (a + size))) ∧
      ∀ size a, 0 < a → a + size ≤ 2 ^ 32 → Disjoint (Set.Ico a (a + size)) (freeSet mp.slots) →
        ∃ mp', rmfree mp size a = some mp' ∧ mp'.slots.length = mp.slots.length ∧
          (size ≠ 0 → mp.mapsize = 0 → Isolated entries size a → mp' = mp) ∧
          (¬ (mp.mapsize = 0 ∧ Isolated entries size a) →
            freeSet mp'.slots = freeSet mp.slots ∪ Set.Ico a (a + size)) := by
  obtain ⟨entries, valid, length⟩ := reached.valid room small
  refine ⟨entries, valid, length, ?_, ?_⟩
  · intro size
    rcases rmalloc_spec valid (by omega) size with ⟨same, short⟩ |
      ⟨lower, e, upper, mp', entries', rfl, some_, large, _, taken, kept, valid', removed⟩
    · exact ⟨0, mp, same, rfl, fun _ => ⟨rfl, short⟩, fun nonzero => absurd rfl nonzero⟩
    · have start := valid.positive e (by simp)
      refine ⟨e.mAddr, mp', taken, kept, fun zero => by omega, fun _ => ⟨?_, ?_⟩⟩
      · rw [valid.freeSet_eq]
        simp only [freeSet_append, freeSet_cons]
        intro x inside
        exact .inr (.inl ⟨inside.1, by have := inside.2; omega⟩)
      · rw [valid'.freeSet_eq, valid.freeSet_eq, removed]
  · intro size a positive bound outside
    rw [valid.freeSet_eq] at outside
    rcases rmfree_spec valid (by omega) size a positive bound outside with ⟨same, why⟩ |
      ⟨some_, open_, mp', entries', freed, kept, valid', added⟩
    · refine ⟨mp, same, rfl, fun _ _ _ => rfl, fun roomy => ?_⟩
      rcases why with rfl | full
      · simp
      · exact absurd full roomy
    · exact ⟨mp', freed, kept, fun _ zero isolated => absurd isolated (open_ zero),
        fun _ => by rw [valid'.freeSet_eq, valid.freeSet_eq, added]⟩

/-- The theorem at a map of four slots with eight units freed at 1. -/
theorem rmap_calls_exact_four : ∃ entries, Valid 2 entries ⟨1, 0, [⟨8, 1⟩, ⟨0, 0⟩, ⟨0, 0⟩]⟩ := by
  have reached : Reachable 4 ⟨1, 0, [⟨8, 1⟩, ⟨0, 0⟩, ⟨0, 0⟩]⟩ := by
    have outside : Disjoint (Set.Ico 1 (1 + 8)) (freeSet (mapinit 4).slots) := by
      rw [(initial 4 (by decide)).freeSet_eq]
      simp [freeSet]
    have freed : rmfree (mapinit 4) 8 1 = some ⟨1, 0, [⟨8, 1⟩, ⟨0, 0⟩, ⟨0, 0⟩]⟩ := by decide
    exact .rmfree .start (by decide) (by decide) outside freed
  obtain ⟨entries, valid, _⟩ := rmap_calls_exact 4 (by decide) (by decide) _ reached
  exact ⟨entries, valid⟩

/-- A range that starts at address 0 defeats the failure value: the entry of four
units is found and handed out, and `rmalloc` returns 0. -/
theorem rmalloc_at_zero :
    Disjoint (Set.Ico 0 (0 + 4)) (freeSet (mapinit 4).slots) ∧
    rmfree (mapinit 4) 4 0 = some ⟨1, 0, [⟨4, 0⟩, ⟨0, 0⟩, ⟨0, 0⟩]⟩ ∧
    rmalloc ⟨1, 0, [⟨4, 0⟩, ⟨0, 0⟩, ⟨0, 0⟩]⟩ 4 = some (0, mapinit 4) := by
  refine ⟨?_, by decide, by decide⟩
  rw [(initial 4 (by decide)).freeSet_eq]
  simp [freeSet]

end Svr4.Proofs.RmapHistory
