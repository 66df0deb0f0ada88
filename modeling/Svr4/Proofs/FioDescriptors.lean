import Svr4.Fio

/-! `ufalloc` gives the least descriptor that is not in use. -/

namespace Svr4.Proofs.FioDescriptors
open Function Fio

def Wf (u : User) : Prop := u.nofiles = u.flist.length * NFPCHUNK

def ofile (u : User) (fd : Nat) : Option Nat := u.flist[fd / NFPCHUNK]?.bind fun chunk => chunk.ofile (fd % NFPCHUNK)

def pofile (u : User) (fd : Nat) : Option Nat := u.flist[fd / NFPCHUNK]?.map fun chunk => chunk.pofile (fd % NFPCHUNK)

variable {u u' : User} {rlim start i fd left count k more : Nat} {kmem : Nat → Bool} {chunk : Ufchunk}

theorem div_lt (wf : Wf u) : i / NFPCHUNK < u.flist.length ↔ i < u.nofiles := by
  rw [wf, Nat.div_lt_iff_lt_mul (by decide)]

theorem ofile_beyond (wf : Wf u) (beyond : u.nofiles ≤ fd) : ofile u fd = none := by
  have outside : u.flist.length ≤ fd / NFPCHUNK := by
    have := @div_lt u fd wf
    omega
  rw [ofile, List.getElem?_eq_none outside]
  rfl

theorem ofile_some (there : u.flist[fd / NFPCHUNK]? = some chunk) : ofile u fd = chunk.ofile (fd % NFPCHUNK) := by
  rw [ofile, there]
  rfl

def taken (u : User) (fd : Nat) (chunk : Ufchunk) : User :=
  { u with rval1 := fd, flist := u.flist.set (fd / NFPCHUNK) { chunk with pofile := update chunk.pofile (fd % NFPCHUNK) 0 } }

theorem taken_ofile (there : u.flist[fd / NFPCHUNK]? = some chunk) (j : Nat) : ofile (taken u fd chunk) j = ofile u j := by
  unfold ofile taken
  by_cases same : fd / NFPCHUNK = j / NFPCHUNK
  · obtain ⟨inside, -⟩ := List.getElem?_eq_some_iff.mp there
    rw [← same, List.getElem?_set_self inside, there]
    rfl
  · rw [List.getElem?_set_ne same]

theorem taken_pofile (there : u.flist[fd / NFPCHUNK]? = some chunk) (j : Nat) :
    pofile (taken u fd chunk) j = if j = fd then some 0 else pofile u j := by
  unfold pofile taken
  by_cases same : fd / NFPCHUNK = j / NFPCHUNK
  · obtain ⟨inside, -⟩ := List.getElem?_eq_some_iff.mp there
    rw [← same, List.getElem?_set_self inside, there]
    by_cases slot : j = fd
    · rw [if_pos slot, slot]
      exact congrArg some (update_self ..)
    · have other : j % NFPCHUNK ≠ fd % NFPCHUNK := by
        have first := Nat.div_add_mod j NFPCHUNK
        have second := Nat.div_add_mod fd NFPCHUNK
        rw [same] at second
        omega
      rw [if_neg slot]
      exact congrArg some (update_of_ne other ..)
  · have other : j ≠ fd := fun is => same (is ▸ rfl)
    rw [List.getElem?_set_ne same, if_neg other]

theorem search_spec (rlim : Nat) (wf : Wf u) (left i count : Nat) (all : i + left = u.nofiles) (near : count = i / NFPCHUNK ∨ count + 1 = i / NFPCHUNK) :
    (search rlim u left i count count = some (u, none) ∧ ∀ j, i ≤ j → j < u.nofiles → ofile u j ≠ none) ∨
    (search rlim u left i count count = some (u, some (.error .EMFILE)) ∧ ∀ j, i ≤ j → j < rlim → ofile u j ≠ none) ∨
    ∃ fd chunk, u.flist[fd / NFPCHUNK]? = some chunk ∧ search rlim u left i count count = some (taken u fd chunk, some (.ok fd)) ∧
      i ≤ fd ∧ fd < rlim ∧ ofile u fd = none ∧ ∀ j, i ≤ j → j < fd → ofile u j ≠ none := by
  induction left generalizing i count with
  | zero => exact .inl ⟨rfl, fun j low high => by omega⟩
  | succ left ih =>
    unfold search
    by_cases above : i ≥ rlim
    · rw [if_pos above]
      exact .inr (.inl ⟨rfl, fun j low high => by omega⟩)
    rw [if_neg above]
    have place : (if i / NFPCHUNK > count then (i / NFPCHUNK, count + 1) else (count, count)) = (i / NFPCHUNK, i / NFPCHUNK) := by
      rcases near with same | next
      · rw [if_neg (by omega), same]
      · rw [if_pos (by omega), next]
    rw [place]
    dsimp only
    obtain ⟨chunk, there⟩ : ∃ chunk, u.flist[i / NFPCHUNK]? = some chunk :=
      ⟨_, List.getElem?_eq_getElem ((div_lt wf).mpr (by omega))⟩
    rw [there]
    dsimp only
    by_cases empty : chunk.ofile (i % NFPCHUNK) = none
    · rw [if_pos empty]
      exact .inr (.inr ⟨i, chunk, there, rfl, le_rfl, by omega, (ofile_some there).trans empty, fun j low high => by omega⟩)
    rw [if_neg empty]
    have used : ofile u i ≠ none := by rwa [ofile_some there]
    have first : ∀ j, i ≤ j → i + 1 ≤ j ∨ j = i := by omega
    have next : i / NFPCHUNK = (i + 1) / NFPCHUNK ∨ i / NFPCHUNK + 1 = (i + 1) / NFPCHUNK := by
      unfold NFPCHUNK
      omega
    rcases ih (i + 1) (i / NFPCHUNK) (by omega) next with ⟨same, full⟩ | ⟨same, full⟩ | ⟨fd, chunk', there', same, low, below, free, least⟩
    · refine .inl ⟨same, fun j low high => ?_⟩
      rcases first j low with later | rfl
      · exact full j later high
      · exact used
    · refine .inr (.inl ⟨same, fun j low high => ?_⟩)
      rcases first j low with later | rfl
      · exact full j later high
      · exact used
    · refine .inr (.inr ⟨fd, chunk', there', same, by omega, below, free, fun j low high => ?_⟩)
      rcases first j low with later | rfl
      · exact least j later high
      · exact used

structure Grows (u u' : User) : Prop where
  wf : Wf u'
  more : u.nofiles ≤ u'.nofiles
  same : ∀ fd, ofile u' fd = ofile u fd
  flags : ∀ fd < u.nofiles, pofile u' fd = pofile u fd
  clear : ∀ fd, u.nofiles ≤ fd → fd < u'.nofiles → pofile u' fd = some 0

theorem Grows.refl (wf : Wf u) : Grows u u := ⟨wf, le_rfl, fun _ => rfl, fun _ _ => rfl, fun fd low high => by omega⟩

def grown (u : User) : User := { u with flist := u.flist ++ [zeroed], nofiles := u.nofiles + NFPCHUNK }

theorem grown_chunk (u : User) (n : Nat) :
    (grown u).flist[n]? = if n < u.flist.length then u.flist[n]? else if n = u.flist.length then some zeroed else none := by
  unfold grown
  dsimp only
  rw [List.getElem?_append]
  split
  · rfl
  · split
    · next last => rw [last, Nat.sub_self]; rfl
    · exact List.getElem?_eq_none (by simp; omega)

theorem grown_wf (wf : Wf u) : Wf (grown u) := by
  unfold Wf grown
  rw [List.length_append, wf]
  exact (Nat.succ_mul ..).symm

theorem Grows.next (grows : Grows u u') : Grows u (grown u') := by
  obtain ⟨wf, more, same, flags, clear⟩ := grows
  have bound := @div_lt u'
  refine ⟨grown_wf wf, Nat.le_add_right_of_le more, fun fd => ?_, fun fd below => ?_, fun fd low high => ?_⟩
  · rw [← same fd, ofile, ofile, grown_chunk]
    split
    · rfl
    · next outside =>
      rw [List.getElem?_eq_none (Nat.le_of_not_lt outside)]
      split <;> rfl
  · rw [← flags fd below, pofile, pofile, grown_chunk, if_pos ((bound wf).mpr (by omega))]
  · by_cases old : fd < u'.nofiles
    · rw [← clear fd low old, pofile, pofile, grown_chunk, if_pos ((bound wf).mpr old)]
    · have top : (grown u').nofiles = u'.nofiles + NFPCHUNK := rfl
      have chunk : fd / NFPCHUNK = u'.flist.length := by
        unfold Wf at wf
        rw [Nat.div_eq_iff (by decide)]
        unfold NFPCHUNK at *
        omega
      rw [pofile, grown_chunk, if_neg (by omega), if_pos chunk]
      rfl

theorem Grows.rval (grows : Grows u u') (r : Nat) : Grows u { u' with rval1 := r } :=
  ⟨grows.wf, grows.more, grows.same, grows.flags, grows.clear⟩

theorem addChunks_spec (grows : Grows u u') (more k : Nat) : Grows u (addChunks kmem more k u').1 ∧
    ((addChunks kmem more k u').2 = true → (addChunks kmem more k u').1.nofiles = u'.nofiles + (more + 1) * NFPCHUNK) := by
  induction more generalizing k u' with
  | zero =>
    unfold addChunks
    split
    · exact ⟨grows.next, fun _ => by rw [Nat.zero_add, Nat.one_mul]⟩
    · exact ⟨grows, fun done => Bool.noConfusion done⟩
  | succ more ih =>
    unfold addChunks
    split
    · obtain ⟨first, count⟩ := ih grows.next (k + 1)
      refine ⟨first, fun done => (count done).trans ?_⟩
      rw [Nat.succ_mul (more + 1), ← Nat.add_assoc, Nat.add_right_comm]
      rfl
    · exact ⟨grows, fun done => Bool.noConfusion done⟩

structure Allocates (u : User) (rlim start : Nat) (u' : User) (r : Except Errno Nat) : Prop where
  wf : Wf u'
  more : u.nofiles ≤ u'.nofiles
  same : ∀ fd, ofile u' fd = ofile u fd
  flags : ∀ fd < u.nofiles, r ≠ .ok fd → pofile u' fd = pofile u fd
  least : ∀ fd, r = .ok fd → start ≤ fd ∧ ofile u fd = none ∧ (∀ j, start ≤ j → j < fd → ofile u j ≠ none) ∧
    fd < rlim ∧ fd < u'.nofiles ∧ pofile u' fd = some 0
  full : r = .error .EMFILE ↔ ∀ fd, start ≤ fd → fd < rlim → ofile u fd ≠ none
  bad : r ≠ .error .EBADF

theorem Allocates.fail (grows : Grows u u') (free : u.nofiles < rlim) (low : start < rlim) (wf : Wf u) :
    Allocates u rlim start u' (.error .ENOMEM) := by
  refine ⟨grows.wf, grows.more, grows.same, fun fd below _ => grows.flags fd below, (fun fd is => by cases is), ?_, (fun is => by cases is)⟩
  refine ⟨(fun is => by cases is), fun full => ?_⟩
  exact absurd (ofile_beyond wf (Nat.le_max_left u.nofiles start)) (full _ (Nat.le_max_right ..) (Nat.max_lt.mpr ⟨free, low⟩))

theorem Allocates.limit (wf : Wf u) (used : ∀ fd, start ≤ fd → fd < rlim → ofile u fd ≠ none) : Allocates u rlim start u (.error .EMFILE) :=
  ⟨wf, le_rfl, fun _ => rfl, fun _ _ _ => rfl, (fun fd is => by cases is), ⟨fun _ => used, fun _ => rfl⟩, (fun is => by cases is)⟩

theorem Allocates.done (grows : Grows u u') (wf : Wf u) (low : start ≤ fd) (beyond : u.nofiles ≤ fd) (below : fd < rlim) (inside : fd < u'.nofiles)
    (used : ∀ j, start ≤ j → j < fd → ofile u j ≠ none) : Allocates u rlim start u' (.ok fd) := by
  refine ⟨grows.wf, grows.more, grows.same, fun j old _ => grows.flags j old, fun j is => ?_, ?_, (fun is => by cases is)⟩
  · cases is
    exact ⟨low, ofile_beyond wf beyond, used, below, inside, grows.clear fd beyond inside⟩
  · exact ⟨(fun is => by cases is), fun full => absurd (ofile_beyond wf beyond) (full fd low below)⟩

theorem lengthen_spec (wf : Wf u) (low : start < rlim) (used : ∀ j, start ≤ j → j < u.nofiles → ofile u j ≠ none) :
    Allocates u rlim start (lengthen kmem rlim start u).1 (lengthen kmem rlim start u).2 := by
  have grows := Grows.refl wf
  unfold lengthen
  by_cases all : u.nofiles ≥ rlim
  · rw [if_pos all]
    exact .limit wf fun fd from_ below => used fd from_ (by omega)
  rw [if_neg all]
  by_cases zero : start = 0
  · rw [if_pos zero]
    split
    · refine .done (grows.next.rval u.nofiles) wf (by omega) le_rfl (by omega) ?_ used
      exact Nat.lt_add_of_pos_right (by decide)
    · exact .fail grows (by omega) low wf
  rw [if_neg zero]
  dsimp only
  obtain ⟨after, count⟩ := @addChunks_spec u u kmem grows (((start / NFPCHUNK + 1 : Nat) : Int) - (u.nofiles / NFPCHUNK : Nat) - 1).toNat 0
  generalize addChunks kmem (((start / NFPCHUNK + 1 : Nat) : Int) - (u.nofiles / NFPCHUNK : Nat) - 1).toNat 0 u = result at after count ⊢
  obtain ⟨u', done⟩ := result
  cases done with
  | false => exact .fail after (by omega) low wf
  | true =>
    have size := count rfl
    dsimp only at size after ⊢
    by_cases inside : start < u.nofiles
    · rw [if_pos inside]
      refine .done (after.rval u.nofiles) wf (by omega) le_rfl (by omega) ?_ used
      rw [Nat.succ_mul] at size
      unfold NFPCHUNK at size
      dsimp only
      omega
    · rw [if_neg inside]
      refine .done (after.rval start) wf le_rfl (by omega) low ?_ (fun j from_ below => by omega)
      -- the chunks reach as far as the slot `start`
      unfold Wf at wf
      rw [wf] at size inside
      rw [Nat.mul_div_cancel _ (by decide)] at size
      dsimp only
      unfold NFPCHUNK at *
      omega

/-- `ufalloc` does not step along a null link, and gives the least descriptor. -/
theorem ufalloc_least (kmem : Nat → Bool) (rlim start : Nat) (u : User) (wf : Wf u) :
    ∃ u' r, ufalloc kmem rlim start u = some (u', r) ∧ Allocates u rlim start u' r := by
  unfold ufalloc
  by_cases inside : start < u.nofiles
  · rw [if_pos inside]
    rcases search_spec rlim wf (u.nofiles - start) start (start / NFPCHUNK) (by omega) (.inl rfl) with
      ⟨same, used⟩ | ⟨same, used⟩ | ⟨fd, chunk, there, same, low, below, free, least⟩
    · rw [same]
      by_cases low : start < rlim
      · exact ⟨_, _, rfl, lengthen_spec wf low used⟩
      · have stop : lengthen kmem rlim start u = (u, .error .EMFILE) := if_pos (by omega)
        dsimp only
        rw [stop]
        exact ⟨u, _, rfl, .limit wf fun fd from_ below => by omega⟩
    · rw [same]
      exact ⟨u, _, rfl, .limit wf used⟩
    · rw [same]
      obtain ⟨inside, -⟩ := List.getElem?_eq_some_iff.mp there
      refine ⟨_, _, rfl, ?_, le_rfl, taken_ofile there, fun j _ other => ?_, fun j is => ?_, ?_, (fun is => by cases is)⟩
      · unfold Wf taken
        rw [List.length_set]
        exact wf
      · rw [taken_pofile there, if_neg fun same => other (congrArg Except.ok same.symm)]
      · cases is
        exact ⟨low, free, least, below, (div_lt wf).mp inside, by rw [taken_pofile there, if_pos rfl]⟩
      · exact ⟨(fun is => by cases is), fun full => absurd free (full fd low below)⟩
  · rw [if_neg inside]
    by_cases low : start ≥ rlim
    · rw [if_pos low]
      exact ⟨u, _, rfl, .limit wf fun fd from_ below => by omega⟩
    · rw [if_neg low]
      exact ⟨_, _, rfl, lengthen_spec wf (by omega) fun j from_ below => by omega⟩

/-- A table of one chunk with the first three slots in use. -/
def opened : User := ⟨[⟨fun i => if i < 3 then some i else none, fun _ => 2⟩], 24, 0⟩

theorem ufalloc_least_three : ∃ u' r, ufalloc (fun _ => true) 60 1 opened = some (u', r) ∧ Allocates opened 60 1 u' r :=
  ufalloc_least (fun _ => true) 60 1 opened rfl

end Svr4.Proofs.FioDescriptors
