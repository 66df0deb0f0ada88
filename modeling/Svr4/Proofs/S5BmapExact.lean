import Svr4.Proofs.S5BmapCall

/-! What `bmap` promises, for every way in which its reads may fail, and when it keeps it. -/

namespace Svr4.Proofs.S5BmapExact
open Function Library S5Alloc S5Bmap S5FreeList S5BmapTree S5BmapCall

def held (v : S5vfs) (s : S5Bmap.State) (lbn : Nat) : Int :=
  s.ip.iMap.elim (mapping v s lbn) fun map => if lbn < nblks v s.ip.iSize then map lbn else 0

/-- The free blocks `F` become `G`: those that are missing on the way to `lbn`, or some of them, are put into their places,
and no other pointer changes. -/
structure Written (v : S5vfs) (s : S5Bmap.State) (F : Finset Int) (lbn : Nat) (t : S5Bmap.State) (G : Finset Int) : Prop where
  wellFormed : WellFormed v t G
  fewer : G ⊆ F
  accounted : ∀ b ∈ F, b ∈ G ∨ (tree v t).Reaches depth b
  taken : ∀ b, b ∈ F ∧ b ∉ G ↔
    b ≠ 0 ∧ ∃ r is js, place v lbn = some (r, is) ∧ js <+: is ∧ (tree v s).node r js = 0 ∧ (tree v t).node r js = b
  kept : ∀ r js, js.length ≤ depth r → (tree v s).node r js ≠ 0 → (tree v t).node r js = (tree v s).node r js
  others : ∀ l, l ≠ lbn → mapping v t l = mapping v s l

/-- A call that reads changes nothing and finds the block, or a hole. One that writes leaves no block lost, and if it
succeeds the index has the block that is returned: the one that it had, or a new one, with no block missing above it. -/
structure Correct (v : S5vfs) (f : Failures) (s : S5Bmap.State) (F : Finset Int) (lbn : Nat) (rw : SegRw) (o : Outcome) : Prop where
  reads : rw ≠ .S_WRITE → o.2 = s ∧ (∀ b ra, o.1 = .ok (b, ra) → b = ahead (held v s lbn)) ∧
    ∀ e, o.1 = .error e → place v lbn = none ∨ ∃ k, f.bread k = true
  writes : rw = .S_WRITE → ∃ G, Written v s F lbn o.2 G ∧
    ∀ b ra, o.1 = .ok (b, ra) → b ≠ 0 ∧ mapping v o.2 lbn = b ∧ (mapping v s lbn ≠ 0 → b = mapping v s lbn ∧ G = F)
  next : ∀ b ra, o.1 = .ok (b, ra) → ra ≠ S5_HOLE → mapping v o.2 (lbn + 1) = ra

variable {v : S5vfs} {f : Failures} {rw : SegRw} {allocOnly : Bool} {s t : S5Bmap.State} {F G : Finset Int} {lbn k bn : Nat}
  {b nb inb : Int} {r : Fin NADDR} {is js rest : List (Fin v.vfsNindir)} {i : Fin v.vfsNindir} {o : Outcome}

theorem written_of (wellFormed : WellFormed v s F) (extends_ : Extends v s F lbn t G) : Written v s F lbn t G where
  wellFormed := extends_.wellFormed
  fewer := extends_.fewer
  accounted := extends_.accounted
  kept := extends_.kept
  others _ other := extends_.mapping_other other
  taken b := by
    constructor
    · rintro ⟨member, absent⟩
      have some_ : b ≠ 0 := wellFormed.stands.nonzero member
      obtain ⟨r, js, short, rfl⟩ := (extends_.accounted b member).resolve_left absent
      have zero : (tree v s).node r js = 0 := by
        by_contra old
        exact wellFormed.used _ member ⟨r, js, short, (extends_.kept r js short old).symm⟩
      obtain ⟨_, is, found, onWay⟩ := extends_.new r js short zero some_
      exact ⟨some_, r, is, js, found, onWay, zero, rfl⟩
    · rintro ⟨some_, r, is, js, found, onWay, zero, rfl⟩
      have short : js.length ≤ depth r := place_length found ▸ onWay.length_le
      exact ⟨(extends_.new r js short zero some_).1, fun free => extends_.wellFormed.used _ free ⟨r, js, short, rfl⟩⟩

theorem Written.same (written : Written v s F lbn t G) (some_ : mapping v s lbn ≠ 0) : G = F := by
  refine written.fewer.antisymm fun b member => ?_
  by_contra absent
  obtain ⟨_, r, is, js, found, onWay, zero, _⟩ := (written.taken b).mp ⟨member, absent⟩
  rw [mapping, found] at some_
  obtain ⟨rest, rfl⟩ := onWay
  exact PointerTree.node_above some_ zero

theorem settles_writes (wellFormed : WellFormed v s F) (settles : Settles v s F lbn o) : Correct v f s F lbn .S_WRITE o where
  reads writes := absurd rfl writes
  writes _ := by
    obtain ⟨⟨G, extends_⟩, answers⟩ := settles
    have written := written_of wellFormed extends_
    refine ⟨G, written, fun b ra ok => ?_⟩
    obtain ⟨some_, found, _⟩ := answers b ra ok
    exact ⟨some_, found, fun old => ⟨found.symm.trans (extends_.mapping_kept old), written.same old⟩⟩
  next b ra ok answer := (settles.2 b ra ok).2.2 answer

theorem lost_wrong (lost : Lost v F o.2) : ¬Correct v f s F lbn .S_WRITE o := by
  intro correct
  obtain ⟨G, written, _⟩ := correct.writes rfl
  obtain ⟨H, stands, b, member, absent, unreached⟩ := lost
  rcases written.accounted b member with free | reached
  · rw [S5FreeList.Stands.unique written.wellFormed.stands stands] at free
    exact absent free
  · exact unreached reached

def Reads (v : S5vfs) (f : Failures) (s : S5Bmap.State) (lbn : Nat) (o : Outcome) : Prop :=
  o.2 = s ∧ (∀ b ra, o.1 = .ok (b, ra) → b = ahead (mapping v s lbn) ∧ (ra ≠ S5_HOLE → mapping v s (lbn + 1) = ra)) ∧
    ∀ e, o.1 = .error e → place v lbn = none ∨ ∃ k, f.bread k = true

theorem answers_reads (some_ : nb ≠ 0) {ra : Int} (answers : Answers v lbn (.ok (nb, ra), s)) : Reads v f s lbn (.ok (nb, ra), s) := by
  refine ⟨rfl, ?_, fun _ wrong => by cases wrong⟩
  rintro b ra' ok
  cases ok
  obtain ⟨_, found, next⟩ := answers nb ra rfl
  have same : mapping v s lbn = nb := found
  exact ⟨by rw [same, ahead, if_neg some_], next⟩

theorem error_reads {e : Errno} (why : place v lbn = none ∨ ∃ k, f.bread k = true) : Reads v f s lbn (.error e, s) :=
  ⟨rfl, fun _ _ ok => (by cases ok), fun _ _ => why⟩

theorem hole_reads (zero : mapping v s lbn = 0) : Reads v f s lbn (hole s) := by
  refine ⟨rfl, ?_, fun _ wrong => by cases wrong⟩
  rintro b ra ok
  cases ok
  exact ⟨by rw [zero]; rfl, fun answer => absurd rfl answer⟩

theorem fetch_reads (reading : rw ≠ .S_WRITE) (found : place v lbn = some (r, js ++ rest)) (digits : rest = way v rest.length bn)
    (at_ : (tree v s).node r js = inb) (some_ : inb ≠ 0) (more : rest ≠ []) :
    Reads v f s lbn (fetch v f rw allocOnly bn rest.length inb s) := by
  induction rest generalizing js inb with
  | nil => exact absurd rfl more
  | cons i rest ih =>
    rw [List.length_cons, way, List.cons.injEq] at digits
    obtain ⟨first, digits⟩ := digits
    have index : (bn >>> (v.vfsNshift * rest.length)) &&& v.vfsNmask = i := by rw [index_eq, first]
    have node : (tree v s).node r (js ++ [i]) = word (s.fs.fblk inb) i := node_below at_ some_
    rw [List.length_cons]
    unfold fetch
    cases bread : f.bread rest.length with
    | true => exact error_reads (.inr ⟨_, bread⟩)
    | false =>
      simp only [Bool.false_eq_true, if_false, index]
      by_cases zero : word (s.fs.fblk inb) i = 0
      · rw [if_pos ⟨zero, reading⟩]
        refine hole_reads ?_
        have under := PointerTree.node_under (node.trans zero) rest
        rw [List.append_assoc, List.singleton_append] at under
        rw [mapping, found]
        exact under
      · rw [if_neg fun both => zero both.1, if_neg zero]
        cases rest with
        | nil => exact answers_reads zero (found_answers found at_ some_ node zero)
        | cons j rest => exact ih (by rwa [List.append_assoc]) digits node zero (by simp)

theorem lbmap_reads (reading : rw ≠ .S_WRITE) : Reads v f s lbn (lbmap v f lbn rw allocOnly s) := by
  unfold lbmap
  dsimp only
  by_cases small : lbn < 10
  · have val : (slot lbn).val = lbn := slot_val (by omega)
    have same : mapping v s lbn = s.ip.iAddr lbn := by
      rw [mapping, place_direct small]
      exact congrArg s.ip.iAddr val
    rw [if_pos (show lbn < NADDR - 3 from small)]
    unfold direct
    by_cases zero : s.ip.iAddr lbn = 0
    · rw [if_neg (not_not.mpr zero), if_pos reading]
      exact hole_reads (same.trans zero)
    · rw [if_pos zero]
      exact answers_reads zero (direct_found small (congrArg s.ip.iAddr val) zero)
  rw [if_neg (show ¬lbn < NADDR - 3 from small)]
  rcases level_place small with ⟨none_, nowhere⟩ | ⟨j, bn, at_, levels, r, slot_, found⟩
  · rw [none_]
    exact error_reads (.inl nowhere)
  · rw [at_]
    dsimp only
    unfold indirect
    rw [← slot_]
    have length := way_length v (4 - j) bn
    by_cases zero : s.ip.iAddr r = 0
    · rw [if_neg (not_not.mpr zero), if_pos reading]
      refine hole_reads ?_
      rw [mapping, found]
      have root : (tree v s).node r [] = 0 := zero
      exact PointerTree.node_under root _
    · rw [if_pos zero]
      have reads : Reads v f s lbn (fetch v f rw (onlyBlocks s allocOnly) bn (way v (4 - j) bn).length (s.ip.iAddr r) s) :=
        fetch_reads reading found (by rw [length]) (PointerTree.node_nil ..) zero (List.ne_nil_of_length_pos (by omega))
      rwa [length] at reads

theorem reads_correct (reading : rw ≠ .S_WRITE) (plain : s.ip.iMap = none) (reads : Reads v f s lbn o) : Correct v f s F lbn rw o where
  reads _ := by
    refine ⟨reads.1, fun b ra ok => ?_, reads.2.2⟩
    rw [held, plain]
    exact (reads.2.1 b ra ok).1
  writes writing := absurd writing reading
  next b ra ok answer := by
    rw [reads.1]
    exact (reads.2.1 b ra ok).2 answer

theorem losesFrom_full {fs : S5Alloc.State} (at_ : (tree v s).node r js = inb) (some_ : (tree v s).node r (js ++ rest) ≠ 0) :
    ¬LosesFrom (tree v s) f allocOnly fs inb rest := by
  induction rest generalizing js inb with
  | nil => exact id
  | cons i rest ih =>
    rw [← List.singleton_append, ← List.append_assoc] at some_
    have parent : inb ≠ 0 := at_ ▸ PointerTree.node_above (PointerTree.node_above some_)
    have node : (tree v s).node r (js ++ [i]) = (tree v s).child inb i := node_below at_ parent
    have child : (tree v s).child inb i ≠ 0 := node ▸ PointerTree.node_above some_
    rintro ⟨_, ⟨zero, _⟩ | ⟨_, loses⟩⟩
    · exact child zero
    · exact ih node some_ loses

theorem losesOn_full (some_ : mapping v s lbn ≠ 0) : ¬LosesOn v f allocOnly s lbn := by
  rintro ⟨r, is, found, loses⟩
  rw [mapping, found] at some_
  have root : (tree v s).node r [] ≠ 0 := PointerTree.node_above some_
  rcases loses with ⟨zero, _⟩ | ⟨_, loses⟩
  · exact root zero
  · exact losesFrom_full (PointerTree.node_nil ..) some_ loses

theorem s5freemap_done (wellFormed : WellFormed v s F) (f : Failures) (allocOnly : Bool) (lbn : Nat) :
    Extends v s F lbn (s5freemap s) F ∧ (LosesOn v f allocOnly (s5freemap s) lbn ↔ LosesOn v f allocOnly s lbn) := by
  unfold s5freemap
  split
  · exact ⟨.refl wellFormed, Iff.rfl⟩
  · exact ⟨.same wellFormed wellFormed.stands (fun _ _ _ => rfl) (.inr rfl) rfl, Iff.rfl⟩

theorem mapped_correct {map : Nat → Int} (wellFormed : WellFormed v s F) (cached : s.ip.iMap = some map) (inside : lbn < nblks v s.ip.iSize)
    (some_ : map lbn ≠ 0) :
    Correct v f s F lbn rw (.ok (map lbn, if lbn + 1 < nblks v s.ip.iSize then ahead (map (lbn + 1)) else S5_HOLE), s) := by
  have same : map lbn = mapping v s lbn := wellFormed.cached map cached lbn inside some_
  constructor
  · intro _
    refine ⟨rfl, ?_, fun e wrong => by cases wrong⟩
    rintro b ra ok
    cases ok
    rw [held, cached, Option.elim_some, if_pos inside, ahead, if_neg some_]
  · intro _
    refine ⟨F, written_of wellFormed (.refl wellFormed), ?_⟩
    rintro b ra ok
    cases ok
    exact ⟨some_, same.symm, fun _ => ⟨same, rfl⟩⟩
  · rintro b ra ok answer
    cases ok
    split at answer
    · next beside =>
      rw [if_pos beside, ahead_some answer]
      refine (wellFormed.cached map cached _ beside fun zero => answer ?_).symm
      rw [zero]
      rfl
    · exact absurd rfl answer

/-- `bmap` is correct unless, on the way to the block that is to be written, the parent of a block that was just taken
cannot be read again, or the list of free blocks that comes with one cannot be read. -/
theorem bmap_extends (wellFormed : WellFormed v s F) (f : Failures) (lbn : Nat) (rw : SegRw) (allocOnly : Bool) :
    Correct v f s F lbn rw (bmap v f s lbn rw allocOnly) ↔ ¬(rw = .S_WRITE ∧ LosesOn v f allocOnly s lbn) := by
  unfold bmap
  cases cached : s.ip.iMap with
  | none =>
    by_cases writing : rw = .S_WRITE
    · subst writing
      obtain ⟨loses, settles⟩ := lbmap_done wellFormed f allocOnly lbn
      refine ⟨fun correct both => lost_wrong (loses both.2) correct, fun safe => ?_⟩
      exact settles_writes wellFormed (settles fun bad => safe ⟨rfl, bad⟩)
    · exact iff_of_true (reads_correct writing cached (lbmap_reads writing)) fun both => writing both.1
  | some map =>
    dsimp only
    by_cases there : lbn < nblks v s.ip.iSize ∧ map lbn ≠ 0
    · obtain ⟨inside, some_⟩ := there
      rw [if_pos inside, if_neg some_]
      refine iff_of_true (mapped_correct wellFormed cached inside some_) fun both => losesOn_full ?_ both.2
      rwa [← wellFormed.cached map cached lbn inside some_]
    have nothing : (if lbn < nblks v s.ip.iSize then map lbn else 0) = 0 := by
      split
      · next inside => exact not_not.mp fun some_ => there ⟨inside, some_⟩
      · rfl
    rw [if_pos nothing]
    by_cases writing : rw = .S_WRITE
    · subst writing
      obtain ⟨freed, same⟩ := s5freemap_done wellFormed f allocOnly lbn
      obtain ⟨loses, settles⟩ := lbmap_done freed.wellFormed f allocOnly lbn
      rw [same] at loses settles
      rw [if_pos rfl]
      refine ⟨fun correct both => lost_wrong (loses both.2) correct, fun safe => ?_⟩
      obtain ⟨⟨G, extends_⟩, answers⟩ := settles fun bad => safe ⟨rfl, bad⟩
      exact settles_writes wellFormed ⟨⟨G, freed.trans wellFormed extends_⟩, answers⟩
    · rw [if_neg writing]
      refine iff_of_true ⟨fun _ => ⟨rfl, ?_, fun e wrong => by cases wrong⟩, fun both => absurd both writing, ?_⟩ fun both => writing both.1
      · rintro b ra ok
        cases ok
        rw [held, cached, Option.elim_some, nothing]
        rfl
      · rintro b ra ok answer
        cases ok
        exact absurd rfl answer

theorem loses_quiet {fs : S5Alloc.State} (lists : ∀ k, f.list k = false) (again : ∀ k, f.again k = false) : ¬Loses f allocOnly k fs := by
  induction k generalizing fs with
  | zero => simp [Loses, Drops, lists, again]
  | succ k ih => simp [Loses, Drops, lists, again, ih]

theorem losesOn_quiet (lists : ∀ k, f.list k = false) (again : ∀ k, f.again k = false) : ¬LosesOn v f allocOnly s lbn := by
  have from_ : ∀ (t : PointerTree (Fin NADDR) (Fin v.vfsNindir) Int) (a : Bool) (fs : S5Alloc.State) (rest : List (Fin v.vfsNindir)) (inb : Int),
      ¬LosesFrom t f a fs inb rest := by
    intro t a fs rest
    induction rest with
    | nil => exact fun _ => id
    | cons i rest ih => exact fun inb => by simp [LosesFrom, ih, loses_quiet lists again]
  rintro ⟨r, is, _, ⟨_, loses⟩ | ⟨_, loses⟩⟩
  · cases length : is.length with
    | zero => simp [length, LosesNew, Drops, lists] at loses
    | succ k => simp [length, LosesNew, Drops, lists, loses_quiet lists again] at loses
  · exact from_ _ _ _ _ _ loses

def small : S5vfs := ⟨9, 7⟩

/-- A file with an indirect block, 30, and nothing else; the only free block is 20. -/
def bare : S5Bmap.State := ⟨oneBlock, ⟨.VREG, false, false, 0, fun i => if i = 10 then 30 else 0, none⟩⟩

theorem bare_node (r : Fin NADDR) (js : List (Fin small.vfsNindir)) : (tree small bare).node r js = if r.val = 10 ∧ js = [] then 30 else 0 := by
  induction js using List.reverseRecOn with
  | nil => simp [tree, bare]
  | append_singleton js j _ =>
    have empty : ∀ b, (tree small bare).below b j = 0 := fun b => by
      rw [PointerTree.below]
      split
      · rfl
      · exact word_clrbuf j
    rw [PointerTree.node_snoc, empty, if_neg (by simp)]

theorem bare_wellFormed : WellFormed small bare {20} where
  stands := oneBlock_stands
  apart r is r' is' _ _ some_ same := by
    rw [bare_node] at some_ same
    rw [bare_node] at same
    split at some_
    · next here =>
      rw [if_pos here] at same
      split at same
      · next there => exact ⟨Fin.ext (here.1.trans there.1.symm), here.2.trans there.2.symm⟩
      · cases same
    · exact absurd rfl some_
  used b member := by
    rintro ⟨r, js, _, node⟩
    rw [bare_node, Finset.mem_singleton.mp member] at node
    split at node <;> cases node
  cached map cached := by cases cached

def calm : Failures := ⟨fun _ => false, fun _ => false, fun _ => false, false⟩

theorem bmap_extends_bare : Correct small calm bare {20} 10 .S_WRITE (bmap small calm bare 10 .S_WRITE false) :=
  (bmap_extends bare_wellFormed calm 10 .S_WRITE false).mpr fun both => losesOn_quiet (fun _ => rfl) (fun _ => rfl) both.2

def forgetful : Failures := { calm with again := fun _ => true }

theorem bmap_loses :
    WellFormed small bare {20} ∧ (bmap small forgetful bare 10 .S_WRITE false).1 = .error .bread ∧
      ¬Correct small forgetful bare {20} 10 .S_WRITE (bmap small forgetful bare 10 .S_WRITE false) := by
  have loses : LosesOn small forgetful false bare 10 := by
    refine ⟨slot 10, way small 1 0, by decide, .inr ⟨by decide, ?_⟩⟩
    exact ⟨rfl, .inl ⟨rfl, .inr ⟨⟨by decide, by decide⟩, rfl⟩⟩⟩
  exact ⟨bare_wellFormed, by decide, lost_wrong ((lbmap_done bare_wellFormed forgetful false 10).1 loses)⟩

end Svr4.Proofs.S5BmapExact
