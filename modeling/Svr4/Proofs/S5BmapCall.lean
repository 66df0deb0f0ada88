import Svr4.Proofs.S5BmapTree

/-! `bmap` extends the tree of a file, unless a block that has been taken is not recorded: it gets lost where the
parent cannot be read again, and a whole list of free blocks does where that list cannot be read. -/

namespace Svr4.Proofs.S5BmapCall
open Function Library S5Alloc S5Bmap S5FreeList S5BmapTree

/-- A block is there for a pointer with `k` levels below it, and for data its page as well. -/
def Takes (f : Failures) (allocOnly : Bool) (k : Nat) (fs : S5Alloc.State) : Prop :=
  (blkalloc fs false).1 ≠ none ∧ ¬(k = 0 ∧ allocOnly = false ∧ f.fbread = true)

def Drops (f : Failures) (k : Nat) (fs : S5Alloc.State) : Prop := refills fs = true ∧ f.list k = true

/-- With all pointers missing from this level on, blocks get lost. -/
def Loses (f : Failures) (allocOnly : Bool) : Nat → S5Alloc.State → Prop
  | 0, fs => Drops f 0 fs ∨ Takes f allocOnly 0 fs ∧ f.again 0 = true
  | k + 1, fs => Drops f (k + 1) fs ∨ Takes f allocOnly (k + 1) fs ∧
      (f.again (k + 1) = true ∨ f.bread k = false ∧ Loses f allocOnly k (blkalloc fs false).2)

/-- On the way through the indirect blocks from `inb` on, blocks get lost. -/
def LosesFrom {v : S5vfs} (t : PointerTree (Fin NADDR) (Fin v.vfsNindir) Int) (f : Failures) (allocOnly : Bool) (fs : S5Alloc.State) :
    Int → List (Fin v.vfsNindir) → Prop
  | _, [] => False
  | inb, i :: is => f.bread is.length = false ∧
      (t.child inb i = 0 ∧ Loses f allocOnly is.length fs ∨ t.child inb i ≠ 0 ∧ LosesFrom t f allocOnly fs (t.child inb i) is)

def Answers (v : S5vfs) (lbn : Nat) (o : Outcome) : Prop :=
  ∀ b ra, o.1 = .ok (b, ra) → b ≠ 0 ∧ mapping v o.2 lbn = b ∧ (ra ≠ S5_HOLE → mapping v o.2 (lbn + 1) = ra)

def Settles (v : S5vfs) (s : S5Bmap.State) (F : Finset Int) (lbn : Nat) (o : Outcome) : Prop :=
  (∃ G, Extends v s F lbn o.2 G) ∧ Answers v lbn o

variable {v : S5vfs} {f : Failures} {allocOnly : Bool} {s t : S5Bmap.State} {fs fs' : S5Alloc.State} {F G : Finset Int} {lbn k bn : Nat}
  {b nb inb : Int} {r : Fin NADDR} {is js rest : List (Fin v.vfsNindir)} {i : Fin v.vfsNindir}

theorem loses_congr (stands : Stands fs F) (alike : Alike F fs fs') : Loses f allocOnly k fs' ↔ Loses f allocOnly k fs := by
  induction k generalizing fs fs' F with
  | zero =>
    obtain ⟨same, _⟩ := alike.blkalloc stands
    simp only [Loses, Drops, Takes, alike.refills, same]
  | succ k ih =>
    obtain ⟨same, fp⟩ := alike.blkalloc stands
    have next : Loses f allocOnly k (blkalloc fs' false).2 ↔ Loses f allocOnly k (blkalloc fs false).2 := by
      rcases blkalloc_outcome (e := false) stands (by simp) with ⟨_, _, after⟩ | ⟨b, _, _, after⟩
      · exact ih after ⟨fp, fun c member => by rw [blkalloc_fblk, blkalloc_fblk, alike.2 c member]⟩
      · exact ih after ⟨fp, fun c member => by rw [blkalloc_fblk, blkalloc_fblk, alike.2 c (Finset.mem_of_mem_erase member)]⟩
    simp only [Loses, Drops, Takes, alike.refills, same, next]

theorem losesFrom_new {t : PointerTree (Fin NADDR) (Fin v.vfsNindir) Int} (empty : ∀ i, t.child nb i = 0) :
    LosesFrom t f allocOnly fs nb (i :: rest) ↔ f.bread rest.length = false ∧ Loses f allocOnly rest.length fs := by
  simp [LosesFrom, empty]

theorem alloc_cases (wellFormed : WellFormed v s F) (f : Failures) (lbn k : Nat) :
    (Drops f k s.fs ∧ ∃ fs, blkalloc s.fs (f.list k) = (none, fs) ∧ Lost v F { s with fs }) ∨
    (¬Drops f k s.fs ∧ ∃ fs, blkalloc s.fs (f.list k) = (none, fs) ∧ (blkalloc s.fs false).1 = none ∧ Extends v s F lbn { s with fs } F) ∨
    ¬Drops f k s.fs ∧ ∃ nb ∈ F, ∃ fs, blkalloc s.fs (f.list k) = (some nb, fs) ∧ blkalloc s.fs false = (some nb, fs) ∧
      Stands fs (F.erase nb) ∧ fs.fblk = s.fs.fblk ∧ badblock fs.fp nb = false := by
  by_cases drops : Drops f k s.fs
  · obtain ⟨none_, stands, b, member⟩ := blkalloc_drops wellFormed.stands drops.1
    refine .inl ⟨drops, (blkalloc s.fs true).2, ?_, ?_⟩
    · rw [drops.2, ← none_]
    · exact lost_same wellFormed member stands (Finset.notMem_empty b) (sameNodes_of rfl fun c _ => congrFun (blkalloc_fblk ..) c)
  have quiet : blkalloc s.fs (f.list k) = blkalloc s.fs false := blkalloc_quiet drops
  have content := blkalloc_fblk s.fs false
  rcases blkalloc_outcome wellFormed.stands (show ¬(refills s.fs = true ∧ false = true) by simp) with
    ⟨_, none_, stands⟩ | ⟨nb, member, some_, stands⟩
  · exact .inr (.inl ⟨drops, (blkalloc s.fs false).2, by rw [quiet, ← none_], none_,
      .same wellFormed stands (sameNodes_of rfl fun c _ => congrFun content c) (.inl rfl) rfl⟩)
  · exact .inr (.inr ⟨drops, nb, member, (blkalloc s.fs false).2, by rw [quiet, ← some_], by rw [← some_], stands, content,
      (blkalloc_badblock ..).trans (wellFormed.stands.inRange nb member)⟩)

theorem freed_extends (wellFormed : WellFormed v s F) (member : nb ∈ F) (stands : Stands fs (F.erase nb)) (content : fs.fblk = s.fs.fblk)
    (good : badblock fs.fp nb = false) : Extends v s F lbn { s with fs := blkfree fs nb } F := by
  refine .same wellFormed (blkfree_restores stands member good) (sameNodes_of rfl fun c held => ?_) (.inl rfl) rfl
  have other : c ≠ nb := fun same => wellFormed.used nb member (same ▸ held)
  exact (blkfree_fblk fs other).trans (congrFun content c)

theorem link_done (wellFormed : WellFormed v s F) (found : place v lbn = some (r, js ++ i :: rest)) (at_ : (tree v s).node r js = inb)
    (some_ : inb ≠ 0) (zero : word (s.fs.fblk inb) i = 0) :
    (∃ e t, link f allocOnly rest.length inb i s = (.error e, t) ∧
      (Drops f rest.length s.fs ∨ Takes f allocOnly rest.length s.fs ∧ f.again rest.length = true) ∧ Lost v F t) ∨
    (∃ e t, link f allocOnly rest.length inb i s = (.error e, t) ∧ ¬Drops f rest.length s.fs ∧ ¬Takes f allocOnly rest.length s.fs ∧
      Extends v s F lbn t F) ∨
    ∃ nb t G, link f allocOnly rest.length inb i s = (.ok nb, t) ∧ ¬Drops f rest.length s.fs ∧ Takes f allocOnly rest.length s.fs ∧
      f.again rest.length = false ∧ Extends v s F lbn t G ∧ nb ≠ 0 ∧ (tree v t).node r (js ++ [i]) = nb ∧
      (rest ≠ [] → ∀ j, (tree v t).child nb j = 0) ∧ Stands (blkalloc s.fs false).2 G ∧ Alike G (blkalloc s.fs false).2 t.fs := by
  have length := place_length found
  rw [List.length_append, List.length_cons] at length
  have reached : (tree v s).Reaches depth inb := ⟨r, js, by omega, at_⟩
  unfold link Takes
  rcases alloc_cases wellFormed f lbn rest.length with
    ⟨drops, fs₁, run, lost⟩ | ⟨drops, fs₁, run, none_, extends_⟩ | ⟨drops, nb, member, fs₁, run, taken, stands, content, good⟩
  · exact .inl ⟨.ENOSPC, { s with fs := fs₁ }, by rw [run], .inl drops, lost⟩
  · exact .inr (.inl ⟨.ENOSPC, { s with fs := fs₁ }, by rw [run], drops, fun takes => takes.1 none_, extends_⟩)
  rw [run, taken]
  have unused := wellFormed.used nb member
  have apart : nb ≠ inb := fun same => unused (by rwa [same])
  dsimp only
  by_cases page : rest.length = 0 ∧ allocOnly = false ∧ f.fbread = true
  · rw [if_pos page]
    refine .inr (.inl ⟨.fbread, { s with fs := blkfree fs₁ nb }, rfl, drops, fun takes => takes.2 page, ?_⟩)
    exact freed_extends wellFormed member stands content good
  rw [if_neg page]
  obtain ⟨s₂, s₂Def⟩ : ∃ s₂, (if rest.length = 0 then { s with fs := fs₁ } else bwrite { s with fs := fs₁ } nb clrbuf) = s₂ := ⟨_, rfl⟩
  have ip : s₂.ip = s.ip := by
    rw [← s₂Def]
    split <;> rfl
  have fp : s₂.fs.fp = fs₁.fp := by
    rw [← s₂Def]
    split <;> rfl
  have block : ∀ c, c ≠ nb → s₂.fs.fblk c = s.fs.fblk c := fun c other => by
    rw [← s₂Def, ← content]
    split
    · rfl
    · exact update_of_ne other ..
  have clear : rest ≠ [] → s₂.fs.fblk nb = clrbuf := fun more => by
    rw [← s₂Def, if_neg (by simpa using more)]
    exact update_self ..
  have stands₂ : Stands s₂.fs (F.erase nb) := by
    have written : Stands ⟨fs₁.fp, s₂.fs.fblk⟩ (F.erase nb) := stands.written fun c inside => by
      rw [block c (Finset.ne_of_mem_erase inside), content]
    rwa [← fp] at written
  rw [s₂Def]
  cases again : f.again rest.length with
  | true =>
    refine .inl ⟨.bread, s₂, rfl, .inr ⟨⟨by simp, page⟩, rfl⟩, ?_⟩
    exact lost_same wellFormed member stands₂ (Finset.notMem_erase nb F)
      (sameNodes_of (by rw [ip]) fun c held => block c fun same => unused (same ▸ held))
  | false =>
    have parent : s₂.fs.fblk inb = s.fs.fblk inb := block inb apart.symm
    obtain ⟨t, tDef⟩ : ∃ t, bwrite s₂ inb (setWord (s₂.fs.fblk inb) i nb) = t := ⟨_, rfl⟩
    have there : t.fs.fblk inb = setWord (s.fs.fblk inb) i nb := by
      rw [← tDef, ← parent]
      exact update_self ..
    have elsewhere : ∀ c, c ≠ inb → t.fs.fblk c = s₂.fs.fblk c := fun c other => by
      rw [← tDef]
      exact update_of_ne other ..
    have fp' : t.fs.fp = fs₁.fp := by rw [← tDef, ← fp]; rfl
    have ip' : t.ip = s.ip := by rw [← tDef, ← ip]; rfl
    have standsT : Stands t.fs (F.erase nb) := by
      have written : Stands ⟨s₂.fs.fp, t.fs.fblk⟩ (F.erase nb) := stands₂.written fun c inside =>
        elsewhere c fun same => wellFormed.used inb (same ▸ Finset.mem_of_mem_erase inside) reached
      rwa [fp, ← fp'] at written
    have empty : rest ≠ [] → ∀ j, (tree v t).child nb j = 0 := fun more j => by
      show word (t.fs.fblk nb) j = 0
      rw [elsewhere nb apart, clear more, word_clrbuf]
    have none_ : (tree v s).node r (js ++ [i]) = 0 := by
      rw [PointerTree.node_snoc, at_, PointerTree.below, if_neg some_]
      exact zero
    have grown : PointerTree.Grown (tree v s) (tree v t) depth r (js ++ [i]) nb := by
      refine PointerTree.grown_child wellFormed.apart at_ some_ (by omega) zero unused (by simp only [tree, ip'])
        (fun inner => ?_) ?_ fun c notA notB => ?_
      · exact empty (by rw [← List.length_pos_iff]; omega)
      · funext j
        show word (t.fs.fblk inb) j = _
        rw [there, word_setWord]
        by_cases same : j = i
        · rw [same, update_self, if_pos rfl]
        · rw [update_of_ne same, if_neg (by rwa [Fin.val_inj])]
          rfl
      · funext j
        show word (t.fs.fblk c) j = word (s.fs.fblk c) j
        rw [elsewhere c notA, block c notB]
    refine .inr (.inr ⟨nb, t, F.erase nb, ?_, drops, ⟨by simp, page⟩, rfl, ?_, wellFormed.stands.nonzero member, ?_, empty, stands, fp', ?_⟩)
    · rw [if_neg Bool.false_ne_true, tDef]
    · exact .grown wellFormed member standsT grown none_ found (by simp) (by rw [ip']) (by rw [ip'])
    · exact grown.here (by simp; omega)
    · intro c inside
      have notParent : c ≠ inb := fun same => wellFormed.used inb (same ▸ Finset.mem_of_mem_erase inside) reached
      rw [elsewhere c notParent, block c (Finset.ne_of_mem_erase inside), content]

theorem index_eq (v : S5vfs) (bn k : Nat) : (bn >>> (v.vfsNshift * k)) &&& v.vfsNmask = bn / v.vfsNindir ^ k % v.vfsNindir := by
  rw [S5vfs.vfsNmask, S5vfs.vfsNindir, Nat.and_two_pow_sub_one_eq_mod, Nat.shiftRight_eq_div_pow, pow_mul]

theorem ahead_some {x : Int} (some_ : ahead x ≠ S5_HOLE) : ahead x = x := by
  unfold ahead at some_ ⊢
  split
  · next zero =>
    rw [if_pos zero] at some_
    exact absurd rfl some_
  · rfl

theorem beside (found : place v lbn = some (r, js ++ [i])) (at_ : (tree v t).node r js = inb) (some_ : inb ≠ 0)
    (answer : (if i.val < v.vfsNindir - 1 then ahead (word (t.fs.fblk inb) (i + 1)) else S5_HOLE) ≠ S5_HOLE) :
    mapping v t (lbn + 1) = if i.val < v.vfsNindir - 1 then ahead (word (t.fs.fblk inb) (i + 1)) else S5_HOLE := by
  split at answer
  · next inside =>
    rw [if_pos inside, ahead_some answer, mapping, place_next found (by omega), Option.elim_some, PointerTree.node_snoc, at_, PointerTree.below,
      if_neg some_]
    rfl
  · exact absurd rfl answer

theorem node_below (at_ : (tree v t).node r js = inb) (some_ : inb ≠ 0) : (tree v t).node r (js ++ [i]) = word (t.fs.fblk inb) i := by
  rw [PointerTree.node_snoc, at_, PointerTree.below, if_neg some_]
  rfl

theorem found_answers (found : place v lbn = some (r, js ++ [i])) (at_ : (tree v t).node r js = inb) (some_ : inb ≠ 0)
    (node : (tree v t).node r (js ++ [i]) = nb) (some' : nb ≠ 0) :
    Answers v lbn (.ok (nb, if i.val < v.vfsNindir - 1 then ahead (word (t.fs.fblk inb) (i + 1)) else S5_HOLE), t) := by
  rintro b ra ok
  cases ok
  refine ⟨some', ?_, beside found at_ some_⟩
  rw [mapping, found]
  exact node

theorem loses_here (how : Drops f k fs ∨ Takes f allocOnly k fs ∧ f.again k = true) : Loses f allocOnly k fs := by
  cases k with
  | zero => exact how
  | succ k => exact how.imp_right fun both => ⟨both.1, .inl both.2⟩

theorem loses_not (drops : ¬Drops f k fs) (takes : ¬Takes f allocOnly k fs) : ¬Loses f allocOnly k fs := by
  cases k <;> rw [Loses] <;> rintro (drop | ⟨take, _⟩) <;> contradiction

theorem loses_last (drops : ¬Drops f 0 fs) (again : f.again 0 = false) : ¬Loses f allocOnly 0 fs := by
  rw [Loses, again]
  rintro (drop | ⟨_, wrong⟩)
  · exact drops drop
  · cases wrong

theorem loses_onward (drops : ¬Drops f (k + 1) fs) (takes : Takes f allocOnly (k + 1) fs) (again : f.again (k + 1) = false) :
    Loses f allocOnly (k + 1) fs ↔ f.bread k = false ∧ Loses f allocOnly k (blkalloc fs false).2 := by
  simp [Loses, drops, takes, again]

theorem fetch_done (wellFormed : WellFormed v s F) (found : place v lbn = some (r, js ++ rest)) (digits : rest = way v rest.length bn)
    (at_ : (tree v s).node r js = inb) (some_ : inb ≠ 0) (more : rest ≠ []) (f : Failures) (allocOnly : Bool) :
    (LosesFrom (tree v s) f allocOnly s.fs inb rest → Lost v F (fetch v f .S_WRITE allocOnly bn rest.length inb s).2) ∧
      (¬LosesFrom (tree v s) f allocOnly s.fs inb rest → Settles v s F lbn (fetch v f .S_WRITE allocOnly bn rest.length inb s)) := by
  induction rest generalizing js inb s F with
  | nil => exact absurd rfl more
  | cons i rest ih =>
    rw [List.length_cons, way, List.cons.injEq] at digits
    obtain ⟨first, digits⟩ := digits
    have index : (bn >>> (v.vfsNshift * rest.length)) &&& v.vfsNmask = i := by rw [index_eq, first]
    rw [List.length_cons]
    unfold fetch
    cases bread : f.bread rest.length with
    | true => exact ⟨fun loses => by simp [LosesFrom, bread] at loses, fun _ => ⟨⟨F, .refl wellFormed⟩, fun _ _ ok => by cases ok⟩⟩
    | false =>
      simp only [Bool.false_eq_true, if_false, ne_eq, not_true_eq_false, and_false, index]
      by_cases zero : word (s.fs.fblk inb) i = 0
      · rw [if_pos zero]
        have child : (tree v s).child inb i = 0 := zero
        have cases_ : LosesFrom (tree v s) f allocOnly s.fs inb (i :: rest) ↔ Loses f allocOnly rest.length s.fs := by simp [LosesFrom, bread, child]
        rw [cases_]
        rcases link_done wellFormed found at_ some_ zero with
          ⟨e, t, run, how, lost⟩ | ⟨e, t, run, drops, takes, extends_⟩ | ⟨nb, t, G, run, drops, takes, again, extends_, some', node, empty, stands, alike⟩
        · rw [run]
          exact ⟨fun _ => lost, fun safe => absurd (loses_here how) safe⟩
        · rw [run]
          exact ⟨fun loses => absurd loses (loses_not drops takes), fun _ => ⟨⟨F, extends_⟩, fun _ _ ok => by cases ok⟩⟩
        · rw [run]
          have parent : (tree v t).node r js = inb := by
            have length := place_length found
            rw [List.length_append, List.length_cons] at length
            rw [extends_.kept r js (by omega) (at_ ▸ some_), at_]
          cases rest with
          | nil =>
            refine ⟨fun loses => absurd loses (loses_last drops again), fun _ => ⟨⟨G, extends_⟩, ?_⟩⟩
            exact found_answers found parent some_ node some'
          | cons j rest =>
            have onward : Loses f allocOnly (rest.length + 1) s.fs ↔ LosesFrom (tree v t) f allocOnly t.fs nb (j :: rest) := by
              rw [losesFrom_new (empty (by simp)), loses_congr stands alike]
              exact loses_onward drops takes again
            rw [List.length_cons, onward]
            obtain ⟨loses, settles⟩ := ih extends_.wellFormed (by rwa [List.append_assoc]) digits node some' (by simp)
            refine ⟨fun bad => (loses bad).before extends_, fun safe => ?_⟩
            obtain ⟨⟨H, more⟩, answers⟩ := settles safe
            exact ⟨⟨H, extends_.trans wellFormed more⟩, answers⟩
      · rw [if_neg zero]
        have node : (tree v s).node r (js ++ [i]) = word (s.fs.fblk inb) i := node_below at_ some_
        have child : (tree v s).child inb i ≠ 0 := zero
        cases rest with
        | nil =>
          refine ⟨fun loses => by simp [LosesFrom, child] at loses, fun _ => ⟨⟨F, .refl wellFormed⟩, ?_⟩⟩
          exact found_answers found at_ some_ node zero
        | cons j rest =>
          have onward : LosesFrom (tree v s) f allocOnly s.fs inb (i :: j :: rest) ↔
            LosesFrom (tree v s) f allocOnly s.fs (word (s.fs.fblk inb) i) (j :: rest) := by
            rw [LosesFrom, bread, eq_self_iff_true, true_and, or_iff_right fun both => child both.1, and_iff_right child]
            rfl
          rw [onward]
          exact ih wellFormed (by rwa [List.append_assoc]) digits node zero (by simp)

theorem root_grown (wellFormed : WellFormed v s F) (member : nb ∈ F) (found : place v lbn = some (r, is)) (zero : s.ip.iAddr r = 0)
    (addr : t.ip.iAddr = update s.ip.iAddr r nb) (map : t.ip.iMap = s.ip.iMap) (size : t.ip.iSize = s.ip.iSize) (stands : Stands t.fs (F.erase nb))
    (block : ∀ c, c ≠ nb → t.fs.fblk c = s.fs.fblk c) (empty : is ≠ [] → t.fs.fblk nb = clrbuf) :
    Extends v s F lbn t (F.erase nb) ∧ (tree v t).node r [] = nb := by
  have length := place_length found
  have grown : PointerTree.Grown (tree v s) (tree v t) depth r [] nb := by
    refine PointerTree.grown_root zero (wellFormed.used nb member) ?_ (fun inner i => ?_) fun c other => ?_
    · funext r'
      show t.ip.iAddr r' = _
      rw [addr]
      by_cases same : r' = r
      · rw [same, update_self, update_self]
      · rw [update_of_ne same, update_of_ne (by rwa [Ne, Fin.val_inj])]
        rfl
    · show word (t.fs.fblk nb) i = 0
      rw [empty (by rw [← List.length_pos_iff]; omega), word_clrbuf]
    · funext i
      show word (t.fs.fblk c) i = word (s.fs.fblk c) i
      rw [block c other]
  exact ⟨.grown wellFormed member stands grown zero found List.nil_prefix map size, grown.here (Nat.zero_le _)⟩

def LosesNew (f : Failures) (allocOnly : Bool) : Nat → S5Alloc.State → Prop
  | 0, fs => Drops f 0 fs
  | k + 1, fs => Drops f (k + 1) fs ∨ (blkalloc fs false).1 ≠ none ∧ f.bread k = false ∧ Loses f allocOnly k (blkalloc fs false).2

def LosesAt (v : S5vfs) (f : Failures) (allocOnly : Bool) (s : S5Bmap.State) (r : Fin NADDR) (is : List (Fin v.vfsNindir)) : Prop :=
  s.ip.iAddr r = 0 ∧ LosesNew f allocOnly is.length s.fs ∨ s.ip.iAddr r ≠ 0 ∧ LosesFrom (tree v s) f allocOnly s.fs (s.ip.iAddr r) is

theorem direct_found (small : lbn < 10) (node : (tree v t).root (slot lbn) = nb) (some_ : nb ≠ 0) : Answers v lbn (directFound lbn nb t) := by
  unfold directFound
  rintro b ra ok
  cases ok
  refine ⟨some_, ?_, fun answer => ?_⟩
  · rw [mapping, place_direct small]
    exact node
  · by_cases inside : lbn < NADDR - 4
    · rw [if_pos inside] at answer ⊢
      have inner : lbn < 9 := inside
      rw [ahead_some answer, mapping, place_direct_next inner]
      show t.ip.iAddr (slot (lbn + 1)) = _
      rw [slot_val (by omega)]
    · rw [if_neg inside] at answer
      exact absurd rfl answer

theorem direct_done (wellFormed : WellFormed v s F) (small : lbn < 10) :
    (LosesAt v f allocOnly s (slot lbn) [] → Lost v F (direct f .S_WRITE allocOnly lbn s).2) ∧
      (¬LosesAt v f allocOnly s (slot lbn) [] → Settles v s F lbn (direct f .S_WRITE allocOnly lbn s)) := by
  have val : (slot lbn).val = lbn := slot_val (by omega)
  have found : place v lbn = some (slot lbn, []) := place_direct small
  unfold direct LosesAt
  rw [val]
  by_cases zero : s.ip.iAddr lbn = 0
  · simp only [zero, ne_eq, not_true_eq_false, if_false, false_and, or_false, true_and, List.length_nil, LosesNew]
    rcases alloc_cases wellFormed f lbn 0 with
      ⟨drops, fs₁, run, lost⟩ | ⟨drops, fs₁, run, none_, extends_⟩ | ⟨drops, nb, member, fs₁, run, taken, stands, content, good⟩
    · rw [run]
      exact ⟨fun _ => lost, fun safe => absurd drops safe⟩
    · rw [run]
      exact ⟨fun loses => absurd loses drops, fun _ => ⟨⟨F, extends_⟩, fun _ _ ok => by cases ok⟩⟩
    · rw [run]
      refine ⟨fun loses => absurd loses drops, fun _ => ?_⟩
      dsimp only
      split
      · exact ⟨⟨F, freed_extends wellFormed member stands content good⟩, fun _ _ ok => by cases ok⟩
      · obtain ⟨extends_, node⟩ : Extends v s F lbn (setAddr { s with fs := fs₁ } lbn nb) (F.erase nb) ∧
            (tree v (setAddr { s with fs := fs₁ } lbn nb)).node (slot lbn) [] = nb :=
          root_grown wellFormed member found (by rwa [val]) (by rw [val]; rfl) rfl rfl stands (fun c _ => congrFun content c)
            fun some_ => absurd rfl some_
        exact ⟨⟨F.erase nb, extends_⟩, direct_found small node (wellFormed.stands.nonzero member)⟩
  · rw [if_pos zero]
    refine ⟨fun loses => ?_, fun _ => ⟨⟨F, .refl wellFormed⟩, direct_found small (congrArg s.ip.iAddr val) zero⟩⟩
    rcases loses with ⟨none_, _⟩ | ⟨_, wrong⟩
    · exact absurd none_ zero
    · exact wrong.elim

theorem indirect_done {j : Nat} (wellFormed : WellFormed v s F) (found : place v lbn = some (r, way v (4 - j) bn)) (slot_ : r.val = NADDR - j)
    (some_ : 0 < 4 - j) :
    (LosesAt v f allocOnly s r (way v (4 - j) bn) → Lost v F (indirect v f .S_WRITE allocOnly j bn s).2) ∧
      (¬LosesAt v f allocOnly s r (way v (4 - j) bn) → Settles v s F lbn (indirect v f .S_WRITE allocOnly j bn s)) := by
  obtain ⟨k, levels⟩ : ∃ k, 4 - j = k + 1 := ⟨4 - j - 1, by omega⟩
  unfold indirect LosesAt
  rw [← slot_]
  rw [levels] at found ⊢
  have length := way_length v (k + 1) bn
  have more : way v (k + 1) bn ≠ [] := List.ne_nil_of_length_eq_add_one length
  have digits : way v (k + 1) bn = way v (way v (k + 1) bn).length bn := by rw [length]
  by_cases zero : s.ip.iAddr r = 0
  · simp only [zero, ne_eq, not_true_eq_false, if_false, false_and, or_false, true_and, length, LosesNew]
    rcases alloc_cases wellFormed f lbn (k + 1) with
      ⟨drops, fs₁, run, lost⟩ | ⟨drops, fs₁, run, none_, extends_⟩ | ⟨drops, nb, member, fs₁, run, taken, stands, content, good⟩
    · rw [run]
      exact ⟨fun _ => lost, fun safe => absurd (.inl drops) safe⟩
    · rw [run]
      exact ⟨fun loses => absurd loses (by simp [drops, none_]), fun _ => ⟨⟨F, extends_⟩, fun _ _ ok => by cases ok⟩⟩
    · rw [run]
      obtain ⟨t, tDef⟩ : ∃ t, setAddr (bwrite { s with fs := fs₁ } nb clrbuf) r nb = t := ⟨_, rfl⟩
      have block : ∀ c, c ≠ nb → t.fs.fblk c = s.fs.fblk c := fun c other => by
        rw [← tDef, ← content]
        exact update_of_ne other ..
      have clear : t.fs.fblk nb = clrbuf := by
        rw [← tDef]
        exact update_self ..
      have fp : t.fs.fp = fs₁.fp := by rw [← tDef]; rfl
      have standsT : Stands t.fs (F.erase nb) := by
        have written : Stands ⟨fs₁.fp, t.fs.fblk⟩ (F.erase nb) := stands.written fun c inside => by
          rw [block c (Finset.ne_of_mem_erase inside), content]
        rwa [← fp] at written
      obtain ⟨extends_, node⟩ := root_grown wellFormed member found zero (by rw [← tDef]; rfl) (by rw [← tDef]; rfl) (by rw [← tDef]; rfl) standsT
        block fun _ => clear
      have alike : Alike (F.erase nb) fs₁ t.fs := ⟨fp, fun c inside => by rw [block c (Finset.ne_of_mem_erase inside), content]⟩
      have onward : LosesFrom (tree v t) f allocOnly t.fs nb (way v (k + 1) bn) ↔ f.bread k = false ∧ Loses f allocOnly k fs₁ := by
        rw [way, losesFrom_new fun j => by show word (t.fs.fblk nb) j = 0; rw [clear, word_clrbuf], loses_congr stands alike, way_length]
      obtain ⟨loses, settles⟩ := fetch_done extends_.wellFormed found digits node (wellFormed.stands.nonzero member) more f allocOnly
      rw [onward, length] at loses settles
      simp only [tDef, taken, drops, false_or, reduceCtorEq, not_false_eq_true, true_and]
      refine ⟨fun bad => (loses bad).before extends_, fun safe => ?_⟩
      obtain ⟨⟨G, rest⟩, answers⟩ := settles safe
      exact ⟨⟨G, extends_.trans wellFormed rest⟩, answers⟩
  · obtain ⟨loses, settles⟩ := fetch_done wellFormed found digits (PointerTree.node_nil ..) zero more f allocOnly
    rw [length] at loses settles
    rw [if_pos zero]
    refine ⟨fun bad => loses ?_, fun safe => settles fun bad => safe (.inr ⟨zero, bad⟩)⟩
    rcases bad with ⟨none_, _⟩ | ⟨_, bad⟩
    · exact absurd none_ zero
    · exact bad

def onlyBlocks (s : S5Bmap.State) (allocOnly : Bool) : Bool := if s.ip.vType = .VDIR ∨ s.ip.iSync = true then false else allocOnly

def LosesOn (v : S5vfs) (f : Failures) (allocOnly : Bool) (s : S5Bmap.State) (lbn : Nat) : Prop :=
  ∃ r is, place v lbn = some (r, is) ∧ LosesAt v f (onlyBlocks s allocOnly) s r is

theorem level_place (large : ¬lbn < 10) :
    (level v 3 1 (lbn - (NADDR - 3)) = none ∧ place v lbn = none) ∨
      ∃ j bn, level v 3 1 (lbn - (NADDR - 3)) = some (j, bn) ∧ 0 < 4 - j ∧
        ∃ r, r.val = NADDR - j ∧ place v lbn = some (r, way v (4 - j) bn) := by
  have same := level_listed v 3 (lbn - 10) le_rfl
  rw [Nat.sub_self, pow_zero] at same
  cases at_ : listed v.vfsNindir 3 1 (lbn - 10) with
  | none =>
    rw [at_] at same
    exact .inl ⟨same, by rw [place, if_neg large, at_]; rfl⟩
  | some p =>
    obtain ⟨low, high, _⟩ := listed_range at_
    rw [at_] at same
    refine .inr ⟨4 - p.1, p.2, same, by omega, slot (9 + p.1), ?_, ?_⟩
    · rw [slot_val (by omega), NADDR]
      omega
    · rw [place_listed large at_, show 4 - (4 - p.1) = p.1 by omega]

theorem lbmap_done (wellFormed : WellFormed v s F) (f : Failures) (allocOnly : Bool) (lbn : Nat) :
    (LosesOn v f allocOnly s lbn → Lost v F (lbmap v f lbn .S_WRITE allocOnly s).2) ∧
      (¬LosesOn v f allocOnly s lbn → Settles v s F lbn (lbmap v f lbn .S_WRITE allocOnly s)) := by
  unfold lbmap
  rw [← onlyBlocks]
  dsimp only
  have only : ∀ {r is}, place v lbn = some (r, is) → (LosesOn v f allocOnly s lbn ↔ LosesAt v f (onlyBlocks s allocOnly) s r is) := by
    intro r is found
    refine ⟨?_, fun loses => ⟨r, is, found, loses⟩⟩
    rintro ⟨r', is', found', loses⟩
    rw [found] at found'
    cases found'
    exact loses
  by_cases small : lbn < 10
  · rw [if_pos (show lbn < NADDR - 3 from small), only (place_direct small)]
    exact direct_done wellFormed small
  rw [if_neg (show ¬lbn < NADDR - 3 from small)]
  rcases level_place small with ⟨none_, nowhere⟩ | ⟨j, bn, at_, levels, r, slot_, found⟩
  · rw [none_]
    refine ⟨?_, fun _ => ⟨⟨F, .refl wellFormed⟩, fun _ _ ok => by cases ok⟩⟩
    rintro ⟨r, is, found, _⟩
    rw [nowhere] at found
    cases found
  · rw [at_, only found]
    exact indirect_done wellFormed found slot_ levels

end Svr4.Proofs.S5BmapCall
