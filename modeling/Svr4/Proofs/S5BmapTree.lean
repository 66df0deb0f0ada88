import Svr4.S5Bmap
import Svr4.Library.PointerTree
import Svr4.Proofs.S5FreeList

/-! The pointers of an inode as a tree, the place of a file's block in it, and what a call may do to the tree and
to the set of free blocks. -/

namespace Svr4.Proofs.S5BmapTree
open Function Library S5Alloc S5Bmap S5FreeList

variable {l left n : Nat} {p : Nat × Nat}

def depth (r : Fin NADDR) : Nat := r.val - (NADDR - 4)

def tree (v : S5vfs) (s : S5Bmap.State) : PointerTree (Fin NADDR) (Fin v.vfsNindir) Int where
  root r := s.ip.iAddr r
  child b i := word (s.fs.fblk b) i

theorem vfsNindir_pos (v : S5vfs) : 0 < v.vfsNindir := Nat.two_pow_pos _

def way (v : S5vfs) : Nat → Nat → List (Fin v.vfsNindir)
  | 0, _ => []
  | k + 1, bn => ⟨bn / v.vfsNindir ^ k % v.vfsNindir, Nat.mod_lt _ (vfsNindir_pos v)⟩ :: way v k bn

/-- Of the lists from the one with `k` levels on the one that has room for `bn`, and the index in it. -/
def listed (n : Nat) : Nat → Nat → Nat → Option (Nat × Nat)
  | 0, _, _ => none
  | left + 1, k, bn => if bn < n ^ k then some (k, bn) else listed n left (k + 1) (bn - n ^ k)

def slot (i : Nat) : Fin NADDR := ⟨i % NADDR, Nat.mod_lt _ (by decide)⟩

/-- The place of a file's block: first the direct blocks, then those of the three lists. -/
def place (v : S5vfs) (lbn : Nat) : Option (Fin NADDR × List (Fin v.vfsNindir)) :=
  if lbn < 10 then some (slot lbn, []) else (listed v.vfsNindir 3 1 (lbn - 10)).map fun p => (slot (9 + p.1), way v p.1 p.2)

def mapping (v : S5vfs) (s : S5Bmap.State) (lbn : Nat) : Int := (place v lbn).elim 0 fun p => (tree v s).node p.1 p.2

/-- The free list stands for `F`, no block is pointed to twice or free, and `iMap` tells the truth of what it has. -/
structure WellFormed (v : S5vfs) (s : S5Bmap.State) (F : Finset Int) : Prop where
  stands : Stands s.fs F
  apart : (tree v s).Apart depth
  used : ∀ b ∈ F, ¬(tree v s).Reaches depth b
  cached : ∀ map, s.ip.iMap = some map → ∀ lbn < nblks v s.ip.iSize, map lbn ≠ 0 → map lbn = mapping v s lbn

structure Extends (v : S5vfs) (s : S5Bmap.State) (F : Finset Int) (lbn : Nat) (s' : S5Bmap.State) (F' : Finset Int) : Prop where
  wellFormed : WellFormed v s' F'
  fewer : F' ⊆ F
  kept : ∀ r js, js.length ≤ depth r → (tree v s).node r js ≠ 0 → (tree v s').node r js = (tree v s).node r js
  new : ∀ r js, js.length ≤ depth r → (tree v s).node r js = 0 → (tree v s').node r js ≠ 0 →
    (tree v s').node r js ∈ F ∧ ∃ is, place v lbn = some (r, is) ∧ js <+: is
  accounted : ∀ b ∈ F, b ∈ F' ∨ (tree v s').Reaches depth b

def Lost (v : S5vfs) (F : Finset Int) (s' : S5Bmap.State) : Prop :=
  ∃ F', Stands s'.fs F' ∧ ∃ b ∈ F, b ∉ F' ∧ ¬(tree v s').Reaches depth b

variable {v : S5vfs} {s t u : S5Bmap.State} {F G H : Finset Int} {lbn k bn : Nat} {b nb : Int} {r : Fin NADDR} {is js : List (Fin v.vfsNindir)}

section place

theorem way_length (v : S5vfs) (k bn : Nat) : (way v k bn).length = k := by
  induction k with
  | zero => rfl
  | succ k ih => rw [way, List.length_cons, ih]

theorem way_snoc (v : S5vfs) (k bn : Nat) :
    way v (k + 1) bn = way v k (bn / v.vfsNindir) ++ [⟨bn % v.vfsNindir, Nat.mod_lt _ (vfsNindir_pos v)⟩] := by
  induction k with
  | zero => simp [way]
  | succ k ih =>
    rw [way, ih, way, List.cons_append]
    simp only [Nat.div_div_eq_div_mul, ← pow_succ']

def number (v : S5vfs) : List (Fin v.vfsNindir) → Nat
  | [] => 0
  | i :: is => number v is + v.vfsNindir ^ is.length * i

theorem number_way (v : S5vfs) (k bn : Nat) : number v (way v k bn) = bn % v.vfsNindir ^ k := by
  induction k with
  | zero => rw [way, number, pow_zero, Nat.mod_one]
  | succ k ih => rw [way, number, ih, way_length, Nat.mod_pow_succ]

theorem listed_range {k bn : Nat} (found : listed n left k bn = some p) : k ≤ p.1 ∧ p.1 < k + left ∧ p.2 < n ^ p.1 := by
  induction left generalizing k bn with
  | zero => cases found
  | succ left ih =>
    rw [listed] at found
    split at found
    · next inside =>
      cases found
      exact ⟨le_rfl, by omega, inside⟩
    · obtain ⟨low, high, inside⟩ := ih found
      exact ⟨by omega, by omega, inside⟩

theorem listed_injective {k bn bn' : Nat} (found : listed n left k bn = some p) (found' : listed n left k bn' = some p) :
    bn = bn' := by
  induction left generalizing k bn bn' with
  | zero => cases found
  | succ left ih =>
    rw [listed] at found found'
    split at found <;> split at found'
    · cases found
      cases found'
      rfl
    · cases found
      have := (listed_range found').1
      omega
    · cases found'
      have := (listed_range found).1
      omega
    · have := ih found found'
      omega

theorem listed_next {k bn : Nat} (found : listed n left k bn = some p) (inside : p.2 + 1 < n ^ p.1) :
    listed n left k (bn + 1) = some (p.1, p.2 + 1) := by
  induction left generalizing k bn with
  | zero => cases found
  | succ left ih =>
    rw [listed] at found ⊢
    split at found
    · cases found
      exact if_pos inside
    · next outside =>
      rw [if_neg (by omega), show bn + 1 - n ^ k = bn - n ^ k + 1 by omega]
      exact ih found

theorem slot_val {i : Nat} (small : i < 13) : (slot i).val = i := Nat.mod_eq_of_lt small

theorem place_direct (small : lbn < 10) : place v lbn = some (slot lbn, []) := if_pos small

theorem place_listed (large : ¬lbn < 10) (found : listed v.vfsNindir 3 1 (lbn - 10) = some p) :
    place v lbn = some (slot (9 + p.1), way v p.1 p.2) := by
  rw [place, if_neg large, found, Option.map_some]

theorem place_cases (found : place v lbn = some (r, is)) :
    lbn < 10 ∧ r = slot lbn ∧ is = [] ∨
      ¬lbn < 10 ∧ ∃ p, listed v.vfsNindir 3 1 (lbn - 10) = some p ∧ r = slot (9 + p.1) ∧ is = way v p.1 p.2 := by
  unfold place at found
  split at found
  · next small =>
    cases found
    exact .inl ⟨small, rfl, rfl⟩
  · next large =>
    obtain ⟨p, at_, same⟩ := Option.map_eq_some_iff.mp found
    cases same
    exact .inr ⟨large, p, at_, rfl, rfl⟩

theorem place_length (found : place v lbn = some (r, is)) : is.length = depth r := by
  rcases place_cases found with ⟨small, rfl, rfl⟩ | ⟨_, p, at_, rfl, rfl⟩
  · rw [depth, slot_val (by omega), NADDR, List.length_nil]
    omega
  · obtain ⟨_, high, _⟩ := listed_range at_
    rw [way_length, depth, slot_val (by omega), NADDR]
    omega

theorem place_injective (found : place v lbn = some (r, is)) (found' : place v l = some (r, is)) : lbn = l := by
  rcases place_cases found with ⟨small, slot, _⟩ | ⟨large, p, at_, slot, way_⟩ <;>
    rcases place_cases found' with ⟨small', slot', _⟩ | ⟨large', p', at_', slot', way_'⟩
  · have := congrArg Fin.val (slot.symm.trans slot')
    rwa [slot_val (by omega), slot_val (by omega)] at this
  · obtain ⟨low, high, _⟩ := listed_range at_'
    have := congrArg Fin.val (slot.symm.trans slot')
    rw [slot_val (by omega), slot_val (by omega)] at this
    omega
  · obtain ⟨low, high, _⟩ := listed_range at_
    have := congrArg Fin.val (slot.symm.trans slot')
    rw [slot_val (by omega), slot_val (by omega)] at this
    omega
  · obtain ⟨_, high, inside⟩ := listed_range at_
    obtain ⟨_, high', inside'⟩ := listed_range at_'
    have level_ := congrArg Fin.val (slot.symm.trans slot')
    rw [slot_val (by omega), slot_val (by omega)] at level_
    have index := congrArg (number v) (way_.symm.trans way_')
    rw [number_way, number_way, Nat.mod_eq_of_lt inside, Nat.mod_eq_of_lt inside'] at index
    have same : p = p' := Prod.ext (by omega) index
    subst same
    have := listed_injective at_ at_'
    omega

theorem place_next {i : Fin v.vfsNindir} (found : place v lbn = some (r, is ++ [i])) (inside : i.val + 1 < v.vfsNindir) :
    place v (lbn + 1) = some (r, is ++ [⟨i + 1, inside⟩]) := by
  have positive := vfsNindir_pos v
  rcases place_cases found with ⟨_, _, none_⟩ | ⟨large, ⟨k, bn⟩, at_, rfl, way_⟩
  · simp at none_
  obtain ⟨low, _, below⟩ := listed_range at_
  obtain ⟨k, rfl⟩ : ∃ j, k = j + 1 := ⟨k - 1, by omega⟩
  rw [way_snoc] at way_
  obtain ⟨rfl, last⟩ := List.append_inj' way_ rfl
  have last : i.val = bn % v.vfsNindir := congrArg Fin.val (List.singleton_inj.mp last)
  have more : (bn + 1) % v.vfsNindir = i + 1 := by
    rw [Nat.add_mod, ← last, Nat.mod_eq_of_lt (show 1 < v.vfsNindir by omega), Nat.mod_eq_of_lt inside]
  have same : (bn + 1) / v.vfsNindir = bn / v.vfsNindir := by
    have first := Nat.div_add_mod bn v.vfsNindir
    have second := Nat.div_add_mod (bn + 1) v.vfsNindir
    have both : v.vfsNindir * ((bn + 1) / v.vfsNindir) = v.vfsNindir * (bn / v.vfsNindir) := by omega
    exact Nat.eq_of_mul_eq_mul_left positive both
  have room : bn + 1 < v.vfsNindir ^ (k + 1) := by
    rcases Nat.lt_or_eq_of_le (Nat.succ_le_of_lt below) with less | full
    · exact less
    · rw [← Nat.succ_eq_add_one, full, pow_succ, Nat.mul_mod_left] at more
      omega
  have next := listed_next at_ room
  rw [show lbn - 10 + 1 = lbn + 1 - 10 by omega] at next
  rw [place_listed (by omega) next, way_snoc, same]
  simp only [more]

theorem place_direct_next (small : lbn < 9) : place v (lbn + 1) = some (slot (lbn + 1), []) := place_direct (by omega)

theorem level_listed (v : S5vfs) (left bn : Nat) (few : left ≤ 3) :
    level v left (v.vfsNindir ^ (3 - left)) bn = (listed v.vfsNindir left (4 - left) bn).map fun p => (4 - p.1, p.2) := by
  induction left generalizing bn with
  | zero => rfl
  | succ left ih =>
    have shifted : v.vfsNindir ^ (3 - (left + 1)) <<< v.vfsNshift = v.vfsNindir ^ (4 - (left + 1)) := by
      rw [Nat.shiftLeft_eq, ← S5vfs.vfsNindir, ← pow_succ]
      congr 1
      omega
    rw [level, listed, shifted]
    split
    · rw [Option.map_some, show 4 - (4 - (left + 1)) = left + 1 by omega]
    · have rest := ih (bn - v.vfsNindir ^ (4 - (left + 1))) (by omega)
      rwa [show 3 - left = 4 - (left + 1) by omega, show 4 - left = 4 - (left + 1) + 1 by omega] at rest

end place

@[simp] theorem word_clrbuf (i : Nat) : word clrbuf i = 0 := by
  cases i <;> rfl

theorem word_setWord (data : Fblk) (i j : Nat) (x : Int) : word (setWord data i x) j = if j = i then x else word data j := by
  cases i with
  | zero => cases j <;> simp [setWord, word]
  | succ i =>
    cases j with
    | zero => simp [setWord, word]
    | succ j =>
      simp only [setWord, word, Nat.add_right_cancel_iff]
      split
      · next same => rw [same, update_self]
      · next other => rw [update_of_ne other]

def SameNodes (v : S5vfs) (s t : S5Bmap.State) : Prop := ∀ r js, js.length ≤ depth r → (tree v t).node r js = (tree v s).node r js

theorem SameNodes.mapping (same : SameNodes v s t) (lbn : Nat) : mapping v t lbn = mapping v s lbn := by
  rw [S5BmapTree.mapping, S5BmapTree.mapping]
  cases found : place v lbn with
  | none => rfl
  | some p => exact same p.1 p.2 (place_length found).le

theorem SameNodes.reaches_iff (same : SameNodes v s t) : (tree v t).Reaches depth b ↔ (tree v s).Reaches depth b := by
  constructor
  · rintro ⟨r, js, short, rfl⟩
    exact ⟨r, js, short, (same r js short).symm⟩
  · rintro ⟨r, js, short, rfl⟩
    exact ⟨r, js, short, same r js short⟩

theorem sameNodes_of (addr : t.ip.iAddr = s.ip.iAddr) (blocks : ∀ b, (tree v s).Reaches depth b → t.fs.fblk b = s.fs.fblk b) : SameNodes v s t := by
  intro r js short
  refine PointerTree.node_congr (by simp only [tree, addr]) (fun r' js' inside _ => ?_) short
  have block := blocks _ ⟨r', js', inside.le, rfl⟩
  funext i
  exact congrArg (word · i) block

section
variable (wellFormed : WellFormed v s F)
include wellFormed

theorem Extends.same (stands : Stands t.fs F) (same : SameNodes v s t)
    (map : t.ip.iMap = s.ip.iMap ∨ t.ip.iMap = none) (size : t.ip.iSize = s.ip.iSize) : Extends v s F lbn t F where
  wellFormed := {
    stands
    apart := fun r is r' is' short short' some_ alike => by
      rw [same r is short] at some_ alike
      rw [same r' is' short'] at alike
      exact wellFormed.apart r is r' is' short short' some_ alike
    used := fun b member reached => wellFormed.used b member (same.reaches_iff.mp reached)
    cached := fun content is_ l inside some_ => by
      rw [same.mapping]
      rw [size] at inside
      rcases map with kept | gone
      · exact wellFormed.cached content (kept ▸ is_) l inside some_
      · rw [gone] at is_
        cases is_ }
  fewer := subset_rfl
  kept r js short _ := same r js short
  new r js short zero some_ := absurd ((same r js short).trans zero) some_
  accounted b member := .inl member

theorem Extends.refl : Extends v s F lbn s F :=
  .same wellFormed wellFormed.stands (fun _ _ _ => rfl) (.inl rfl) rfl

theorem Extends.trans (first : Extends v s F lbn t G) (second : Extends v t G lbn u H) : Extends v s F lbn u H where
  wellFormed := second.wellFormed
  fewer := second.fewer.trans first.fewer
  kept r js short some_ := by
    have middle := first.kept r js short some_
    exact (second.kept r js short (middle ▸ some_)).trans middle
  new r js short zero some_ := by
    by_cases missing : (tree v t).node r js = 0
    · obtain ⟨member, way_⟩ := second.new r js short missing some_
      exact ⟨first.fewer member, way_⟩
    · rw [second.kept r js short missing]
      exact first.new r js short zero missing
  accounted b member := by
    rcases first.accounted b member with free | ⟨r, js, short, rfl⟩
    · exact second.accounted b free
    · exact .inr ⟨r, js, short, second.kept r js short (wellFormed.stands.nonzero member)⟩

theorem Extends.grown (member : nb ∈ F) (stands : Stands t.fs (F.erase nb))
    (grown : PointerTree.Grown (tree v s) (tree v t) depth r js nb) (zero : (tree v s).node r js = 0) (found : place v lbn = some (r, is))
    (onWay : js <+: is) (map : t.ip.iMap = s.ip.iMap) (size : t.ip.iSize = s.ip.iSize) : Extends v s F lbn t (F.erase nb) := by
  have short : js.length ≤ depth r := by
    rw [← place_length found]
    exact onWay.length_le
  have kept : ∀ r' js', js'.length ≤ depth r' → (tree v s).node r' js' ≠ 0 → (tree v t).node r' js' = (tree v s).node r' js' :=
    fun r' js' inside some_ => grown.kept zero inside some_
  have nonzero : ∀ b ∈ F, b ≠ 0 := fun b inside => wellFormed.stands.nonzero inside
  constructor
  · constructor
    · exact stands
    · exact grown.apart wellFormed.apart (wellFormed.used nb member)
    · intro b inside reached
      obtain ⟨other, free⟩ := Finset.mem_erase.mp inside
      rcases (grown.reaches_iff zero short (nonzero b free)).mp reached with same | old
      · exact other same
      · exact wellFormed.used b free old
    · intro content is_ l inside some_
      rw [map] at is_
      rw [size] at inside
      have told := wellFormed.cached content is_ l inside some_
      rw [told] at some_ ⊢
      unfold mapping at some_ ⊢
      cases at_ : place v l with
      | none => rfl
      | some p =>
        rw [at_] at some_
        exact (kept p.1 p.2 (place_length at_).le some_).symm
  · exact Finset.erase_subset ..
  · exact kept
  · intro r' js' inside none_ some_
    by_cases here : r' = r ∧ js' = js
    · rw [here.1, here.2, grown.here short]
      exact ⟨member, is, found, onWay⟩
    · rw [grown.other inside here] at some_
      exact absurd none_ some_
  · intro b inside
    by_cases here : b = nb
    · exact .inr ⟨r, js, short, (grown.here short).trans here.symm⟩
    · exact .inl (Finset.mem_erase.mpr ⟨here, inside⟩)

theorem lost_same (member : nb ∈ F) (stands : Stands t.fs G) (absent : nb ∉ G) (same : SameNodes v s t) :
    Lost v F t :=
  ⟨G, stands, nb, member, absent, fun reached => wellFormed.used nb member (same.reaches_iff.mp reached)⟩

end

theorem Lost.before (first : Extends v s F lbn t G) (lost : Lost v G u) : Lost v F u := by
  obtain ⟨H, stands, b, member, absent, unreached⟩ := lost
  exact ⟨H, stands, b, first.fewer member, absent, unreached⟩

theorem Extends.mapping_kept (extends_ : Extends v s F lbn t G) (some_ : mapping v s l ≠ 0) : mapping v t l = mapping v s l := by
  unfold mapping at some_ ⊢
  cases at_ : place v l with
  | none => rfl
  | some p =>
    rw [at_] at some_
    exact extends_.kept p.1 p.2 (place_length at_).le some_

theorem Extends.mapping_other (extends_ : Extends v s F lbn t G) (other : l ≠ lbn) : mapping v t l = mapping v s l := by
  by_cases zero : mapping v s l = 0
  · rw [zero]
    by_contra some_
    unfold mapping at zero some_
    cases at_ : place v l with
    | none => exact some_ (by rw [at_]; rfl)
    | some p =>
      rw [at_] at zero some_
      obtain ⟨_, is, found, onWay⟩ := extends_.new p.1 p.2 (place_length at_).le zero some_
      have full : p.2 = is := onWay.eq_of_length (by rw [place_length at_, place_length found])
      exact other (place_injective (by rw [at_, ← full]) found)
  · exact extends_.mapping_kept zero

end Svr4.Proofs.S5BmapTree
