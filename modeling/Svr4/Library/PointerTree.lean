import Mathlib

/-! Trees that hang on a row of roots: a node is found by its root and the way down to it, and no node is
pointed to twice. The null pointer is 0. -/

namespace Svr4.Library
open Function

variable {ρ ι α : Type*} [Zero α]

structure PointerTree (ρ ι α : Type*) where
  root : ρ → α
  child : α → ι → α

namespace PointerTree

/-- There is nothing below the null pointer. -/
def below [DecidableEq α] (t : PointerTree ρ ι α) (a : α) (i : ι) : α := if a = 0 then 0 else t.child a i

/-- The node at the end of the way `is`. -/
def node [DecidableEq α] (t : PointerTree ρ ι α) (r : ρ) (is : List ι) : α := is.foldl t.below (t.root r)

variable [DecidableEq α] {depth : ρ → Nat} {t t' : PointerTree ρ ι α} {r r' : ρ} {is js : List ι} {i : ι} {a b : α}

@[simp] theorem node_nil (t : PointerTree ρ ι α) (r : ρ) : t.node r [] = t.root r := rfl

theorem node_snoc (t : PointerTree ρ ι α) (r : ρ) (is : List ι) (i : ι) : t.node r (is ++ [i]) = t.below (t.node r is) i := List.foldl_concat ..

/-- What is above a node is not null. -/
theorem node_above (some_ : t.node r (is ++ js) ≠ 0) : t.node r is ≠ 0 := by
  induction js using List.reverseRecOn with
  | nil => simpa using some_
  | append_singleton js j ih =>
    refine ih fun zero => some_ ?_
    rw [← List.append_assoc, node_snoc, zero, below, if_pos rfl]

theorem node_under (zero : t.node r is = 0) (js : List ι) : t.node r (is ++ js) = 0 := by
  by_contra some_
  exact node_above some_ zero

/-- No node within `depth` is pointed to twice. -/
def Apart (t : PointerTree ρ ι α) (depth : ρ → Nat) : Prop :=
  ∀ r is r' is', is.length ≤ depth r → is'.length ≤ depth r' → t.node r is ≠ 0 → t.node r is = t.node r' is' → r = r' ∧ is = is'

def Reaches (t : PointerTree ρ ι α) (depth : ρ → Nat) (a : α) : Prop := ∃ r is, is.length ≤ depth r ∧ t.node r is = a

/-- The tree where only what no node within `depth` holds is different. -/
theorem node_congr (roots : t'.root = t.root)
    (same : ∀ r is, is.length < depth r → t.node r is ≠ 0 → t'.child (t.node r is) = t.child (t.node r is)) (short : is.length ≤ depth r) :
    t'.node r is = t.node r is := by
  induction is using List.reverseRecOn with
  | nil => rw [node_nil, node_nil, roots]
  | append_singleton is i ih =>
    rw [List.length_append, List.length_singleton] at short
    rw [node_snoc, node_snoc, ih (by omega), below, below]
    split
    · rfl
    · next some_ => rw [same r is (by omega) some_]

variable [DecidableEq ρ] [DecidableEq ι]

/-- `t'` is `t` with a new node `b` at the end of the way `is`. -/
def Grown (t t' : PointerTree ρ ι α) (depth : ρ → Nat) (r : ρ) (is : List ι) (b : α) : Prop :=
  ∀ r' js, js.length ≤ depth r' → t'.node r' js = if r' = r ∧ js = is then b else t.node r' js

section
variable (grown : Grown t t' depth r is b)
include grown

theorem Grown.here (short : is.length ≤ depth r) : t'.node r is = b := by
  rw [grown r is short, if_pos ⟨rfl, rfl⟩]

theorem Grown.other (short : js.length ≤ depth r') (other : ¬(r' = r ∧ js = is)) :
    t'.node r' js = t.node r' js := by
  rw [grown r' js short, if_neg other]

theorem Grown.kept (zero : t.node r is = 0) (short : js.length ≤ depth r') (some_ : t.node r' js ≠ 0) :
    t'.node r' js = t.node r' js :=
  grown.other short fun same => some_ (by rw [same.1, same.2, zero])

theorem Grown.reaches_iff (zero : t.node r is = 0) (short : is.length ≤ depth r) (some_ : a ≠ 0) :
    t'.Reaches depth a ↔ a = b ∨ t.Reaches depth a := by
  constructor
  · rintro ⟨r', js, inside, rfl⟩
    by_cases same : r' = r ∧ js = is
    · exact .inl (by rw [same.1, same.2, grown.here short])
    · exact .inr ⟨r', js, inside, (grown.other inside same).symm⟩
  · rintro (rfl | ⟨r', js, inside, rfl⟩)
    · exact ⟨r, is, short, grown.here short⟩
    · exact ⟨r', js, inside, grown.kept zero inside some_⟩

theorem Grown.apart (apart : t.Apart depth) (fresh : ¬t.Reaches depth b) : t'.Apart depth := by
  intro r₁ is₁ r₂ is₂ short₁ short₂ some_ same
  rw [grown r₁ is₁ short₁] at some_ same
  rw [grown r₂ is₂ short₂] at same
  split at same <;> split at same
  · next first second => exact ⟨first.1.trans second.1.symm, first.2.trans second.2.symm⟩
  · exact absurd ⟨r₂, is₂, short₂, same.symm⟩ fresh
  · exact absurd ⟨r₁, is₁, short₁, same⟩ fresh
  · next other _ =>
    rw [if_neg other] at some_
    exact apart r₁ is₁ r₂ is₂ short₁ short₂ some_ same

end

/-- A new node with nothing below it, as a root. -/
theorem grown_root (zero : t.root r = 0) (fresh : ¬t.Reaches depth b) (roots : t'.root = update t.root r b) (empty : 0 < depth r → ∀ i, t'.child b i = 0)
    (same : ∀ a, a ≠ b → t'.child a = t.child a) : Grown t t' depth r [] b := by
  intro r' js short
  induction js using List.reverseRecOn with
  | nil =>
    rw [node_nil, node_nil, roots]
    by_cases here : r' = r
    · rw [here, update_self, if_pos ⟨rfl, rfl⟩]
    · rw [update_of_ne here, if_neg fun both => here both.1]
  | append_singleton js j ih =>
    rw [List.length_append, List.length_singleton] at short
    rw [if_neg (by simp), node_snoc, node_snoc, ih (by omega)]
    split
    · next here =>
      obtain ⟨rfl, rfl⟩ := here
      rw [node_nil, zero, below, below, if_pos rfl, empty (by omega), ite_self]
    · have other : t.node r' js ≠ b := fun is_ => fresh ⟨r', js, by omega, is_⟩
      rw [below, below, same _ other]

/-- A new node with nothing below it, in a place of the node `a`. -/
theorem grown_child (apart : t.Apart depth) (at_ : t.node r is = a) (some_ : a ≠ 0) (short : is.length < depth r) (zero : t.child a i = 0)
    (fresh : ¬t.Reaches depth b) (roots : t'.root = t.root) (empty : is.length + 1 < depth r → ∀ j, t'.child b j = 0)
    (parent : t'.child a = update (t.child a) i b) (same : ∀ c, c ≠ a → c ≠ b → t'.child c = t.child c) : Grown t t' depth r (is ++ [i]) b := by
  intro r' js inside
  induction js using List.reverseRecOn with
  | nil => rw [node_nil, node_nil, roots, if_neg (by simp)]
  | append_singleton js j ih =>
    rw [List.length_append, List.length_singleton] at inside
    rw [node_snoc, node_snoc, ih (by omega)]
    split
    · next here =>
      -- Below the new node nothing was found before either.
      obtain ⟨rfl, rfl⟩ := here
      rw [List.length_append, List.length_singleton] at inside
      rw [if_neg (by simp), node_snoc, at_, below, below, below, if_neg some_, zero, if_pos rfl, empty (by omega), ite_self]
    · next elsewhere =>
      by_cases null : t.node r' js = 0
      · have outside : ¬(r' = r ∧ js ++ [j] = is ++ [i]) := by
          rintro ⟨rfl, alike⟩
          obtain ⟨rfl, _⟩ := List.append_inj' alike rfl
          exact some_ (at_.symm.trans null)
        rw [if_neg outside, null, below, below, if_pos rfl, if_pos rfl]
      · by_cases parent_ : t.node r' js = a
        · obtain ⟨rfl, rfl⟩ := apart r' js r is (by omega) (by omega) null (parent_.trans at_.symm)
          rw [below, below, if_neg null, if_neg null, at_, parent]
          by_cases place : j = i
          · rw [place, update_self, if_pos ⟨rfl, rfl⟩]
          · rw [update_of_ne place, if_neg (by simpa using place)]
        · have outside : ¬(r' = r ∧ js ++ [j] = is ++ [i]) := by
            rintro ⟨rfl, alike⟩
            obtain ⟨rfl, _⟩ := List.append_inj' alike rfl
            exact parent_ at_
          rw [if_neg outside, below, below, same _ parent_ fun is_ => fresh ⟨r', js, by omega, is_⟩]

end PointerTree

end Svr4.Library
