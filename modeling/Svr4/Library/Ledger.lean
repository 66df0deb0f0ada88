import Mathlib

/-! Ledgers: entries in increasing order of their keys, no two with one key. The
balance of a key is the value of its entry, and zero for a key without one, so a
ledger without zero entries is determined by its balances. -/

namespace Svr4.Ledger
variable {α κ : Type*} [LinearOrder κ] (key : α → κ) (value : α → Int)

def Sorted (l : List α) : Prop := l.Pairwise (fun first second => key first < key second)

@[grind =] def balance : List α → κ → Int
  | [], _ => 0
  | e :: l, k => (if key e = k then value e else 0) + balance l k

@[simp] theorem balance_nil (k : κ) : balance key value [] k = 0 := rfl

theorem balance_append (l l' : List α) (k : κ) :
    balance key value (l ++ l') k = balance key value l k + balance key value l' k := by
  induction l with
  | nil => simp
  | cons e l ih => simp only [List.cons_append, balance, ih, add_assoc]

variable {key value}

theorem balance_absent {l : List α} {k : κ} (absent : ∀ e ∈ l, key e ≠ k) : balance key value l k = 0 := by
  induction l with
  | nil => rfl
  | cons e l ih =>
    rw [balance, if_neg (absent e (by simp)), ih (fun other member => absent other (by simp [member]))]
    rfl

theorem Sorted.tail {e : α} {l : List α} (sorted : Sorted key (e :: l)) : Sorted key l := List.Pairwise.of_cons sorted

theorem Sorted.head {e : α} {l : List α} (sorted : Sorted key (e :: l)) : ∀ other ∈ l, key e < key other :=
  fun _ member => List.rel_of_pairwise_cons sorted member

theorem balance_head {e : α} {l : List α} (sorted : Sorted key (e :: l)) : balance key value (e :: l) (key e) = value e := by
  have absent : balance key value l (key e) = 0 := balance_absent (fun other member => (sorted.head other member).ne')
  rw [balance, if_pos rfl, absent, add_zero]

theorem balance_other {e : α} {l : List α} {k : κ} (other : key e ≠ k) :
    balance key value (e :: l) k = balance key value l k := by
  rw [balance, if_neg other, zero_add]

/-- The entries are just the keys whose balance is not zero. -/
theorem mem_keys {l : List α} (sorted : Sorted key l) (nonzero : ∀ e ∈ l, value e ≠ 0) (k : κ) :
    balance key value l k ≠ 0 ↔ ∃ e ∈ l, key e = k := by
  induction l with
  | nil => simp
  | cons e l ih =>
    by_cases here : key e = k
    · subst here
      rw [balance_head sorted]
      exact ⟨fun _ => ⟨e, by simp, rfl⟩, fun _ => nonzero e (by simp)⟩
    · rw [balance_other here, ih sorted.tail (fun other member => nonzero other (by simp [member]))]
      simp [here]

/-- Two ledgers without zero entries and with the same balances are equal. -/
theorem ext_balance (exact_ : ∀ a b : α, key a = key b → value a = value b → a = b) {l l' : List α}
    (sorted : Sorted key l) (sorted' : Sorted key l') (nonzero : ∀ e ∈ l, value e ≠ 0)
    (nonzero' : ∀ e ∈ l', value e ≠ 0) (same : ∀ k, balance key value l k = balance key value l' k) : l = l' := by
  induction l generalizing l' with
  | nil =>
    cases l' with
    | nil => rfl
    | cons e' l' =>
      have zero := same (key e')
      rw [balance_head sorted', balance_nil] at zero
      exact absurd zero.symm (nonzero' e' (by simp))
  | cons e l ih =>
    cases l' with
    | nil =>
      have zero := same (key e)
      rw [balance_head sorted, balance_nil] at zero
      exact absurd zero (nonzero e (by simp))
    | cons e' l' =>
      -- Each head's key is in the other ledger, so neither comes first.
      have first : key e' ≤ key e := by
        have present := (mem_keys sorted' nonzero' (key e)).mp
          (by rw [← same, balance_head sorted]; exact nonzero e (by simp))
        obtain ⟨other, member, equal⟩ := present
        rcases List.mem_cons.mp member with rfl | later
        · exact equal.le
        · exact equal ▸ (sorted'.head other later).le
      have second : key e ≤ key e' := by
        have present := (mem_keys sorted nonzero (key e')).mp
          (by rw [same, balance_head sorted']; exact nonzero' e' (by simp))
        obtain ⟨other, member, equal⟩ := present
        rcases List.mem_cons.mp member with rfl | later
        · exact equal.le
        · exact equal ▸ (sorted.head other later).le
      have keys : key e = key e' := second.antisymm first
      have values : value e = value e' := by
        have := same (key e)
        rwa [balance_head sorted, keys, balance_head sorted'] at this
      obtain rfl := exact_ e e' keys values
      have rest : l = l' := by
        apply ih sorted.tail sorted'.tail (fun other member => nonzero other (by simp [member]))
          (fun other member => nonzero' other (by simp [member]))
        intro k
        have := same k
        simpa only [balance, add_right_inj] using this
      rw [rest]

section split
variable {before after : List α} {e : α} {k : κ}

variable (key) in
/-- A ledger cut at a key: the entries before it, and those from it on. -/
structure Cut (before after : List α) (k : κ) : Prop where
  below : ∀ e ∈ before, key e < k
  above : ∀ e ∈ after, k < key e

theorem Cut.absent (cut : Cut key before after k) : balance key value (before ++ after) k = 0 := by
  apply balance_absent
  intro e member
  rcases List.mem_append.mp member with low | high
  · exact (cut.below e low).ne
  · exact (cut.above e high).ne'

theorem Cut.insert (cut : Cut key before after (key e)) (sorted : Sorted key (before ++ after)) :
    Sorted key (before ++ e :: after) := by
  obtain ⟨low, high, _⟩ := List.pairwise_append.mp sorted
  refine List.pairwise_append.mpr ⟨low, List.pairwise_cons.mpr ⟨cut.above, high⟩, ?_⟩
  intro a left b right
  rcases List.mem_cons.mp right with rfl | later
  · exact cut.below a left
  · exact (cut.below a left).trans (cut.above b later)

/-- An entry changes the balance of its own key only. -/
theorem balance_middle (before after : List α) (e : α) (k : κ) :
    balance key value (before ++ e :: after) k = (if key e = k then value e else 0) + balance key value (before ++ after) k := by
  rw [balance_append, balance_append, balance]
  ring

theorem Sorted.cut (sorted : Sorted key (before ++ e :: after)) : Cut key before after (key e) := by
  obtain ⟨_, high, across⟩ := List.pairwise_append.mp sorted
  exact ⟨fun a low => across a low e (by simp), fun b later => List.rel_of_pairwise_cons high later⟩

theorem Sorted.erase (sorted : Sorted key (before ++ e :: after)) : Sorted key (before ++ after) := by
  apply List.Pairwise.sublist _ sorted
  exact (List.sublist_cons_self e after).append_left before

end split

end Svr4.Ledger
