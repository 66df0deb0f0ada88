import Svr4.Library.Positional
import Svr4.Mp

/-! The loops over digits: what is at a pointer, and that a loop settles its terms into the block it writes. -/

namespace Svr4.Proofs.MpDigits
open Function Mp Positional

def Holds (h : Heap) : Ptr → List Int → Prop
  | .block p, ds => ∃ junk, h.block p = some (ds ++ junk)
  | .one, ds => ds = [1]

def Besides (h h' : Heap) (p : Nat) : Prop := ∀ q, q ≠ p → h'.block q = h.block q

variable {h h' h'' : Heap} {p i j offset : Nat} {a : Ptr} {ds pre old post terms : List Int} {x : Int}
  {step : Heap → Nat → Int → Except Fault (Int × Int)} {f : Int → Int → Int × Int} {Good : Int → Prop} {c : Int}

theorem Besides.refl : Besides h h p := fun _ _ => rfl

theorem Besides.trans (first : Besides h h' p) (second : Besides h' h'' p) : Besides h h'' p :=
  fun q other => (second q other).trans (first q other)

theorem Holds.besides (held : Holds h a ds) (kept : Besides h h' p) (other : a ≠ .block p) : Holds h' a ds := by
  cases a with
  | block q =>
    obtain ⟨junk, at_⟩ := held
    exact ⟨junk, (kept q fun same => other (congrArg Ptr.block same)).trans at_⟩
  | one => exact held

theorem load_holds (held : Holds h a ds) (inside : j < ds.length) : load h a j = .ok ds[j] := by
  cases a with
  | block q =>
    obtain ⟨junk, at_⟩ := held
    simp [load, at_, List.getElem?_append_left inside, inside]
  | one =>
    obtain rfl : ds = [1] := held
    obtain rfl : j = 0 := by simpa using inside
    rfl

theorem load_at (held : h.block p = some (pre ++ x :: post)) (place : pre.length = j) : load h (.block p) j = .ok x := by
  have at_ : Holds h (.block p) (pre ++ [x]) := ⟨post, by simp [held]⟩
  rw [load_holds at_ (by simp [place])]
  simp [← place]

theorem store_done (held : h.block p = some (pre ++ x :: post)) (place : pre.length = j) {y : Int} (short : -2 ^ 15 ≤ y ∧ y < 2 ^ 15) :
    ∃ h', store h (.block p) j y = .ok h' ∧ h'.block p = some (pre ++ y :: post) ∧ Besides h h' p := by
  refine ⟨h.write p j y, ?_, ?_, fun q other => by simp [Heap.write, other]⟩
  · rw [store, if_pos short, held, if_pos]
    simp [← place]
  · simp [Heap.write, held, ← place]

theorem digits_done (held : h.block p = some (pre ++ old ++ post)) (place : pre.length = offset + i) (same : old.length = terms.length)
    (steps : ∀ h' pre' j c, (inside : j < terms.length) → Besides h h' p → h'.block p = some (pre' ++ (old ++ post).drop j) →
      pre'.length = offset + i + j → Good c → step h' (i + j) c = .ok (f c terms[j]))
    (keeps : ∀ c, Good c → ∀ t ∈ terms, Good (f c t).2) (short : ∀ c, Good c → ∀ t ∈ terms, -2 ^ 15 ≤ (f c t).1 ∧ (f c t).1 < 2 ^ 15)
    (good : Good c) :
    ∃ h', digits step (.block p) offset terms.length i c h = .ok (h', (settle f c terms).2) ∧
      h'.block p = some (pre ++ (settle f c terms).1 ++ post) ∧ Besides h h' p := by
  induction terms generalizing h i pre old c with
  | nil =>
    rw [List.length_nil, List.length_eq_zero_iff] at same
    exact ⟨h, rfl, by rw [held, same]; rfl, .refl⟩
  | cons t terms ih =>
    obtain ⟨o, old, rfl⟩ := List.exists_cons_of_length_pos (by rw [same]; exact Nat.succ_pos _)
    have here := steps h pre 0 c (Nat.succ_pos _) .refl (by rw [held]; simp) (by simpa using place) good
    have held' : h.block p = some (pre ++ o :: (old ++ post)) := by rw [held]; simp
    obtain ⟨h₁, stored, held₁, kept₁⟩ := store_done held' place (short c good t List.mem_cons_self)
    have held₁' : h₁.block p = some ((pre ++ [(f c t).1]) ++ old ++ post) := by rw [held₁]; simp
    obtain ⟨h₂, run, held₂, kept₂⟩ := ih held₁' (show _ = offset + (i + 1) by simp [place]; omega) (by simpa using same)
      (fun h' pre' j c inside kept held place good => by
        have := steps h' pre' (j + 1) c (Nat.succ_lt_succ inside) (kept₁.trans kept) (by simpa using held) (by omega) good
        rwa [show i + (j + 1) = i + 1 + j by omega] at this)
      (fun c good t later => keeps c good t (List.mem_cons_of_mem _ later))
      (fun c good t later => short c good t (List.mem_cons_of_mem _ later)) (keeps c good t List.mem_cons_self)
    refine ⟨h₂, ?_, by rw [held₂, settle]; simp, kept₁.trans kept₂⟩
    have here : step h i c = .ok (f c t) := here
    rw [List.length_cons, digits, here]
    show (do
      let h ← store h (.block p) (offset + i) (f c t).1
      digits step (.block p) offset terms.length (i + 1) (f c t).2 h) = _
    rw [stored]
    exact run

section terms

variable {b : Ptr} {xs ys cs : List Int} {e m : Int}

theorem settle_map {g : Int → Int} : settle (fun c t => (g t, c)) c terms = (terms.map g, c) := by
  induction terms with
  | nil => rfl
  | cons t terms ih => rw [settle, ih, List.map_cons]

theorem carried_exact (sign : e = 1 ∧ 0 ≤ x ∧ x ≤ 65535 ∨ e = -1 ∧ -32768 ≤ x ∧ x ≤ 32767) :
    (carried x e).1 + 32768 * (carried x e).2 = x ∧ (0 ≤ (carried x e).1 ∧ (carried x e).1 ≤ 32768 - 1) ∧
      ((carried x e).2 = 0 ∨ (carried x e).2 = e) := by
  unfold carried
  split_ifs with large <;> unfold overflows at large <;> dsimp only <;> omega

theorem carried_rest (sign : e = 1 ∨ e = -1) (carry : c = 0 ∨ c = e) (digit : 0 ≤ x ∧ x ≤ 32768 - 1) :
    (carried (c + x) c).1 + 32768 * (carried (c + x) c).2 = c + x ∧
      (0 ≤ (carried (c + x) c).1 ∧ (carried (c + x) c).1 ≤ 32768 - 1) ∧ ((carried (c + x) c).2 = 0 ∨ (carried (c + x) c).2 = e) := by
  unfold carried
  split_ifs with large <;> unfold overflows at large <;> dsimp only <;> omega

theorem int_fits (low : -2 ^ 31 ≤ x) (high : x < 2 ^ 31) : int x = .ok x := if_pos ⟨low, high⟩

theorem rest_step (held : Holds h a xs) (digits_ : Digits 32768 xs) (inside : j < xs.length) (small : -32768 ≤ c ∧ c ≤ 32768) :
    add_rest a h j c = .ok (carried (c + xs[j]) c) := by
  have digit := digits_ _ (List.getElem_mem inside)
  simp only [add_rest, load_holds held inside, bind, Except.bind, int_fits (show -2 ^ 31 ≤ c + xs[j] by omega) (by omega)]

theorem loops_done {both : Heap → Nat → Int → Except Fault (Int × Int)} (sign : e = 1 ∨ e = -1) (held : xs ≠ [] → Holds h a xs)
    (other : xs ≠ [] → a ≠ .block p) (digits_ : Digits 32768 xs) (room : h.block p = some cs) (fits : xs.length ≤ cs.length)
    (shorter : terms.length ≤ xs.length)
    (range : ∀ t ∈ terms, e = 1 ∧ 0 ≤ t ∧ t ≤ 65534 ∨ e = -1 ∧ -32767 ≤ t ∧ t ≤ 32767)
    (steps : ∀ h' j c, (inside : j < terms.length) → Besides h h' p → (c = 0 ∨ c = e) → both h' j c = .ok (carried (c + terms[j]) e)) :
    ∃ h₁ c₁ h₂ c₂ ds, digits both (.block p) 0 terms.length 0 0 h = .ok (h₁, c₁) ∧
      digits (add_rest a) (.block p) 0 (xs.length - terms.length) terms.length c₁ h₁ = .ok (h₂, c₂) ∧
      h₂.block p = some (ds ++ cs.drop xs.length) ∧ Besides h h₂ p ∧ ds.length = xs.length ∧ Digits 32768 ds ∧ (c₂ = 0 ∨ c₂ = e) ∧
      value 32768 ds + 32768 ^ xs.length * c₂ = value 32768 terms + 32768 ^ terms.length * value 32768 (xs.drop terms.length) := by
  have range' : ∀ c, c = 0 ∨ c = e → ∀ t ∈ terms, e = 1 ∧ 0 ≤ c + t ∧ c + t ≤ 65535 ∨ e = -1 ∧ -32768 ≤ c + t ∧ c + t ≤ 32767 := by
    intro c carry t member
    have := range t member
    omega
  have keeps₁ : ∀ c, c = 0 ∨ c = e → ∀ t ∈ terms, (carried (c + t) e).2 = 0 ∨ (carried (c + t) e).2 = e :=
    fun c carry t member => (carried_exact (range' c carry t member)).2.2
  have digit₁ : ∀ c, c = 0 ∨ c = e → ∀ t ∈ terms, 0 ≤ (carried (c + t) e).1 ∧ (carried (c + t) e).1 ≤ 32768 - 1 :=
    fun c carry t member => (carried_exact (range' c carry t member)).2.1
  have start : h.block p = some ([] ++ cs.take terms.length ++ cs.drop terms.length) := by simpa using room
  obtain ⟨h₁, run₁, held₁, kept₁⟩ := digits_done start (show _ = 0 + 0 from rfl) (by simp; omega)
    (fun h' pre' j c inside kept held place carry => by simpa using steps h' j c inside kept carry)
    keeps₁ (fun c carry t member => by have := digit₁ c carry t member; omega) (.inl rfl)
  have carry₁ : (settle (fun c t => carried (c + t) e) 0 terms).2 = 0 ∨ (settle (fun c t => carried (c + t) e) 0 terms).2 = e :=
    settle_carry keeps₁ (.inl rfl)
  have value₁ := settle_value keeps₁ (fun c carry t member => (carried_exact (range' c carry t member)).1) (.inl rfl)
  have digits₁ : ∀ d ∈ (settle (fun c t => carried (c + t) e) 0 terms).1, 0 ≤ d ∧ d ≤ 32768 - 1 :=
    settle_digits keeps₁ digit₁ (.inl rfl)
  have size₁ : (settle (fun c t => carried (c + t) e) 0 terms).1.length = terms.length := settle_length
  generalize settle (fun c t => carried (c + t) e) 0 terms = r₁ at run₁ held₁ carry₁ value₁ digits₁ size₁
  have rest : ∀ t ∈ xs.drop terms.length, 0 ≤ t ∧ t ≤ 32768 - 1 := fun t member => digits_ t (List.mem_of_mem_drop member)
  have keeps₂ : ∀ c, c = 0 ∨ c = e → ∀ t ∈ xs.drop terms.length, (carried (c + t) c).2 = 0 ∨ (carried (c + t) c).2 = e :=
    fun c carry t member => (carried_rest sign carry (rest t member)).2.2
  have digit₂ : ∀ c, c = 0 ∨ c = e → ∀ t ∈ xs.drop terms.length, 0 ≤ (carried (c + t) c).1 ∧ (carried (c + t) c).1 ≤ 32768 - 1 :=
    fun c carry t member => (carried_rest sign carry (rest t member)).2.1
  have split : cs.drop terms.length = (cs.drop terms.length).take (xs.length - terms.length) ++ cs.drop xs.length := by
    have parts := List.take_append_drop (xs.length - terms.length) (cs.drop terms.length)
    rw [List.drop_drop, Nat.add_sub_cancel' shorter] at parts
    exact parts.symm
  have next : h₁.block p = some (r₁.1 ++ (cs.drop terms.length).take (xs.length - terms.length) ++ cs.drop xs.length) := by
    rw [held₁, List.nil_append, List.append_assoc, ← split]
  have steps₂ : ∀ h' j c, (inside : j < (xs.drop terms.length).length) → Besides h₁ h' p → (c = 0 ∨ c = e) →
      add_rest a h' (terms.length + j) c = .ok (carried (c + (xs.drop terms.length)[j]) c) := by
    intro h' j c inside kept carry
    have within : terms.length + j < xs.length := by
      rw [List.length_drop] at inside
      omega
    have some_ : xs ≠ [] := List.ne_nil_of_length_pos (by omega)
    rw [rest_step ((held some_).besides (kept₁.trans kept) (other some_)) digits_ within (by omega), List.getElem_drop]
  obtain ⟨h₂, run₂, held₂, kept₂⟩ := digits_done next (show _ = 0 + terms.length by simpa using size₁)
    (show _ = (xs.drop terms.length).length by simp; omega)
    (fun h' _ j c inside kept _ _ carry => steps₂ h' j c inside kept carry)
    keeps₂ (fun c carry t member => by have := digit₂ c carry t member; omega) carry₁
  have value₂ := settle_value keeps₂ (fun c carry t member => (carried_rest sign carry (rest t member)).1) carry₁
  have carry₂ := settle_carry keeps₂ carry₁
  have digits₂ : ∀ d ∈ (settle (fun c t => carried (c + t) c) r₁.2 (xs.drop terms.length)).1, 0 ≤ d ∧ d ≤ 32768 - 1 :=
    settle_digits keeps₂ digit₂ carry₁
  refine ⟨h₁, r₁.2, h₂, _, r₁.1 ++ (settle (fun c t => carried (c + t) c) r₁.2 (xs.drop terms.length)).1, run₁, ?_, held₂,
    kept₁.trans kept₂, ?_, ?_, carry₂, ?_⟩
  · rwa [List.length_drop] at run₂
  · rw [List.length_append, settle_length, size₁, List.length_drop, Nat.add_sub_cancel' shorter]
  · exact List.forall_mem_append.mpr ⟨digits₁, digits₂⟩
  · rw [value_append, size₁]
    rw [List.length_drop] at value₂
    have power : (32768 : Int) ^ xs.length = 32768 ^ terms.length * 32768 ^ (xs.length - terms.length) := by
      rw [← pow_add, Nat.add_sub_cancel' shorter]
    rw [power]
    linear_combination value₁ + 32768 ^ terms.length * value₂

structure Settled (h h' : Heap) (p : Nat) (cs ds : List Int) (carry total : Int) (n : Nat) : Prop where
  held : h'.block p = some (ds ++ cs.drop n)
  kept : Besides h h' p
  size : ds.length = n
  digits : Digits 32768 ds
  exact_ : value 32768 ds + 32768 ^ n * carry = total

theorem mem_zip {g : Int → Int → Int} {t : Int} (digits_ : Digits 32768 xs) (digits' : Digits 32768 ys)
    (member : t ∈ (xs.take ys.length).zipWith g ys) : ∃ x y, t = g x y ∧ (0 ≤ x ∧ x ≤ 32768 - 1) ∧ 0 ≤ y ∧ y ≤ 32768 - 1 := by
  obtain ⟨i, inside, rfl⟩ := List.getElem_of_mem member
  rw [List.getElem_zipWith]
  exact ⟨_, _, rfl, digits_ _ (List.mem_of_mem_take (List.getElem_mem _)), digits' _ (List.getElem_mem _)⟩

theorem value_take_drop (n : Nat) (le : n ≤ xs.length) :
    value 32768 (xs.take n) + 32768 ^ n * value 32768 (xs.drop n) = value (32768 : Int) xs := by
  have parts := value_append (32768 : Int) (xs.take n) (xs.drop n)
  rw [List.take_append_drop, List.length_take_of_le le] at parts
  exact parts.symm

section

variable (held : xs ≠ [] → Holds h a xs) (held' : ys ≠ [] → Holds h b ys) (other : xs ≠ [] → a ≠ .block p)
    (other' : ys ≠ [] → b ≠ .block p) (digits_ : Digits 32768 xs)
  (digits' : Digits 32768 ys) (shorter : ys.length ≤ xs.length) (room : h.block p = some cs) (fits : xs.length ≤ cs.length)

include held held' other other' digits_ digits' shorter room fits

theorem add_done : ∃ h₁ c₁ h₂ c₂ ds, digits (add_both a b) (.block p) 0 ys.length 0 0 h = .ok (h₁, c₁) ∧
    digits (add_rest a) (.block p) 0 (xs.length - ys.length) ys.length c₁ h₁ = .ok (h₂, c₂) ∧ (c₂ = 0 ∨ c₂ = 1) ∧
      Settled h h₂ p cs ds c₂ (value 32768 xs + value 32768 ys) xs.length := by
  have size : ((xs.take ys.length).zipWith (· + ·) ys).length = ys.length := by simp [shorter]
  have steps : ∀ h' j c, (inside : j < ((xs.take ys.length).zipWith (· + ·) ys).length) → Besides h h' p → (c = 0 ∨ c = 1) →
      add_both a b h' j c = .ok (carried (c + ((xs.take ys.length).zipWith (· + ·) ys)[j]) 1) := by
    intro h' j c inside kept carry
    rw [List.getElem_zipWith, List.getElem_take, ← add_assoc]
    rw [size] at inside
    have some_ : xs ≠ [] := List.ne_nil_of_length_pos (by omega)
    have some' : ys ≠ [] := List.ne_nil_of_length_pos (by omega)
    have first := load_holds ((held some_).besides kept (other some_)) (inside.trans_le shorter)
    have second := load_holds ((held' some').besides kept (other' some')) inside
    have digit := digits_ _ (List.getElem_mem (inside.trans_le shorter))
    have digit' := digits' _ (List.getElem_mem inside)
    simp only [add_both, first, second, bind, Except.bind, int_fits (show -2 ^ 31 ≤ c + xs[j] by omega) (by omega),
      int_fits (show -2 ^ 31 ≤ c + xs[j] + ys[j] by omega) (by omega)]
  obtain ⟨h₁, c₁, h₂, c₂, ds, run₁, run₂, held₂, kept, same, digits₂, carry, exact_⟩ :=
    loops_done (.inl rfl) held other digits_ room fits (size.trans_le shorter)
      (fun t member => by
        obtain ⟨x, y, rfl, _, _⟩ := mem_zip digits_ digits' member
        omega)
      steps
  rw [size] at run₁ run₂ exact_
  refine ⟨h₁, c₁, h₂, c₂, ds, run₁, run₂, carry, held₂, kept, same, digits₂, ?_⟩
  rw [exact_, value_add _ (by simp [shorter]), ← value_take_drop ys.length shorter]
  ring

theorem sub_done : ∃ h₁ c₁ h₂ c₂ ds, digits (sub_both a b) (.block p) 0 ys.length 0 0 h = .ok (h₁, c₁) ∧
    digits (add_rest a) (.block p) 0 (xs.length - ys.length) ys.length c₁ h₁ = .ok (h₂, c₂) ∧ (c₂ = 0 ∨ c₂ = -1) ∧
      Settled h h₂ p cs ds c₂ (value 32768 xs - value 32768 ys) xs.length := by
  have size : ((xs.take ys.length).zipWith (· - ·) ys).length = ys.length := by simp [shorter]
  have steps : ∀ h' j c, (inside : j < ((xs.take ys.length).zipWith (· - ·) ys).length) → Besides h h' p → (c = 0 ∨ c = (-1)) →
      sub_both a b h' j c = .ok (carried (c + ((xs.take ys.length).zipWith (· - ·) ys)[j]) (-1)) := by
    intro h' j c inside kept carry
    rw [List.getElem_zipWith, List.getElem_take, ← add_sub_assoc]
    rw [size] at inside
    have some_ : xs ≠ [] := List.ne_nil_of_length_pos (by omega)
    have some' : ys ≠ [] := List.ne_nil_of_length_pos (by omega)
    have first := load_holds ((held some_).besides kept (other some_)) (inside.trans_le shorter)
    have second := load_holds ((held' some').besides kept (other' some')) inside
    have digit := digits_ _ (List.getElem_mem (inside.trans_le shorter))
    have digit' := digits' _ (List.getElem_mem inside)
    simp only [sub_both, first, second, bind, Except.bind, int_fits (show -2 ^ 31 ≤ c + xs[j] by omega) (by omega),
      int_fits (show -2 ^ 31 ≤ c + xs[j] - ys[j] by omega) (by omega)]
  obtain ⟨h₁, c₁, h₂, c₂, ds, run₁, run₂, held₂, kept, same, digits₂, carry, exact_⟩ :=
    loops_done (.inr rfl) held other digits_ room fits (size.trans_le shorter)
      (fun t member => by
        obtain ⟨x, y, rfl, _, _⟩ := mem_zip digits_ digits' member
        omega)
      steps
  rw [size] at run₁ run₂ exact_
  refine ⟨h₁, c₁, h₂, c₂, ds, run₁, run₂, carry, held₂, kept, same, digits₂, ?_⟩
  rw [exact_, value_sub _ (by simp [shorter]), ← value_take_drop ys.length shorter]
  ring

end

theorem copy_done (held : Holds h a ds) (other : a ≠ .block p) (digits_ : Digits 32768 ds) (room : h.block p = some cs)
    (fits : ds.length ≤ cs.length) :
    ∃ h', digits (copy a) (.block p) 0 ds.length 0 0 h = .ok (h', 0) ∧ h'.block p = some (ds ++ cs.drop ds.length) ∧ Besides h h' p := by
  have steps : ∀ h' j c, (inside : j < ds.length) → Besides h h' p → copy a h' j c = .ok (ds[j], c) := by
    intro h' j c inside kept
    rw [copy, load_holds (held.besides kept other) inside]
    rfl
  have start : h.block p = some ([] ++ cs.take ds.length ++ cs.drop ds.length) := by simpa using room
  obtain ⟨h', run, held', kept⟩ := @digits_done _ _ _ _ _ _ _ ds _ (fun c t => (t, c)) (fun _ => True) _ start (show _ = 0 + 0 from rfl)
    (by simp [fits]) (fun h' _ j c inside kept _ _ _ => by simpa using steps h' j c inside kept) (fun _ _ _ _ => trivial)
    (fun _ _ t member => by have := digits_ t member; dsimp only; omega) trivial
  have copied : settle (fun c t => (t, c)) 0 ds = (ds.map fun t => t, 0) := settle_map
  rw [copied] at run held'
  exact ⟨h', run, by simpa using held', kept⟩

theorem complement_done {junk : List Int} (held : h.block p = some (ds ++ junk)) (digits_ : Digits 32768 ds) :
    ∃ h', digits (complement (.block p)) (.block p) 0 ds.length 0 0 h = .ok (h', 0) ∧
      h'.block p = some (ds.map (32768 - 1 - ·) ++ junk) ∧ Besides h h' p := by
  have steps : ∀ h' pre' j c, (inside : j < ds.length) → h'.block p = some (pre' ++ (ds ++ junk).drop j) → pre'.length = j →
      complement (.block p) h' j c = .ok (32768 - 1 - ds[j], c) := by
    intro h' pre' j c inside now place
    have digit := digits_ _ (List.getElem_mem inside)
    rw [List.drop_eq_getElem_cons (by simp; omega), List.getElem_append_left inside] at now
    rw [complement, load_at now place]
    show Except.ok _ = _
    congr 2
    omega
  obtain ⟨h', run, held', kept⟩ := @digits_done _ _ _ _ [] ds junk ds _ (fun c t => (32768 - 1 - t, c))
    (fun _ => True) _ held (show _ = 0 + 0 from rfl) rfl
    (fun h' pre' j c inside _ now place _ => by simpa using steps h' pre' j c inside now (by simpa using place)) (fun _ _ _ _ => trivial)
    (fun _ _ t member => by have := digits_ t member; dsimp only; omega) trivial
  rw [settle_map] at run held'
  exact ⟨h', run, by simpa using held', kept⟩

end terms

end Svr4.Proofs.MpDigits

/-! What a call does besides its result: the copies of the operands in its frame, the old digits of the
result freed, and all other blocks and MINTs as they were. -/

namespace Svr4.Proofs.MpFrame
open Function Mp Positional MpDigits

/-- The MINT at `a` has the digits `ds` and the sign `e`. -/
structure Num (s : Store) (a : Nat) (e : Int) (ds : List Int) : Prop where
  len : (s.mint a).len = e * ds.length
  held : ds ≠ [] → Holds s.heap (s.mint a).val ds
  digits : Digits 32768 ds

def Owns (s : Store) (c q : Nat) : Prop := (s.mint c).len ≠ 0 ∧ (s.mint c).val = .block q

def Owner (s : Store) (c : Nat) : Prop := (s.mint c).len ≠ 0 → ∃ q es, (s.mint c).val = .block q ∧ s.heap.block q = some es

structure Result (s s' : Store) (c sp : Nat) (e : Int) (ds : List Int) : Prop where
  num : Num s' c e ds
  cells : ∀ d < sp, d ≠ c → s'.mint d = s.mint d
  blocks : ∀ q es, s.heap.block q = some es → ¬Owns s c q → s'.heap.block q = some es
  fresh : ∀ q, Owns s' c q → ∀ es, s.heap.block q = some es → Owns s c q
  owner : Owner s' c

variable {malloc : Malloc} {h h' : Heap} {s s' : Store} {a b c d p q sp : Nat} {e e' : Int} {ds es xs ys : List Int}

theorem block_size (held : h.block p = some ds) : ds.length + 4 ≤ 2 ^ 31 := by
  have inside := h.inside p ds held
  have limit := h.limit
  unfold LOWEST at inside
  omega

theorem blocks_size (held : h.block p = some ds) (held' : h.block q = some es) (other : p ≠ q) : ds.length + es.length + 4 ≤ 2 ^ 31 := by
  have inside := h.inside p ds held
  have inside' := h.inside q es held'
  have limit := h.limit
  unfold LOWEST at inside inside'
  rcases Nat.lt_or_gt_of_ne other with before | before
  · have := h.apart p q ds es held held' before
    omega
  · have := h.apart q p es ds held' held before
    omega

theorem holds_size {x : Ptr} (held : Holds h x ds) : ds.length + 4 ≤ 2 ^ 31 := by
  cases x with
  | block p =>
    obtain ⟨junk, at_⟩ := held
    have := block_size at_
    rw [List.length_append] at this
    omega
  | one =>
    obtain rfl : ds = [1] := held
    decide

theorem Num.size (num : Num s a e ds) : ds.length + 4 ≤ 2 ^ 31 := by
  rcases eq_or_ne ds [] with rfl | some_
  · decide
  · exact holds_size (num.held some_)

theorem xalloc_done (malloc : Malloc) (h : Heap) {n : Int} (low : 0 ≤ n) (high : n + 3 ≤ 2 ^ 31) :
    xalloc malloc h n = .error .fatal ∨
      ∃ h' p cs, xalloc malloc h n = .ok (h', .block p) ∧ h.block p = none ∧ h'.block p = some cs ∧ n + 2 ≤ cs.length ∧ Besides h h' p := by
  have bytes : 2 * ((n + 2) % 2 ^ 32) % 2 ^ 32 = 2 * (n + 2) := by omega
  unfold xalloc
  split
  · exact .inl rfl
  · next space _ =>
    refine .inr ⟨h.place space, space.addr, space.contents, rfl, space.unused, update_self .., ?_, fun q other => update_of_ne other ..⟩
    have room := space.room
    omega

def Keeps (h h' : Heap) : Prop := ∀ q es, h.block q = some es → h'.block q = some es

theorem besides_keeps (kept : Besides h h' p) (unused : h.block p = none) : Keeps h h' := by
  intro q es held
  rw [kept q fun same => by simp [same, unused] at held, held]

theorem holds_keeps {x : Ptr} (held : Holds h x ds) (kept : Keeps h h') : Holds h' x ds := by
  cases x with
  | block p =>
    obtain ⟨junk, at_⟩ := held
    exact ⟨junk, kept _ _ at_⟩
  | one => exact held

theorem xfree_done (owner : Owner s c) :
    ∃ s', xfree s c = .ok s' ∧ (s'.mint c).len = 0 ∧ (∀ d, d ≠ c → s'.mint d = s.mint d) ∧
      (∀ q, ¬Owns s c q → s'.heap.block q = s.heap.block q) ∧ ∀ q, Owns s c q → s'.heap.block q = none := by
  unfold xfree
  split
  case isTrue some_ =>
    obtain ⟨p, es, val, held⟩ := owner some_
    have owns : ∀ q, Owns s c q ↔ q = p := fun q => by simp [Owns, some_, val, eq_comm]
    refine ⟨{ mint := update s.mint c { s.mint c with len := 0 }, heap := s.heap.release p }, ?_, by simp,
      fun d other => update_of_ne other .., fun q others => ?_, fun q own => ?_⟩
    · simp [val, free, held, bind, Except.bind]
    · exact update_of_ne (fun same => others ((owns q).mpr same)) ..
    · rw [(owns q).mp own]
      exact update_self ..
  case isFalse none_ =>
    rw [not_not] at none_
    exact ⟨s, rfl, none_, fun _ _ => rfl, fun _ _ => rfl, fun q own => absurd none_ own.1⟩

theorem Num.magnitude (num : Num s a e ds) (sign : e = 1 ∨ e = -1) : magnitude (s.mint a).len = .ok (ds.length : Int) := by
  have size := num.size
  have len := num.len
  unfold Mp.magnitude
  rcases sign with rfl | rfl
  · rw [if_neg (by omega), len, one_mul]
  · split
    · rw [len, int_fits (by omega) (by omega)]
      congr 1
      omega
    · congr 1
      omega

theorem _mp_move_done (malloc : Malloc) (num : Num s a e xs) (sign : e = 1 ∨ e = -1) (empty : (s.mint b).len = 0) (other : a ≠ b) :
    _mp_move malloc s a b = .error .fatal ∨
      ∃ s', _mp_move malloc s a b = .ok s' ∧ Num s' b e xs ∧ (∀ d, d ≠ b → s'.mint d = s.mint d) ∧ Keeps s.heap s'.heap ∧
        Owner s' b ∧ ∀ q, Owns s' b q → s.heap.block q = none := by
  have size := num.size
  have len := num.len
  have freed : xfree s b = .ok s := by simp [xfree, empty]
  have counted := num.magnitude sign
  have same : (s.set b ⟨(s.mint a).len, (s.mint b).val⟩).mint a = s.mint a := update_of_ne other ..
  unfold _mp_move
  rw [freed]
  simp only [bind, Except.bind, same, counted]
  rcases eq_or_ne xs [] with rfl | some_
  · rw [if_pos (by simp)]
    refine .inr ⟨_, rfl, ⟨by simp [Store.set, len], fun some_ => absurd rfl some_, num.digits⟩,
      fun d other => update_of_ne other .., fun _ _ held => held, ?_, ?_⟩
    · intro some_
      simp [Store.set, len] at some_
    · intro q own
      simp [Owns, Store.set, len] at own
  have positive : (xs.length : Int) ≠ 0 := by
    rw [Ne, Int.natCast_eq_zero, List.length_eq_zero_iff]
    exact some_
  rw [if_neg positive]
  rcases xalloc_done malloc s.heap (show 0 ≤ (xs.length : Int) by omega) (by omega) with failed | ⟨h', p, cs, got, unused, room, fits, kept⟩
  · exact .inl (by simp [Store.set, failed])
  have held' := holds_keeps (num.held some_) (besides_keeps kept unused)
  have apart : (s.mint a).val ≠ .block p := by
    intro at_
    obtain ⟨junk, held⟩ : ∃ junk, s.heap.block p = some (xs ++ junk) := by
      have := num.held some_
      rwa [at_] at this
    rw [unused] at held
    cases held
  obtain ⟨h₂, run, held₂, kept₂⟩ := copy_done held' apart num.digits room (by omega)
  refine .inr ⟨⟨update (s.set b ⟨(s.mint a).len, (s.mint b).val⟩).mint b ⟨(s.mint a).len, .block p⟩, h₂⟩, ?_, ?_, ?_, ?_, ?_, ?_⟩
  · rw [show (s.set b ⟨(s.mint a).len, (s.mint b).val⟩).heap = s.heap from rfl, got]
    simp [Store.set, other, run]
  · exact ⟨by simp [len], fun _ => by simpa using ⟨_, held₂⟩, num.digits⟩
  · intro d other
    simp [Store.set, other]
  · exact fun q es held => besides_keeps (kept.trans kept₂) unused q es held
  · intro _
    exact ⟨p, _, by simp, held₂⟩
  · intro q own
    obtain rfl : p = q := by simpa [Owns] using own.2
    exact unused

theorem Num.zero (num : Num s a e []) (e' : Int) : Num s a e' [] := ⟨by simpa using num.len, num.held, num.digits⟩

theorem Num.keeps (num : Num s a e ds) (cell : s'.mint a = s.mint a) (kept : Keeps s.heap s'.heap) : Num s' a e ds where
  len := by rw [cell, num.len]
  held some_ := by
    rw [cell]
    exact holds_keeps (num.held some_) kept
  digits := num.digits

theorem Num.others (num : Num s a e ds) (cell : s'.mint a = s.mint a) (sign : e ≠ 0)
    (kept : ∀ q, Owns s a q → s'.heap.block q = s.heap.block q) : Num s' a e ds where
  len := by rw [cell, num.len]
  held some_ := by
    have held := num.held some_
    have counted : (s.mint a).len ≠ 0 := by
      rw [num.len]
      exact mul_ne_zero sign (by simpa using some_)
    rw [cell]
    cases val : (s.mint a).val with
    | block q =>
      rw [val] at held
      obtain ⟨junk, at_⟩ := held
      exact ⟨junk, (kept q ⟨counted, val⟩).trans at_⟩
    | one =>
      rw [val] at held
      exact held
  digits := num.digits

theorem Owner.others (owner : Owner s a) (cell : s'.mint a = s.mint a) (kept : ∀ q, Owns s a q → s'.heap.block q = s.heap.block q) :
    Owner s' a := by
  intro some_
  rw [cell] at some_
  obtain ⟨q, es, val, held⟩ := owner some_
  exact ⟨q, es, by rw [cell, val], by rw [kept q ⟨some_, val⟩, held]⟩

theorem result_fresh {junk : List Int} (unused : s.heap.block p = none) (kept : Besides s.heap h' p) (held : h'.block p = some (ds ++ junk))
    (digits_ : Digits 32768 ds) (c sp : Nat) (e : Int) : Result s ⟨update s.mint c ⟨e * ds.length, .block p⟩, h'⟩ c sp e ds where
  num := ⟨by simp, fun _ => by simpa using ⟨junk, held⟩, digits_⟩
  cells d _ other := update_of_ne other ..
  blocks q es held _ := besides_keeps kept unused q es held
  fresh q own es held := by
    obtain rfl : p = q := by simpa using own.2
    rw [unused] at held
    cases held
  owner _ := ⟨p, _, by simp, held⟩

theorem result_zero (zero : (s'.mint c).len = 0) (cells : ∀ d, d ≠ c → s'.mint d = s.mint d) (kept : Keeps s.heap s'.heap) (sp : Nat) (e : Int) :
    Result s s' c sp e [] where
  num := ⟨by simp [zero], fun some_ => absurd rfl some_, nofun⟩
  cells d _ := cells d
  blocks q es held _ := kept q es held
  fresh q own := absurd zero own.1
  owner some_ := absurd zero some_

@[simp] theorem negate_other (other : d ≠ a) : (negate s a).mint d = s.mint d := update_of_ne other ..

theorem owns_negate : Owns (negate s a) d q ↔ Owns s d q := by
  rcases eq_or_ne d a with rfl | other
  · simp [Owns, negate, Store.set]
  · rw [Owns, Owns, negate_other other]

theorem owner_negate : Owner (negate s a) d ↔ Owner s d := by
  rcases eq_or_ne d a with rfl | other
  · simp [Owner, negate, Store.set]
  · rw [Owner, Owner, negate_other other]
    rfl

theorem Num.negated (num : Num s a e ds) : Num (negate s a) a (-e) ds where
  len := by simp [negate, Store.set, num.len]
  held some_ := by simpa [negate, Store.set] using num.held some_
  digits := num.digits

theorem Num.negate_other (num : Num s d e ds) (other : d ≠ a) : Num (negate s a) d e ds :=
  num.keeps (update_of_ne other ..) fun _ _ held => held

structure Computed (s s' : Store) (c sp : Nat) (e : Int) (ds : List Int) : Prop where
  result : Result s s' c sp e ds
  x : (s'.mint sp).val = (s.mint sp).val ∧ ((s'.mint sp).len = 0 ↔ (s.mint sp).len = 0)
  y : (s'.mint (sp + 1)).val = (s.mint (sp + 1)).val ∧ ((s'.mint (sp + 1)).len = 0 ↔ (s.mint (sp + 1)).len = 0)

theorem Computed.signed {k : Int} (computed : Computed s s' c sp k ds) (cBelow : c < sp) (sign : Int) :
    Computed s (s'.set c { s'.mint c with len := sign * (s'.mint c).len }) c sp (sign * k) ds := by
  obtain ⟨⟨num, cells, blocks, fresh, owner⟩, x, y⟩ := computed
  have owns : ∀ q, Owns (s'.set c { s'.mint c with len := sign * (s'.mint c).len }) c q → Owns s' c q := by
    intro q own
    simp only [Owns, Store.set, update_self] at own
    exact ⟨right_ne_zero_of_mul own.1, own.2⟩
  refine ⟨⟨⟨?_, ?_, num.digits⟩, ?_, blocks, fun q own => fresh q (owns q own), ?_⟩, ?_, ?_⟩
  · simp [Store.set, num.len, mul_assoc]
  · simpa [Store.set] using num.held
  · exact fun d below other => (update_of_ne other ..).trans (cells d below other)
  · intro some_
    simp only [Store.set, update_self] at some_ ⊢
    exact owner (right_ne_zero_of_mul some_)
  · simpa [Store.set, show sp ≠ c by omega] using x
  · simpa [Store.set, show sp + 1 ≠ c by omega] using y

theorem Result.computed (result : Result s s' c (sp + 2) e ds) (cBelow : c < sp) : Computed s s' c sp e ds where
  result := { result with cells := fun d below => result.cells d (by omega) }
  x := by rw [result.cells sp (by omega) (by omega)]; exact ⟨rfl, Iff.rfl⟩
  y := by rw [result.cells (sp + 1) (by omega) (by omega)]; exact ⟨rfl, Iff.rfl⟩

theorem Computed.of_negate_x (computed : Computed (negate s sp) s' c sp e ds) : Computed s s' c sp e ds := by
  obtain ⟨⟨num, cells, blocks, fresh, owner⟩, x, y⟩ := computed
  refine ⟨⟨num, fun d below other => (cells d below other).trans (update_of_ne (by omega) ..), ?_, ?_, owner⟩, ?_, ?_⟩
  · exact fun q es held others => blocks q es held fun own => others (owns_negate.mp own)
  · exact fun q own es held => owns_negate.mp (fresh q own es held)
  · simpa [negate, Store.set] using x
  · simpa [negate, Store.set] using y

theorem Computed.of_negate_y (computed : Computed (negate s (sp + 1)) s' c sp e ds) : Computed s s' c sp e ds := by
  obtain ⟨⟨num, cells, blocks, fresh, owner⟩, x, y⟩ := computed
  refine ⟨⟨num, fun d below other => (cells d below other).trans (update_of_ne (by omega) ..), ?_, ?_, owner⟩, ?_, ?_⟩
  · exact fun q es held others => blocks q es held fun own => others (owns_negate.mp own)
  · exact fun q own es held => owns_negate.mp (fresh q own es held)
  · simpa [negate, Store.set] using x
  · simpa [negate, Store.set] using y

structure Entered (s s' : Store) (c sp : Nat) (e e' : Int) (xs ys : List Int) : Prop where
  x : Num s' sp e xs
  y : Num s' (sp + 1) e' ys
  cells : ∀ d < sp, d ≠ c → s'.mint d = s.mint d
  blocks : ∀ q es, s.heap.block q = some es → ¬Owns s c q → s'.heap.block q = some es
  xOwner : Owner s' sp
  yOwner : Owner s' (sp + 1)
  xFresh : ∀ q, Owns s' sp q → s.heap.block q = none
  yFresh : ∀ q, Owns s' (sp + 1) q → s.heap.block q = none
  apart : ∀ q, Owns s' sp q → ¬Owns s' (sp + 1) q

theorem operands_done (malloc : Malloc) (num : Num s a e xs) (num' : Num s b e' ys) (sign : e = 1 ∨ e = -1) (sign' : e' = 1 ∨ e' = -1)
    (aBelow : a < sp) (bBelow : b < sp) (cBelow : c < sp) :
    operands malloc s a b sp = .error .fatal ∨
      ∃ s', operands malloc s a b sp = .ok s' ∧ Entered s s' c sp e e' xs ys ∧ Keeps s.heap s'.heap ∧ s'.mint c = s.mint c := by
  let s₀ := (s.set sp { s.mint sp with len := 0 }).set (sp + 1) { s.mint (sp + 1) with len := 0 }
  have old : ∀ d < sp, s₀.mint d = s.mint d := by
    intro d below
    simp only [s₀, Store.set]
    rw [update_of_ne (by omega), update_of_ne (by omega)]
  have keeps : Keeps s.heap s₀.heap := fun _ _ held => held
  have numX : Num s₀ a e xs := num.keeps (old a aBelow) keeps
  unfold operands
  show (do
    let s ← _mp_move malloc s₀ a sp
    _mp_move malloc s b (sp + 1)) = _ ∨ ∃ s', (do
    let s ← _mp_move malloc s₀ a sp
    _mp_move malloc s b (sp + 1)) = .ok s' ∧ _
  rcases _mp_move_done malloc numX sign (show (s₀.mint sp).len = 0 by simp [s₀, Store.set]) (show a ≠ sp by omega) with
    failed | ⟨s₁, run₁, x, same₁, keeps₁, xOwner, xFresh⟩
  · exact .inl (by rw [failed]; rfl)
  rw [run₁]
  have numY : Num s₁ b e' ys := num'.keeps ((same₁ b (by omega)).trans (old b bBelow)) keeps₁
  rcases _mp_move_done malloc numY sign' (show (s₁.mint (sp + 1)).len = 0 by rw [same₁ _ (by omega)]; simp [s₀, Store.set])
    (show b ≠ sp + 1 by omega) with
    failed | ⟨s₂, run₂, y, same₂, keeps₂, yOwner, yFresh⟩
  · exact .inl failed
  have cell : s₂.mint sp = s₁.mint sp := same₂ sp (by omega)
  have below : ∀ d < sp, s₂.mint d = s.mint d := fun d below => (same₂ d (by omega)).trans ((same₁ d (by omega)).trans (old d below))
  have keeps : Keeps s.heap s₂.heap := fun q es held => keeps₂ q es (keeps₁ q es held)
  have owns : ∀ q, Owns s₂ sp q ↔ Owns s₁ sp q := fun q => by rw [Owns, Owns, cell]
  have xLive : ∀ q, Owns s₁ sp q → ∃ es, s₁.heap.block q = some es := by
    intro q own
    obtain ⟨p, es, val, held⟩ := xOwner own.1
    obtain rfl : p = q := by simpa [own.2] using val.symm
    exact ⟨es, held⟩
  refine .inr ⟨s₂, run₂, ⟨x.keeps cell keeps₂, y, fun d small _ => below d small, fun q es held _ => keeps q es held, ?_, yOwner, ?_, ?_, ?_⟩,
    keeps, below c cBelow⟩
  · intro some_
    rw [cell] at some_ ⊢
    obtain ⟨q, es, val, held⟩ := xOwner some_
    exact ⟨q, es, val, keeps₂ q es held⟩
  · exact fun q own => xFresh q ((owns q).mp own)
  · intro q own
    by_contra held
    obtain ⟨es, held⟩ := Option.ne_none_iff_exists'.mp held
    have := keeps₁ q es held
    rw [yFresh q own] at this
    cases this
  · intro q own own'
    obtain ⟨es, held⟩ := xLive q ((owns q).mp own)
    rw [yFresh q own'] at held
    cases held

theorem Owns.live (owner : Owner s a) (own : Owns s a q) : ∃ es, s.heap.block q = some es := by
  obtain ⟨p, es, val, held⟩ := owner own.1
  obtain rfl : p = q := by simpa [own.2] using val.symm
  exact ⟨es, held⟩

theorem Owner.keeps (owner : Owner s a) (cell : s'.mint a = s.mint a) (kept : Keeps s.heap s'.heap) : Owner s' a := by
  intro some_
  rw [cell] at some_ ⊢
  obtain ⟨q, es, val, held⟩ := owner some_
  exact ⟨q, es, val, kept q es held⟩

theorem Entered.freed (entered : Entered s s' c sp e e' xs ys) (sign : e ≠ 0) (sign' : e' ≠ 0) (kept : Keeps s.heap s'.heap)
    (same : s'.mint c = s.mint c) (owner : Owner s c) (cBelow : c < sp) :
    ∃ s'', xfree s' c = .ok s'' ∧ Entered s s'' c sp e e' xs ys ∧ (s''.mint c).len = 0 := by
  obtain ⟨s'', run, empty, cells, others, gone⟩ := xfree_done (owner.keeps same kept)
  have owns : ∀ q, Owns s' c q ↔ Owns s c q := fun q => by rw [Owns, Owns, same]
  have live : ∀ q, Owns s' c q → ∃ es, s.heap.block q = some es := fun q own => Owns.live owner ((owns q).mp own)
  have xKept : ∀ q, Owns s' sp q → s''.heap.block q = s'.heap.block q := fun q own => others q fun own' => by
    obtain ⟨es, held⟩ := live q own'
    rw [entered.xFresh q own] at held
    cases held
  have yKept : ∀ q, Owns s' (sp + 1) q → s''.heap.block q = s'.heap.block q := fun q own => others q fun own' => by
    obtain ⟨es, held⟩ := live q own'
    rw [entered.yFresh q own] at held
    cases held
  have xCell : s''.mint sp = s'.mint sp := cells sp (by omega)
  have yCell : s''.mint (sp + 1) = s'.mint (sp + 1) := cells (sp + 1) (by omega)
  have xOwns : ∀ q, Owns s'' sp q ↔ Owns s' sp q := fun q => by rw [Owns, Owns, xCell]
  have yOwns : ∀ q, Owns s'' (sp + 1) q ↔ Owns s' (sp + 1) q := fun q => by rw [Owns, Owns, yCell]
  refine ⟨s'', run, ⟨entered.x.others xCell sign xKept, entered.y.others yCell sign' yKept, ?_, ?_, entered.xOwner.others xCell xKept,
    entered.yOwner.others yCell yKept, ?_, ?_, ?_⟩, empty⟩
  · exact fun d below other => (cells d other).trans (entered.cells d below other)
  · intro q es held others'
    rw [others q (fun own => others' ((owns q).mp own))]
    exact entered.blocks q es held others'
  · exact fun q own => entered.xFresh q ((xOwns q).mp own)
  · exact fun q own => entered.yFresh q ((yOwns q).mp own)
  · exact fun q own own' => entered.apart q ((xOwns q).mp own) ((yOwns q).mp own')

theorem Entered.negate_x (entered : Entered s s' c sp e e' xs ys) : Entered s (negate s' sp) c sp (-e) e' xs ys where
  x := entered.x.negated
  y := entered.y.negate_other (by omega)
  cells d below other := (update_of_ne (by omega) ..).trans (entered.cells d below other)
  blocks := entered.blocks
  xOwner := owner_negate.mpr entered.xOwner
  yOwner := owner_negate.mpr entered.yOwner
  xFresh q own := entered.xFresh q (owns_negate.mp own)
  yFresh q own := entered.yFresh q (owns_negate.mp own)
  apart q own own' := entered.apart q (owns_negate.mp own) (owns_negate.mp own')

theorem Entered.negate_y (entered : Entered s s' c sp e e' xs ys) : Entered s (negate s' (sp + 1)) c sp e (-e') xs ys where
  x := entered.x.negate_other (by omega)
  y := entered.y.negated
  cells d below other := (update_of_ne (by omega) ..).trans (entered.cells d below other)
  blocks := entered.blocks
  xOwner := owner_negate.mpr entered.xOwner
  yOwner := owner_negate.mpr entered.yOwner
  xFresh q own := entered.xFresh q (owns_negate.mp own)
  yFresh q own := entered.yFresh q (owns_negate.mp own)
  apart q own own' := entered.apart q (owns_negate.mp own) (owns_negate.mp own')

theorem left_done {s₁ s₂ : Store} (entered : Entered s s₁ c sp e e' xs ys) (empty : (s₁.mint c).len = 0) {k : Int}
    (computed : Computed s₁ s₂ c sp k ds) (sign : k ≠ 0) (cBelow : c < sp) :
    ∃ s', (do
      let s ← xfree s₂ sp
      xfree s (sp + 1)) = .ok s' ∧ Result s s' c sp k ds ∧ s'.mint c = s₂.mint c ∧
      ∀ q, Owns s₂ c q → s'.heap.block q = s₂.heap.block q := by
  obtain ⟨result, xSame, ySame⟩ := computed
  have idle : ∀ q, ¬Owns s₁ c q := fun q own => own.1 empty
  have keeps : Keeps s₁.heap s₂.heap := fun q es held => result.blocks q es held (idle q)
  have xOwns : ∀ q, Owns s₂ sp q ↔ Owns s₁ sp q := fun q => by rw [Owns, Owns, xSame.1, Ne, xSame.2]
  have yOwns : ∀ q, Owns s₂ (sp + 1) q ↔ Owns s₁ (sp + 1) q := fun q => by rw [Owns, Owns, ySame.1, Ne, ySame.2]
  have xOwner : Owner s₂ sp := by
    intro some_
    obtain ⟨q, es, val, held⟩ := entered.xOwner (fun zero => some_ (xSame.2.mpr zero))
    exact ⟨q, es, xSame.1.trans val, keeps q es held⟩
  have yOwner : Owner s₂ (sp + 1) := by
    intro some_
    obtain ⟨q, es, val, held⟩ := entered.yOwner (fun zero => some_ (ySame.2.mpr zero))
    exact ⟨q, es, ySame.1.trans val, keeps q es held⟩
  have fresh : ∀ q, Owns s₂ c q → s₁.heap.block q = none := by
    intro q own
    by_contra held
    obtain ⟨es, held⟩ := Option.ne_none_iff_exists'.mp held
    exact idle q (result.fresh q own es held)
  obtain ⟨s₃, run₃, _, cells₃, others₃, _⟩ := xfree_done xOwner
  have yKept : ∀ q, Owns s₂ (sp + 1) q → s₃.heap.block q = s₂.heap.block q :=
    fun q own => others₃ q fun own' => entered.apart q ((xOwns q).mp own') ((yOwns q).mp own)
  have yCell : s₃.mint (sp + 1) = s₂.mint (sp + 1) := cells₃ (sp + 1) (by omega)
  obtain ⟨s₄, run₄, _, cells₄, others₄, _⟩ := xfree_done (yOwner.others yCell yKept)
  have kept : ∀ q, ¬Owns s₁ sp q → ¬Owns s₁ (sp + 1) q → s₄.heap.block q = s₂.heap.block q := by
    intro q notX notY
    rw [others₄ q (fun own => notY ((yOwns q).mp (by rwa [Owns, yCell] at own))), others₃ q (fun own => notX ((xOwns q).mp own))]
  have cell : ∀ d < sp, s₄.mint d = s₂.mint d := fun d below => (cells₄ d (by omega)).trans (cells₃ d (by omega))
  have owns : ∀ q, Owns s₄ c q ↔ Owns s₂ c q := fun q => by rw [Owns, Owns, cell c cBelow]
  have cKept : ∀ q, Owns s₂ c q → s₄.heap.block q = s₂.heap.block q := by
    intro q own
    refine kept q (fun own' => ?_) fun own' => ?_
    · obtain ⟨es, held⟩ := Owns.live entered.xOwner own'
      rw [fresh q own] at held
      cases held
    · obtain ⟨es, held⟩ := Owns.live entered.yOwner own'
      rw [fresh q own] at held
      cases held
  refine ⟨s₄, ?_, ⟨?_, ?_, ?_, ?_, ?_⟩, cell c cBelow, cKept⟩
  · rw [run₃]
    exact run₄
  · exact result.num.others (cell c cBelow) sign cKept
  · exact fun d below other => (cell d below).trans ((result.cells d below other).trans (entered.cells d below other))
  · intro q es held notC
    rw [kept q (fun own => by rw [entered.xFresh q own] at held; cases held) (fun own => by rw [entered.yFresh q own] at held; cases held)]
    exact keeps q es (entered.blocks q es held notC)
  · intro q own es held
    by_contra notC
    have := entered.blocks q es held notC
    rw [fresh q ((owns q).mp own)] at this
    cases this
  · exact result.owner.others (cell c cBelow) cKept

end Svr4.Proofs.MpFrame
