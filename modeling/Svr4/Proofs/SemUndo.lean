import Svr4.Library.Ledger
import Svr4.Sem

/-! The undo tables are ledgers, and `semaoe` changes the balance of one key or
nothing. -/

namespace Svr4.Proofs.SemUndo
open Function Ledger Sem

variable {id val : Int} {after before ent : List Undo} {num slot up : Nat} {info : Seminfo} {s s' : State} {uup : Undo}

def place (uup : Undo) : Int ×ₗ Nat := toLex (uup.unId, uup.unNum)

def aoe (ent : List Undo) (id : Int) (num : Nat) : Int := balance place Undo.unAoe ent (toLex (id, num))

structure Table (info : Seminfo) (ent : List Undo) : Prop where
  sorted : Sorted place ent
  nonzero : ∀ uup ∈ ent, uup.unAoe ≠ 0
  bounded : ∀ uup ∈ ent, -info.semaem ≤ uup.unAoe ∧ uup.unAoe ≤ info.semaem
  room : ent.length ≤ info.semume

/-- Each structure belongs to one process or is free, and just those with entries
are on the active chain. -/
structure Valid (info : Seminfo) (s : State) : Prop where
  tables : ∀ u, Table info (s.semu u)
  own : ∀ p q u, s.semUndo p = some u → s.semUndo q = some u → p = q
  free : ∀ u ∈ s.semfup, s.semu u = [] ∧ ∀ p, s.semUndo p ≠ some u
  freeOnce : s.semfup.Nodup
  active : ∀ u, u ∈ s.semunp ↔ s.semu u ≠ []
  activeOnce : s.semunp.Nodup

def entries (s : State) (slot : Nat) : List Undo :=
  match s.semUndo slot with
  | some up => s.semu up
  | none => []

theorem Valid.entries_table (valid : Valid info s) (slot : Nat) :
    Table info (entries s slot) := by
  unfold entries
  split
  · exact valid.tables _
  · exact ⟨List.Pairwise.nil, by simp, by simp, by simp⟩

theorem place_lt (uup : Undo) (id : Int) (num : Nat) :
    place uup < toLex (id, num) ↔ uup.unId < id ∨ uup.unId = id ∧ uup.unNum < num := by
  simp [place, Prod.Lex.toLex_lt_toLex]

theorem place_eq (uup : Undo) (id : Int) (num : Nat) :
    place uup = toLex (id, num) ↔ uup.unId = id ∧ uup.unNum = num := by
  simp [place, Prod.ext_iff]

theorem undo_ext (a b : Undo) (keys : place a = place b) (values : a.unAoe = b.unAoe) : a = b := by
  obtain ⟨ids, nums⟩ := (place_eq a b.unId b.unNum).mp keys
  cases a
  cases b
  simp_all

theorem table_ext {ent' : List Undo} (table : Table info ent) (table' : Table info ent')
    (same : ∀ id num, aoe ent id num = aoe ent' id num) : ent = ent' := by
  apply ext_balance undo_ext table.sorted table'.sorted table.nonzero table'.nonzero
  intro k
  exact same (ofLex k).1 (ofLex k).2

theorem scan_spec (id : Int) (num : Nat) (sorted : Sorted place ent) :
    ∃ before after, ent = before ++ after ∧ before.length = scan id num ent ∧
      (∀ uup ∈ before, place uup < toLex (id, num)) ∧ ∀ uup ∈ after, toLex (id, num) ≤ place uup := by
  induction ent with
  | nil => exact ⟨[], [], rfl, rfl, by simp, by simp⟩
  | cons uup ent ih =>
    by_cases less : place uup < toLex (id, num)
    · obtain ⟨before, after, rfl, length, low, high⟩ := ih sorted.tail
      refine ⟨uup :: before, after, rfl, ?_, ?_, high⟩
      · rw [scan, if_pos ((place_lt _ _ _).mp less), List.length_cons, length]
      · intro other member
        rcases List.mem_cons.mp member with rfl | later
        · exact less
        · exact low other later
    · refine ⟨[], uup :: ent, rfl, ?_, by simp, ?_⟩
      · rw [scan, if_neg (fun small => less ((place_lt _ _ _).mpr small)), List.length_nil]
      · intro other member
        rcases List.mem_cons.mp member with rfl | later
        · exact not_lt.mp less
        · exact (not_lt.mp less).trans (sorted.head other later).le

theorem short_self {n : Int} (low : -32768 ≤ n) (high : n < 32768) : short n = n :=
  Int.bmod_eq_of_le (by omega) (by omega)

theorem short_sub_add {a v : Int} (low : -32768 ≤ a) (high : a < 32768) : short (short (a - v) + v) = a := by
  simp only [short, Int.bmod_add_bmod, sub_add_cancel]
  exact short_self low high

theorem short_out {a v : Int} (low : -info.semaem ≤ a) (high : a ≤ info.semaem)
    (low' : -info.semaem ≤ v) (high' : v ≤ info.semaem) :
    (short (a - v) > info.semaem ∨ short (a - v) < -info.semaem) ↔ (a - v > info.semaem ∨ a - v < -info.semaem) := by
  have limit := info.aemLimit
  by_cases edge : a - v = 32768
  · rw [edge]
    have wrapped : short 32768 = -32768 := by decide
    omega
  · rw [short_self (by omega) (by omega)]

structure Placed (info : Seminfo) (s s' : State) (up : Nat) (val id : Int) (num : Nat) : Prop where
  table : Table info (s'.semu up)
  others : ∀ u, u ≠ up → s'.semu u = s.semu u
  balance : ∀ id' num', aoe (s'.semu up) id' num' = aoe (s.semu up) id' num' - if id' = id ∧ num' = num then val else 0
  room : aoe (s'.semu up) id num = 0 → (s'.semu up).length < info.semume
  active : ∀ u, u ∈ s'.semunp ↔ s'.semu u ≠ []
  activeOnce : s'.semunp.Nodup
  frame : s'.semUndo = s.semUndo ∧ s'.semfup = s.semfup ∧ s'.sema = s.sema ∧ s'.sem = s.sem ∧ s'.woken = s.woken

theorem aoe_middle (before after : List Undo) (uup : Undo) (id : Int) (num : Nat) :
    aoe (before ++ uup :: after) id num =
      (if uup.unId = id ∧ uup.unNum = num then uup.unAoe else 0) + aoe (before ++ after) id num := by
  simp only [aoe, balance_middle, place_eq]

private theorem table_middle
    (sorted : Sorted place (before ++ uup :: after)) (rest : Table info (before ++ after))
    (nonzero : uup.unAoe ≠ 0) (low : -info.semaem ≤ uup.unAoe) (high : uup.unAoe ≤ info.semaem)
    (room : (before ++ after).length < info.semume) : Table info (before ++ uup :: after) := by
  have members : ∀ other ∈ before ++ uup :: after, other = uup ∨ other ∈ before ++ after := by
    intro other member
    simp only [List.mem_append, List.mem_cons] at member ⊢
    tauto
  refine ⟨sorted, ?_, ?_, ?_⟩
  · intro other member
    rcases members other member with rfl | old
    · exact nonzero
    · exact rest.nonzero other old
  · intro other member
    rcases members other member with rfl | old
    · exact ⟨low, high⟩
    · exact rest.bounded other old
  · simp only [List.length_append, List.length_cons] at room ⊢
    omega

private theorem table_erase
    (table : Table info (before ++ uup :: after)) : Table info (before ++ after) := by
  have members : ∀ other ∈ before ++ after, other ∈ before ++ uup :: after := by
    intro other member
    simp only [List.mem_append, List.mem_cons] at member ⊢
    tauto
  refine ⟨table.sorted.erase, fun other member => table.nonzero other (members other member),
    fun other member => table.bounded other (members other member), ?_⟩
  have := table.room
  simp only [List.length_append, List.length_cons] at this ⊢
  omega

private theorem placed (valid : Valid info s) (ent : List Undo) (semu : s'.semu = update s.semu up ent)
    (chain : (s'.semunp = s.semunp ∧ (ent = [] ↔ s.semu up = [])) ∨
      (s'.semunp = up :: s.semunp ∧ s.semu up = [] ∧ ent ≠ []) ∨ (s'.semunp = s.semunp.erase up ∧ ent = []))
    (table : Table info ent)
    (balance : ∀ id' num', aoe ent id' num' = aoe (s.semu up) id' num' - if id' = id ∧ num' = num then val else 0)
    (room : aoe ent id num = 0 → ent.length < info.semume)
    (frame : s'.semUndo = s.semUndo ∧ s'.semfup = s.semfup ∧ s'.sema = s.sema ∧ s'.sem = s.sem ∧ s'.woken = s.woken) :
    Placed info s s' up val id num := by
  have self : s'.semu up = ent := by rw [semu, update_self]
  have others : ∀ u, u ≠ up → s'.semu u = s.semu u := fun u other => by rw [semu, update_of_ne other]
  refine ⟨self ▸ table, others, self ▸ balance, self ▸ room, ?_, ?_, frame⟩
  · intro u
    by_cases same : u = up
    · subst same
      rw [self]
      rcases chain with ⟨kept, iff_⟩ | ⟨pushed, _, some_⟩ | ⟨erased, none_⟩
      · rw [kept, valid.active u, not_iff_not, iff_]
      · simp [pushed, some_]
      · simp [erased, none_, valid.activeOnce.mem_erase_iff]
    · rw [others u same, ← valid.active u]
      rcases chain with ⟨kept, _⟩ | ⟨pushed, _⟩ | ⟨erased, _⟩
      · rw [kept]
      · simp [pushed, same]
      · simp [erased, valid.activeOnce.mem_erase_iff, same]
  · rcases chain with ⟨kept, _⟩ | ⟨pushed, idle, _⟩ | ⟨erased, _⟩
    · exact kept ▸ valid.activeOnce
    · rw [pushed]
      exact List.nodup_cons.mpr ⟨fun listed => (valid.active up).mp listed idle, valid.activeOnce⟩
    · rw [erased]
      exact valid.activeOnce.erase up

private theorem insertIdx_middle (before after : List Undo) (uup : Undo) :
    (before ++ after).insertIdx before.length uup = before ++ uup :: after := by
  induction before with
  | nil => rfl
  | cons other before ih => rw [List.cons_append, List.length_cons, List.insertIdx_succ_cons, ih, List.cons_append]

private theorem eraseIdx_middle (before after : List Undo) (uup : Undo) :
    (before ++ uup :: after).eraseIdx before.length = before ++ after := by
  induction before with
  | nil => rfl
  | cons other before ih => rw [List.cons_append, List.length_cons, List.eraseIdx_cons_succ, ih, List.cons_append]

theorem addEntry_spec (valid : Valid info s) (here : s.semu up = before ++ after)
    (cut : Cut place before after (toLex (id, num))) (nonzero : val ≠ 0)
    (low : -info.semaem ≤ val) (high : val ≤ info.semaem) :
    if (s.semu up).length < info.semume then
      ∃ s', addEntry info s up before.length val id num = (none, s') ∧ Placed info s s' up val id num
    else addEntry info s up before.length val id num = (some .EINVAL, s) := by
  have limit := info.aemLimit
  simp only [addEntry]
  split
  · next space =>
    rw [if_neg (by omega)]
    have negated : short (-val) = -val := short_self (by omega) (by omega)
    have inserted : (s.semu up).insertIdx before.length ⟨short (-val), num, id⟩ = before ++ ⟨-val, num, id⟩ :: after := by
      rw [here, negated, insertIdx_middle]
    have absent : aoe (s.semu up) id num = 0 := by
      rw [here]
      exact cut.absent
    have rest := valid.tables up
    rw [here] at rest
    rw [inserted]
    refine ⟨_, rfl, placed valid (before ++ ⟨-val, num, id⟩ :: after) (by split <;> rfl) ?_ ?_ ?_ ?_
      (by split <;> exact ⟨rfl, rfl, rfl, rfl, rfl⟩)⟩
    · split
      · next idle => exact .inr (.inl ⟨rfl, List.length_eq_zero_iff.mp idle, by simp⟩)
      · next busy => exact .inl ⟨rfl, by simpa using busy⟩
    · exact table_middle (cut.insert rest.sorted) rest (by simpa using nonzero) (by simp only; omega)
        (by simp only; omega) (here ▸ space)
    · intro id' num'
      rw [aoe_middle, here]
      simp only [eq_comm (a := id), eq_comm (a := num)]
      split <;> omega
    · rw [aoe_middle, ← here, absent]
      simp only [and_self, if_true]
      omega
  · next full => rw [if_pos (by omega)]

theorem changeEntry_spec (valid : Valid info s) (here : s.semu up = before ++ uup :: after)
    (low : -info.semaem ≤ val) (high : val ≤ info.semaem) :
    if -info.semaem ≤ uup.unAoe - val ∧ uup.unAoe - val ≤ info.semaem then
      ∃ s', changeEntry info s up before.length uup val = (none, s') ∧ Placed info s s' up val uup.unId uup.unNum
    else changeEntry info s up before.length uup val = (some .ERANGE, s) := by
  have limit := info.aemLimit
  have table := valid.tables up
  rw [here] at table
  have bounds := table.bounded uup (by simp)
  have out := short_out bounds.1 bounds.2 low high
  have old : aoe (before ++ after) uup.unId uup.unNum = 0 := table.sorted.cut.absent
  have length := table.room
  simp only [List.length_append, List.length_cons] at length
  simp only [changeEntry, here]
  split
  · next fits =>
    rw [if_neg (fun wrong => by have := out.mp wrong; omega), short_self (by omega) (by omega)]
    split
    · next gone =>
      have erased : (before ++ uup :: after).eraseIdx before.length = before ++ after := eraseIdx_middle before after uup
      rw [erased]
      refine ⟨_, rfl, placed valid (before ++ after) (by split <;> rfl) ?_ (table_erase table) ?_ ?_
        (by split <;> exact ⟨rfl, rfl, rfl, rfl, rfl⟩)⟩
      · split
        · next idle => exact .inr (.inr ⟨rfl, List.length_eq_zero_iff.mp idle⟩)
        · next busy =>
          have some_ : before ++ uup :: after ≠ [] := by simp
          exact .inl ⟨rfl, ⟨fun idle => absurd (congrArg List.length idle) busy, fun wrong => absurd (here ▸ wrong) some_⟩⟩
      · intro id' num'
        rw [here, aoe_middle]
        simp only [eq_comm (a := uup.unId), eq_comm (a := uup.unNum)]
        split <;> omega
      · intro _
        rw [List.length_append]
        omega
    · next stays =>
      have changed : (before ++ uup :: after).set before.length { uup with unAoe := uup.unAoe - val } =
          before ++ { uup with unAoe := uup.unAoe - val } :: after := by simp
      rw [changed]
      have cut : Cut place before after (place { uup with unAoe := uup.unAoe - val }) := table.sorted.cut
      have sorted := cut.insert table.sorted.erase
      refine ⟨_, rfl, placed valid _ rfl (.inl ⟨rfl, by simp [here]⟩) ?_ ?_ ?_ ⟨rfl, rfl, rfl, rfl, rfl⟩⟩
      · exact table_middle sorted (table_erase table) stays fits.1 fits.2 (by rw [List.length_append]; omega)
      · intro id' num'
        rw [here, aoe_middle, aoe_middle]
        simp only [eq_comm (a := uup.unId), eq_comm (a := uup.unNum)]
        split <;> omega
      · rw [aoe_middle, old]
        simp only [and_self, if_true]
        omega
  · next wide =>
    rw [if_pos (out.mpr (by omega)), short_sub_add (by omega) (by omega)]
    have unchanged : (before ++ uup :: after).set before.length uup = s.semu up := by
      rw [here]
      simp
    simp only [unchanged, setUndo, update_eq_self]

private theorem addEntry_cases (valid : Valid info s) (here : s.semu up = before ++ after)
    (cut : Cut place before after (toLex (id, num))) (nonzero : val ≠ 0)
    (low : -info.semaem ≤ val) (high : val ≤ info.semaem) :
    if (-info.semaem ≤ aoe (s.semu up) id num - val ∧ aoe (s.semu up) id num - val ≤ info.semaem) ∧
        (aoe (s.semu up) id num = 0 → (s.semu up).length < info.semume) then
      ∃ s', addEntry info s up before.length val id num = (none, s') ∧ Placed info s s' up val id num
    else ∃ error, addEntry info s up before.length val id num = (some error, s) := by
  have absent : aoe (s.semu up) id num = 0 := by
    rw [here]
    exact cut.absent
  have spec := addEntry_spec valid here cut nonzero low high
  rw [absent]
  split at spec
  · next space =>
    rw [if_pos ⟨⟨by omega, by omega⟩, fun _ => space⟩]
    exact spec
  · next full =>
    rw [if_neg (fun wrong => full (wrong.2 rfl))]
    exact ⟨_, spec⟩

/-- Booking succeeds when the new adjustment is in range and there is room for an
entry that is new, and else changes nothing. -/
theorem placeEntry_spec (valid : Valid info s) (up : Nat) (id : Int) (num : Nat)
    (nonzero : val ≠ 0) (low : -info.semaem ≤ val) (high : val ≤ info.semaem) :
    if (-info.semaem ≤ aoe (s.semu up) id num - val ∧ aoe (s.semu up) id num - val ≤ info.semaem) ∧
        (aoe (s.semu up) id num = 0 → (s.semu up).length < info.semume) then
      ∃ s', placeEntry info s up val id num = (none, s') ∧ Placed info s s' up val id num
    else ∃ error, placeEntry info s up val id num = (some error, s) := by
  have table := valid.tables up
  obtain ⟨before, after, here, length, lower, upper⟩ := scan_spec id num table.sorted
  simp only [placeEntry]
  rw [← length]
  cases after with
  | nil =>
    have beyond : (s.semu up)[before.length]? = none := by simp [here]
    rw [beyond]
    exact addEntry_cases valid here ⟨lower, by simp⟩ nonzero low high
  | cons uup after =>
    have found : (s.semu up)[before.length]? = some uup := by simp [here]
    rw [found]
    rw [here] at table
    simp only
    by_cases same : uup.unId = id ∧ uup.unNum = num
    · rw [if_pos same]
      obtain ⟨rfl, rfl⟩ := same
      have spec := changeEntry_spec valid here low high
      have value : aoe (s.semu up) uup.unId uup.unNum = uup.unAoe := by
        have absent : aoe (before ++ after) uup.unId uup.unNum = 0 := table.sorted.cut.absent
        rw [here, aoe_middle, absent]
        simp
      have present := table.nonzero uup (by simp)
      rw [value]
      split at spec
      · next fits =>
        rw [if_pos ⟨fits, fun zero => absurd zero present⟩]
        exact spec
      · next wide =>
        rw [if_neg (fun wrong => wide wrong.1)]
        exact ⟨_, spec⟩
    · rw [if_neg same]
      have first : toLex (id, num) < place uup :=
        lt_of_le_of_ne (upper uup (by simp)) (fun equal => same ((place_eq _ _ _).mp equal.symm))
      apply addEntry_cases valid here ⟨lower, ?_⟩ nonzero low high
      intro other member
      rcases List.mem_cons.mp member with rfl | later
      · exact first
      · have tail : Sorted place (uup :: after) := (List.pairwise_append.mp table.sorted).2.1
        exact first.trans (tail.head other later)

def Frame (s s' : State) : Prop := s'.sema = s.sema ∧ s'.sem = s.sem ∧ s'.woken = s.woken

theorem undoOf_spec (valid : Valid info s)
    (taken : undoOf s slot = some (up, s')) :
    Valid info s' ∧ s'.semUndo slot = some up ∧ entries s' = entries s ∧ s'.semu = s.semu ∧ Frame s s' := by
  unfold undoOf at taken
  split at taken
  · next owned =>
    cases taken
    exact ⟨valid, owned, rfl, rfl, rfl, rfl, rfl⟩
  · next none_ =>
    split at taken
    · cases taken
    · next first rest chain =>
      cases taken
      have spare := valid.free up (by simp [chain])
      have once := valid.freeOnce
      rw [chain] at once
      have owns : ∀ p u, update s.semUndo slot (some up) p = some u →
          (p = slot ∧ u = up) ∨ s.semUndo p = some u := by
        intro p u held
        by_cases same : p = slot
        · subst same
          rw [update_self] at held
          exact .inl ⟨rfl, (Option.some.inj held).symm⟩
        · rw [update_of_ne same] at held
          exact .inr held
      refine ⟨⟨valid.tables, ?_, ?_, (List.nodup_cons.mp once).2, valid.active, valid.activeOnce⟩, update_self .., ?_,
        rfl, rfl, rfl, rfl⟩
      · intro p q u first_ second
        rcases owns p u first_ with ⟨here, isFirst⟩ | held
        · rcases owns q u second with ⟨there, _⟩ | held'
          · exact here.trans there.symm
          · exact absurd held' (isFirst ▸ spare.2 q)
        · rcases owns q u second with ⟨_, isFirst⟩ | held'
          · exact absurd held (isFirst ▸ spare.2 p)
          · exact valid.own p q u held held'
      · intro u member
        have older := valid.free u (by simp [chain, member])
        refine ⟨older.1, fun p held => ?_⟩
        rcases owns p u held with ⟨_, isFirst⟩ | held
        · exact (List.nodup_cons.mp once).1 (isFirst ▸ member)
        · exact older.2 p held
      · funext p
        by_cases same : p = slot
        · subst same
          simp [entries, none_, spare.1]
        · simp [entries, update_of_ne same]

structure Booked (info : Seminfo) (s s' : State) (slot : Nat) (val id : Int) (num : Nat) : Prop where
  valid : Valid info s'
  owned : s'.semUndo slot ≠ none
  others : ∀ p, p ≠ slot → entries s' p = entries s p
  balance : ∀ id' num', aoe (entries s' slot) id' num' =
    aoe (entries s slot) id' num' - if id' = id ∧ num' = num then val else 0
  room : aoe (entries s' slot) id num = 0 → (entries s' slot).length < info.semume
  frame : Frame s s'

theorem entries_owned (owned : s.semUndo slot = some up) : entries s slot = s.semu up := by
  simp [entries, owned]

private theorem booked (valid : Valid info s)
    (owned : s.semUndo slot = some up) (placed : Placed info s s' up val id num) : Booked info s s' slot val id num := by
  obtain ⟨undo, free, sema, sem, woken⟩ := placed.frame
  have owned' : s'.semUndo slot = some up := by rw [undo, owned]
  refine ⟨⟨?_, ?_, ?_, free ▸ valid.freeOnce, placed.active, placed.activeOnce⟩, by simp [owned'], ?_, ?_, ?_, sema, sem, woken⟩
  · intro u
    by_cases same : u = up
    · exact same ▸ placed.table
    · rw [placed.others u same]
      exact valid.tables u
  · rw [undo]
    exact valid.own
  · intro u member
    rw [free] at member
    have spare := valid.free u member
    have other : u ≠ up := by
      rintro rfl
      exact spare.2 slot owned
    rw [placed.others u other, undo]
    exact spare
  · intro p other
    simp only [entries, undo]
    split
    · next u held =>
      apply placed.others
      rintro rfl
      exact other (valid.own p slot u held owned)
    · rfl
  · rw [entries_owned owned, entries_owned owned']
    exact placed.balance
  · rw [entries_owned owned']
    exact placed.room

theorem semaoe_spec (valid : Valid info s) (slot : Nat) (id : Int) (num : Nat)
    (nonzero : val ≠ 0) :
    (∃ error s', semaoe info s slot val id num = (some error, s') ∧ Valid info s' ∧ entries s' = entries s ∧
        (s.semUndo slot ≠ none → s'.semUndo slot ≠ none) ∧ Frame s s') ∨
      ∃ s', semaoe info s slot val id num = (none, s') ∧ Booked info s s' slot val id num ∧
        -info.semaem ≤ val ∧ val ≤ info.semaem := by
  simp only [semaoe, if_neg nonzero]
  split
  · exact .inl ⟨_, s, rfl, valid, rfl, fun owned => owned, rfl, rfl, rfl⟩
  · next small =>
    cases taken : undoOf s slot with
    | none => exact .inl ⟨_, s, rfl, valid, rfl, fun owned => owned, rfl, rfl, rfl⟩
    | some result =>
      obtain ⟨up, s₁⟩ := result
      obtain ⟨valid₁, owned, same, _, sema, sem, woken⟩ := undoOf_spec valid taken
      have spec := placeEntry_spec valid₁ up id num nonzero (by omega) (by omega)
      simp only
      split at spec
      · obtain ⟨s', done, placed⟩ := spec
        have result := booked valid₁ owned placed
        obtain ⟨sema', sem', woken'⟩ := result.frame
        refine .inr ⟨s', done, ⟨result.valid, result.owned, ?_, ?_, result.room, sema'.trans sema, sem'.trans sem,
          woken'.trans woken⟩, by omega, by omega⟩
        · rw [← same]
          exact result.others
        · rw [← same]
          exact result.balance
      · obtain ⟨error, failed⟩ := spec
        exact .inl ⟨error, s₁, failed, valid₁, same, fun _ => by simp [owned], sema, sem, woken⟩

theorem semaoe_books (valid : Valid info s) (id : Int) (num : Nat)
    (owned : s.semUndo slot ≠ none) (nonzero : val ≠ 0) (low : -info.semaem ≤ val) (high : val ≤ info.semaem)
    (low' : -info.semaem ≤ aoe (entries s slot) id num - val) (high' : aoe (entries s slot) id num - val ≤ info.semaem)
    (room : aoe (entries s slot) id num = 0 → (entries s slot).length < info.semume) :
    ∃ s', semaoe info s slot val id num = (none, s') ∧ Booked info s s' slot val id num := by
  obtain ⟨up, held⟩ := Option.ne_none_iff_exists'.mp owned
  have spec := placeEntry_spec valid up id num nonzero low high
  rw [← entries_owned held, if_pos ⟨⟨low', high'⟩, room⟩] at spec
  obtain ⟨s', done, placed⟩ := spec
  refine ⟨s', ?_, booked valid held placed⟩
  have taken : undoOf s slot = some (up, s) := by simp [undoOf, held]
  rw [semaoe, if_neg nonzero, if_neg (by omega), taken]
  exact done

theorem aoe_bounded (table : Table info ent) (id : Int) (num : Nat) :
    -info.semaem ≤ aoe ent id num ∧ aoe ent id num ≤ info.semaem := by
  by_cases zero : aoe ent id num = 0
  · omega
  · obtain ⟨uup, member, same⟩ := (mem_keys table.sorted table.nonzero (toLex (id, num))).mp zero
    obtain ⟨before, after, rfl⟩ := List.append_of_mem member
    obtain ⟨rfl, rfl⟩ := (place_eq _ _ _).mp same
    have absent : aoe (before ++ after) uup.unId uup.unNum = 0 := table.sorted.cut.absent
    rw [aoe_middle, absent]
    simpa using table.bounded uup member

theorem semaoe_undoes {s₁ s₂ : State} (valid : Valid info s)
    (booked : Booked info s s₁ slot val id num) (nonzero : val ≠ 0) (low : -info.semaem ≤ val) (high : val ≤ info.semaem)
    (valid₂ : Valid info s₂) (same : entries s₂ = entries s₁) (owned : s₂.semUndo slot ≠ none) :
    ∃ s₃, semaoe info s₂ slot (-val) id num = (none, s₃) ∧ Valid info s₃ ∧ entries s₃ = entries s ∧
      s₃.semUndo slot ≠ none ∧ Frame s₂ s₃ := by
  have range := aoe_bounded (valid.entries_table slot) id num
  have now := booked.balance id num
  rw [if_pos ⟨rfl, rfl⟩] at now
  obtain ⟨s₃, done, back⟩ := semaoe_books valid₂ id num owned (neg_ne_zero.mpr nonzero)
    (by omega) (by omega) (by rw [same]; omega) (by rw [same]; omega) (by rw [same]; exact booked.room)
  refine ⟨s₃, done, back.valid, ?_, back.owned, back.frame⟩
  funext p
  by_cases self : p = slot
  · subst self
    apply table_ext (back.valid.entries_table p) (valid.entries_table p)
    intro id' num'
    rw [back.balance, same, booked.balance]
    split <;> omega
  · rw [back.others p self, same, booked.others p self]

end Svr4.Proofs.SemUndo
