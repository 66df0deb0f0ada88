import Svr4.Bufcall

/-! What each operation on the list of waiting bufcalls does to the events on it and
to the cells. -/

namespace Svr4.Proofs.BufcallList
open Function Chain Bufcall

/-- One call asked for: the event, which is the caller's id, and what it says. -/
structure Request where
  id : Nat
  func : Nat
  arg : Nat
  size : Int
  deriving DecidableEq

def request (s : State) (sep : Nat) : Request := ⟨sep, s.seFunc sep, s.seArg sep, s.seSize sep⟩

def requests (s : State) (l : List Nat) : Multiset Request := l.map (request s)

theorem requests_cons (s : State) (sep : Nat) (l : List Nat) : requests s (sep :: l) = {request s sep} + requests s l := rfl

theorem requests_append (s : State) (l l' : List Nat) : requests s (l ++ l') = requests s l + requests s l' := by
  simp [requests]

def free (s : State) : Multiset Nat := s.sefreelist + s.secachep

structure Same (s t : State) : Prop where
  func : t.seFunc = s.seFunc
  arg : t.seArg = s.seArg
  size : t.seSize = s.seSize

structure SameCells (s t : State) : Prop where
  free : free t = free s
  cells : t.cells = s.cells

structure Waiting (busy : Bool) (s : State) (l : List Nat) : Prop where
  linked : Linked s.seNext s.bcHead l
  last : busy = true ∧ l = [] ∨ s.bcTail = l.getLast?

section cells
variable {s t : State} {sep : Nat}

theorem Same.request (same : Same s t) : request t = request s := by
  funext p
  simp only [BufcallList.request, same.func, same.arg, same.size]

theorem Same.requests (same : Same s t) : requests t = requests s := by
  funext l
  simp only [BufcallList.requests, same.request]

structure Allocated (s t : State) (sep : Nat) : Prop where
  next : t.seNext = update s.seNext sep none
  list : t.bcHead = s.bcHead ∧ t.bcTail = s.bcTail
  same : Same s t
  cells : ∃ fresh : Multiset Nat, free t + {sep} = free s + fresh ∧ (t.cells : Multiset Nat) = s.cells + fresh
  once : s.cells.Nodup → t.cells.Nodup

theorem sealloc_spec {kmem : Option Nat} {noslp : Bool} (fresh : ∀ c, kmem = some c → c ∉ s.cells)
    (call : sealloc kmem noslp s = some (sep, t)) : Allocated s t sep := by
  unfold sealloc at call
  split at call
  · next rest list =>
    cases call
    refine ⟨rfl, ⟨rfl, rfl⟩, ⟨rfl, rfl, rfl⟩, ⟨0, ?_, by simp⟩, id⟩
    simp only [free, list, ← Multiset.cons_coe, ← Multiset.singleton_add]
    abel
  · next list =>
    split at call
    · next c =>
      cases call
      refine ⟨rfl, ⟨rfl, rfl⟩, ⟨rfl, rfl, rfl⟩, ⟨{sep}, rfl, ?_⟩, fun once => List.nodup_cons.mpr ⟨fresh sep rfl, once⟩⟩
      rw [← Multiset.cons_coe, ← Multiset.singleton_add, add_comm]
    · split at call
      · next rest cache =>
        cases call
        refine ⟨rfl, ⟨rfl, rfl⟩, ⟨rfl, rfl, rfl⟩, ⟨0, ?_, by simp⟩, id⟩
        simp only [free, cache, ← Multiset.cons_coe, ← Multiset.singleton_add]
        abel
      · cases call

theorem sefree_free (sep : Nat) (s : State) : free (sefree sep s) = {sep} + free s := by
  unfold sefree
  split
  · simp only [free, ← Multiset.cons_coe, ← Multiset.singleton_add]
    abel
  · simp only [free, ← Multiset.cons_coe, ← Multiset.singleton_add]
    abel

theorem sefree_cells (sep : Nat) (s : State) : (sefree sep s).cells = s.cells := by
  unfold sefree
  split <;> rfl

theorem sefree_same (sep : Nat) (s : State) : Same s (sefree sep s) := by
  unfold sefree
  split <;> exact ⟨rfl, rfl, rfl⟩

theorem sefree_waiting {busy : Bool} {l : List Nat} (sep : Nat) (waiting : Waiting busy s l) : Waiting busy (sefree sep s) l := by
  unfold sefree
  split <;> exact ⟨waiting.linked, waiting.last⟩

end cells

section operations
variable {busy : Bool} {s t : State} {l before after : List Nat} {sep : Nat}

theorem Waiting.tail (waiting : Waiting busy s l) (some_ : l ≠ []) : s.bcTail = l.getLast? := by
  rcases waiting.last with ⟨_, none_⟩ | same
  · exact absurd none_ some_
  · exact same

theorem appendEvent_spec (waiting : Waiting busy s l) (new : sep ∉ l) (ended : s.seNext sep = none) :
    ∃ t, appendEvent sep s = some t ∧ Waiting busy t (l ++ [sep]) ∧ Same s t ∧ SameCells s t := by
  rcases List.eq_nil_or_concat l with rfl | ⟨before, tail, rfl⟩
  · have none_ : s.bcHead = none := waiting.linked
    refine ⟨{ s with bcHead := some sep, bcTail := some sep }, ?_, ⟨⟨rfl, ended⟩, .inr rfl⟩, ⟨rfl, rfl, rfl⟩, ⟨rfl, rfl⟩⟩
    simp only [appendEvent, none_]
  · rw [List.concat_eq_append] at new waiting ⊢
    have last : s.bcTail = some tail := by simpa using waiting.tail (by simp)
    have linked := waiting.linked.push_back new
    rw [← ended, update_eq_self] at linked
    obtain ⟨first, head⟩ : ∃ first, s.bcHead = some first := by
      have first := waiting.linked.head
      cases before with
      | nil => exact ⟨_, first⟩
      | cons first before => exact ⟨_, first⟩
    refine ⟨{ s with seNext := update s.seNext tail (some sep), bcTail := some sep }, ?_, ⟨linked, .inr (by simp)⟩,
      ⟨rfl, rfl, rfl⟩, ⟨rfl, rfl⟩⟩
    simp only [appendEvent, head, last]
    rfl

structure Added (busy : Bool) (s t : State) (l : List Nat) (sep : Nat) (new : Request) : Prop where
  waiting : Waiting busy t (l ++ [sep])
  request : request t sep = new
  requests : requests t (l ++ [sep]) = requests s l + {new}
  cells : ∃ fresh : Multiset Nat, free t + {sep} = free s + fresh ∧ (t.cells : Multiset Nat) = s.cells + fresh
  once : s.cells.Nodup → t.cells.Nodup

theorem addEvent_spec (waiting : Waiting busy s l) {kmem : Option Nat} (fresh : ∀ c, kmem = some c → c ∉ s.cells)
    (apart : ∀ sep t, sealloc kmem true s = some (sep, t) → sep ∉ l) (size : Int) (func arg : Nat) :
    addEvent kmem size func arg s = some (none, s) ∨
      ∃ sep t, addEvent kmem size func arg s = some (some sep, t) ∧ Added busy s t l sep ⟨sep, func, arg, size⟩ := by
  cases cell : sealloc kmem true s with
  | none => exact .inl (by simp only [addEvent, cell])
  | some result =>
    obtain ⟨sep, u⟩ := result
    have new := apart sep u cell
    obtain ⟨next, ⟨head, last⟩, same, cells, once⟩ := sealloc_spec fresh cell
    have filled : Waiting busy (fillEvent size func arg sep u) l := by
      refine ⟨?_, last ▸ waiting.last⟩
      have linked := Seg.update waiting.linked none new
      rw [← head, ← update_idem (a := sep) none, ← next] at linked
      exact linked
    obtain ⟨t, done, waits, said, held⟩ := appendEvent_spec filled new (update_self ..)
    have old : l.map (request (fillEvent size func arg sep u)) = l.map (request s) := by
      refine List.map_congr_left (fun p member => ?_)
      have other : p ≠ sep := by
        rintro rfl
        exact new member
      simp only [request, fillEvent, update_of_ne other, same.func, same.arg, same.size]
    have said_new : request (fillEvent size func arg sep u) sep = ⟨sep, func, arg, size⟩ := by
      simp only [request, fillEvent, update_self]
    refine .inr ⟨sep, { t with strbcwait := true }, ?_, ⟨waits.linked, waits.last⟩, ?_, ?_, ?_, ?_⟩
    · simp only [addEvent, cell, done]
      rfl
    · change request t sep = _
      rw [said.request, said_new]
    · change requests t _ = _
      rw [said.requests, requests_append, requests, old]
      exact congrArg (requests s l + {·}) said_new
    · obtain ⟨more, freed, grown⟩ := cells
      exact ⟨more, by rw [← freed]; exact congrArg (· + {sep}) held.free, by rw [← grown]; exact congrArg _ held.cells⟩
    · intro distinct
      change t.cells.Nodup
      rw [held.cells]
      exact once distinct

theorem dropEvent_spec (waiting : Waiting busy s (before ++ sep :: after)) :
    let t := dropEvent before.getLast? sep s
    Waiting busy t (before ++ after) ∧ Same s t ∧ free t = {sep} + free s ∧ t.cells = s.cells := by
  intro t
  have next := waiting.linked.next_eq
  have last := waiting.tail (by simp)
  have once := waiting.linked.nodup
  rw [List.nodup_append, List.nodup_cons] at once
  obtain ⟨_, ⟨fresh, _⟩, apart⟩ := once
  -- The tail is the event itself exactly when nothing follows it.
  have tail : (if s.bcTail = some sep then before.getLast? else s.bcTail) = (before ++ after).getLast? := by
    rcases List.eq_nil_or_concat after with rfl | ⟨middle, z, rfl⟩
    · simp [last]
    · rw [List.concat_eq_append] at last fresh ⊢
      have other : z ≠ sep := by
        rintro rfl
        exact fresh (by simp)
      rw [last, List.append_cons, ← List.append_assoc, ← List.append_assoc, List.getLast?_concat, List.getLast?_concat,
        if_neg (by simpa using other)]
  have unlinked : ∃ u, t = sefree sep u ∧ u.bcTail = (before ++ after).getLast? ∧ Linked u.seNext u.bcHead (before ++ after) ∧
      Same s u ∧ SameCells s u := by
    rw [← tail]
    rcases List.eq_nil_or_concat before with rfl | ⟨front, psep, rfl⟩
    · exact ⟨_, rfl, rfl, waiting.linked.2, ⟨rfl, rfl, rfl⟩, ⟨rfl, rfl⟩⟩
    · have last : (front.concat psep).getLast? = some psep := by simp
      have linked := waiting.linked
      rw [List.concat_append] at linked ⊢
      refine ⟨{ s with seNext := update s.seNext psep (s.seNext sep), bcTail := if s.bcTail = some sep then some psep else s.bcTail },
        ?_, ?_, linked.unlink, ⟨rfl, rfl, rfl⟩, ⟨rfl, rfl⟩⟩
      · simp only [t, dropEvent, last]
      · rw [last]
  obtain ⟨u, rfl_, newTail, linked, same, cells⟩ := unlinked
  rw [rfl_]
  refine ⟨sefree_waiting sep ⟨linked, .inr newTail⟩, ?_, ?_, ?_⟩
  · have freed := sefree_same sep u
    exact ⟨freed.func.trans same.func, freed.arg.trans same.arg, freed.size.trans same.size⟩
  · rw [sefree_free, cells.free]
  · rw [sefree_cells, cells.cells]

/-- The next turn of the pass puts back the one event of the list. -/
def LastTooBig (r : Queuerun) (s : State) : Prop :=
  r.nevent ≠ 0 ∧ ∃ sep, s.bcHead = some sep ∧ s.seNext sep = none ∧ r.count < s.seSize sep

inductive Turned (r : Queuerun) (s : State) : List Nat → Option Queuerun → List Nat → Prop
  | ended {l : List Nat} (idle : l = [] ∨ r.nevent = 0) : Turned r s l none l
  | called {sep : Nat} {rest : List Nat} (fits : s.seSize sep ≤ r.count) :
      Turned r s (sep :: rest) (some ⟨r.nevent - 1, r.count, some sep⟩) rest
  | back {sep : Nat} {rest : List Nat} (others : rest ≠ []) :
      Turned r s (sep :: rest) (some ⟨r.nevent - 1, r.count, none⟩) (rest ++ [sep])
  | lost {sep : Nat} (last : LastTooBig r s) : Turned r s [sep] (some ⟨r.nevent - 1, r.count, none⟩) []

theorem againEvent_spec {rest : List Nat} (waiting : Waiting true s (sep :: rest)) :
    ∃ t, againEvent sep s = some t ∧ Waiting true t (if rest = [] then [] else rest ++ [sep]) ∧ Same s t ∧ SameCells s t := by
  have linked := waiting.linked
  have last := waiting.tail (by simp)
  have put : ∀ tail, s.bcTail = some tail → againEvent sep s = some { s with
      bcHead := s.seNext sep, seNext := update (update s.seNext sep none) tail (some sep), bcTail := some sep } := by
    intro tail same
    simp only [againEvent, same]
    rfl
  rcases List.eq_nil_or_concat rest with rfl | ⟨front, tail, rfl⟩
  · exact ⟨_, put sep last, ⟨linked.2, .inl ⟨rfl, rfl⟩⟩, ⟨rfl, rfl, rfl⟩, ⟨rfl, rfl⟩⟩
  · rw [List.concat_eq_append] at linked last ⊢
    have moved := Linked.push_back linked.2 (List.nodup_cons.mp linked.nodup).1
    rw [← List.cons_append, List.getLast?_concat] at last
    rw [if_neg (by simp)]
    exact ⟨_, put tail last, ⟨moved, .inr (by simp)⟩, ⟨rfl, rfl, rfl⟩, ⟨rfl, rfl⟩⟩

theorem queuerunTurn_spec (waiting : Waiting true s l) (r : Queuerun) :
    ∃ r' t l', queuerunTurn r s = some (r', t) ∧ Turned r s l r' l' ∧ Waiting r'.isSome t l' ∧ Same s t ∧ SameCells s t := by
  have linked := waiting.linked
  cases l with
  | nil =>
    have head : s.bcHead = none := linked
    exact ⟨none, { s with bcTail := none }, [], by simp only [queuerunTurn, head], .ended (.inl rfl), ⟨linked, .inr rfl⟩,
      ⟨rfl, rfl, rfl⟩, ⟨rfl, rfl⟩⟩
  | cons sep rest =>
    have head : s.bcHead = some sep := linked.1
    have last := waiting.tail (by simp)
    cases counted : r.nevent with
    | zero =>
      exact ⟨none, { s with strbcwait := true }, sep :: rest, by simp only [queuerunTurn, head, counted],
        .ended (.inr counted), ⟨linked, .inr last⟩, ⟨rfl, rfl, rfl⟩, ⟨rfl, rfl⟩⟩
    | succ nevent =>
      have count : r.nevent - 1 = nevent := by omega
      by_cases fits : s.seSize sep ≤ r.count
      · refine ⟨some ⟨nevent, r.count, some sep⟩, { s with bcHead := s.seNext sep }, rest, ?_, count ▸ .called fits,
          ⟨linked.2, ?_⟩, ⟨rfl, rfl, rfl⟩, ⟨rfl, rfl⟩⟩
        · simp only [queuerunTurn, head, counted, fits, if_true]
        · cases rest with
          | nil => exact .inl ⟨rfl, rfl⟩
          | cons next rest => exact .inr (by rw [last, List.getLast?_cons_cons])
      · have large : r.count < s.seSize sep := not_le.mp fits
        obtain ⟨t, again, waits, same, cells⟩ := againEvent_spec waiting
        have turn : queuerunTurn r s = some (some ⟨nevent, r.count, none⟩, t) := by
          simp only [queuerunTurn, head, counted, fits, if_false, again, Option.map_some]
        refine ⟨_, t, _, turn, ?_, waits, same, cells⟩
        rw [← count]
        split
        · next alone =>
          subst alone
          exact .lost ⟨by omega, sep, head, linked.2, large⟩
        · next others => exact .back others

end operations

end Svr4.Proofs.BufcallList

/-! Bufcalls over any order of calls and passes. A pass loses a request only when it
puts back the one event of the list. -/

namespace Svr4.Proofs.BufcallHistory
open Function Chain Bufcall BufcallList

inductive Event
  | added (r : Request)
  | called (r : Request)
  | cancelled (r : Request)

def Event.adds : Event → Multiset Request
  | .added r => {r}
  | _ => 0

def Event.calls : Event → Multiset Request
  | .called r => {r}
  | _ => 0

def Event.cancels : Event → Multiset Request
  | .cancelled r => {r}
  | _ => 0

def added (log : List Event) : Multiset Request := (log.map Event.adds).sum

def called (log : List Event) : Multiset Request := (log.map Event.calls).sum

def cancelled (log : List Event) : Multiset Request := (log.map Event.cancels).sum

section log
variable (log log' : List Event) (event : Event)

@[simp] theorem added_append : added (log ++ log') = added log + added log' := by simp [added]

@[simp] theorem called_append : called (log ++ log') = called log + called log' := by simp [called]

@[simp] theorem cancelled_append : cancelled (log ++ log') = cancelled log + cancelled log' := by simp [cancelled]

@[simp] theorem added_single : added [event] = event.adds := by simp [added]

@[simp] theorem called_single : called [event] = event.calls := by simp [called]

@[simp] theorem cancelled_single : cancelled [event] = event.cancels := by simp [cancelled]

end log

/-- The list, the pass of `queuerun` under way, and the event cells that others use. -/
structure Kernel where
  s : State
  turn : Option Queuerun
  others : Multiset Nat

def calls (s : State) (r : Option Queuerun) : List Event :=
  (r.bind Queuerun.sep).toList.map (fun sep => .called (request s sep))

/-- Everything that happens around the list. The calls come from anywhere, the function
that a pass is calling included; `kmem_zalloc` returns memory that nobody has. -/
inductive Step (allowed : Queuerun → State → Prop) (k : Kernel) : List Event → Kernel → Prop
  | bufcall {t : State} {id kmem : Option Nat} {size : BitVec 32} {func arg : Nat} (fresh : ∀ c, kmem = some c → c ∉ k.s.cells)
      (call : bufcall kmem size func arg k.s = some (id, t)) :
      Step allowed k (id.toList.map (fun sep => .added (request t sep))) { k with s := t }
  | esbbcall {t : State} {id kmem : Option Nat} {func arg : Nat} (fresh : ∀ c, kmem = some c → c ∉ k.s.cells)
      (call : esbbcall kmem func arg k.s = some (id, t)) :
      Step allowed k (id.toList.map (fun sep => .added (request t sep))) { k with s := t }
  | unbufcall {t : State} {time : Nat} {id found : Option Nat} (call : unbufcall time id k.s = some (found, t)) :
      Step allowed k (found.toList.map (fun sep => .cancelled (request k.s sep))) { k with s := t }
  | strunbcall {t : State} {time p : Nat} {size : Int} {found : Option Nat} (call : strunbcall time size p k.s = some (found, t)) :
      Step allowed k (found.toList.map (fun sep => .cancelled (request k.s sep))) { k with s := t }
  | kmemFree : Step allowed k [] { k with s := kmemFree k.s }
  | enter {t : State} {r : Queuerun} {time : Nat} {kmemAvail : Int} (flag : k.s.strbcflag = true) (idle : k.turn = none)
      (call : queuerunEnter time kmemAvail k.s = some (r, t)) : Step allowed k [] { k with s := t, turn := some r }
  | turn {t : State} {r : Queuerun} {r' : Option Queuerun} (busy : k.turn = some r) (idle : r.sep = none) (may : allowed r k.s)
      (call : queuerunTurn r k.s = some (r', t)) : Step allowed k (calls k.s r') { k with s := t, turn := r' }
  | back {r : Queuerun} {sep : Nat} (busy : k.turn = some r) (running : r.sep = some sep) :
      Step allowed k [] { k with s := sefree sep k.s, turn := some { r with sep := none } }
  | take {t : State} {sep : Nat} {kmem : Option Nat} {noslp : Bool} (fresh : ∀ c, kmem = some c → c ∉ k.s.cells)
      (call : sealloc kmem noslp k.s = some (sep, t)) : Step allowed k [] { k with s := t, others := {sep} + k.others }
  | use {t : State} (only : ∀ c, c ∉ k.others → t.seNext c = k.s.seNext c ∧ request t c = request k.s c)
      (list : t.bcHead = k.s.bcHead ∧ t.bcTail = k.s.bcTail) (cells : SameCells k.s t) : Step allowed k [] { k with s := t }
  | give {sep : Nat} {others : Multiset Nat} (own : k.others = {sep} + others) :
      Step allowed k [] { k with s := sefree sep k.s, others }

inductive Run (allowed : Queuerun → State → Prop) : List Event → Kernel → Prop
  | start (seNext : Nat → Option Nat) (seFunc seArg : Nat → Nat) (seSize : Nat → Int) :
      Run allowed [] ⟨strinit seNext seFunc seArg seSize, none, 0⟩
  | step {log events : List Event} {k k' : Kernel} (run : Run allowed log k) (step : Step allowed k events k') :
      Run allowed (log ++ events) k'

def flying (turn : Option Queuerun) : Multiset Nat := (turn.bind Queuerun.sep).toList

@[simp] theorem flying_some (r : Queuerun) : flying (some r) = r.sep.toList := rfl

private theorem coe_cons_eq {α : Type} (a : α) (l : List α) : ((a :: l : List α) : Multiset α) = {a} + (l : Multiset α) := rfl

structure Valid (log : List Event) (k : Kernel) (l : List Nat) : Prop where
  waiting : Waiting k.turn.isSome k.s l
  cells : (l : Multiset Nat) + flying k.turn + k.others + free k.s = k.s.cells
  once : k.s.cells.Nodup
  balance : requests k.s l + called log + cancelled log = added log

def Balanced (before : Multiset Request) (events : List Event) (after : Multiset Request) : Prop :=
  after + called events + cancelled events = before + added events

section steps
variable {log events : List Event} {k k' : Kernel} {l : List Nat} {s t : State} {sep : Nat}

theorem start_valid (seNext : Nat → Option Nat) (seFunc seArg : Nat → Nat) (seSize : Nat → Int) :
    Valid [] ⟨strinit seNext seFunc seArg seSize, none, 0⟩ [] := by
  refine ⟨⟨rfl, .inr rfl⟩, ?_, List.nodup_range, rfl⟩
  simp [flying, free, strinit, Multiset.coe_reverse]

theorem Valid.fresh (valid : Valid log k l) (cell : Allocated k.s t sep) : sep ∉ l := by
  obtain ⟨fresh, freed, grown⟩ := cell.cells
  have all : (t.cells : Multiset Nat) = l + (flying k.turn + k.others + free t + {sep}) := by
    rw [grown, ← valid.cells, add_assoc _ (free k.s), ← freed]
    abel
  have once : (t.cells : Multiset Nat).Nodup := Multiset.coe_nodup.mpr (cell.once valid.once)
  rw [all] at once
  intro member
  exact Multiset.disjoint_left.mp (Multiset.nodup_add.mp once).2.2 (Multiset.mem_coe.mpr member) (by simp)

theorem Valid.balanced (valid : Valid log k l) {after : Multiset Request} (balanced : Balanced (requests k.s l) events after) :
    after + called (log ++ events) + cancelled (log ++ events) = added (log ++ events) := by
  have now : after + called events + cancelled events = requests k.s l + added events := balanced
  calc after + called (log ++ events) + cancelled (log ++ events)
      = (after + called events + cancelled events) + (called log + cancelled log) := by
        simp only [called_append, cancelled_append]
        abel
    _ = (requests k.s l + called log + cancelled log) + added events := by
        rw [now]
        abel
    _ = added (log ++ events) := by rw [valid.balance, added_append]

theorem balanced_nil (l : Multiset Request) : Balanced l [] l := by simp [Balanced, added, called, cancelled]

theorem Valid.add (valid : Valid log k l) {kmem id : Option Nat} (fresh : ∀ c, kmem = some c → c ∉ k.s.cells)
    {size : Int} {func arg : Nat} (call : addEvent kmem size func arg k.s = some (id, t)) :
    ∃ l', Valid (log ++ id.toList.map (fun sep => .added (request t sep))) { k with s := t } l' := by
  have apart : ∀ sep u, sealloc kmem true k.s = some (sep, u) → sep ∉ l :=
    fun sep u cell => valid.fresh (sealloc_spec fresh cell)
  rcases addEvent_spec valid.waiting fresh apart size func arg with none_ | ⟨sep, u, done, new⟩
  · rw [none_] at call
    cases call
    exact ⟨l, valid.waiting, valid.cells, valid.once, valid.balanced (balanced_nil _)⟩
  · rw [done] at call
    cases call
    obtain ⟨more, freed, grown⟩ := new.cells
    refine ⟨l ++ [sep], new.waiting, ?_, new.once valid.once, valid.balanced ?_⟩
    · rw [grown, ← valid.cells, add_assoc _ (free k.s), ← freed, ← Multiset.coe_add, Multiset.coe_singleton]
      abel
    · simp [Balanced, new.requests, new.request, Event.adds, Event.calls, Event.cancels]

theorem cancelEvent_mono {time time' : Nat} {test : Nat → Bool} {r : Option Nat × State} (more : time ≤ time')
    (ended : cancelEvent time test s = some r) : cancelEvent time' test s = some r := by
  unfold cancelEvent at ended ⊢
  obtain ⟨found, walked, rest⟩ := Option.bind_eq_some_iff.mp ended
  simp only [walk_mono more walked]
  exact rest

theorem cancelEvent_spec {busy : Bool} (waiting : Waiting busy s l) {time : Nat} (test : Nat → Bool) (enough : l.length ≤ time) :
    (cancelEvent time test s = some (none, s) ∧ ∀ sep ∈ l, test sep = false) ∨
      ∃ before sep after, l = before ++ sep :: after ∧ test sep = true ∧
        cancelEvent time test s = some (some sep, dropEvent before.getLast? sep s) := by
  rcases walk_cases test time waiting.linked enough with ⟨walked, passes⟩ | ⟨before, sep, after, here, stops, walked⟩
  · exact .inl ⟨by simp only [cancelEvent, walked]; rfl, passes⟩
  · exact .inr ⟨before, sep, after, here, stops, by simp only [cancelEvent, walked]; rfl⟩

theorem Valid.cancel (valid : Valid log k l) {time : Nat} {test : Nat → Bool} {found : Option Nat}
    (call : cancelEvent time test k.s = some (found, t)) :
    ∃ l', Valid (log ++ found.toList.map (fun sep => .cancelled (request k.s sep))) { k with s := t } l' := by
  have ended := cancelEvent_mono (Nat.le_max_left _ l.length) call
  rcases cancelEvent_spec valid.waiting test (Nat.le_max_right _ _) with ⟨none_, _⟩ | ⟨before, sep, after, here, _, done⟩
  · rw [none_] at ended
    cases ended
    exact ⟨l, valid.waiting, valid.cells, valid.once, valid.balanced (balanced_nil _)⟩
  · rw [done] at ended
    cases ended
    subst here
    obtain ⟨waiting, same, freed, cells⟩ := dropEvent_spec valid.waiting
    refine ⟨before ++ after, waiting, ?_, cells ▸ valid.once, valid.balanced ?_⟩
    · rw [freed, cells, ← valid.cells, ← Multiset.coe_add, ← Multiset.coe_add, coe_cons_eq]
      abel
    · rw [same.requests]
      simp only [Balanced, requests_append, requests_cons, Option.toList_some, List.map_cons, List.map_nil, called_single,
        cancelled_single, added_single, Event.calls, Event.cancels, Event.adds]
      abel

theorem Valid.turn (valid : Valid log k l) {r : Queuerun} {r' : Option Queuerun} {l' : List Nat} (busy : k.turn = some r)
    (idle : r.sep = none) (turned : Turned r k.s l r' l') (waits : Waiting r'.isSome t l') (same : Same k.s t)
    (held : SameCells k.s t) (may : ¬ LastTooBig r k.s) : Valid (log ++ calls k.s r') { k with s := t, turn := r' } l' := by
  have none_ : flying k.turn = 0 := by simp [flying, busy, idle]
  have cells := valid.cells
  rw [none_, ← held.free, ← held.cells] at cells
  have once := valid.once
  rw [← held.cells] at once
  cases turned with
  | ended =>
    refine ⟨waits, cells, once, valid.balanced ?_⟩
    rw [same.requests]
    exact balanced_nil _
  | called fits =>
    refine ⟨waits, ?_, once, valid.balanced ?_⟩
    · rw [← cells, flying_some, coe_cons_eq, Option.toList_some, Multiset.coe_singleton]
      abel
    · rw [same.requests]
      simp only [Balanced, calls, requests_cons, Option.bind_some, Option.toList_some, List.map_cons, List.map_nil, called_single,
        cancelled_single, added_single, Event.calls, Event.cancels, Event.adds]
      abel
  | back others =>
    refine ⟨waits, ?_, once, valid.balanced ?_⟩
    · rw [← cells, flying_some, coe_cons_eq, ← Multiset.coe_add, Option.toList_none, Multiset.coe_nil, Multiset.coe_singleton,
        add_comm ({_} : Multiset Nat)]
    · rw [same.requests, requests_append, requests_cons, add_comm]
      exact balanced_nil _
  | lost last => exact absurd last may

private theorem kept (valid : Valid log k l) (waiting : Waiting k.turn.isSome t l) (same : requests t l = requests k.s l)
    (cells : SameCells k.s t) : Valid (log ++ []) { k with s := t } l :=
  ⟨waiting, by rw [cells.free, cells.cells]; exact valid.cells, cells.cells ▸ valid.once,
    valid.balanced (same ▸ balanced_nil _)⟩

private theorem freed (valid : Valid log k l) (turn : Option Queuerun) (others : Multiset Nat)
    (busy : turn.isSome = k.turn.isSome) (gone : flying k.turn + k.others = {sep} + (flying turn + others)) :
    Valid (log ++ []) ⟨sefree sep k.s, turn, others⟩ l := by
  refine ⟨busy ▸ sefree_waiting sep valid.waiting, ?_, (sefree_cells sep k.s).symm ▸ valid.once,
    valid.balanced ((sefree_same sep k.s).requests ▸ balanced_nil _)⟩
  rw [sefree_cells, sefree_free, ← valid.cells, add_assoc (l : Multiset Nat) (flying k.turn), gone]
  abel

theorem step_valid (valid : Valid log k l) (step : Step (fun r s => ¬ LastTooBig r s) k events k') :
    ∃ l', Valid (log ++ events) k' l' := by
  have waiting := valid.waiting
  cases step with
  | bufcall fresh call => exact valid.add fresh call
  | esbbcall fresh call => exact valid.add fresh call
  | unbufcall call => exact valid.cancel call
  | strunbcall call => exact valid.cancel call
  | kmemFree =>
    refine ⟨l, kept valid ?_ ?_ ?_⟩
    all_goals
      unfold kmemFree
      split
    · exact ⟨waiting.linked, waiting.last⟩
    · exact waiting
    · rfl
    · rfl
    · exact ⟨rfl, rfl⟩
    · exact ⟨rfl, rfl⟩
  | enter flag idle call =>
    obtain ⟨nevent, _, rest⟩ := Option.bind_eq_some_iff.mp call
    cases rest
    refine ⟨l, ⟨waiting.linked, .inr ?_⟩, ?_, valid.once, valid.balanced (balanced_nil _)⟩
    · rw [idle] at waiting
      rcases waiting.last with ⟨busy, _⟩ | last
      · cases busy
      · exact last
    · rw [flying_some, ← valid.cells, idle]
      rfl
  | @turn t r r' busy idle may call =>
    rw [busy] at waiting
    obtain ⟨_, _, l', done, turned, waits, same, held⟩ := queuerunTurn_spec waiting r
    rw [done] at call
    cases call
    exact ⟨l', valid.turn busy idle turned waits same held may⟩
  | @back r sep busy running =>
    refine ⟨l, freed valid _ _ (by rw [busy]; rfl) ?_⟩
    rw [busy, flying_some, running, flying_some]
    simp
  | @take t sep kmem noslp fresh call =>
    have cell := sealloc_spec fresh call
    obtain ⟨more, freed, grown⟩ := cell.cells
    refine ⟨l, ⟨⟨?_, ?_⟩, ?_, cell.once valid.once, valid.balanced ?_⟩⟩
    · rw [cell.next, cell.list.1]
      exact Seg.update waiting.linked none (valid.fresh cell)
    · rw [cell.list.2]
      exact waiting.last
    · change (l : Multiset Nat) + flying k.turn + ({sep} + k.others) + free t = t.cells
      rw [grown, ← valid.cells, add_assoc _ (free k.s), ← freed]
      abel
    · rw [cell.same.requests]
      exact balanced_nil _
  | @use t only list cells =>
    have apart : ∀ c ∈ l, c ∉ k.others := by
      intro c member other
      have once : (k.s.cells : Multiset Nat).Nodup := Multiset.coe_nodup.mpr valid.once
      rw [← valid.cells, add_assoc, add_assoc] at once
      exact Multiset.disjoint_left.mp (Multiset.nodup_add.mp once).2.2 (Multiset.mem_coe.mpr member) (by simp [other])
    refine ⟨l, kept valid ⟨?_, list.2 ▸ waiting.last⟩ ?_ cells⟩
    · rw [list.1]
      exact Seg.congr waiting.linked (fun c member => (only c (apart c member)).1)
    · exact congrArg _ (List.map_congr_left (fun c member => (only c (apart c member)).2))
  | @give sep others own =>
    refine ⟨l, freed valid _ _ rfl ?_⟩
    rw [own]
    abel

end steps

theorem Run.valid {log : List Event} {k : Kernel} (run : Run (fun r s => ¬ LastTooBig r s) log k) : ∃ l, Valid log k l := by
  induction run with
  | start seNext seFunc seArg seSize => exact ⟨[], start_valid seNext seFunc seArg seSize⟩
  | step _ step ih =>
    obtain ⟨l, valid⟩ := ih
    exact step_valid valid step

/-- The list ends, its tail is the last event, and it holds just the requests that were
added and neither called nor cancelled. -/
def Kept (log : List Event) (k : Kernel) : Prop :=
  ∃ l, Linked k.s.seNext k.s.bcHead l ∧ l.Nodup ∧ (l ≠ [] ∨ k.turn = none → k.s.bcTail = l.getLast?) ∧
    requests k.s l + called log + cancelled log = added log

theorem Valid.kept {log : List Event} {k : Kernel} {l : List Nat} (valid : Valid log k l) : Kept log k := by
  refine ⟨l, valid.waiting.linked, valid.waiting.linked.nodup, fun settled => ?_, valid.balance⟩
  rcases valid.waiting.last with ⟨busy, none_⟩ | last
  · rcases settled with some_ | idle
    · exact absurd none_ some_
    · rw [idle] at busy
      cases busy
  · exact last

private theorem lost_not_kept {log : List Event} {k k' : Kernel} {l l' : List Nat} {r : Queuerun} {r' : Option Queuerun}
    (valid : Valid log k l) (last : LastTooBig r k.s) (turned : Turned r k.s l r' l') (waits : Waiting r'.isSome k'.s l')
    (keeps : Kept (log ++ calls k.s r') k') : False := by
  obtain ⟨going, sep, head, next, large⟩ := last
  have alone : l = [sep] := valid.waiting.linked.unique ⟨head, next⟩
  cases turned with
  | ended idle => simp [alone, going] at idle
  | called fits =>
    cases alone
    exact absurd fits (not_le.mpr large)
  | back others =>
    cases alone
    exact others rfl
  | lost =>
    cases alone
    obtain ⟨left, linked, _, _, balance⟩ := keeps
    obtain rfl := waits.linked.unique linked
    have before := valid.balance
    simp only [calls, Option.bind_some, Option.toList_none, List.map_nil, List.append_nil] at balance
    rw [← balance, requests_cons, add_assoc, add_assoc, add_assoc] at before
    have cards := congrArg Multiset.card before
    simp [requests] at cards

/-- In a run without such a turn every request is kept; any next turn keeps them if and
only if it is not such a turn either. -/
theorem bufcalls_kept (log : List Event) (k : Kernel) (run : Run (fun r s => ¬ LastTooBig r s) log k) :
    Kept log k ∧ ∀ r, k.turn = some r → r.sep = none → ∃ r' t, queuerunTurn r k.s = some (r', t) ∧
      (Kept (log ++ calls k.s r') { k with s := t, turn := r' } ↔ ¬ LastTooBig r k.s) := by
  obtain ⟨l, valid⟩ := run.valid
  refine ⟨valid.kept, fun r busy idle => ?_⟩
  have waiting := valid.waiting
  rw [busy] at waiting
  obtain ⟨r', t, l', done, turned, waits, same, held⟩ := queuerunTurn_spec waiting r
  refine ⟨r', t, done, fun keeps last => ?_, fun may => (valid.turn busy idle turned waits same held may).kept⟩
  exact lost_not_kept valid last turned waits keeps

private theorem one_waiting (allowed : Queuerun → State → Prop) (kmemAvail : Int) : ∃ s, Run allowed [.added ⟨9, 7, 8, 100⟩]
    ⟨s, some ⟨1, kmemAvail, none⟩, 0⟩ ∧ s.bcHead = some 9 ∧ s.bcTail = some 9 ∧ s.seNext 9 = none ∧ request s 9 = ⟨9, 7, 8, 100⟩ := by
  have start : Run allowed [] ⟨strinit (fun _ => none) (fun _ => 0) (fun _ => 0) (fun _ => 0), none, 0⟩ := .start _ _ _ _
  have asked := start.step (.bufcall (by simp) (show bufcall none 100 7 8 _ = some (some 9, _) from rfl))
  have flagged := asked.step .kmemFree
  have entered := flagged.step (.enter rfl rfl (show queuerunEnter 1 kmemAvail _ = some (⟨1, kmemAvail, none⟩, _) from rfl))
  exact ⟨_, entered, rfl, rfl, rfl, rfl⟩

/-- A bufcall for 100 bytes, and a pass while the estimate is 50: the request is gone. -/
theorem bufcall_dropped : ∃ log k, Run (fun _ _ => True) log k ∧ ¬ Kept log k := by
  obtain ⟨s, run, head, tail, next, said⟩ := one_waiting (fun _ _ => True) 50
  have large : ¬ s.seSize 9 ≤ 50 := by
    rw [show s.seSize 9 = 100 from congrArg Request.size said]
    decide
  have turn : queuerunTurn ⟨1, 50, none⟩ s = some (some ⟨0, 50, none⟩, { s with
      bcHead := s.seNext 9, seNext := update (update s.seNext 9 none) 9 (some 9), bcTail := some 9 }) := by
    simp only [queuerunTurn, head, large, if_false, againEvent, tail, Option.bind_eq_bind, Option.bind_some, Option.pure_def,
      Option.map_some]
  refine ⟨_, _, run.step (.turn rfl rfl trivial turn), ?_⟩
  rintro ⟨l, linked, _, _, balance⟩
  simp only [next] at linked
  rw [linked.empty] at balance
  have cards := congrArg Multiset.card balance
  simp [requests, calls, added, called, cancelled, Event.adds, Event.calls, Event.cancels] at cards

/-- The theorem in a run that asks for 100 bytes and has them called when there are 200. -/
theorem bufcalls_kept_one : ∃ log k, Kept log k ∧ called log = {⟨9, 7, 8, 100⟩} := by
  obtain ⟨s, run, head, tail, next, said⟩ := one_waiting (fun r s => ¬ LastTooBig r s) 200
  have size : s.seSize 9 = 100 := congrArg Request.size said
  have fits : ¬ LastTooBig ⟨1, 200, none⟩ s := by
    rintro ⟨_, sep, first, _, large⟩
    rw [head] at first
    cases first
    rw [size] at large
    exact absurd large (by decide)
  have turn : queuerunTurn ⟨1, 200, none⟩ s = some (some ⟨0, 200, some 9⟩, { s with bcHead := s.seNext 9 }) := by
    simp [queuerunTurn, head, size]
  refine ⟨_, _, (bufcalls_kept _ _ (run.step (.turn rfl rfl fits turn))).1, ?_⟩
  simp [calls, called, Event.calls, said]

end Svr4.Proofs.BufcallHistory
