import Mathlib

/-! Multi-precision addition, subtraction and multiplication (lib/libmp). An allocation takes some
free place of the address space, and every access is checked against the blocks in use. -/

namespace Svr4.Mp
open Function

/-- Why a call does not return: `_mp_fatal`, an access outside of the blocks in use, a value outside
of its type, or no more stack. -/
inductive Fault
  | fatal
  | wild
  | overflow
  | deep
  deriving DecidableEq

/-- The bytes below the first block: at least the header that malloc keeps before it. -/
def LOWEST : Nat := 8

/-- The blocks in use, by their addresses, each with the shorts in it. -/
structure Heap where
  block : Nat → Option (List Int)
  top : Nat
  inside : ∀ p ds, block p = some ds → LOWEST ≤ p ∧ p + 2 * ds.length ≤ top
  limit : top ≤ 2 ^ 32
  apart : ∀ p q ds es, block p = some ds → block q = some es → p < q → p + 2 * ds.length ≤ q

structure Space (h : Heap) (n : Nat) where
  addr : Nat
  contents : List Int
  room : n ≤ 2 * contents.length
  low : LOWEST ≤ addr
  high : addr + 2 * contents.length ≤ 2 ^ 32
  unused : h.block addr = none
  apart : ∀ q es, h.block q = some es → q + 2 * es.length ≤ addr ∨ addr + 2 * contents.length ≤ q

abbrev Malloc := (h : Heap) → (n : Nat) → Option (Space h n)

inductive Ptr
  | block (p : Nat)
  | one
  deriving DecidableEq

structure MINT where
  len : Int
  val : Ptr

/-- The MINTs by their addresses, those of the callers below the ones of the callees. -/
structure Store where
  mint : Nat → MINT
  heap : Heap

def int (x : Int) : Except Fault Int := if -2 ^ 31 ≤ x ∧ x < 2 ^ 31 then .ok x else .error .overflow

def load (h : Heap) (p : Ptr) (i : Nat) : Except Fault Int :=
  match p with
  | .block p =>
    match (h.block p).bind (·[i]?) with
    | some d => .ok d
    | none => .error .wild
  | .one => if i = 0 then .ok 1 else .error .wild

/-- The heap with the `i`-th short of the block at `p` written. -/
def Heap.write (h : Heap) (p i : Nat) (x : Int) : Heap where
  block := update h.block p ((h.block p).map (·.set i x))
  top := h.top
  inside := by
    intro q ds held
    rcases eq_or_ne q p with rfl | other
    · rw [update_self, Option.map_eq_some_iff] at held
      obtain ⟨es, held, rfl⟩ := held
      rw [List.length_set]
      exact h.inside q es held
    · rw [update_of_ne other] at held
      exact h.inside q ds held
  limit := h.limit
  apart := by
    have size : ∀ q ds, update h.block p ((h.block p).map (·.set i x)) q = some ds → ∃ es, h.block q = some es ∧ es.length = ds.length := by
      intro q ds held
      rcases eq_or_ne q p with rfl | other
      · rw [update_self, Option.map_eq_some_iff] at held
        obtain ⟨es, held, rfl⟩ := held
        exact ⟨es, held, List.length_set.symm⟩
      · rw [update_of_ne other] at held
        exact ⟨ds, held, rfl⟩
    intro q r ds es held held' before
    obtain ⟨ds', held, same⟩ := size q ds held
    obtain ⟨es', held', _⟩ := size r es held'
    exact same ▸ h.apart q r ds' es' held held' before

def store (h : Heap) (p : Ptr) (i : Nat) (x : Int) : Except Fault Heap :=
  match p with
  | .block p =>
    if -2 ^ 15 ≤ x ∧ x < 2 ^ 15 then
      if ((h.block p).bind (·[i]?)).isSome then .ok (h.write p i x) else .error .wild
    else .error .overflow
  | .one => .error .wild

def Heap.release (h : Heap) (p : Nat) : Heap where
  block := update h.block p none
  top := h.top
  inside := by
    intro q ds held
    rcases eq_or_ne q p with rfl | other
    · simp at held
    · exact h.inside q ds (by rwa [update_of_ne other] at held)
  limit := h.limit
  apart := by
    have old : ∀ q ds, update h.block p none q = some ds → h.block q = some ds := by
      intro q ds held
      rcases eq_or_ne q p with rfl | other
      · simp at held
      · rwa [update_of_ne other] at held
    exact fun q r ds es held held' => h.apart q r ds es (old q ds held) (old r es held')

def free (h : Heap) (p : Ptr) : Except Fault Heap :=
  match p with
  | .block p => if (h.block p).isSome then .ok (h.release p) else .error .wild
  | .one => .error .wild

def Heap.place {n : Nat} (h : Heap) (space : Space h n) : Heap where
  block := update h.block space.addr (some space.contents)
  top := max h.top (space.addr + 2 * space.contents.length)
  inside := by
    intro q ds held
    rcases eq_or_ne q space.addr with rfl | other
    · rw [update_self, Option.some.injEq] at held
      exact ⟨space.low, held ▸ le_max_right ..⟩
    · rw [update_of_ne other] at held
      exact ⟨(h.inside q ds held).1, (h.inside q ds held).2.trans (le_max_left ..)⟩
  limit := max_le h.limit space.high
  apart := by
    intro q r ds es held held' before
    rcases eq_or_ne q space.addr with rfl | other
    · rw [update_self, Option.some.injEq] at held
      rw [update_of_ne before.ne'] at held'
      have := space.apart r es held'
      rw [← held]
      omega
    · rw [update_of_ne other] at held
      rcases eq_or_ne r space.addr with rfl | other'
      · have := space.apart q ds held
        omega
      · rw [update_of_ne other'] at held'
        exact h.apart q r ds es held held' before

variable (malloc : Malloc)

def xalloc (h : Heap) (nint : Int) : Except Fault (Heap × Ptr) :=
  match malloc h (2 * ((nint + 2) % 2 ^ 32) % 2 ^ 32).toNat with
  | none => .error .fatal
  | some space => .ok (h.place space, .block space.addr)

def Store.set (s : Store) (a : Nat) (m : MINT) : Store := { s with mint := update s.mint a m }

def xfree (s : Store) (c : Nat) : Except Fault Store :=
  if (s.mint c).len ≠ 0 then do
    let h ← free s.heap (s.mint c).val
    .ok { mint := update s.mint c { s.mint c with len := 0 }, heap := h }
  else .ok s

/-- A loop over the shorts of `p` from `offset` on: `step` gives the short for `i` and the next carry. -/
def digits (step : Heap → Nat → Int → Except Fault (Int × Int)) (p : Ptr) (offset : Nat) :
    Nat → Nat → Int → Heap → Except Fault (Heap × Int)
  | 0, _, carry, h => .ok (h, carry)
  | n + 1, i, carry, h => do
    let (x, next) ← step h i carry
    let h ← store h p (offset + i) x
    digits step p offset n (i + 1) next h

def copy (a : Ptr) (h : Heap) (j : Nat) (carry : Int) : Except Fault (Int × Int) := do
  let x ← load h a j
  .ok (x, carry)

def magnitude (len : Int) : Except Fault Int := if len < 0 then int (-len) else .ok len

def _mp_move (s : Store) (a b : Nat) : Except Fault Store := do
  let s ← xfree s b
  let s := s.set b { s.mint b with len := (s.mint a).len }
  let i ← magnitude (s.mint a).len
  if i = 0 then .ok s
  else do
    let (h, val) ← xalloc malloc s.heap i
    let s := Store.mk (update s.mint b { s.mint b with val := val }) h
    let (h, _) ← digits (copy (s.mint a).val) (s.mint b).val 0 i.toNat 0 0 s.heap
    .ok { s with heap := h }

def leading (h : Heap) (a : Ptr) : Nat → Except Fault Nat
  | 0 => .ok 0
  | j + 1 => do
    let x ← load h a j
    if x = 0 then leading h a j else .ok (j + 1)

def _mp_mcan (s : Store) (a : Nat) : Except Fault Store := do
  if (s.mint a).len = 0 then .ok s
  else do
    let i ← magnitude (s.mint a).len
    let j ← leading s.heap (s.mint a).val i.toNat
    if (j : Int) = i then .ok s
    else if j = 0 then xfree s a
    else .ok (s.set a { s.mint a with len := if 0 < (s.mint a).len then j else -j })

def overflows (x : Int) : Prop := x / 32768 % 2 = 1

instance (x : Int) : Decidable (overflows x) := inferInstanceAs (Decidable (_ = _))

def carried (x carry : Int) : Int × Int := if overflows x then (x % 32768, carry) else (x, 0)

def add_both (a b : Ptr) (h : Heap) (i : Nat) (carry : Int) : Except Fault (Int × Int) := do
  let x ← int (carry + (← load h a i))
  let x ← int (x + (← load h b i))
  .ok (carried x 1)

/-- The second loop of `m_add` and of `m_sub`, which leaves an old carry as it is. -/
def add_rest (a : Ptr) (h : Heap) (i : Nat) (carry : Int) : Except Fault (Int × Int) := do
  let x ← int (carry + (← load h a i))
  .ok (carried x carry)

def m_add (s : Store) (a b c : Nat) : Except Fault Store := do
  let x := s.mint a
  let y := s.mint b
  let (h, cval) ← xalloc malloc s.heap (← int (x.len + 1))
  let (h, carry) ← digits (add_both x.val y.val) cval 0 y.len.toNat 0 0 h
  let (h, carry) ← digits (add_rest x.val) cval 0 (x.len.toNat - y.len.toNat) y.len.toNat carry h
  let h ← (if carry = 1 then store h cval x.len.toNat 1 else .ok h)
  let len := if carry = 1 then x.len + 1 else x.len
  let s := Store.mk (update s.mint c ⟨len, cval⟩) h
  if len = 0 then do
    let h ← free s.heap cval
    .ok { s with heap := h }
  else .ok s

def operands (s : Store) (a b sp : Nat) : Except Fault Store := do
  let s := (s.set sp { s.mint sp with len := 0 }).set (sp + 1) { s.mint (sp + 1) with len := 0 }
  let s ← _mp_move malloc s a sp
  _mp_move malloc s b (sp + 1)

/-- What `madd` and `msub` do around the call that computes; it gives the sign too. -/
def framed (s : Store) (a b c sp : Nat) (compute : Store → Except Fault (Store × Int)) : Except Fault Store := do
  let s ← operands malloc s a b sp
  let s ← xfree s c
  let (s, sign) ← compute s
  let s := s.set c { s.mint c with len := sign * (s.mint c).len }
  let s ← xfree s sp
  xfree s (sp + 1)

def negate (s : Store) (x : Nat) : Store := s.set x { s.mint x with len := -(s.mint x).len }

def sub_both (a b : Ptr) (h : Heap) (i : Nat) (borrow : Int) : Except Fault (Int × Int) := do
  let x ← int (borrow + (← load h a i))
  let x ← int (x - (← load h b i))
  .ok (carried x (-1))

def complement (c : Ptr) (h : Heap) (i : Nat) (carry : Int) : Except Fault (Int × Int) := do
  let x ← load h c i
  .ok (x - x % 32768 + (32767 - x % 32768), carry)

/-- The last loop of `m_sub`: the place of the highest digit that is positive. -/
def highest (h : Heap) (c : Ptr) : Nat → Except Fault (Option Nat)
  | 0 => .ok none
  | i + 1 => do
    let x ← load h c i
    if 0 < x then .ok (some i) else highest h c i

mutual

/-- `m_sub` with `mone` at `sp`; the first argument is how deep calls may nest. -/
def m_sub (deep : Nat) (s : Store) (a b c sp : Nat) : Except Fault Store :=
  match deep with
  | 0 => .error .deep
  | deep + 1 => do
    let (h, val) ← xalloc malloc s.heap (s.mint a).len
    let s := Store.mk (update s.mint c { s.mint c with val := val }) h
    let alen := (s.mint a).len.toNat
    let blen := (s.mint b).len.toNat
    let (h, borrow) ← digits (sub_both (s.mint a).val (s.mint b).val) val 0 blen 0 0 s.heap
    let (h, borrow) ← digits (add_rest (s.mint a).val) val 0 (alen - blen) blen borrow h
    let s ← (if borrow < 0 then do
        let (h, _) ← digits (complement val) val 0 alen 0 0 h
        madd deep (Store.mk (update (update s.mint c ⟨(s.mint a).len, val⟩) sp ⟨1, .one⟩) h) c sp c (sp + 1)
      else .ok { s with heap := h })
    match ← highest s.heap (s.mint c).val alen with
    | some i => .ok (s.set c { s.mint c with len := if borrow = 0 then i + 1 else -(i : Int) - 1 })
    | none => do
      let h ← free s.heap (s.mint c).val
      .ok { s with heap := h }

def madd (deep : Nat) (s : Store) (a b c sp : Nat) : Except Fault Store :=
  match deep with
  | 0 => .error .deep
  | deep + 1 =>
    framed malloc s a b c sp fun s => do
      let x := s.mint sp
      let y := s.mint (sp + 1)
      if 0 ≤ x.len then
        if 0 ≤ y.len then
          let s ← (if y.len ≤ x.len then m_add malloc s sp (sp + 1) c else m_add malloc s (sp + 1) sp c)
          .ok (s, 1)
        else
          let s ← msub deep (negate s (sp + 1)) sp (sp + 1) c (sp + 2)
          .ok (s, 1)
      else if y.len ≤ 0 then
        let s ← madd deep (negate (negate s sp) (sp + 1)) sp (sp + 1) c (sp + 2)
        .ok (s, -1)
      else
        let s ← msub deep (negate s sp) (sp + 1) sp c (sp + 2)
        .ok (s, 1)

def msub (deep : Nat) (s : Store) (a b c sp : Nat) : Except Fault Store :=
  match deep with
  | 0 => .error .deep
  | deep + 1 =>
    framed malloc s a b c sp fun s => do
      let x := s.mint sp
      let y := s.mint (sp + 1)
      if 0 ≤ x.len then
        if 0 ≤ y.len then
          if y.len ≤ x.len then
            let s ← m_sub deep s sp (sp + 1) c (sp + 2)
            .ok (s, 1)
          else
            let s ← msub deep s (sp + 1) sp c (sp + 2)
            .ok (s, -1)
        else
          let s ← madd deep (negate s (sp + 1)) sp (sp + 1) c (sp + 2)
          .ok (s, 1)
      else if y.len ≤ 0 then
        let s ← msub deep (negate (negate s sp) (sp + 1)) (sp + 1) sp c (sp + 2)
        .ok (s, 1)
      else
        let s ← madd deep (negate s sp) sp (sp + 1) c (sp + 2)
        .ok (s, -1)

end

/-- The first row, with the lowest digit of `b`. On every machine `sum >>= fifteen` divides by 2^15. -/
def first_row (a : Ptr) (bcache : Int) (h : Heap) (i : Nat) (sum : Int) : Except Fault (Int × Int) := do
  let sum ← int (sum + (← int ((← load h a i) * bcache)))
  .ok (sum % 32768, sum / 32768)

def next_row (a c : Ptr) (j : Nat) (bcache : Int) (h : Heap) (i : Nat) (sum : Int) : Except Fault (Int × Int) := do
  let product ← int ((← load h a i) * bcache)
  let sum ← int (sum + (← int (product + (← load h c (j + i)))))
  .ok (sum % 32768, sum / 32768)

def rows (a b c : Ptr) (alen : Nat) : Nat → Nat → Heap → Except Fault Heap
  | 0, _, h => .ok h
  | n + 1, j, h => do
    let bcache ← load h b j
    let (h, sum) ← digits (next_row a c j bcache) c j alen 0 0 h
    let h ← store h c (j + alen) sum
    rows a b c alen n (j + 1) h

def m_mult (s : Store) (a b c : Nat) : Except Fault Store := do
  let alen := (s.mint a).len
  let blen := (s.mint b).len
  let clen ← int (alen + blen)
  let (h, val) ← xalloc malloc s.heap clen
  let s := Store.mk (update s.mint c ⟨clen, val⟩) h
  let bcache ← load s.heap (s.mint b).val 0
  let (h, sum) ← digits (first_row (s.mint a).val bcache) val 0 alen.toNat 0 0 s.heap
  let h ← store h val alen.toNat sum
  let h ← rows (s.mint a).val (s.mint b).val val alen.toNat (blen.toNat - 1) 1 h
  let last ← load h val (clen - 1).toNat
  .ok (Store.mk (update s.mint c ⟨if last = 0 then clen - 1 else clen, val⟩) h)

def mult (s : Store) (a b c sp : Nat) : Except Fault Store := do
  let s ← _mp_mcan s a
  let s ← _mp_mcan s b
  if (s.mint a).len = 0 ∨ (s.mint b).len = 0 then xfree s c
  else do
    let s ← operands malloc s a b sp
    let alen := (s.mint a).len
    let blen := (s.mint b).len
    let s := if alen < 0 then negate s sp else s
    let sign : Int := if alen < 0 then -1 else 1
    let s := if blen < 0 then negate s (sp + 1) else s
    let sign := if blen < 0 then -sign else sign
    let s ← xfree s c
    let s ← (if (s.mint sp).len < (s.mint (sp + 1)).len then m_mult malloc s sp (sp + 1) c else m_mult malloc s (sp + 1) sp c)
    let s := if sign < 0 then negate s c else s
    let s ← (if (s.mint c).len = 0 then xfree s c else .ok s)
    let s ← xfree s sp
    xfree s (sp + 1)

end Svr4.Mp
