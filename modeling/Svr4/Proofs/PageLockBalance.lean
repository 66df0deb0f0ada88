import Svr4.PageLock

/-! The locks that are held on the pages, and how the totals follow from them. -/

namespace Svr4.Proofs.PageLockBalance
open Function PageLock

/-- The counters, the locks held (by whether they are for copy-on-write and whether they are the kernel's),
and the pages whose plain locks began with one of the kernel's. -/
structure World (Page : Type) where
  s : State Page
  held : Page → Bool → Bool → Nat
  charged : Page → Bool

/-- The calls, with the kind of the lock that they are about; others change a page around them. -/
inductive Op (Page : Type)
  | lock (pp : Page) (cow kernel : Bool)
  | unlock (pp : Page) (cow kernel : Bool)
  | useclaim (opp npp : Page) (kernel : Bool)
  | addclaim (pp : Page) (kernel : Bool)
  | subclaim (pp : Page) (kernel : Bool)
  | abort (pp : Page)
  | around (pp : Page) (vnode gone intrans : Bool) (keepcnt : Nat)

variable {Page : Type} [DecidableEq Page]

def more (held : Page → Bool → Bool → Nat) (pp : Page) (cow kernel : Bool) : Page → Bool → Bool → Nat :=
  update held pp (update (held pp) cow (update (held pp cow) kernel (held pp cow kernel + 1)))

def less (held : Page → Bool → Bool → Nat) (pp : Page) (cow kernel : Bool) : Page → Bool → Bool → Nat :=
  update held pp (update (held pp) cow (update (held pp cow) kernel (held pp cow kernel - 1)))

/-- An unlock or a transfer is about a lock that is held. -/
def Matched (w : World Page) : Op Page → Prop
  | .unlock pp cow kernel => 0 < w.held pp cow kernel
  | .useclaim opp _ kernel => 0 < w.held opp true kernel
  | .addclaim pp kernel => 0 < w.held pp false kernel
  | .subclaim pp kernel => 0 < w.held pp true kernel
  | _ => True

instance (w : World Page) : DecidablePred (Matched w)
  | .lock .. => isTrue trivial
  | .unlock pp cow kernel => inferInstanceAs (Decidable (0 < w.held pp cow kernel))
  | .useclaim opp _ kernel => inferInstanceAs (Decidable (0 < w.held opp true kernel))
  | .addclaim pp kernel => inferInstanceAs (Decidable (0 < w.held pp false kernel))
  | .subclaim pp kernel => inferInstanceAs (Decidable (0 < w.held pp true kernel))
  | .abort _ => isTrue trivial
  | .around .. => isTrue trivial

def perform (w : World Page) : Op Page → Bool × World Page
  | .lock pp cow kernel =>
    let r := page_pp_lock w.s pp cow kernel
    (r.1, if r.1 then
      ⟨r.2, more w.held pp cow kernel, if cow = false ∧ (w.s.pages pp).p_lckcnt = 0 then update w.charged pp kernel else w.charged⟩
    else { w with s := r.2 })
  | .unlock pp cow kernel => (true, ⟨page_pp_unlock w.s pp cow kernel, less w.held pp cow kernel, w.charged⟩)
  | .useclaim opp npp kernel =>
    (true, ⟨page_pp_useclaim w.s opp npp, more (less w.held opp true kernel) npp true kernel, w.charged⟩)
  | .addclaim pp kernel =>
    let r := page_addclaim w.s pp
    (r.1, if r.1 then ⟨r.2, more (less w.held pp false kernel) pp true kernel, w.charged⟩ else { w with s := r.2 })
  | .subclaim pp kernel =>
    (true, ⟨page_subclaim w.s pp, more (less w.held pp true kernel) pp false kernel,
      if (w.s.pages pp).p_lckcnt = 0 then update w.charged pp false else w.charged⟩)
  | .abort pp =>
    (true, ⟨page_abort w.s pp, if goes (w.s.pages pp) then update w.held pp (fun _ _ => 0) else w.held, w.charged⟩)
  | .around pp vnode gone intrans keepcnt =>
    let p := { w.s.pages pp with p_vnode := vnode, p_gone := gone, p_intrans := intrans, p_keepcnt := keepcnt }
    (true, { w with s := { w.s with pages := update w.s.pages pp p } })

/-- The steps that the accounts can follow: no count for copy-on-write is raised beyond the maximum, no plain
count comes round, the plain locks of a page end with one of the kind that they began with, and memory is not
overdrawn already. -/
def Sound (w : World Page) : Op Page → Prop
  | .lock pp cow kernel =>
    (cow = true → room w.s = true → (w.s.pages pp).p_cowcnt < PAGE_LOCK_MAXIMUM) ∧
      (cow = true ∨ (w.s.pages pp).p_lckcnt = 0 ∧ kernel = false → 0 < w.s.availrmem)
  | .unlock pp cow kernel =>
    cow = false → (w.s.pages pp).p_lckcnt ≠ 0 ∧ ((w.s.pages pp).p_lckcnt = 1 → kernel = w.charged pp)
  | .useclaim opp npp _ => opp = npp ∨ (w.s.pages npp).p_cowcnt < PAGE_LOCK_MAXIMUM
  | .addclaim pp _ =>
    (w.s.pages pp).p_lckcnt ≠ 0 ∧ ((w.s.pages pp).p_lckcnt = 1 → w.charged pp = false) ∧
      ((w.s.pages pp).p_lckcnt = 1 ∨ room w.s = true → (w.s.pages pp).p_cowcnt < PAGE_LOCK_MAXIMUM) ∧
      ((w.s.pages pp).p_lckcnt ≠ 1 → 0 < w.s.availrmem)
  | .subclaim pp _ => (w.s.pages pp).p_lckcnt < PAGE_LOCK_MAXIMUM
  | .abort pp => goes (w.s.pages pp) = true → (w.s.pages pp).p_lckcnt ≠ 0 → w.charged pp = false
  | .around .. => True

structure Started (w : World Page) : Prop where
  held : ∀ pp cow kernel, w.held pp cow kernel = 0
  lckcnt : ∀ pp, (w.s.pages pp).p_lckcnt = 0
  cowcnt : ∀ pp, (w.s.pages pp).p_cowcnt = 0

inductive Reached (w₀ : World Page) : World Page → Prop
  | start : Reached w₀ w₀
  | step {w : World Page} (op : Op Page) (before : Reached w₀ w) (matched : Matched w op) (sound : Sound w op) : Reached w₀ (perform w op).2

def locks (p : page_t) (charged : Bool) : Int := (if p.p_lckcnt ≠ 0 ∧ charged = false then 1 else 0) + p.p_cowcnt

def kernels (p : page_t) (charged : Bool) : Int := if p.p_lckcnt ≠ 0 ∧ charged = true then 1 else 0

structure PageKept (p : page_t) (held : Bool → Bool → Nat) : Prop where
  plain : p.p_lckcnt ≤ held false false + held false true
  cow : p.p_cowcnt = held true false + held true true
  lckFits : p.p_lckcnt ≤ PAGE_LOCK_MAXIMUM
  cowFits : p.p_cowcnt ≤ PAGE_LOCK_MAXIMUM

variable {w₀ w w' : World Page} {pp opp npp : Page} {cow kernel : Bool}

theorem increment_eq {n : Nat} (fits : n < PAGE_LOCK_MAXIMUM) : increment n = n + 1 := by
  unfold PAGE_LOCK_MAXIMUM at fits
  unfold increment
  omega

theorem decrement_eq {n : Nat} (some_ : n ≠ 0) (fits : n ≤ PAGE_LOCK_MAXIMUM) : decrement n + 1 = n := by
  unfold PAGE_LOCK_MAXIMUM at fits
  unfold decrement
  omega

theorem raised_eq {n : Nat} (fits : n < PAGE_LOCK_MAXIMUM) : raised n = n + 1 := if_pos fits

theorem raised_bounds {n : Nat} (fits : n ≤ PAGE_LOCK_MAXIMUM) : n ≤ raised n ∧ raised n ≤ n + 1 ∧ raised n ≤ PAGE_LOCK_MAXIMUM := by
  unfold raised
  split_ifs <;> omega

theorem more_elsewhere {held : Page → Bool → Bool → Nat} {q : Page} (other : q ≠ pp) : more held pp cow kernel q = held q := update_of_ne other _ _

theorem less_elsewhere {held : Page → Bool → Bool → Nat} {q : Page} (other : q ≠ pp) : less held pp cow kernel q = held q := update_of_ne other _ _

theorem more_here (held : Page → Bool → Bool → Nat) (pp : Page) (cow kernel cow' : Bool) :
    more held pp cow kernel pp cow' false + more held pp cow kernel pp cow' true =
      held pp cow' false + held pp cow' true + (if cow' = cow then 1 else 0) := by
  cases cow <;> cases kernel <;> cases cow' <;> simp [more] <;> omega

theorem less_here {held : Page → Bool → Bool → Nat} (some_ : 0 < held pp cow kernel) (cow' : Bool) :
    less held pp cow kernel pp cow' false + less held pp cow kernel pp cow' true + (if cow' = cow then 1 else 0) =
      held pp cow' false + held pp cow' true := by
  cases cow <;> cases kernel <;> cases cow' <;> simp [less] <;> omega

theorem addclaim_refused {s : State Page} (some_ : (s.pages pp).p_lckcnt ≠ 0) (other : (s.pages pp).p_lckcnt ≠ 1)
    (fits : (s.pages pp).p_lckcnt ≤ PAGE_LOCK_MAXIMUM) (full : room s = false) : page_addclaim s pp = (false, s) := by
  have lower := decrement_eq some_ fits
  have back : increment (decrement (s.pages pp).p_lckcnt) = (s.pages pp).p_lckcnt := by
    rw [increment_eq (by omega), lower]
  have same : setlck (setlck s pp (decrement (s.pages pp).p_lckcnt)) pp (s.pages pp).p_lckcnt = s := by
    simp [setlck]
  unfold page_addclaim
  simp only [setlck_lckcnt, room_setlck, full, Bool.false_eq_true, if_false]
  rw [if_neg (by omega), back, same]

theorem abort_waits {s : State Page} (stays : goes (s.pages pp) = false) :
    ∃ gone, page_abort s pp = { s with pages := update s.pages pp { s.pages pp with p_gone := gone } } := by
  unfold page_abort
  cases named : (s.pages pp).p_vnode with
  | false =>
    refine ⟨(s.pages pp).p_gone, ?_⟩
    simp [stays]
  | true =>
    refine ⟨true, ?_⟩
    have stays' : goes { s.pages pp with p_gone := true } = false := stays
    simp [stays']

theorem abort_goes {s : State Page} (leaves : goes (s.pages pp) = true) :
    (∀ q, q ≠ pp → (page_abort s pp).pages q = s.pages q) ∧ ((page_abort s pp).pages pp).p_lckcnt = 0 ∧
      ((page_abort s pp).pages pp).p_cowcnt = 0 ∧
      (page_abort s pp).pages_pp_locked = s.pages_pp_locked - (if (s.pages pp).p_lckcnt ≠ 0 then 1 else 0) - (s.pages pp).p_cowcnt ∧
      (page_abort s pp).availrmem = s.availrmem + (if (s.pages pp).p_lckcnt ≠ 0 then 1 else 0) + (s.pages pp).p_cowcnt ∧
      (page_abort s pp).pages_pp_kernel = s.pages_pp_kernel := by
  obtain ⟨t, same, counts, totals, body⟩ : ∃ t : State Page, (∀ q, q ≠ pp → t.pages q = s.pages q) ∧
      ((t.pages pp).p_lckcnt = (s.pages pp).p_lckcnt ∧ (t.pages pp).p_cowcnt = (s.pages pp).p_cowcnt) ∧
      (t.pages_pp_locked = s.pages_pp_locked ∧ t.availrmem = s.availrmem ∧ t.pages_pp_kernel = s.pages_pp_kernel) ∧
      page_abort s pp =
        let s := if (t.pages pp).p_lckcnt > 0 then setlck (give t 1) pp 0 else t
        if (s.pages pp).p_cowcnt > 0 then setcow (give s (s.pages pp).p_cowcnt) pp 0 else s := by
    unfold page_abort
    cases named : (s.pages pp).p_vnode with
    | false => exact ⟨s, fun _ _ => rfl, ⟨rfl, rfl⟩, ⟨rfl, rfl, rfl⟩, by simp [leaves]⟩
    | true =>
      have leaves' : goes { s.pages pp with p_gone := true } = true := leaves
      refine ⟨{ s with pages := update s.pages pp { s.pages pp with p_gone := true } }, fun q other => update_of_ne other _ _, ?_, ⟨rfl, rfl, rfl⟩, ?_⟩
      · simp
      · simp [leaves']
  rw [body]
  by_cases lck : (t.pages pp).p_lckcnt > 0 <;> by_cases cow : (t.pages pp).p_cowcnt > 0 <;>
    simp only [lck, cow, if_true, if_false, setlck_cowcnt, give_pages]
  all_goals grind [setlck_elsewhere, setcow_elsewhere]

section Totals

variable [Fintype Page]

structure Kept (w₀ w : World Page) : Prop where
  each : ∀ pp, PageKept (w.s.pages pp) (w.held pp)
  locked : w.s.pages_pp_locked = w₀.s.pages_pp_locked + ∑ pp, locks (w.s.pages pp) (w.charged pp)
  kernel : w.s.pages_pp_kernel = w₀.s.pages_pp_kernel + ∑ pp, kernels (w.s.pages pp) (w.charged pp)
  constant : w.s.availrmem + w.s.pages_pp_locked = w₀.s.availrmem + w₀.s.pages_pp_locked

theorem sum_page {f : page_t → Bool → Int} {pages pages' : Page → page_t} {charged charged' : Page → Bool}
    (elsewhere : ∀ q, q ≠ pp → pages' q = pages q ∧ charged' q = charged q) :
    ∑ q, f (pages' q) (charged' q) = ∑ q, f (pages q) (charged q) + (f (pages' pp) (charged' pp) - f (pages pp) (charged pp)) := by
  have rest : ∑ q ∈ Finset.univ.erase pp, f (pages' q) (charged' q) = ∑ q ∈ Finset.univ.erase pp, f (pages q) (charged q) := by
    refine Finset.sum_congr rfl fun q other => ?_
    obtain ⟨samePage, sameCharge⟩ := elsewhere q (Finset.ne_of_mem_erase other)
    rw [samePage, sameCharge]
  rw [← Finset.add_sum_erase _ _ (Finset.mem_univ pp), ← Finset.add_sum_erase _ (fun q => f (pages q) (charged q)) (Finset.mem_univ pp), rest]
  omega

section
variable (kept : Kept w₀ w)
include kept

theorem Kept.at_page (pp : Page)
    (elsewhere : ∀ q, q ≠ pp → w'.s.pages q = w.s.pages q ∧ w'.held q = w.held q ∧ w'.charged q = w.charged q)
    (here : PageKept (w'.s.pages pp) (w'.held pp))
    (locked : w'.s.pages_pp_locked = w.s.pages_pp_locked + (locks (w'.s.pages pp) (w'.charged pp) - locks (w.s.pages pp) (w.charged pp)))
    (kernel : w'.s.pages_pp_kernel = w.s.pages_pp_kernel + (kernels (w'.s.pages pp) (w'.charged pp) - kernels (w.s.pages pp) (w.charged pp)))
    (constant : w'.s.availrmem + w'.s.pages_pp_locked = w.s.availrmem + w.s.pages_pp_locked) : Kept w₀ w' where
  each q := by
    by_cases same : q = pp
    · rw [same]
      exact here
    · rw [(elsewhere q same).1, (elsewhere q same).2.1]
      exact kept.each q
  locked := by
    rw [locked, kept.locked, sum_page (f := locks) fun q other => ⟨(elsewhere q other).1, (elsewhere q other).2.2⟩]
    ring
  kernel := by
    rw [kernel, kept.kernel, sum_page (f := kernels) fun q other => ⟨(elsewhere q other).1, (elsewhere q other).2.2⟩]
    ring
  constant := constant.trans kept.constant

theorem Kept.lock (sound : Sound w (.lock pp cow kernel)) : Kept w₀ (perform w (.lock pp cow kernel)).2 := by
  obtain ⟨limit, -⟩ := sound
  obtain ⟨plain, cows, lckFits, cowFits⟩ := kept.each pp
  have sumCow := more_here w.held pp cow kernel true
  have sumPlain := more_here w.held pp cow kernel false
  unfold perform page_pp_lock
  cases cow with
  | true =>
    cases enough : room w.s with
    | false => simpa using kept
    | true =>
      have raise := raised_eq (limit rfl enough)
      simp only [if_true]
      have := limit rfl enough
      refine kept.at_page pp (fun q other => ⟨update_of_ne other _ _, more_elsewhere other, rfl⟩) ⟨?_, ?_, ?_, ?_⟩ ?_ ?_ ?_
      all_goals grind [setcow, take, locks, kernels]
  | false =>
    by_cases first : (w.s.pages pp).p_lckcnt = 0
    · cases kernel with
      | true =>
        simp only [Bool.false_eq_true, if_false, first, ne_eq, not_true_eq_false, if_true, and_self]
        refine kept.at_page pp (fun q other => ⟨update_of_ne other _ _, more_elsewhere other, update_of_ne other _ _⟩) ⟨?_, ?_, ?_, ?_⟩ ?_ ?_ ?_
        all_goals grind [setlck, locks, kernels, increment, PAGE_LOCK_MAXIMUM]
      | false =>
        cases enough : room w.s with
        | false => simpa [first] using kept
        | true =>
          simp only [Bool.false_eq_true, if_false, first, ne_eq, not_true_eq_false, if_true, and_self]
          refine kept.at_page pp (fun q other => ⟨update_of_ne other _ _, more_elsewhere other, update_of_ne other _ _⟩) ⟨?_, ?_, ?_, ?_⟩ ?_ ?_ ?_
          all_goals grind [setlck, take, locks, kernels, increment, PAGE_LOCK_MAXIMUM]
    · have raise := raised_bounds lckFits
      simp only [Bool.false_eq_true, if_false, first, ne_eq, not_false_eq_true, if_true, and_false]
      refine kept.at_page pp (fun q other => ⟨update_of_ne other _ _, more_elsewhere other, rfl⟩) ⟨?_, ?_, ?_, ?_⟩ ?_ ?_ ?_
      all_goals grind [setlck, locks, kernels]

theorem Kept.unlock (matched : Matched w (.unlock pp cow kernel)) (sound : Sound w (.unlock pp cow kernel)) :
    Kept w₀ (perform w (.unlock pp cow kernel)).2 := by
  obtain ⟨plain, cows, lckFits, cowFits⟩ := kept.each pp
  have some_ : 0 < w.held pp cow kernel := matched
  have sumCow := less_here some_ true
  have sumPlain := less_here some_ false
  unfold perform page_pp_unlock
  cases cow with
  | true =>
    have positive : (w.s.pages pp).p_cowcnt ≠ 0 := by cases kernel <;> omega
    have lower := decrement_eq positive cowFits
    simp only [if_true]
    refine kept.at_page pp (fun q other => ⟨setcow_elsewhere _ _ other, less_elsewhere other, rfl⟩) ⟨?_, ?_, ?_, ?_⟩ ?_ ?_ ?_
    all_goals grind [locks, kernels]
  | false =>
    obtain ⟨positive, kind⟩ := sound rfl
    have lower := decrement_eq positive lckFits
    simp only [Bool.false_eq_true, if_false, setlck_lckcnt]
    by_cases last : (w.s.pages pp).p_lckcnt = 1
    · rw [if_pos (by omega)]
      cases kernel with
      | true =>
        rw [if_pos rfl]
        refine kept.at_page pp (fun q other => ⟨setlck_elsewhere _ _ other, less_elsewhere other, rfl⟩) ⟨?_, ?_, ?_, ?_⟩ ?_ ?_ ?_
        all_goals grind [locks, kernels]
      | false =>
        rw [if_neg Bool.false_ne_true]
        refine kept.at_page pp (fun q other => ⟨setlck_elsewhere _ _ other, less_elsewhere other, rfl⟩) ⟨?_, ?_, ?_, ?_⟩ ?_ ?_ ?_
        all_goals grind [locks, kernels]
    · rw [if_neg (by omega)]
      refine kept.at_page pp (fun q other => ⟨setlck_elsewhere _ _ other, less_elsewhere other, rfl⟩) ⟨?_, ?_, ?_, ?_⟩ ?_ ?_ ?_
      all_goals grind [locks, kernels]

theorem Kept.addclaim (matched : Matched w (.addclaim pp kernel)) (sound : Sound w (.addclaim pp kernel)) :
    Kept w₀ (perform w (.addclaim pp kernel)).2 := by
  obtain ⟨plain, cows, lckFits, cowFits⟩ := kept.each pp
  obtain ⟨positive, kind, limit, -⟩ := sound
  have some_ : 0 < w.held pp false kernel := matched
  have lower := decrement_eq positive lckFits
  have sumCow := more_here (less w.held pp false kernel) pp true kernel true
  have sumPlain := more_here (less w.held pp false kernel) pp true kernel false
  have lessCow := less_here some_ true
  have lessPlain := less_here some_ false
  by_cases last : (w.s.pages pp).p_lckcnt = 1
  · have raise := increment_eq (limit (.inl last))
    have run : page_addclaim w.s pp =
        (true, setcow (setlck w.s pp (decrement (w.s.pages pp).p_lckcnt)) pp (increment (w.s.pages pp).p_cowcnt)) := by
      unfold page_addclaim
      simp only [setlck_lckcnt, setlck_cowcnt]
      rw [if_pos (by omega)]
    simp only [perform, run, if_true]
    refine kept.at_page pp (fun q other => ⟨(setcow_elsewhere _ _ other).trans (setlck_elsewhere _ _ other),
      (more_elsewhere other).trans (less_elsewhere other), rfl⟩) ⟨?_, ?_, ?_, ?_⟩ ?_ ?_ ?_
    all_goals grind [locks, kernels]
  · cases enough : room w.s with
    | true =>
      have raise := raised_eq (limit (.inr enough))
      have run : page_addclaim w.s pp =
          (true, setcow (take (setlck w.s pp (decrement (w.s.pages pp).p_lckcnt))) pp (raised (w.s.pages pp).p_cowcnt)) := by
        unfold page_addclaim
        simp only [setlck_lckcnt, setlck_cowcnt]
        rw [if_neg (by omega), room_setlck, if_pos enough]
      simp only [perform, run, if_true]
      refine kept.at_page pp (fun q other => ⟨(setcow_elsewhere _ _ other).trans (setlck_elsewhere _ _ other),
        (more_elsewhere other).trans (less_elsewhere other), rfl⟩) ⟨?_, ?_, ?_, ?_⟩ ?_ ?_ ?_
      all_goals grind [locks, kernels]
    | false =>
      have run := addclaim_refused positive last lckFits enough
      simp only [perform, run, Bool.false_eq_true, if_false]
      exact kept

theorem Kept.subclaim (matched : Matched w (.subclaim pp kernel)) (sound : Sound w (.subclaim pp kernel)) :
    Kept w₀ (perform w (.subclaim pp kernel)).2 := by
  obtain ⟨plain, cows, lckFits, cowFits⟩ := kept.each pp
  have some_ : 0 < w.held pp true kernel := matched
  have positive : (w.s.pages pp).p_cowcnt ≠ 0 := by cases kernel <;> omega
  have lower := decrement_eq positive cowFits
  have fits : (w.s.pages pp).p_lckcnt < PAGE_LOCK_MAXIMUM := sound
  have raise := increment_eq fits
  have sumCow := more_here (less w.held pp true kernel) pp false kernel true
  have sumPlain := more_here (less w.held pp true kernel) pp false kernel false
  have lessCow := less_here some_ true
  have lessPlain := less_here some_ false
  unfold perform page_subclaim
  by_cases first : (w.s.pages pp).p_lckcnt = 0
  · simp only [setcow_lckcnt, first, ne_eq, not_true_eq_false, if_false, if_true]
    rw [first] at raise
    refine kept.at_page pp (fun q other => ⟨(setlck_elsewhere _ _ other).trans (setcow_elsewhere _ _ other),
      (more_elsewhere other).trans (less_elsewhere other), update_of_ne other _ _⟩) ⟨?_, ?_, ?_, ?_⟩ ?_ ?_ ?_
    all_goals grind [locks, kernels]
  · simp only [setcow_lckcnt, first, ne_eq, not_false_eq_true, if_false, if_true, give_pages]
    refine kept.at_page pp (fun q other => ⟨(setlck_elsewhere _ _ other).trans (setcow_elsewhere _ _ other),
      (more_elsewhere other).trans (less_elsewhere other), rfl⟩) ⟨?_, ?_, ?_, ?_⟩ ?_ ?_ ?_
    all_goals grind [locks, kernels]

theorem Kept.around {vnode gone intrans : Bool} {keepcnt : Nat} :
    Kept w₀ (perform w (.around pp vnode gone intrans keepcnt)).2 := by
  obtain ⟨plain, cows, lckFits, cowFits⟩ := kept.each pp
  refine kept.at_page pp (fun q other => ⟨update_of_ne other _ _, rfl, rfl⟩) ⟨?_, ?_, ?_, ?_⟩ ?_ ?_ rfl
  · simpa [perform] using plain
  · simpa [perform] using cows
  · simpa [perform] using lckFits
  · simpa [perform] using cowFits
  · simp [perform, locks]
  · simp [perform, kernels]

theorem Kept.useclaim (matched : Matched w (.useclaim opp npp kernel)) (sound : Sound w (.useclaim opp npp kernel)) :
    Kept w₀ (perform w (.useclaim opp npp kernel)).2 := by
  obtain ⟨plain, cows, lckFits, cowFits⟩ := kept.each opp
  have some_ : 0 < w.held opp true kernel := matched
  have positive : (w.s.pages opp).p_cowcnt ≠ 0 := by cases kernel <;> omega
  have lower := decrement_eq positive cowFits
  have lessCow := less_here some_ true
  have lessPlain := less_here some_ false
  have sumCow := more_here (less w.held opp true kernel) npp true kernel true
  have sumPlain := more_here (less w.held opp true kernel) npp true kernel false
  unfold perform page_pp_useclaim
  by_cases same : opp = npp
  · subst same
    have raise : increment (decrement (w.s.pages opp).p_cowcnt) = (w.s.pages opp).p_cowcnt := by
      rw [increment_eq (by omega), lower]
    refine kept.at_page opp (fun q other => ⟨(setcow_elsewhere _ _ other).trans (setcow_elsewhere _ _ other),
      (more_elsewhere other).trans (less_elsewhere other), rfl⟩) ⟨?_, ?_, ?_, ?_⟩ ?_ ?_ ?_
    all_goals grind [locks, kernels]
  · have fits : (w.s.pages npp).p_cowcnt < PAGE_LOCK_MAXIMUM := sound.resolve_left same
    have other : npp ≠ opp := Ne.symm same
    have raise := increment_eq fits
    have unlocked : Kept w₀ ⟨give (setcow w.s opp (decrement (w.s.pages opp).p_cowcnt)) 1, less w.held opp true kernel, w.charged⟩ :=
      kept.unlock matched (fun plain => by cases plain)
    obtain ⟨plain', cows', lckFits', cowFits'⟩ := unlocked.each npp
    have pageHere := setcow_elsewhere w.s (decrement (w.s.pages opp).p_cowcnt) other
    simp only [give_pages, pageHere] at plain' cows' lckFits' cowFits'
    refine unlocked.at_page npp (fun q there => ⟨setcow_elsewhere _ _ there, more_elsewhere there, rfl⟩) ⟨?_, ?_, ?_, ?_⟩ ?_ ?_ ?_
    all_goals grind [locks, kernels]

theorem Kept.abort (sound : Sound w (.abort pp)) : Kept w₀ (perform w (.abort pp)).2 := by
  obtain ⟨plain, cows, lckFits, cowFits⟩ := kept.each pp
  cases leaves : goes (w.s.pages pp) with
  | false =>
    obtain ⟨gone, run⟩ := abort_waits leaves
    simp only [perform, run, leaves, Bool.false_eq_true, if_false]
    refine kept.at_page pp (fun q other => ⟨update_of_ne other _ _, rfl, rfl⟩) ⟨?_, ?_, ?_, ?_⟩ ?_ ?_ rfl
    all_goals simp [locks, kernels, plain, cows, lckFits]
    omega
  | true =>
    have charge := sound leaves
    obtain ⟨elsewhere, lck, cow, locked, availrmem, kernel⟩ := abort_goes leaves
    simp only [perform, leaves, if_true]
    refine kept.at_page pp (fun q other => ⟨elsewhere q other, update_of_ne other _ _, rfl⟩) ⟨?_, ?_, ?_, ?_⟩ ?_ ?_ ?_
    all_goals grind [locks, kernels]

theorem Kept.step (op : Op Page) (matched : Matched w op) (sound : Sound w op) : Kept w₀ (perform w op).2 := by
  cases op with
  | lock pp cow kernel => exact kept.lock sound
  | unlock pp cow kernel => exact kept.unlock matched sound
  | useclaim opp npp kernel => exact kept.useclaim matched sound
  | addclaim pp kernel => exact kept.addclaim matched sound
  | subclaim pp kernel => exact kept.subclaim matched sound
  | abort pp => exact kept.abort sound
  | around pp vnode gone intrans keepcnt => exact kept.around

end

omit [DecidableEq Page] in
theorem Started.kept (started : Started w₀) : Kept w₀ w₀ where
  each pp := ⟨by simp [started.lckcnt pp], by simp [started.cowcnt pp, started.held], by simp [started.lckcnt pp], by simp [started.cowcnt pp]⟩
  locked := by simp [locks, started.lckcnt, started.cowcnt]
  kernel := by simp [kernels, started.lckcnt]
  constant := rfl

theorem Reached.kept (started : Started w₀) (reached : Reached w₀ w) : Kept w₀ w := by
  induction reached with
  | start => exact started.kept
  | step op before matched sound ih => exact ih.step op matched sound

/-- What the accounts promise of a state that was reached from the first one. -/
structure Balanced (w₀ w : World Page) : Prop where
  counted : w.s.pages_pp_locked + w.s.pages_pp_kernel = w₀.s.pages_pp_locked + w₀.s.pages_pp_kernel +
    ((Finset.univ.filter fun pp => 0 < (w.s.pages pp).p_lckcnt).card + ∑ pp, ((w.s.pages pp).p_cowcnt : Int))
  constant : w.s.availrmem + w.s.pages_pp_locked = w₀.s.availrmem + w₀.s.pages_pp_locked
  spared : ∀ op, Matched w op → Sound w op → (perform w op).2.s.availrmem < w.s.availrmem →
    w.s.pages_pp_maximum ≤ (perform w op).2.s.availrmem
  refused : ∀ op, Matched w op → Sound w op → (perform w op).1 = false → (perform w op).2 = w
  settled : (∀ pp cow kernel, w.held pp cow kernel = 0) → w.s.pages_pp_locked = w₀.s.pages_pp_locked ∧
    w.s.pages_pp_kernel = w₀.s.pages_pp_kernel ∧ w.s.availrmem = w₀.s.availrmem

omit [DecidableEq Page] in
theorem Kept.counted (kept : Kept w₀ w) : w.s.pages_pp_locked + w.s.pages_pp_kernel = w₀.s.pages_pp_locked + w₀.s.pages_pp_kernel +
    ((Finset.univ.filter fun pp => 0 < (w.s.pages pp).p_lckcnt).card + ∑ pp, ((w.s.pages pp).p_cowcnt : Int)) := by
  have each : ∀ pp, locks (w.s.pages pp) (w.charged pp) + kernels (w.s.pages pp) (w.charged pp) =
      (if 0 < (w.s.pages pp).p_lckcnt then 1 else 0) + ((w.s.pages pp).p_cowcnt : Int) := fun pp => by
    unfold locks kernels
    cases w.charged pp <;> split_ifs <;> grind
  have sums : ∑ pp, locks (w.s.pages pp) (w.charged pp) + ∑ pp, kernels (w.s.pages pp) (w.charged pp) =
      (Finset.univ.filter fun pp => 0 < (w.s.pages pp).p_lckcnt).card + ∑ pp, ((w.s.pages pp).p_cowcnt : Int) := by
    rw [← Finset.sum_add_distrib, Finset.sum_congr rfl fun pp _ => each pp, Finset.sum_add_distrib, Finset.card_filter]
    push_cast
    rfl
  rw [kept.locked, kept.kernel, ← sums]
  ring

omit [DecidableEq Page] in
theorem Kept.settled (kept : Kept w₀ w) (free : ∀ pp cow kernel, w.held pp cow kernel = 0) :
    w.s.pages_pp_locked = w₀.s.pages_pp_locked ∧ w.s.pages_pp_kernel = w₀.s.pages_pp_kernel ∧ w.s.availrmem = w₀.s.availrmem := by
  have lck : ∀ pp, (w.s.pages pp).p_lckcnt = 0 := fun pp => by
    have := (kept.each pp).plain
    rw [free, free] at this
    omega
  have cow : ∀ pp, (w.s.pages pp).p_cowcnt = 0 := fun pp => by
    have := (kept.each pp).cow
    rwa [free, free] at this
  have locked := kept.locked
  have kernel := kept.kernel
  have constant := kept.constant
  simp only [locks, kernels, lck, cow, ne_eq, not_true_eq_false, false_and, if_false, Finset.sum_const_zero, Nat.cast_zero, add_zero] at locked kernel
  exact ⟨locked, kernel, by omega⟩

end Totals

theorem lock_refused {s : State Page} (failed : (page_pp_lock s pp cow kernel).1 = false) : (page_pp_lock s pp cow kernel).2 = s := by
  unfold page_pp_lock at failed ⊢
  split_ifs at failed ⊢
  all_goals rfl

omit [DecidableEq Page] in
theorem room_spares {s : State Page} (enough : room s = true) (some_ : 0 < s.availrmem) : s.pages_pp_maximum ≤ s.availrmem - 1 := by
  have := of_decide_eq_true enough
  omega

theorem spared (fits : ∀ pp, (w.s.pages pp).p_lckcnt ≤ PAGE_LOCK_MAXIMUM) (op : Op Page) (sound : Sound w op)
    (taken : (perform w op).2.s.availrmem < w.s.availrmem) : w.s.pages_pp_maximum ≤ (perform w op).2.s.availrmem := by
  cases op with
  | lock pp cow kernel =>
    obtain ⟨-, some_⟩ := sound
    cases enough : room w.s with
    | true =>
      have spare := room_spares enough
      unfold perform page_pp_lock at taken ⊢
      grind
    | false =>
      unfold perform page_pp_lock at taken
      grind
  | addclaim pp kernel =>
    obtain ⟨positive, -, -, some_⟩ := sound
    have lower := decrement_eq positive (fits pp)
    cases enough : room w.s with
    | true =>
      have spare := room_spares enough
      unfold perform page_addclaim at taken ⊢
      grind
    | false =>
      unfold perform page_addclaim at taken
      grind
  | unlock pp cow kernel =>
    unfold perform page_pp_unlock at taken
    grind
  | useclaim opp npp kernel => exact absurd taken (lt_irrefl _)
  | subclaim pp kernel =>
    unfold perform page_subclaim at taken
    grind
  | abort pp =>
    refine absurd taken (not_lt.mpr ?_)
    cases leaves : goes (w.s.pages pp) with
    | false =>
      obtain ⟨gone, run⟩ := abort_waits leaves
      simp [perform, run]
    | true =>
      obtain ⟨-, -, -, -, availrmem, -⟩ := abort_goes leaves
      simp only [perform, availrmem]
      split_ifs <;> omega
  | around pp vnode gone intrans keepcnt => exact absurd taken (lt_irrefl _)

theorem refused (fits : ∀ pp, (w.s.pages pp).p_lckcnt ≤ PAGE_LOCK_MAXIMUM) (op : Op Page) (sound : Sound w op)
    (failed : (perform w op).1 = false) : (perform w op).2 = w := by
  cases op with
  | lock pp cow kernel =>
    have refusal : (page_pp_lock w.s pp cow kernel).1 = false := failed
    simp only [perform, refusal, Bool.false_eq_true, if_false, lock_refused refusal]
  | addclaim pp kernel =>
    obtain ⟨positive, -⟩ := sound
    have lower := decrement_eq positive (fits pp)
    by_cases last : (w.s.pages pp).p_lckcnt = 1
    · unfold perform page_addclaim at failed
      grind
    · cases enough : room w.s with
      | true =>
        unfold perform page_addclaim at failed
        grind
      | false =>
        simp only [perform, addclaim_refused positive last (fits pp) enough, Bool.false_eq_true, if_false]
  | unlock pp cow kernel => cases failed
  | useclaim opp npp kernel => cases failed
  | subclaim pp kernel => cases failed
  | abort pp => cases failed
  | around pp vnode gone intrans keepcnt => cases failed

/-- In every run whose steps the accounts can follow, they balance. -/
theorem accounts_balance [Fintype Page] (w₀ : World Page) (started : Started w₀) (w : World Page) (reached : Reached w₀ w) : Balanced w₀ w where
  counted := (reached.kept started).counted
  constant := (reached.kept started).constant
  spared op _ sound := spared (fun pp => ((reached.kept started).each pp).lckFits) op sound
  refused op _ sound := refused (fun pp => ((reached.kept started).each pp).lckFits) op sound
  settled := (reached.kept started).settled

def idle : World (Fin 1) := ⟨⟨fun _ => ⟨true, false, false, 0, 0, 0⟩, 100, 0, 0, 10⟩, fun _ _ _ => 0, fun _ => false⟩

theorem accounts_balance_claimed : Balanced idle (perform (perform idle (.lock 0 false false)).2 (.addclaim 0 false)).2 :=
  accounts_balance idle ⟨by decide, by decide, by decide⟩ _
    (.step _ (.step _ .start trivial ⟨by decide, by decide⟩) (by decide) ⟨by decide, by decide, by decide, by decide⟩)

/-- Each call matched by the locks held, but perhaps not one that the accounts can follow. -/
def Run (w : World Page) : List (Op Page) → World Page → Prop
  | [], w' => w' = w
  | op :: ops, w' => Matched w op ∧ Run (perform w op).2 ops w'

/-- A lock of the kernel counted for it, and the last one taken away from the users. -/
theorem accounts_mixed : ∃ w, Started idle ∧
    Run idle [.lock 0 false true, .lock 0 false false, .unlock 0 false true, .unlock 0 false false] w ∧
      (∀ pp cow kernel, w.held pp cow kernel = 0) ∧ w.s.pages_pp_kernel = idle.s.pages_pp_kernel + 1 ∧
        w.s.pages_pp_locked = idle.s.pages_pp_locked - 1 ∧ w.s.availrmem = idle.s.availrmem + 1 :=
  ⟨_, ⟨by decide, by decide, by decide⟩, ⟨trivial, trivial, by decide, by decide, rfl⟩, by decide, by decide, by decide, by decide⟩

end Svr4.Proofs.PageLockBalance
