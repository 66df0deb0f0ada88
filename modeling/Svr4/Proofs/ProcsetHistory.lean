import Svr4.Procset
import Svr4.Pgrp
import Svr4.Proofs.SigQueue

/-! What `dotoprocs` has done when it sleeps or comes back. -/

namespace Svr4.Proofs.ProcsetWalk
open Function Chain Procset

variable {more : Bool} {go : State → Record → Option (Walk × State × Record)}

variable {pv : Sigsend} {psp : ProcsetT} {s t : State} {r r' : Record} {n : Found} {w : Walk} {steady steady' : Finset Nat}
  {back rest active : List Nat} {p q init time : Nat} {b : Bool}

section posting
open Sig SigQueue
variable {sig other : Nat} {x y : Sig.Proc}

def Parts (sig other : Nat) : Prop := sig = SIGCONT ∧ other ∈ stopdefault ∨ sig ∈ stopdefault ∧ other = SIGCONT

/-- The signal becomes pending unless it is ignored, and those that cannot stand beside it are dropped. -/
structure Posted (sig : Nat) (x y : Sig.Proc) : Prop where
  itself : sig ∈ y.pSig ↔ sig ∈ x.pSig ∨ ignored x sig = false
  others : ∀ other, other ≠ sig → (other ∈ y.pSig ↔ other ∈ x.pSig ∧ ¬ Parts sig other)

/-- A process gets the signal: it is pending already and has its entry, or it is posted, with one entry. -/
def Gets (sig : Nat) (x y : Sig.Proc) : Prop :=
  (∃ sqp ∈ x.pSigqueue, sqp.siSigno = sig) ∧ y = x ∨
    Posted sig x y ∧ (ignored x sig = false → y.pSigqueue.filter (fun sqp => sqp.siSigno = sig) = [⟨sig, 0⟩])

theorem mem_cancel : other ∈ (cancel x sig).pSig ↔ other ∈ x.pSig ∧ ¬ Parts sig other := by
  have apart : SIGCONT ∉ stopdefault := by decide
  unfold cancel Parts
  split
  case isTrue is =>
    rw [cancelStops_pSig, Finset.mem_sdiff]
    simp [is, apart]
  case isFalse isnt =>
    split
    case isTrue stops => simp [isnt, stops, and_comm]
    case isFalse goes => simp [isnt, goes]

theorem sigtoproc_posted (real : 1 ≤ sig) (small : sig < NSIG) : Posted sig x (sigtoproc x sig) := by
  have own : ¬ Parts sig sig := by
    have apart : SIGCONT ∉ stopdefault := by decide
    rintro (⟨rfl, stops⟩ | ⟨stops, rfl⟩)
    · exact apart stops
    · exact apart stops
  rw [sigtoproc_eq real small]
  split
  case isTrue drops =>
    refine ⟨?_, fun other _ => mem_cancel⟩
    rw [mem_cancel]
    simp [own, drops]
  case isFalse posts =>
    refine ⟨by simp [posts], fun other apart => ?_⟩
    rw [Finset.mem_insert, mem_cancel]
    simp [apart]

theorem sigaddq_gets (real : 1 ≤ sig) (small : sig < NSIG) : Gets sig x (Sig.sigaddq x ⟨sig, 0⟩) := by
  unfold Sig.sigaddq
  split
  case isTrue queued => exact .inl ⟨queued, rfl⟩
  case isFalse none_ =>
    have posted := sigtoproc_posted (x := { x with pSigqueue := x.pSigqueue ++ [⟨sig, 0⟩] }) real small
    refine .inr ⟨⟨posted.itself, posted.others⟩, fun _ => ?_⟩
    have cancelled := cancel_cancelled { x with pSigqueue := x.pSigqueue ++ [⟨sig, 0⟩] } sig
    have queue : (sigtoproc { x with pSigqueue := x.pSigqueue ++ [⟨sig, 0⟩] } sig).pSigqueue =
        (cancel { x with pSigqueue := x.pSigqueue ++ [⟨sig, 0⟩] } sig).pSigqueue := by
      rw [sigtoproc_eq real small]
      split <;> rfl
    have before : (x.pSigqueue ++ [(⟨sig, 0⟩ : Siginfo)]).filter (fun sqp => sqp.siSigno = sig) = [⟨sig, 0⟩] := by
      rw [List.filter_append, List.filter_eq_nil_iff.mpr fun sqp member => by simpa using fun is => none_ ⟨sqp, member, is⟩]
      simp
    have fewer := cancelled.sublist.filter fun sqp => decide (sqp.siSigno = sig)
    dsimp only at fewer
    rw [before] at fewer
    have inside : (⟨sig, 0⟩ : Siginfo) ∈ (cancel { x with pSigqueue := x.pSigqueue ++ [⟨sig, 0⟩] } sig).pSigqueue :=
      cancelled.own _ (by simp) rfl
    rw [queue]
    rcases List.sublist_singleton.mp fewer with empty | one
    · rw [List.filter_eq_nil_iff] at empty
      exact absurd (by simp) (empty _ inside)
    · exact one

end posting

def Told (pv : Sigsend) (s t : State) (l : List Nat) : Prop :=
  ∀ q, (q ∈ l → Gets pv.sig (s.signals q) (t.signals q)) ∧ (q ∉ l → t.signals q = s.signals q)

def Part (pv : Sigsend) (s t : State) (r r' : Record) : Prop := ∃ l, r'.given = r.given ++ l ∧ (l.Nodup → Told pv s t l)

theorem Part.refl (same : t.signals = s.signals) (given : r'.given = r.given) : Part pv s t r r' :=
  ⟨[], by rw [given, List.append_nil], fun _ q => ⟨fun no => absurd no List.not_mem_nil, fun _ => by rw [same]⟩⟩

theorem Part.trans {u : State} {r'' : Record} (first : Part pv s t r r') (second : Part pv t u r' r'') : Part pv s u r r'' := by
  obtain ⟨l, given, told⟩ := first
  obtain ⟨l', given', told'⟩ := second
  refine ⟨l ++ l', by rw [given', given, List.append_assoc], fun once q => ?_⟩
  obtain ⟨once, once', apart⟩ := List.nodup_append.mp once
  obtain ⟨gets, same⟩ := told once q
  obtain ⟨gets', same'⟩ := told' once' q
  rw [List.mem_append, not_or]
  refine ⟨fun member => ?_, fun out => (same' out.2).trans (same out.1)⟩
  rcases member with early | late
  · rw [same' fun late => apart q early q late rfl]
    exact gets early
  · rw [← same fun early => apart q early q late rfl]
    exact gets' late

theorem Part.one {x : Sig.Proc} (gets : Gets pv.sig (s.signals p) x) (given : r'.given = r.given ++ [p]) :
    Part pv s { s with signals := update s.signals p x } r r' := by
  refine ⟨[p], given, fun _ q => ⟨fun member => ?_, fun out => ?_⟩⟩
  · obtain rfl := List.mem_singleton.mp member
    show Gets pv.sig _ (update s.signals q x q)
    rwa [update_self]
  · exact update_of_ne (by simpa using out) ..

theorem call_part (real : 1 ≤ pv.sig) (small : pv.sig < Sig.NSIG)
    (goes : ∀ u r'', go u r'' = some (w, t, r') → Part pv u t r'' r') (done : call pv more go s r p n = some (w, t, r')) : Part pv s t r r' := by
  unfold call sigsendproc at done
  by_cases cannot : pPid s p = 1 ∧ pv.sig ∈ cantmask
  · rw [if_pos cannot] at done
    cases done
    exact .refl rfl rfl
  rw [if_neg cannot, if_neg (show ¬ pv.sig = 0 by omega)] at done
  by_cases may : permitted pv s p = true
  · rw [if_pos may] at done
    by_cases drops : Sig.ignored (s.signals p) pv.sig = true
    · rw [if_pos drops] at done
      refine (Part.one (.inr ⟨sigtoproc_posted real small, fun posts => ?_⟩) rfl).trans (goes _ _ done)
      rw [drops] at posts
      cases posts
    · rw [if_neg drops] at done
      cases done
      exact .refl rfl rfl
  · rw [if_neg may] at done
    exact goes s { r with calls := r.calls ++ [(p, false)] } done

theorem finish_part (real : 1 ≤ pv.sig) (small : pv.sig < Sig.NSIG) (done : finish pv s r n = some (w, t, r')) : Part pv s t r r' := by
  unfold finish at done
  split_ifs at done
  · cases done
    exact .refl rfl rfl
  · refine call_part real small (fun u r'' same => ?_) done
    cases same
    exact .refl rfl rfl
  · cases done
    exact .refl rfl rfl

theorem loop_part (real : 1 ≤ pv.sig) (small : pv.sig < Sig.NSIG) {prp : Option Nat} (done : loop pv psp time s r prp n = some (w, t, r')) :
    Part pv s t r r' := by
  induction time generalizing s r n prp with
  | zero =>
    cases prp with
    | none => exact finish_part real small done
    | some p => cases done
  | succ time ih =>
    cases prp with
    | none =>
      rw [loop] at done
      exact finish_part real small done
    | some p =>
      rw [loop] at done
      split at done
      · cases done
        exact .refl rfl rfl
      split at done
      · exact ih done
      split at done
      · split at done
        · exact ih done
        · exact call_part real small (fun u r'' done => ih done) done
      · exact ih done

theorem resume_part (real : 1 ≤ pv.sig) (small : pv.sig < Sig.NSIG) (done : resume pv psp time s r p n more = some (w, t, r')) :
    Part pv s t r r' := by
  have gets := sigaddq_gets (x := s.signals p) real small
  unfold resume at done
  split at done
  · cases done
    exact .refl rfl rfl
  cases more with
  | true => exact (Part.one gets rfl).trans (loop_part real small done)
  | false =>
    cases done
    exact .one gets rfl

def called (r : Record) : List Nat := r.calls.map Prod.fst

def entitled (r : Record) : List Nat := (r.calls.filter Prod.snd).map Prod.fst

structure Sight (init : Nat) (steady : Finset Nat) (back : List Nat) (r : Record) (n : Found) : Prop where
  once : (called r).Nodup
  ahead : ∀ q ∈ back, q ∉ called r
  others : init ∉ called r
  covered : ∀ q ∈ steady, q ≠ init → q ∈ back ∨ (q, true) ∈ r.calls
  tally : ∃ seen : Bool, n.nfound = r.calls.length + seen.toNat ∧
    (seen = true → init ∉ back ∧ (r.calls = [] → n.lastprp = some init)) ∧
    (seen = false → n.lastprp ≠ some init ∧ (init ∈ steady → init ∈ back))

structure Complete (pv : Sigsend) (steady : Finset Nat) (r : Record) : Prop where
  once : (called r).Nodup
  covered : ∀ q ∈ steady, q ≠ pv.procInit → (q, true) ∈ r.calls
  alone : pv.procInit ∈ called r → called r = [pv.procInit]
  left : pv.procInit ∈ steady → (pv.procInit, true) ∈ r.calls ∨ pv.sig ∈ cantmask ∨ ∃ q ∈ called r, q ≠ pv.procInit

theorem called_append (r : Record) (p : Nat) (b : Bool) (given : List Nat) : called ⟨r.calls ++ [(p, b)], given⟩ = called r ++ [p] := by
  simp [called]

theorem entitled_append (r : Record) (p : Nat) (b : Bool) (given : List Nat) :
    entitled ⟨r.calls ++ [(p, b)], given⟩ = entitled r ++ if b then [p] else [] := by
  cases b <;> simp [entitled]

theorem Sight.skip (sight : Sight init steady (p :: back) r n) (out : p ∉ steady) : Sight init steady back r n := by
  obtain ⟨once, ahead, others, covered, seen, count, yes, no⟩ := sight
  refine ⟨once, fun q member => ahead q (by simp [member]), others, fun q member other => ?_, seen, count, fun is => ?_, fun is => ?_⟩
  · rcases covered q member other with inside | done
    · rcases List.mem_cons.mp inside with rfl | later
      · exact absurd member out
      · exact .inl later
    · exact .inr done
  · exact ⟨fun member => (yes is).1 (by simp [member]), (yes is).2⟩
  · refine ⟨(no is).1, fun member => ?_⟩
    rcases List.mem_cons.mp ((no is).2 member) with rfl | later
    · exact absurd member out
    · exact later

theorem Sight.found_init (sight : Sight init steady (init :: back) r n) (once : (init :: back).Nodup) :
    Sight init steady back r ⟨n.nfound + 1, some init⟩ := by
  obtain ⟨nodup, ahead, others, covered, seen, count, yes, -⟩ := sight
  have unseen : seen = false := by
    cases seen with
    | false => rfl
    | true => exact absurd (by simp) (yes rfl).1
  subst unseen
  refine ⟨nodup, fun q member => ahead q (by simp [member]), others, fun q member other => ?_, true, ?_,
    fun _ => ⟨(List.nodup_cons.mp once).1, fun _ => rfl⟩,
    fun is => Bool.noConfusion is⟩
  · rcases covered q member other with inside | done
    · exact .inl ((List.mem_cons.mp inside).resolve_left other)
    · exact .inr done
  · simpa using count

theorem Sight.found (sight : Sight init steady (p :: back) r n) (other : p ≠ init) (once : (p :: back).Nodup) (b : Bool) (may : p ∈ steady → b = true)
    (given : List Nat) : Sight init steady back ⟨r.calls ++ [(p, b)], given⟩ ⟨n.nfound + 1, some p⟩ := by
  obtain ⟨nodup, ahead, others, covered, seen, count, yes, no⟩ := sight
  have fresh := ahead p (by simp)
  refine ⟨?_, fun q member => ?_, ?_, fun q member away => ?_, seen, ?_, fun is => ⟨fun member => (yes is).1 (by simp [member]), fun empty => ?_⟩,
    fun is => ⟨fun same => ?_, fun member => ?_⟩⟩
  · rw [called_append]
    exact List.nodup_append.mpr ⟨nodup, by simp, fun x member y single => by
      rw [List.mem_singleton.mp single]
      rintro rfl
      exact fresh member⟩
  · rw [called_append, List.mem_append, List.mem_singleton, not_or]
    refine ⟨ahead q (by simp [member]), ?_⟩
    rintro rfl
    exact (List.nodup_cons.mp once).1 member
  · rw [called_append, List.mem_append, List.mem_singleton, not_or]
    exact ⟨others, other.symm⟩
  · rcases covered q member away with inside | done
    · rcases List.mem_cons.mp inside with rfl | later
      · exact .inr (by simp [may member])
      · exact .inl later
    · exact .inr (List.mem_append_left _ done)
  · simp only [List.length_append, List.length_singleton]
    omega
  · simp at empty
  · cases same
    exact other rfl
  · rcases List.mem_cons.mp ((no is).2 member) with rfl | later
    · exact absurd rfl other
    · exact later

theorem Sight.record (sight : Sight init steady back r n) (given : List Nat) : Sight init steady back { r with given } n :=
  ⟨sight.once, sight.ahead, sight.others, sight.covered, sight.tally⟩

theorem Complete.record (complete : Complete pv steady r) (given : List Nat) : Complete pv steady { r with given } :=
  ⟨complete.once, complete.covered, complete.alone, complete.left⟩

theorem Sight.fewer {fewer : List Nat} (sight : Sight init steady back r n) (within : ∀ q ∈ fewer, q ∈ back) (smaller : ∀ q ∈ steady', q ∈ steady)
    (stays : ∀ q ∈ steady', q ∈ back → q ∈ fewer) : Sight init steady' fewer r n := by
  obtain ⟨once, ahead, others, covered, seen, count, yes, no⟩ := sight
  refine ⟨once, fun q member => ahead q (within q member), others, fun q member other => ?_, seen, count,
    fun is => ⟨fun member => (yes is).1 (within _ member), (yes is).2⟩, fun is => ⟨(no is).1,
      fun member => stays _ member ((no is).2 (smaller _ member))⟩⟩
  rcases covered q (smaller q member) other with inside | done
  · exact .inl (stays q member inside)
  · exact .inr done

theorem Complete.fewer (complete : Complete pv steady r) (smaller : ∀ q ∈ steady', q ∈ steady) : Complete pv steady' r :=
  ⟨complete.once, fun q member => complete.covered q (smaller q member), complete.alone, fun member => complete.left (smaller _ member)⟩

theorem Sight.complete (sight : Sight pv.procInit steady [] r n) (more : ¬ (n.nfound = 1 ∧ n.lastprp = some pv.procInit)) : Complete pv steady r := by
  obtain ⟨once, -, others, covered, seen, count, yes, no⟩ := sight
  refine ⟨once, fun q member other => (covered q member other).resolve_left List.not_mem_nil, fun member => absurd member others, fun member => ?_⟩
  cases seen with
  | false => exact absurd ((no rfl).2 member) List.not_mem_nil
  | true =>
    have some : r.calls ≠ [] := by
      intro empty
      rw [empty] at count
      exact more ⟨by simpa using count, (yes rfl).2 empty⟩
    obtain ⟨q, inside⟩ := List.exists_mem_of_ne_nil _ some
    refine .inr (.inr ⟨q.1, List.mem_map_of_mem inside, fun same => others ?_⟩)
    rw [← same]
    exact List.mem_map_of_mem inside

theorem Sight.complete_init (sight : Sight pv.procInit steady [] r n) (alone : n.nfound = 1 ∧ n.lastprp = some pv.procInit) (b : Bool)
    (may : pv.procInit ∈ steady → b = true ∨ pv.sig ∈ cantmask) (given : List Nat) : Complete pv steady ⟨r.calls ++ [(pv.procInit, b)], given⟩ := by
  obtain ⟨-, -, -, covered, seen, count, -, no⟩ := sight
  have empty : r.calls = [] := by
    cases seen with
    | false => exact absurd alone.2 (no rfl).1
    | true =>
      rw [alone.1] at count
      exact List.length_eq_zero_iff.mp (by simpa using count)
  have one : called ⟨r.calls ++ [(pv.procInit, b)], given⟩ = [pv.procInit] := by rw [called_append, called, empty]; rfl
  refine ⟨by simp [one], fun q member other => ?_, fun _ => one, fun member => ?_⟩
  · rcases covered q member other with inside | done
    · cases inside
    · rw [empty] at done
      cases done
  · rcases may member with rfl | cannot
    · exact .inl (by simp)
    · exact .inr (.inl cannot)

theorem call_cases (done : call pv more go s r p n = some (w, t, r')) :
    ((pPid s p = 1 ∧ pv.sig ∈ cantmask) ∧ w = .returned (some .EPERM) ∧ t = s ∧ r' = { r with calls := r.calls ++ [(p, false)] }) ∨
    (∃ b signals, (permitted pv s p = true → pv.sig ≠ 0 → b = true) ∧
    go { s with signals } ⟨r.calls ++ [(p, b)], r.given ++ if b then [p] else []⟩ = some (w, t, r')) ∨
    (w = .sleeping p n more ∧ t = s ∧ r' = { r with calls := r.calls ++ [(p, true)] }) := by
  unfold call sigsendproc at done
  by_cases cannot : pPid s p = 1 ∧ pv.sig ∈ cantmask
  · rw [if_pos cannot] at done
    cases done
    exact .inl ⟨cannot, rfl, rfl, rfl⟩
  rw [if_neg cannot] at done
  by_cases may : permitted pv s p = true
  · rw [if_pos may] at done
    by_cases test : pv.sig = 0
    · rw [if_pos test] at done
      exact .inr (.inl ⟨false, s.signals, fun _ signal => absurd test signal, by simpa using done⟩)
    rw [if_neg test] at done
    by_cases drops : Sig.ignored (s.signals p) pv.sig = true
    · rw [if_pos drops] at done
      exact .inr (.inl ⟨true, _, fun _ _ => rfl, done⟩)
    · rw [if_neg drops] at done
      cases done
      exact .inr (.inr ⟨rfl, rfl, rfl⟩)
  · rw [if_neg may] at done
    exact .inr (.inl ⟨false, s.signals, fun yes => absurd yes may, by simpa using done⟩)

def Rests (pv : Sigsend) (active : List Nat) (steady : Finset Nat) (r : Record) : Walk → Prop
  | .sleeping p n true => r.given ++ [p] = entitled r ∧ ∃ front back, active = front ++ p :: back ∧ Sight pv.procInit steady back r n
  | .sleeping p _ false => r.given ++ [p] = entitled r ∧ p ∈ active ∧ Complete pv steady r
  | .stray _ => False
  | .returned _ => r.given = entitled r ∧ Complete pv steady r

def Current (pv : Sigsend) (psp : ProcsetT) (s : State) (p : Nat) : Prop :=
  s.pStat p = .SRUN ∧ procinset s psp p = true ∧ permitted pv s p = true

theorem given_called (given : r.given = entitled r) (b : Bool) :
    r.given ++ (if b then [p] else []) = entitled ⟨r.calls ++ [(p, b)], r.given ++ if b then [p] else []⟩ := by
  rw [entitled_append, given]

theorem finish_rests (signal : pv.sig ≠ 0) (current : ∀ q ∈ steady, permitted pv s q = true)
    (sight : Sight pv.procInit steady [] r n) (given : r.given = entitled r) (inside : pv.procInit ∈ active)
    (done : finish pv s r n = some (w, t, r')) : (∃ signals, t = { s with signals }) ∧ Rests pv active steady r' w := by
  unfold finish at done
  split at done
  · next none =>
    cases done
    exact ⟨⟨s.signals, rfl⟩, given, sight.complete (by omega)⟩
  split at done
  · next alone =>
    rcases call_cases done with ⟨cannot, rfl, rfl, rfl⟩ | ⟨b, signals, may, done⟩ | ⟨rfl, rfl, rfl⟩
    · refine ⟨⟨t.signals, rfl⟩, ?_, sight.complete_init alone false (fun _ => .inr cannot.2) _⟩
      rw [entitled_append, given]
      exact (List.append_nil _).symm
    · cases done
      exact ⟨⟨signals, rfl⟩, given_called given b, sight.complete_init alone b (fun member => .inl (may (current _ member) signal)) _⟩
    · refine ⟨⟨t.signals, rfl⟩, ?_, inside, sight.complete_init alone true (fun _ => .inl rfl) _⟩
      rw [entitled_append, given]
      rfl
  · next more =>
    cases done
    exact ⟨⟨s.signals, rfl⟩, given, sight.complete more⟩

theorem loop_rests (signal : pv.sig ≠ 0) {front : List Nat} {prp : Option Nat} (linked : Linked s.table.pNext prp rest) (place : active = front ++ rest)
    (inside : ∀ q ∈ active, q ∈ s.table.procs) (one : ∀ q ∈ active, pPid s q = 1 → q = pv.procInit) (alive : pv.procInit ∈ active)
    (current : ∀ q ∈ steady, Current pv psp s q) (sight : Sight pv.procInit steady rest r n)
    (given : r.given = entitled r) (done : loop pv psp time s r prp n = some (w, t, r')) :
    (∃ signals, t = { s with signals }) ∧ Rests pv active steady r' w := by
  induction time generalizing s r n prp rest front with
  | zero =>
    cases rest with
    | nil =>
      obtain rfl := linked_none.mp linked
      exact finish_rests signal (fun q member => (current q member).2.2) sight given alive done
    | cons p rest =>
      obtain ⟨rfl, _⟩ := linked
      cases done
  | succ time ih =>
    cases rest with
    | nil =>
      obtain rfl := linked_none.mp linked
      rw [loop] at done
      exact finish_rests signal (fun q member => (current q member).2.2) sight given alive done
    | cons p rest =>
      have once := linked.nodup
      obtain ⟨rfl, linked⟩ := linked
      have here : p ∈ active := by simp [place]
      have next : active = (front ++ [p]) ++ rest := by simp [place]
      rw [loop, if_neg (not_not.mpr (inside p here))] at done
      split at done
      · next dead =>
        refine ih linked next inside one current (sight.skip fun member => ?_) given done
        rw [(current p member).1] at dead
        rcases dead with no | no <;> cases no
      split at done
      · split at done
        · next is =>
          subst is
          exact ih linked next inside one current (sight.found_init once) given done
        · next other =>
          rcases call_cases done with ⟨cannot, -⟩ | ⟨b, signals, may, done⟩ | ⟨rfl, rfl, rfl⟩
          · exact absurd (one p here cannot.1) other
          · exact ih (s := { s with signals }) linked next inside one current
              (sight.found other once b (fun member => may (current p member).2.2 signal) _) (given_called given b) done
          · refine ⟨⟨t.signals, rfl⟩, ?_, front, rest, place, sight.found other once true (fun _ => rfl) _⟩
            rw [entitled_append, given]
            rfl
      · next out =>
        refine ih linked next inside one current (sight.skip fun member => ?_) given done
        exact out (current p member).2.1

theorem dotoprocs_rests (signal : pv.sig ≠ 0) (linked : Linked s.table.pNext s.table.practive active) (inside : ∀ q ∈ active, q ∈ s.table.procs)
    (one : ∀ q ∈ active, pPid s q = 1 → q = pv.procInit) (alive : pv.procInit ∈ active)
    (current : ∀ q ∈ steady, q ∈ active ∧ Current pv psp s q) (done : dotoprocs pv psp time s = some (w, t, r')) :
    (∃ signals, t = { s with signals }) ∧ Rests pv active steady r' w := by
  have sight : Sight pv.procInit steady active ⟨[], []⟩ ⟨0, none⟩ :=
    ⟨List.nodup_nil, fun q _ => List.not_mem_nil, List.not_mem_nil, fun q member _ => .inl (current q member).1, false, rfl,
      fun is => Bool.noConfusion is, fun _ => ⟨(Option.some_ne_none _).symm, fun _ => alive⟩⟩
  exact loop_rests signal linked (List.nil_append _).symm inside one alive (fun q member => (current q member).2) sight rfl done

theorem resume_rests (signal : pv.sig ≠ 0) (linked : Linked s.table.pNext s.table.practive active) (inside : ∀ q ∈ active, q ∈ s.table.procs)
    (one : ∀ q ∈ active, pPid s q = 1 → q = pv.procInit) (alive : pv.procInit ∈ active)
    (current : ∀ q ∈ steady, Current pv psp s q) (rests : Rests pv active steady r (.sleeping p n more))
    (done : resume pv psp time s r p n more = some (w, t, r')) :
    (∃ signals, t = { s with signals }) ∧ Rests pv active steady r' w := by
  unfold resume at done
  cases more with
  | true =>
    obtain ⟨given, front, back, place, sight⟩ := rests
    rw [if_neg (not_not.mpr (inside p (by simp [place])))] at done
    dsimp only at done
    rw [if_pos rfl] at done
    rw [place] at linked
    obtain ⟨_, _, _, linked⟩ := seg_append.mp linked
    obtain ⟨⟨signals, rfl⟩, rests⟩ := loop_rests signal (s := sigaddq s p pv.sig) linked (show active = (front ++ [p]) ++ back by simp [place])
      inside one alive current (sight.record _) given done
    exact ⟨⟨signals, rfl⟩, rests⟩
  | false =>
    obtain ⟨given, here, complete⟩ := rests
    rw [if_neg (not_not.mpr (inside p here))] at done
    dsimp only at done
    rw [if_neg Bool.false_ne_true] at done
    cases done
    exact ⟨⟨_, rfl⟩, given, complete.record _⟩

end Svr4.Proofs.ProcsetWalk

/-! Signalling a set of processes while others come and go, as long as the process at which
the walk sleeps is not freed. -/

namespace Svr4.Proofs.ProcsetHistory
open Function Chain DoubleChain Procset ProcsetWalk

variable {pv : Sigsend} {psp : ProcsetT} {s t : State} {r : Record} {w : Walk} {steady : Finset Nat} {active : List Nat} {p q time : Nat}

section table
variable {a b c : Pid.State} {prp pidp mpid : Nat}

structure SameList (a b : Pid.State) : Prop where
  pNext : b.pNext = a.pNext
  practive : b.practive = a.practive
  procs : b.procs = a.procs

theorem SameList.trans (first : SameList a b) (second : SameList b c) : SameList a c :=
  ⟨second.pNext.trans first.pNext, second.practive.trans first.practive, second.procs.trans first.procs⟩

theorem PID_RELE_list (done : Pid.PID_RELE time a pidp = some b) : SameList a b := by
  unfold Pid.PID_RELE at done
  split at done
  · split at done
    · cases done
      exact ⟨rfl, rfl, rfl⟩
    · unfold Pid.pid_rele at done
      split at done
      · cases done
      · obtain ⟨_, _, rfl⟩ := Option.map_eq_some_iff.mp done
        exact ⟨rfl, rfl, rfl⟩
  · cases done

theorem SESS_RELE_list {sp : Nat} (done : Pid.SESS_RELE time a sp = some b) : SameList a b := by
  unfold Pid.SESS_RELE at done
  split at done
  · dsimp only at done
    split at done
    · cases done
      exact ⟨rfl, rfl, rfl⟩
    · unfold Pid.sess_rele at done
      split at done
      · cases done
      · obtain ⟨u, released, rfl⟩ := Option.map_eq_some_iff.mp done
        exact ⟨(PID_RELE_list released).pNext, (PID_RELE_list released).practive, (PID_RELE_list released).procs⟩
  · cases done

theorem pgexit_list (done : Pid.pgexit time a prp = some b) : SameList a b := by
  obtain ⟨pgp, -, done⟩ := Option.bind_eq_some_iff.mp done
  obtain ⟨⟨head, link⟩, -, done⟩ := Option.bind_eq_some_iff.mp done
  dsimp only at done
  split at done
  · have same := PID_RELE_list done
    exact ⟨same.pNext, same.practive, same.procs⟩
  · unfold Pid.orphan at done
    split at done
    · cases done
      exact ⟨rfl, rfl, rfl⟩
    split at done
    · cases done
      exact ⟨rfl, rfl, rfl⟩
    · cases done
      exact ⟨rfl, rfl, rfl⟩
    · cases done

theorem pid_exit_list (done : Pid.pid_exit time a prp = some b) :
    takeOut time a.pNext a.practive prp = some (b.practive, b.pNext) ∧ b.procs = a.procs.erase prp := by
  obtain ⟨u, left, done⟩ := Option.bind_eq_some_iff.mp done
  obtain ⟨sp, -, done⟩ := Option.bind_eq_some_iff.mp done
  obtain ⟨v, released, done⟩ := Option.bind_eq_some_iff.mp done
  obtain ⟨x, freed, done⟩ := Option.bind_eq_some_iff.mp done
  obtain ⟨⟨head, link⟩, taken, rfl⟩ := Option.map_eq_some_iff.mp done
  have before := (pgexit_list left).trans (SESS_RELE_list released)
  have last := PID_RELE_list freed
  have same : SameList a x := before.trans ⟨last.pNext, last.practive, last.procs⟩
  rw [same.pNext, same.practive] at taken
  exact ⟨taken, by dsimp only; rw [same.procs]⟩

theorem assign_list (done : Pid.assign time a prp pidp = some (mpid, b)) :
    b.pNext = update a.pNext prp a.practive ∧ b.practive = some prp ∧ b.procs = insert prp a.procs := by
  obtain ⟨_, -, done⟩ := Option.bind_eq_some_iff.mp done
  obtain ⟨_, -, done⟩ := Option.bind_eq_some_iff.mp done
  split at done
  · cases done
  · cases done
    exact ⟨rfl, rfl, rfl⟩

end table

inductive Change (init : Nat) (s : State) : Option Nat → State → Prop
  | pid_assign {prp pidp mpid : Nat} {table : Pid.State} {time : Nat} (fresh : prp ∉ s.table.procs)
      (made : Pid.assign time s.table prp pidp = some (mpid, table)) : Change init s none { s with table, pStat := update s.pStat prp .SIDL }
  | newproc {p : Nat} (idle : s.pStat p = .SIDL) : Change init s none { s with pStat := update s.pStat p .SRUN }
  | exit {p : Nat} (other : p ≠ init) : Change init s none { s with pStat := update s.pStat p .SZOMB }
  | pid_exit {p : Nat} {table : Pid.State} {time : Nat} (other : p ≠ init) (idle : s.pStat p ≠ .SRUN)
      (done : Pid.pid_exit time s.table p = some table) : Change init s (some p) { s with table }
  /-- Groups, sessions, ids and signals. -/
  | around {table : Pid.State} {pCid pPpid : Nat → Int} {pCred : Nat → Cred} {signals : Nat → Sig.Proc} (same : SameList s.table table) :
      Change init s none ⟨table, s.pStat, pCid, pPpid, pCred, signals⟩

structure Listed (init : Nat) (s : State) (active : List Nat) : Prop where
  linked : Linked s.table.pNext s.table.practive active
  procs : ∀ p, p ∈ active ↔ p ∈ s.table.procs
  alive : init ∈ active
  one : ∀ p ∈ s.table.procs, pPid s p = 1 → p = init

instance (pv : Sigsend) (psp : ProcsetT) (s : State) (p : Nat) : Decidable (Current pv psp s p) :=
  inferInstanceAs (Decidable (_ ∧ _ ∧ _))

def inset (pv : Sigsend) (psp : ProcsetT) (s : State) : Finset Nat := s.table.procs.filter (Current pv psp s)

/-- A call on its way, with the processes that were `inset` all the time, and the states before and
after each part of it, from where it goes on to where it sleeps. -/
structure System where
  state : State
  walk : Walk
  record : Record
  steady : Finset Nat
  parts : List (State × State)

/-- The call and what happens around it. With `careful` nobody frees the process at which the
walk sleeps. -/
inductive Run (careful : Bool) (pv : Sigsend) (psp : ProcsetT) : System → Prop
  | start {s t : State} {w : Walk} {r : Record} {asked : ProcsetT} {active : List Nat} {time : Nat} (listed : Listed pv.procInit s active)
      (meant : mine s pv.caller asked = some psp) (first : dotoprocs pv psp time s = some (w, t, r)) :
      Run careful pv psp ⟨t, w, r, inset pv psp s, [(s, t)]⟩
  | other {y : System} {t : State} {freed : Option Nat} (run : Run careful pv psp y) (change : Change pv.procInit y.state freed t)
      (one : ∀ p ∈ t.table.procs, pPid t p = 1 → p = pv.procInit)
      (met : careful = true → ∀ p n more, y.walk = .sleeping p n more → freed ≠ some p) :
      Run careful pv psp ⟨t, y.walk, y.record, y.steady ∩ inset pv psp t, y.parts⟩
  | wakeup {y : System} {t : State} {w : Walk} {r : Record} {p : Nat} {n : Found} {more : Bool} {time : Nat} (run : Run careful pv psp y)
      (asleep : y.walk = .sleeping p n more) (done : resume pv psp time y.state y.record p n more = some (w, t, r)) :
      Run careful pv psp ⟨t, w, r, y.steady, y.parts ++ [(y.state, t)]⟩

structure Kept (pv : Sigsend) (psp : ProcsetT) (y : System) (active : List Nat) : Prop where
  listed : Listed pv.procInit y.state active
  current : ∀ q ∈ y.steady, q ∈ active ∧ Current pv psp y.state q
  rests : Rests pv active y.steady y.record y.walk
  told : ∃ ls, y.record.given = ls.flatten ∧ List.Forall₂ (fun part l => l.Nodup → Told pv part.1 part.2 l) y.parts ls

def Stays (active active' : List Nat) (gone : Option Nat) (p : Nat) : Prop :=
  ∀ front back, active = front ++ p :: back → ∃ front' back', active' = front' ++ p :: back' ∧ (∀ q ∈ back', q ∈ back) ∧
    ∀ q ∈ back, gone ≠ some q → q ∈ back'

theorem change_listed {freed : Option Nat} (listed : Listed pv.procInit s active) (change : Change pv.procInit s freed t)
    (one : ∀ p ∈ t.table.procs, pPid t p = 1 → p = pv.procInit) :
    ∃ active', Listed pv.procInit t active' ∧ ∀ p, freed ≠ some p → Stays active active' freed p := by
  have same : ∀ p, Stays active active none p := fun p front back place => ⟨front, back, place, fun _ member => member, fun _ member _ => member⟩
  cases change with
  | @pid_assign prp pidp mpid table time fresh made =>
    obtain ⟨pNext, practive, procs⟩ := assign_list made
    have outside : prp ∉ active := fun member => fresh ((listed.procs prp).mp member)
    refine ⟨prp :: active, ⟨?_, fun p => ?_, List.mem_cons_of_mem _ listed.alive, one⟩, fun p _ front back place => ?_⟩
    · dsimp only
      rw [pNext, practive]
      exact listed.linked.push_front outside
    · dsimp only
      rw [procs, List.mem_cons, Finset.mem_insert, listed.procs p]
    · exact ⟨prp :: front, back, by rw [place, List.cons_append], fun _ member => member, fun _ member _ => member⟩
  | newproc idle => exact ⟨active, ⟨listed.linked, listed.procs, listed.alive, one⟩, fun p _ => same p⟩
  | exit other => exact ⟨active, ⟨listed.linked, listed.procs, listed.alive, one⟩, fun p _ => same p⟩
  | @pid_exit x table time other idle done =>
    obtain ⟨taken, procs⟩ := pid_exit_list done
    obtain ⟨before, after, rfl, linked, -⟩ := Linked.taken listed.linked taken
    have once := listed.linked.nodup
    have rest : (before ++ x :: after).erase x = before ++ after := by
      rw [List.nodup_append, List.nodup_cons] at once
      rw [List.erase_append_right _ fun member => once.2.2 x member x (by simp) rfl, List.erase_cons_head]
    refine ⟨before ++ after, ⟨linked, fun p => ?_, ?_, one⟩, fun p stays front back place => ?_⟩
    · dsimp only
      rw [procs, Finset.mem_erase, ← rest, once.mem_erase_iff, listed.procs p]
    · rw [← rest, once.mem_erase_iff]
      exact ⟨other.symm, listed.alive⟩
    · have apart : p ≠ x := fun same => stays (congrArg some same.symm)
      rw [← rest, place]
      by_cases early : x ∈ front
      · rw [List.erase_append_left _ early]
        exact ⟨_, back, rfl, fun _ member => member, fun _ member _ => member⟩
      · rw [List.erase_append_right _ early, List.erase_cons_tail (by simpa using apart)]
        exact ⟨front, _, rfl, fun _ member => List.mem_of_mem_erase member,
          fun q member live => (List.mem_erase_of_ne fun same => live (congrArg some same.symm)).mpr member⟩
  | around alike =>
    refine ⟨active, ⟨?_, ?_, listed.alive, one⟩, fun p _ => same p⟩
    · dsimp only
      rw [alike.pNext, alike.practive]
      exact listed.linked
    · dsimp only
      rw [alike.procs]
      exact listed.procs

theorem Kept.other {y : System} {freed : Option Nat} (kept : Kept pv psp y active) (change : Change pv.procInit y.state freed t)
    (one : ∀ p ∈ t.table.procs, pPid t p = 1 → p = pv.procInit) (stays : ∀ p n more, y.walk = .sleeping p n more → freed ≠ some p) :
    ∃ active', Kept pv psp ⟨t, y.walk, y.record, y.steady ∩ inset pv psp t, y.parts⟩ active' := by
  obtain ⟨active', listed, around⟩ := change_listed kept.listed change one
  have smaller : ∀ q ∈ y.steady ∩ inset pv psp t, q ∈ y.steady := fun q member => (Finset.mem_inter.mp member).1
  have current : ∀ q ∈ y.steady ∩ inset pv psp t, q ∈ active' ∧ Current pv psp t q := by
    intro q member
    obtain ⟨inside, now⟩ := Finset.mem_filter.mp (Finset.mem_inter.mp member).2
    exact ⟨(listed.procs q).mpr inside, now⟩
  -- a process that is still there has not been freed
  have live : ∀ q ∈ y.steady ∩ inset pv psp t, freed ≠ some q := by
    intro q member is
    cases change with
    | pid_exit other idle done =>
      cases is
      obtain ⟨-, procs⟩ := pid_exit_list done
      have inside := (listed.procs q).mp (current q member).1
      rw [show _ = _ from procs] at inside
      exact (Finset.mem_erase.mp inside).1 rfl
    | _ => cases is
  refine ⟨active', listed, current, ?_, kept.told⟩
  have rests := kept.rests
  cases rest : y.walk with
  | sleeping p n more =>
    rw [rest] at rests
    have place := around p (stays p n more rest)
    cases more with
    | true =>
      obtain ⟨given, front, back, is, sight⟩ := rests
      obtain ⟨front', back', is', within, enough⟩ := place front back is
      exact ⟨given, front', back', is', sight.fewer within smaller fun q member inside => enough q inside (live q member)⟩
    | false =>
      obtain ⟨given, here, complete⟩ := rests
      obtain ⟨front, back, is⟩ := List.append_of_mem here
      obtain ⟨front', back', is', -⟩ := place front back is
      exact ⟨given, by simp [is'], complete.fewer smaller⟩
  | stray p =>
    rw [rest] at rests
    exact rests
  | returned e =>
    rw [rest] at rests
    exact ⟨rests.1, rests.2.fewer smaller⟩

theorem run_kept {y : System} (signal : pv.sig ≠ 0) (small : pv.sig < Sig.NSIG) (run : Run true pv psp y) : ∃ active, Kept pv psp y active := by
  induction run with
  | @start s t w r asked active time listed meant first =>
    have current : ∀ q ∈ inset pv psp s, q ∈ active ∧ Current pv psp s q := by
      intro q member
      obtain ⟨inside, now⟩ := Finset.mem_filter.mp member
      exact ⟨(listed.procs q).mpr inside, now⟩
    obtain ⟨⟨signals, rfl⟩, rests⟩ := dotoprocs_rests signal listed.linked (fun q member => (listed.procs q).mp member)
      (fun q member => listed.one q ((listed.procs q).mp member)) listed.alive current first
    obtain ⟨l, given, told⟩ := loop_part (Nat.pos_of_ne_zero signal) small first
    exact ⟨active, ⟨listed.linked, listed.procs, listed.alive, listed.one⟩, current, rests, [l], by simpa using given, .cons told .nil⟩
  | other run change one met ih =>
    obtain ⟨active, kept⟩ := ih
    exact kept.other change one (met rfl)
  | @wakeup y t w r p n more time run asleep done ih =>
    obtain ⟨active, kept⟩ := ih
    obtain ⟨listed, current, rests, ls, given, tolds⟩ := kept
    obtain ⟨l, given', told⟩ := resume_part (Nat.pos_of_ne_zero signal) small done
    rw [asleep] at rests
    obtain ⟨⟨signals, rfl⟩, rests⟩ := resume_rests signal listed.linked (fun q member => (listed.procs q).mp member)
      (fun q member => listed.one q ((listed.procs q).mp member)) listed.alive (fun q member => (current q member).2) rests done
    exact ⟨active, ⟨listed.linked, listed.procs, listed.alive, listed.one⟩, current, rests, ls ++ [l], by simp [given', given],
      List.rel_append tolds (.cons told .nil)⟩

private def tunables : Pid.Var := ⟨120, 40, by decide, by decide⟩

private def born : Nat → Pgrp.State
  | 0 => ⟨Pid.pid_init tunables, fun _ => [], fun _ => false⟩
  | n + 1 => (Pgrp.newproc 10 tunables (born n) 0 ⟨false, false⟩ ⟨0, 0⟩ (some (n + 1), some (n + 101))).getD (born n)

private def kill : Sigsend := ⟨2, 1, 15, false⟩

end Svr4.Proofs.ProcsetHistory
