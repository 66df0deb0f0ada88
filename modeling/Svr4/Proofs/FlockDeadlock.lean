import Svr4.Proofs.FlockHistory

/-! Waiting requests over any order of calls: `deadflck` always ends as long as no
removal of an entry uncovers an older one that closes a circle. -/

namespace Svr4.Proofs.FlockDeadlock
open Function Chain DoubleChain Follow Flock FlockLists FlockRanges FlockSleep FlockHistory

theorem Changed.ends_iff {s t : Filocks} {w w' : List Nat} {r : Option Removal} (changed : Changed s w r t w') (holds : Holds s w)
    (ends : Ends s) : Ends t ↔ ∀ x, r = some x → ¬ Uncovers s x := by
  cases changed with
  | same agree => exact ⟨fun _ => by simp, fun _ => (Agree.ends_iff holds agree).mpr ends⟩
  | more waits checked => exact ⟨fun _ => by simp, fun _ => waits.ends holds ends checked⟩
  | less removed => simpa using removed.ends_iff holds ends

/-- As long as no removal uncovers an entry that closes a circle `deadflck` always ends.
The first removal that does makes it run for ever. -/
theorem deadflck_ends (k : System) (run : Run True False (fun s x => ¬ Uncovers s x) k) :
    Ends k.sleeplcks ∧ ∀ r k', Step True False k r k' → (Ends k'.sleeplcks ↔ ∀ x, r = some x → ¬ Uncovers k.sleeplcks x) := by
  have ends : Ends k.sleeplcks := by
    induction run with
    | @start k files sleeplcks sleepers =>
      have holds : Holds k.sleeplcks [] := ⟨⟨sleeplcks, rfl⟩, by simp⟩
      rw [ends_iff holds]
      intro a b step
      cases step
    | step run step may ih =>
      obtain ⟨l, w, kept⟩ := run.kept
      obtain ⟨_, _, _, changed⟩ := step.kept trivial kept
      exact (Changed.ends_iff changed kept.waits ih).mpr may
  obtain ⟨l, w, kept⟩ := run.kept
  refine ⟨ends, fun r k' step => ?_⟩
  obtain ⟨_, _, _, changed⟩ := step.kept trivial kept
  exact Changed.ends_iff changed kept.waits ends

private def write (sysid pid first last : Int) : FlockT := ⟨.F_WRLCK, 0, first, last, ⟨sysid, pid⟩⟩

private def setlk : Cmd := ⟨true, false, false⟩

private def rsetlkw : Cmd := ⟨true, true, true⟩

/-- Owners 0.20 and 0.30 hold locks that owner 1.10 asks for, one after the other, and 0.20
asks for one that 1.10 holds. Then the newer request of 1.10 is granted. -/
private def story : List Event :=
  [.asks 1 0 (write 0 20 0 9) setlk, .asks 2 0 (write 0 30 10 19) setlk, .asks 3 0 (write 1 10 40 49) setlk, .asks 3 0 (write 1 10 0 9) rsetlkw,
    .asks 3 0 (write 1 10 10 19) rsetlkw, .asks 1 0 (write 0 20 40 49) rsetlkw, .asks 2 0 { write 0 30 10 19 with lType := .F_UNLCK } setlk,
    .asks 3 0 (write 1 10 10 19) rsetlkw]

private theorem story_ends : (replay true story boot).map (fun k => ([k.sleeplcks.head, k.sleeplcks.next 6, k.sleeplcks.next 4],
    [(k.sleeplcks.set 6).owner, k.sleeplcks.blk 6, (k.sleeplcks.set 4).owner, k.sleeplcks.blk 4])) =
    some ([some 6, some 4, none], [⟨0, 20⟩, ⟨1, 10⟩, ⟨1, 10⟩, ⟨0, 20⟩]) := by
  decide +kernel

/-- After that `deadflck` never ends for a third owner: 0.20 and 1.10 wait for each other. -/
theorem deadflck_runs_forever : ∃ k, Run True False (fun _ _ => True) k ∧ ¬ Ends k.sleeplcks := by
  obtain ⟨k, done, facts⟩ := Option.map_eq_some_iff.mp story_ends
  have run : Run True False (fun _ _ => True) k := replay_run (fun _ _ => trivial) (fun _ => rfl) boot_run (fun _ _ => rfl) done
  refine ⟨k, run, ?_⟩
  obtain ⟨l, w, kept⟩ := run.kept
  simp only [Prod.mk.injEq, List.cons.injEq, and_true] at facts
  obtain ⟨⟨head, next, last⟩, owner, blk, owner', blk'⟩ := facts
  obtain rfl : w = [6, 4] := kept.waits.forward.unique ⟨head, next, last⟩
  rw [ends_iff kept.waits]
  intro acyclic
  refine acyclic ⟨0, 20⟩ ⟨1, 10⟩ ?_ (.single ?_)
  · simp [waitsFor, owner, blk]
  · simp [waitsFor, owner, owner', blk']

/-- The theorem with one request on the list. -/
theorem deadflck_ends_waiting : ∃ k : System, k.sleeplcks.head = some 2 ∧ Ends k.sleeplcks := by
  have ranged : ∀ sysid pid, Ranged (write sysid pid 0 9) := fun _ _ =>
    ⟨(by decide : (0 : Int) ≤ 0), (by decide : (0 : Int) ≤ 9), (by decide : (9 : Int) ≤ MAXEND)⟩
  have nothing : ∀ {s : Filocks} (x : Removal), (none : Option Removal) = some x → ¬ Uncovers s x := nofun
  have start : Run True False (fun s x => ¬ Uncovers s x) boot := boot_run
  have held := start.step (.call pick_fresh rfl (ranged 0 20) (fun _ remote => by cases remote)
    (show reclockStep pick 8 1 0 (write 0 20 0 9) setlk boot = some (.ret none _ false, _) from rfl)) nothing
  have waiting := held.step (.call pick_fresh rfl (ranged 1 10) (fun _ _ _ _ asleep => by cases asleep)
    (show reclockStep pick 8 3 0 (write 1 10 0 9) rsetlkw _ = some (.ret (some .EINTR) _ false, _) from rfl)) nothing
  exact ⟨_, rfl, (deadflck_ends _ waiting).1⟩

end Svr4.Proofs.FlockDeadlock
