import Gipcy.Posix.OneSemaphore
import Gipcy.SystemV.OneSet

/-! The handles of one name in the two libraries without a driver. They count no
owners, so a delete is harmless only for the last handle. -/
namespace Gipcy.Ports

open Transition
open Linux (EEXIST Primitive)

section Claims

/-- Where only a process that is alone removes, the live handles of a name stay
together; for POSIX it is enough that a semaphore is made when no handle is live. -/
theorem live_handles_together {ι : Type*} [DecidableEq ι] (k : Primitive) :
    (∀ s, ((SystemV.Name.system k ι).guard (SystemV.Name.RemovesAlone k)).Reachable s →
      SystemV.Name.Together s) ∧
    ∀ s, ((Posix.Name.system k ι).guard Posix.Name.MakesAlone).Reachable s →
      Posix.Name.Together s :=
  ⟨fun _ h => (SystemV.Name.oneSet_reachable h).together,
    fun _ h => (Posix.Name.oneSemaphore_reachable h).together⟩

/-- A POSIX name without a semaphore, for examples. -/
def newName : Posix.Name Bool := ⟨none, 0, fun _ => .idle, []⟩

/-- Two processes open one POSIX semaphore. -/
theorem live_handles_together_two : ∃ s : Posix.Name Bool,
    ((Posix.Name.system .mutex Bool).guard Posix.Name.MakesAlone).Reachable s ∧
      s.live = [0, 0] ∧ Posix.Name.Together s := by
  let S := (Posix.Name.system .mutex Bool).guard Posix.Name.MakesAlone
  have step : ∀ {s t : Posix.Name Bool} (c : Bool) (act : Posix.Act), S.Reachable s →
      Posix.Name.MakesAlone s (c, act) → Posix.Name.next .mutex s (c, act) = some t →
      S.Reachable t := fun _ _ h condition hnext => h.step ⟨condition, hnext⟩
  have new : S.Reachable newName := .init ⟨rfl, fun _ => rfl, rfl⟩
  have called := step false .create new trivial rfl
  have made := step false (.sys none) called (fun _ _ => rfl) rfl
  have other := step true .create made trivial rfl
  have found := step true (.sys (some EEXIST)) other trivial rfl
  have opened := step true (.sys none) found (fun _ hnone => by cases hnone) rfl
  exact ⟨_, opened, rfl, (live_handles_together .mutex).2 _ opened⟩

/-- Two processes open the set, and one deletes its handle of the idle mutex: the
other's handle has no set any more. -/
def removedUnderHandle : List (Bool × SystemV.Act) :=
  [(false, .create 0), (false, .sys true), (false, .sys true), (false, .semget 7 0),
    (false, .sys true),
    (true, .create 0), (true, .sys true), (true, .sys true), (true, .semget (-1) EEXIST),
    (true, .sys true), (true, .stat .ready),
    (false, .delete 7), (false, .value 1), (false, .value 0), (false, .value 0),
    (false, .sys true)]

/-- Two processes open the semaphore, one deletes its handle, and opens another. -/
def unlinkedUnderHandle : List (Bool × Posix.Act) :=
  [(false, .create), (false, .sys none),
    (true, .create), (true, .sys (some EEXIST)), (true, .sys none),
    (false, .delete 0), (false, .sys none), (false, .sys none),
    (false, .create), (false, .sys none)]

theorem not_live_handles_together :
    (¬ ∀ (k : Primitive) (s : SystemV.Name Bool), (SystemV.Name.system k Bool).Reachable s →
      SystemV.Name.Together s) ∧
    ¬ ∀ (k : Primitive) (s : Posix.Name Bool), (Posix.Name.system k Bool).Reachable s →
      Posix.Name.Together s := by
  refine ⟨fun h => ?_, fun h => ?_⟩
  · obtain ⟨s, hs, live, gone⟩ : ∃ s, (SystemV.Name.system .mutex Bool).Reachable s ∧
        7 ∈ s.live ∧ s.sets 7 = none := by
      refine exists_reachable_of_run SystemV.Name.fresh removedUnderHandle
        (fun s => decide (7 ∈ s.live ∧ s.sets 7 = none))
        ⟨rfl, fun _ => rfl, fun _ => rfl, fun _ => rfl, rfl⟩ (by decide) ?_
      exact fun s _ hs => of_decide_eq_true hs
    have hset := (h .mutex s hs).2 7 live
    rw [gone] at hset
    cases hset
  · obtain ⟨s, hs, live⟩ : ∃ s, (Posix.Name.system .mutex Bool).Reachable s ∧
        s.live = [1, 0] := by
      refine exists_reachable_of_run newName unlinkedUnderHandle
        (fun s => decide (s.live = [1, 0])) ⟨rfl, fun _ => rfl, rfl⟩ (by decide) ?_
      exact fun s _ hs => of_decide_eq_true hs
    have hsame := h .mutex s hs 1 (by simp [live]) 0 (by simp [live])
    cases hsame

end Claims

end Gipcy.Ports
