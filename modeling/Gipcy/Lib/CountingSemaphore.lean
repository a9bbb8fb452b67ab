import Mathlib.Tactic.Common
import Mathlib.Order.Basic

/-! Counting semaphores. A wait takes a unit, or it ends in another way that its
kind permits while there is no unit to take. -/
namespace CountingSemaphore

inductive WaitEnd where
  | acquired
  | timedOut
  | interrupted
deriving DecidableEq, Repr

/-- What can end a wait besides a unit: nothing, a limit in time, a signal. -/
inductive WaitKind where
  | unlimited
  | timed
  | interruptible
deriving DecidableEq, Repr

def WaitKind.permits : WaitKind → WaitEnd → Bool
  | _, .acquired => true
  | .timed, .timedOut => true
  | .interruptible, .interrupted => true
  | _, _ => false

/-- The count after a wait that ends in the given way, `none` when the wait
cannot end so at this count. -/
def wait (kind : WaitKind) (how : WaitEnd) (count : Int) : Option Int :=
  if how = .acquired then
    if 0 < count then some (count - 1) else none
  else if kind.permits how ∧ count ≤ 0 then some count
  else none

def post (count : Int) : Int := count + 1

@[simp] theorem wait_acquired (kind : WaitKind) (count : Int) :
    wait kind .acquired count = if 0 < count then some (count - 1) else none := by
  simp [wait]

@[simp] theorem wait_unlimited_timedOut (count : Int) :
    wait .unlimited .timedOut count = none := by
  simp [wait, WaitKind.permits]

@[simp] theorem wait_unlimited_interrupted (count : Int) :
    wait .unlimited .interrupted count = none := by
  simp [wait, WaitKind.permits]

@[simp] theorem wait_timed_timedOut (count : Int) :
    wait .timed .timedOut count = if count ≤ 0 then some count else none := by
  simp [wait, WaitKind.permits]

@[simp] theorem wait_timed_interrupted (count : Int) :
    wait .timed .interrupted count = none := by
  simp [wait, WaitKind.permits]

@[simp] theorem wait_interruptible_timedOut (count : Int) :
    wait .interruptible .timedOut count = none := by
  simp [wait, WaitKind.permits]

@[simp] theorem wait_interruptible_interrupted (count : Int) :
    wait .interruptible .interrupted count = if count ≤ 0 then some count else none := by
  simp [wait, WaitKind.permits]

/-- A wait can always end at once, by acquiring, when there is a unit. -/
theorem wait_of_pos {kind : WaitKind} {count : Int} (h : 0 < count) :
    wait kind .acquired count = some (count - 1) := by
  simp [h]

/-- A timed wait ends in some way, whatever the count. -/
theorem timed_ends (count : Int) : ∃ how, (wait .timed how count).isSome = true := by
  by_cases h : 0 < count
  · exact ⟨.acquired, by rw [wait_of_pos h]; rfl⟩
  · exact ⟨.timedOut, by rw [wait_timed_timedOut, if_pos (Int.not_lt.mp h)]; rfl⟩

end CountingSemaphore
