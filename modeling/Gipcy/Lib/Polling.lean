import Mathlib.Computability.StateTransition
import Mathlib.Data.Nat.Find
import Mathlib.Tactic.Common

/-! A loop that polls: a round looks at one reading of a sequence after the other, and
the first that is ready ends the loop. -/
namespace Polling

open StateTransition

inductive Poll where
  | round (i : Nat)
  | left (i : Nat)
deriving DecidableEq

def Poll.next (ready : Nat → Bool) : Poll → Option Poll
  | .round i => some (if ready i then .left i else .round (i + 1))
  | .left _ => none

section Ends

variable {ready : Nat → Bool} {i j : Nat}

/-- Where a loop can come to from a round. -/
def Behind (ready : Nat → Bool) (i : Nat) : Poll → Prop
  | .round j => i ≤ j
  | .left j => i ≤ j ∧ ready j = true

theorem behind_of_reaches {p : Poll} (h : Reaches (Poll.next ready) (.round i) p) :
    Behind ready i p := by
  induction h with
  | refl => exact Nat.le_refl i
  | @tail p q _ hnext ih =>
    cases p with
    | left j => cases hnext
    | round j =>
      obtain rfl := Option.some.inj hnext
      by_cases hj : ready j = true
      · rw [if_pos hj]
        exact ⟨ih, hj⟩
      · rw [if_neg hj]
        exact Nat.le_succ_of_le ih

theorem ready_of_left (h : .left j ∈ eval (Poll.next ready) (.round i)) :
    i ≤ j ∧ ready j = true :=
  behind_of_reaches (mem_eval.mp h).1

theorem left_of_ready (h : ready i = true) : .left i ∈ eval (Poll.next ready) (.round i) :=
  mem_eval.mpr ⟨.single (congrArg some (if_pos h)), rfl⟩

theorem eval_of_not_ready (h : ¬ ready i = true) :
    eval (Poll.next ready) (.round i) = eval (Poll.next ready) (.round (i + 1)) :=
  reaches_eval (.single (congrArg some (if_neg h)))

/-- The loop ends as soon as there is something to find. -/
theorem exists_left_iff :
    (∃ j, .left j ∈ eval (Poll.next ready) (.round i)) ↔ ∃ j, i ≤ j ∧ ready j = true := by
  constructor
  · rintro ⟨j, hj⟩
    exact ⟨j, ready_of_left hj⟩
  · rintro ⟨j, hij, hj⟩
    obtain ⟨n, rfl⟩ := Nat.exists_eq_add_of_le hij
    clear hij
    -- The induction is on how far ahead the reading is.
    induction n generalizing i with
    | zero => exact ⟨i, left_of_ready hj⟩
    | succ n ih =>
      by_cases hi : ready i = true
      · exact ⟨i, left_of_ready hi⟩
      · rw [eval_of_not_ready hi]
        apply ih
        rwa [Nat.add_right_comm, Nat.add_assoc]

end Ends

/-- A sequence without a bound that grows by one at most leaves no value out. -/
theorem exists_eq_of_steps {f : Nat → Int} (unbounded : ∀ n, ∃ i, n ≤ f i)
    (step : ∀ i, f (i + 1) ≤ f i + 1) {v : Int} (h : f 0 ≤ v) : ∃ i, f i = v := by
  classical
  have hfirst := Nat.find_spec (unbounded v)
  have hbefore := fun m => Nat.find_min (unbounded v) (m := m)
  refine ⟨Nat.find (unbounded v), le_antisymm ?_ hfirst⟩
  cases hi : Nat.find (unbounded v) with
  | zero => exact h
  | succ i =>
    have hlt := hbefore i (hi ▸ Nat.lt_succ_self i)
    have hstep := step i
    omega

end Polling
