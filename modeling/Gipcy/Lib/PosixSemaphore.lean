import Gipcy.Lib.SystemWait
import Mathlib.Order.Basic
import Mathlib.Tactic.Common

/-! The semaphores of `<semaphore.h>`, with the bound that the library puts on
their value. -/
namespace PosixSemaphore

open SystemWait

/-- `<limits.h>`, where the standard asks for 32767 at least. It also leaves open
whether `sem_timedwait` looks at its deadline where it need not wait. -/
structure Limits where
  semValueMax : Nat
  large : 32767 ≤ semValueMax
  readsDeadline : Bool

/-- `none` before a `sem_init` that succeeds and after `sem_destroy`. -/
abbrev Sem := Option Nat

/-- `sem_init`, which fails on a value above the bound. -/
def semInit (lim : Limits) (value : UInt32) : Sem :=
  if value.toNat ≤ lim.semValueMax then some value.toNat else none

/-- `sem_post`, which fails at the bound. -/
def semPost (lim : Limits) : Sem → Sem
  | some n => some (if n < lim.semValueMax then n + 1 else n)
  | none => none

/-- What a caller of `sem_wait` meets at once. -/
inductive Wait where
  | took (after : Sem)
  | blocks
  | invalid
deriving DecidableEq

def semWait : Sem → Wait
  | some 0 => .blocks
  | some (n + 1) => .took (some n)
  | none => .invalid

/-- What a caller of `sem_timedwait` meets at once; `EINVAL` is `invalid`, and a
wait ends by itself. -/
def semTimedwait (lim : Limits) (abs : Timespec) (sem : Sem) : Wait :=
  if ¬ abs.Normalised ∧ (lim.readsDeadline = true ∨ sem = some 0) then .invalid else semWait sem

/-- A semaphore on which nobody blocks now. -/
def Up (sem : Sem) : Prop := ∃ n, sem = some (n + 1)

theorem semWait_eq_blocks_iff {sem : Sem} : semWait sem = .blocks ↔ sem = some 0 := by
  cases sem with
  | none => simp [semWait]
  | some n => cases n <;> simp [semWait]

/-- What a caller of `sem_timedwait` meets, by the semaphore and the deadline. -/
theorem semTimedwait_cases (lim : Limits) (abs : Timespec) (sem : Sem) :
    (∃ n, sem = some (n + 1) ∧ (abs.Normalised ∨ lim.readsDeadline = false) ∧
      semTimedwait lim abs sem = .took (some n)) ∨
    (sem = some 0 ∧ abs.Normalised ∧ semTimedwait lim abs sem = .blocks) ∨
    ((sem = none ∨ ¬ abs.Normalised ∧ (lim.readsDeadline = true ∨ sem = some 0)) ∧
      semTimedwait lim abs sem = .invalid) := by
  by_cases h : ¬ abs.Normalised ∧ (lim.readsDeadline = true ∨ sem = some 0)
  · exact .inr (.inr ⟨.inr h, if_pos h⟩)
  · have hwait : semTimedwait lim abs sem = semWait sem := if_neg h
    rw [hwait]
    cases sem with
    | none => exact .inr (.inr ⟨.inl rfl, rfl⟩)
    | some n =>
      cases n with
      | zero =>
        have hnormal : abs.Normalised := Classical.not_not.mp fun hn => h ⟨hn, .inr rfl⟩
        exact .inr (.inl ⟨rfl, hnormal, rfl⟩)
      | succ n =>
        refine .inl ⟨n, rfl, Or.imp_right (fun hreads => ?_) (Classical.em _), rfl⟩
        exact Bool.eq_false_iff.mpr fun ht => h ⟨hreads, .inl ht⟩

/-- A post wakes a semaphore up whatever its value was. -/
theorem up_semPost (lim : Limits) (n : Nat) : Up (semPost lim (some n)) := by
  have hlarge := lim.large
  unfold Up semPost
  by_cases hn : n < lim.semValueMax
  · exact ⟨n, by simp [hn]⟩
  · exact ⟨n - 1, by simp only [hn, if_false, Option.some.injEq]; omega⟩

theorem Up.semPost {sem : Sem} (h : Up sem) (lim : Limits) : Up (semPost lim sem) := by
  obtain ⟨n, rfl⟩ := h
  exact up_semPost lim (n + 1)

theorem Up.semWait {sem : Sem} (h : Up sem) : ∃ n, PosixSemaphore.semWait sem = .took (some n) := by
  obtain ⟨n, rfl⟩ := h
  exact ⟨n, rfl⟩

end PosixSemaphore
