import Gipcy.Lib.Transition
import Mathlib.Logic.Function.Basic

/-! Mutexes that are a semaphore and nothing else: a capture takes a unit, a
release gives one back, and nobody looks at who calls. Clients exclude each other
as long as a release comes from the client inside. -/
namespace OwnerlessMutex

open Transition

variable {σ γ ι : Type*}

/-- The two operations, with whatever they take from outside. A capture tells
whether it succeeded; one that waits has no result. -/
structure Mutex (σ γ : Type*) where
  capture : σ → γ → Option (σ × Bool)
  release : σ → γ → Option σ

/-- The count behind a mutex, in the states that its operations keep. -/
structure Counted (m : Mutex σ γ) where
  valid : σ → Prop
  count : σ → Nat
  captured : ∀ {s g t}, valid s → m.capture s g = some (t, true) →
    valid t ∧ count s = count t + 1
  refused : ∀ {s g t}, valid s → m.capture s g = some (t, false) → valid t ∧ count t = count s
  released : ∀ {s g t}, valid s → m.release s g = some t → valid t ∧ count t ≤ count s + 1

inductive Call (γ : Type*) where
  | capture (how : γ)
  | release (how : γ)

/-- `inside` marks the clients between a capture that succeeded and their next
release. -/
structure State (σ ι : Type*) where
  mutex : σ
  inside : ι → Bool

namespace State

variable [DecidableEq ι]

def next (m : Mutex σ γ) (s : State σ ι) : ι × Call γ → Option (State σ ι)
  | (c, .capture how) =>
    (m.capture s.mutex how).map fun r =>
      ⟨r.1, if r.2 then Function.update s.inside c true else s.inside⟩
  | (c, .release how) =>
    (m.release s.mutex how).map fun t => ⟨t, Function.update s.inside c false⟩

/-- Every order of calls on a mutex that nobody has captured yet. -/
def system (m : Mutex σ γ) (init : σ → Prop) (ι : Type*) [DecidableEq ι] :
    System (State σ ι) (ι × Call γ) :=
  System.ofNext (fun s => init s.mutex ∧ ∀ c, s.inside c = false) (next m)

variable {m : Mutex σ γ} (law : Counted m)

/-- A release by the client inside, or of a mutex that was made without a unit. -/
def Harmless (s : State σ ι) : ι × Call γ → Prop
  | (_, .capture _) => True
  | (c, .release _) => s.inside c = true ∨ law.count s.mutex = 0 ∧ ∀ d, s.inside d = false

def Exclusive (s : State σ ι) : Prop :=
  (∀ c d, s.inside c = true → s.inside d = true → c = d) ∧ law.count s.mutex ≤ 1

/-- The one unit is in the semaphore or with the client inside. -/
structure Inv (s : State σ ι) : Prop where
  valid : law.valid s.mutex
  exclusive : Exclusive law s
  taken : ∀ c, s.inside c = true → law.count s.mutex = 0

variable {law} {s t : State σ ι} {c : ι} {how : γ}

theorem Inv.capture (h : Inv law s) (step : next m s (c, .capture how) = some t) : Inv law t := by
  obtain ⟨⟨mutex, took⟩, hr, rfl⟩ := Option.map_eq_some_iff.mp step
  cases took with
  | false =>
    obtain ⟨hvalid, hcount⟩ := law.refused h.valid hr
    exact ⟨hvalid, ⟨h.exclusive.1, Nat.le_trans (Nat.le_of_eq hcount) h.exclusive.2⟩,
      fun d hd => hcount.trans (h.taken d hd)⟩
  | true =>
    obtain ⟨hvalid, hcount⟩ := law.captured h.valid hr
    have hone := h.exclusive.2
    -- There was a unit, so nobody was inside.
    have hnone : ∀ d, s.inside d ≠ true := fun d hd => by
      have := h.taken d hd
      omega
    have hself : ∀ d, Function.update s.inside c true d = true → d = c := by
      intro d hd
      by_contra hne
      rw [Function.update_of_ne hne] at hd
      exact hnone d hd
    refine ⟨hvalid, ⟨fun d e hd he => ?_, ?_⟩, fun d _ => ?_⟩
    · rw [hself d hd, hself e he]
    · show law.count mutex ≤ 1
      omega
    · show law.count mutex = 0
      omega

theorem Inv.release (h : Inv law s) (harmless : Harmless law s (c, .release how))
    (step : next m s (c, .release how) = some t) : Inv law t := by
  obtain ⟨mutex, hr, rfl⟩ := Option.map_eq_some_iff.mp step
  obtain ⟨hvalid, hcount⟩ := law.released h.valid hr
  -- The semaphore had no unit, and nobody stays inside.
  have hzero : law.count s.mutex = 0 := harmless.elim (h.taken c) And.left
  have hnone : ∀ d, Function.update s.inside c false d ≠ true := by
    intro d hd
    by_cases hdc : d = c
    · rw [hdc, Function.update_self] at hd
      cases hd
    · rw [Function.update_of_ne hdc] at hd
      rcases harmless with hc | ⟨-, hfree⟩
      · exact hdc (h.exclusive.1 d c hd hc)
      · rw [hfree d] at hd
        cases hd
  refine ⟨hvalid, ⟨fun d e hd => absurd hd (hnone d), ?_⟩, fun d hd => absurd hd (hnone d)⟩
  show law.count mutex ≤ 1
  omega

theorem exclusive_of_harmless {init : σ → Prop}
    (first : ∀ s, init s → law.valid s ∧ law.count s ≤ 1) {s : State σ ι}
    (h : ((system m init ι).guard (Harmless law)).Reachable s) : Exclusive law s := by
  have hinv : Inv law s := by
    apply h.invariant (I := Inv law)
    · rintro s ⟨hs, hnone⟩
      have hinside : ∀ c, s.inside c ≠ true := fun c hc => by
        rw [hnone c] at hc
        cases hc
      exact ⟨(first _ hs).1, ⟨fun c d hc => absurd hc (hinside c), (first _ hs).2⟩,
        fun c hc => absurd hc (hinside c)⟩
    · rintro s ⟨c, call⟩ t - inv ⟨harmless, step⟩
      cases call with
      | capture how => exact inv.capture step
      | release how => exact inv.release harmless step
  exact hinv.exclusive

/-- A run after which two clients are inside. -/
theorem exists_not_exclusive (law : Counted m) (init : σ → Prop) {mutex : σ} (first : init mutex)
    (labels : List (Bool × Call γ))
    (h : (run (next m) ⟨mutex, fun _ => false⟩ labels).any
      (fun s => s.inside false && s.inside true) = true) :
    ∃ s, (system m init Bool).Reachable s ∧ ¬ Exclusive law s := by
  refine exists_reachable_of_run _ labels _ ⟨first, fun _ => rfl⟩ h fun s _ hs exclusive => ?_
  obtain ⟨hfalse, htrue⟩ := (Bool.and_eq_true _ _).mp hs
  cases exclusive.1 false true hfalse htrue

end State

end OwnerlessMutex
