import Mathlib.Computability.StateTransition
import Mathlib.Data.List.Basic
import Mathlib.Tactic.Common

/-! Labelled transition systems: reachable states, executions with their labels,
the invariant rule, and systems whose steps meet an extra condition. Nothing
here knows what the states or the labels are. -/
namespace Transition

variable {σ τ α β : Type*}

structure System (σ α : Type*) where
  init : σ → Prop
  step : σ → α → σ → Prop

namespace System

variable {S : System σ α}

inductive Reachable (S : System σ α) : σ → Prop where
  | init {s} : S.init s → Reachable S s
  | step {s a t} : Reachable S s → S.step s a t → Reachable S t

/-- `Exec S s labels t`: the labels, taken in order, lead from `s` to `t`. -/
inductive Exec (S : System σ α) : σ → List α → σ → Prop where
  | nil (s) : Exec S s [] s
  | cons {s a t labels u} : S.step s a t → Exec S t labels u → Exec S s (a :: labels) u

/-- The rule every safety result uses: what holds at first and is kept by a
step from a reachable state holds of every reachable state. -/
theorem Reachable.invariant {I : σ → Prop} (first : ∀ s, S.init s → I s)
    (keep : ∀ s a t, S.Reachable s → I s → S.step s a t → I t) {s : σ}
    (h : S.Reachable s) : I s := by
  induction h with
  | init h => exact first _ h
  | step hr hs ih => exact keep _ _ _ hr ih hs

theorem Exec.reachable {s t : σ} {labels : List α} (h : S.Exec s labels t)
    (hs : S.Reachable s) : S.Reachable t := by
  induction h with
  | nil => exact hs
  | cons step _ ih => exact ih (hs.step step)

theorem Exec.append {s t u : σ} {left right : List α} (h : S.Exec s left t)
    (h' : S.Exec t right u) : S.Exec s (left ++ right) u := by
  induction h with
  | nil => exact h'
  | cons step _ ih => exact .cons step (ih h')

theorem Exec.single {s t : σ} {a : α} (h : S.step s a t) : S.Exec s [a] t :=
  .cons h (.nil t)

/-- Every reachable state is the end of an execution from an initial one. -/
theorem Reachable.exec {t : σ} (h : S.Reachable t) :
    ∃ s labels, S.init s ∧ S.Exec s labels t := by
  induction h with
  | init h => exact ⟨_, [], h, .nil _⟩
  | step _ hs ih =>
    obtain ⟨s, labels, hi, he⟩ := ih
    exact ⟨s, labels ++ [_], hi, he.append (.single hs)⟩

/-- What each step keeps, a whole execution keeps. -/
theorem Exec.preserves {I : σ → Prop} (keep : ∀ s a t, I s → S.step s a t → I t)
    {s t : σ} {labels : List α} (h : S.Exec s labels t) (hs : I s) : I t := by
  induction h with
  | nil => exact hs
  | cons step _ ih => exact ih (keep _ _ _ hs step)

/-- The same system, restricted to the steps that meet a condition on the state
before the step and the label. -/
def guard (S : System σ α) (ok : σ → α → Prop) : System σ α where
  init := S.init
  step := fun s a t => ok s a ∧ S.step s a t

/-- A condition that every step meets restricts nothing. -/
theorem Reachable.guard_true {s : σ} (h : S.Reachable s) :
    (S.guard fun _ _ => True).Reachable s := by
  induction h with
  | init h => exact .init h
  | step _ hs ih => exact ih.step ⟨trivial, hs⟩

/-- The same system, restricted to the steps that lead to good states. -/
def confine (S : System σ α) (good : σ → Prop) : System σ α where
  init := S.init
  step := fun s a t => S.step s a t ∧ good t

/-- Where a step from a good state leads to a good one exactly when it meets a
condition, the runs through good states are the runs that meet the condition.
What is known of the states need not survive a step to a bad one. -/
theorem exec_confine_iff_of_good {I good : σ → Prop} {ok : σ → α → Prop}
    (keep : ∀ s a t, I s → good s → S.step s a t → good t → I t)
    (meets : ∀ s a t, I s → good s → S.step s a t → (good t ↔ ok s a))
    {s t : σ} {labels : List α} (hs : I s) (hg : good s) :
    (S.confine good).Exec s labels t ↔ (S.guard ok).Exec s labels t := by
  constructor
  · intro h
    induction h with
    | nil => exact .nil _
    | cons step _ ih =>
      have hok := (meets _ _ _ hs hg step.1).mp step.2
      exact .cons ⟨hok, step.1⟩ (ih (keep _ _ _ hs hg step.1 step.2) step.2)
  · intro h
    induction h with
    | nil => exact .nil _
    | cons step _ ih =>
      have hgood := (meets _ _ _ hs hg step.2).mpr step.1
      exact .cons ⟨step.2, hgood⟩ (ih (keep _ _ _ hs hg step.2 hgood) hgood)

theorem exec_confine_iff {I good : σ → Prop} {ok : σ → α → Prop}
    (keep : ∀ s a t, I s → S.step s a t → I t)
    (meets : ∀ s a t, I s → good s → S.step s a t → (good t ↔ ok s a))
    {s t : σ} {labels : List α} (hs : I s) (hg : good s) :
    (S.confine good).Exec s labels t ↔ (S.guard ok).Exec s labels t :=
  exec_confine_iff_of_good (fun s a t h _ step _ => keep s a t h step) meets hs hg

/-- The same where a good step must also be taken in the right way. -/
theorem exec_guard_confine_iff {good : σ → Prop} {inside ok : σ → α → Prop}
    (meets : ∀ s a t, good s → S.step s a t → (inside s a ∧ good t ↔ ok s a))
    {s t : σ} {labels : List α} (hg : good s) :
    ((S.guard inside).confine good).Exec s labels t ↔ (S.guard ok).Exec s labels t := by
  constructor
  · intro h
    induction h with
    | nil => exact .nil _
    | cons step _ ih =>
      have hok := (meets _ _ _ hg step.1.2).mp ⟨step.1.1, step.2⟩
      exact .cons ⟨hok, step.1.2⟩ (ih step.2)
  · intro h
    induction h with
    | nil => exact .nil _
    | cons step _ ih =>
      obtain ⟨hinside, hgood⟩ := (meets _ _ _ hg step.2).mpr step.1
      exact .cons ⟨⟨hinside, step.2⟩, hgood⟩ (ih hgood)

/-- A weaker condition on the steps allows the same executions. -/
theorem Exec.guard_mono {ok ok' : σ → α → Prop} {s t : σ} {labels : List α}
    (h : (S.guard ok).Exec s labels t) (weaker : ∀ s a, ok s a → ok' s a) :
    (S.guard ok').Exec s labels t := by
  induction h with
  | nil => exact .nil _
  | cons step _ ih => exact .cons ⟨weaker _ _ step.1, step.2⟩ ih

/-- The rule for progress: where every state that is not yet at the goal has a
step that lowers the rank, some execution leads to the goal. -/
theorem exists_exec_of_rank {I goal : σ → Prop} (rank : σ → Nat)
    (progress : ∀ s, I s → ¬ goal s → ∃ a t, S.step s a t ∧ I t ∧ rank t < rank s) {s : σ}
    (hs : I s) : ∃ labels t, S.Exec s labels t ∧ I t ∧ goal t := by
  induction hn : rank s using Nat.strongRecOn generalizing s with
  | ind n ih =>
    by_cases hg : goal s
    · exact ⟨[], s, .nil s, hs, hg⟩
    · obtain ⟨a, t, step, ht, hlt⟩ := progress s hs hg
      obtain ⟨labels, u, exec, hu, hgoal⟩ := ih _ (hn ▸ hlt) ht rfl
      exact ⟨a :: labels, u, .cons step exec, hu, hgoal⟩

/-- The rule for bounds: where no step raises the rank while `P` lasts and the
counted ones lower it, `P` ends before more of them are taken. -/
theorem Exec.exists_prefix_of_rank {I P : σ → Prop} (rank : σ → Nat) (own : α → Bool)
    (keep : ∀ s a t, I s → S.step s a t → I t)
    (descent : ∀ s a t, I s → P s → S.step s a t → P t →
      rank t + (if own a then 1 else 0) ≤ rank s)
    {s t : σ} {labels : List α} (h : S.Exec s labels t) (hs : I s)
    (many : rank s < labels.countP own) :
    ∃ first u, first <+: labels ∧ S.Exec s first u ∧ ¬ P u := by
  induction h with
  | nil => simp at many
  | @cons s a t labels u step rest ih =>
    by_cases hp : P s
    · by_cases ht : P t
      · have hle := descent _ _ _ hs hp step ht
        rw [List.countP_cons] at many
        obtain ⟨first, v, hpre, exec, hv⟩ := ih (keep _ _ _ hs step) (by omega)
        exact ⟨a :: first, v, (List.prefix_cons_inj a).mpr hpre, .cons step exec, hv⟩
      · exact ⟨[a], t, ⟨labels, rfl⟩, .single step, ht⟩
    · exact ⟨[], s, List.nil_prefix, .nil s, hp⟩

/-- A system whose steps are computed: `none` where the label is not enabled. -/
def ofNext (init : σ → Prop) (next : σ → α → Option σ) : System σ α where
  init := init
  step := fun s a t => next s a = some t

end System

/-- Run the labels of a list in order, `none` as soon as one is not enabled. -/
def run (next : σ → α → Option σ) : σ → List α → Option σ
  | s, [] => some s
  | s, a :: labels => (next s a).bind (run next · labels)

@[simp] theorem run_nil (next : σ → α → Option σ) (s : σ) : run next s [] = some s := rfl

theorem run_cons (next : σ → α → Option σ) (s : σ) (a : α) (labels : List α) :
    run next s (a :: labels) = (next s a).bind (run next · labels) := rfl

theorem exec_ofNext_iff {init : σ → Prop} {next : σ → α → Option σ} {s t : σ}
    {labels : List α} :
    (System.ofNext init next).Exec s labels t ↔ run next s labels = some t := by
  constructor
  · intro h
    induction h with
    | nil => rfl
    | cons step _ ih =>
      rw [run_cons, show next _ _ = some _ from step]
      exact ih
  · intro h
    induction labels generalizing s with
    | nil =>
      cases Option.some.inj h
      exact .nil _
    | cons a labels ih =>
      rw [run_cons] at h
      obtain ⟨u, hu, h⟩ := Option.bind_eq_some_iff.mp h
      exact .cons hu (ih h)

/-- A run on explicit labels exhibits a reachable state. -/
theorem reachable_of_run {init : σ → Prop} {next : σ → α → Option σ} {s t : σ}
    {labels : List α} (hs : init s) (h : run next s labels = some t) :
    (System.ofNext init next).Reachable t :=
  (exec_ofNext_iff.mpr h).reachable (.init hs)

/-- A state with a wanted property, exhibited by a run on explicit labels whose
end passes a test that can be evaluated. -/
theorem exists_reachable_of_run {init : σ → Prop} {next : σ → α → Option σ} {q : σ → Prop}
    (s : σ) (labels : List α) (p : σ → Bool) (hs : init s)
    (h : (run next s labels).any p = true)
    (hq : ∀ t, (System.ofNext init next).Reachable t → p t = true → q t) :
    ∃ t, (System.ofNext init next).Reachable t ∧ q t := by
  obtain ⟨t, ht, hp⟩ := (Option.any_eq_true _ _).mp h
  have hr := reachable_of_run hs ht
  exact ⟨t, hr, hq t hr hp⟩

/-- A run on explicit labels on which every step meets a condition. -/
theorem exec_guarded_of_run {init : σ → Prop} {next : σ → α → Option σ} {ok : σ → α → Prop}
    [∀ s a, Decidable (ok s a)] {s t : σ} {labels : List α}
    (h : run (fun s a => if ok s a then next s a else none) s labels = some t) :
    ((System.ofNext init next).guard ok).Exec s labels t := by
  have exec : (System.ofNext init _).Exec s labels t := exec_ofNext_iff.mpr h
  clear h
  induction exec with
  | nil => exact .nil _
  | cons step _ ih =>
    obtain ⟨hok, hnext⟩ := Option.ite_none_right_eq_some.mp
      (show (if ok _ _ then next _ _ else none) = some _ from step)
    exact .cons ⟨hok, hnext⟩ ih

/-- The same for a run on which every step meets a condition. -/
theorem exists_guarded_of_run {init : σ → Prop} {next : σ → α → Option σ} {q : σ → Prop}
    {ok : σ → α → Prop} [∀ s a, Decidable (ok s a)] (s : σ) (labels : List α) (p : σ → Bool)
    (hs : init s)
    (h : (run (fun s a => if ok s a then next s a else none) s labels).any p = true)
    (hq : ∀ t, ((System.ofNext init next).guard ok).Reachable t → p t = true → q t) :
    ∃ t, ((System.ofNext init next).guard ok).Reachable t ∧ q t := by
  obtain ⟨t, ht, hp⟩ := (Option.any_eq_true _ _).mp h
  have hr := (exec_guarded_of_run ht).reachable (.init hs)
  exact ⟨t, hr, hq t hr hp⟩

/-- The sum of a weight of the steps of a run. -/
def total (next : σ → α → Option σ) (weight : σ → α → Int) : σ → List α → Int
  | _, [] => 0
  | s, a :: labels =>
    match next s a with
    | some t => weight s a + total next weight t labels
    | none => 0

theorem total_cons {next : σ → α → Option σ} (weight : σ → α → Int) {s t : σ} {a : α}
    (h : next s a = some t) (labels : List α) :
    total next weight s (a :: labels) = weight s a + total next weight t labels := by
  simp only [total, h]

theorem total_sub (next : σ → α → Option σ) (weight weight' : σ → α → Int) (s : σ)
    (labels : List α) :
    total next (fun s a => weight s a - weight' s a) s labels =
      total next weight s labels - total next weight' s labels := by
  induction labels generalizing s with
  | nil => rfl
  | cons a labels ih =>
    cases h : next s a with
    | none => simp only [total, h, Int.sub_self]
    | some t =>
      rw [total_cons _ h, total_cons _ h, total_cons _ h, ih]
      omega

/-- The rule for balances: what every step adds to a quantity, a run adds up. -/
theorem eq_add_total {init : σ → Prop} {next : σ → α → Option σ} {ok : σ → α → Prop}
    {I : σ → Prop} (quantity : σ → Int) (weight : σ → α → Int)
    (keep : ∀ s a t, I s → ok s a → next s a = some t →
      I t ∧ quantity t = quantity s + weight s a)
    {s t : σ} {labels : List α} (exec : ((System.ofNext init next).guard ok).Exec s labels t)
    (hs : I s) : I t ∧ quantity t = quantity s + total next weight s labels := by
  induction exec with
  | nil => exact ⟨hs, (Int.add_zero _).symm⟩
  | @cons s a u labels t step _ ih =>
    have hnext : next s a = some u := step.2
    obtain ⟨hu, hstep⟩ := keep s a u hs step.1 hnext
    obtain ⟨ht, hrest⟩ := ih hu
    refine ⟨ht, ?_⟩
    rw [total_cons weight hnext, hrest, hstep]
    omega

/-! Whether the steps of a function come to an end. -/

section Halting

open StateTransition

variable {f : σ → Option σ} {s t : σ}

theorem eval_of_none (h : f s = none) : eval f s = Part.some s :=
  Part.eq_some_iff.mpr (mem_eval.mpr ⟨.refl, h⟩)

theorem eval_of_some (h : f s = some t) : eval f s = eval f t :=
  reaches_eval (Relation.ReflTransGen.single h)

/-- A state from which the steps always lead to such a state again. -/
theorem not_halts_of_invariant {I : σ → Prop} (keep : ∀ s, I s → ∃ t, f s = some t ∧ I t)
    (hs : I s) : ¬ (eval f s).Dom := by
  intro hdom
  obtain ⟨last, hlast⟩ := Part.dom_iff_mem.mp hdom
  obtain ⟨hreaches, hnone⟩ := mem_eval.mp hlast
  have hkeep : ∀ t, Reaches f s t → I t := by
    intro t ht
    induction ht with
    | refl => exact hs
    | tail _ hnext ih =>
      obtain ⟨u, hu, hI⟩ := keep _ ih
      obtain rfl := Option.some.inj (hu.symm.trans hnext)
      exact hI
  obtain ⟨t, ht, -⟩ := keep last (hkeep last hreaches)
  cases ht.symm.trans hnone

end Halting

end Transition
