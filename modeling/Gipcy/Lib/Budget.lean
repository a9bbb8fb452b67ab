import Mathlib.Algebra.BigOperators.Group.List.Basic
import Mathlib.Algebra.Ring.Int.Defs
import Mathlib.Tactic.Common

/-! A budget under a sequence of payments and incomes: whether it is ever
overdrawn on the way. -/
namespace Budget

variable {α : Type*} {weight : α → Int} {b : Int} {a : α} {l : List α}

/-- The budget after each first part of the sequence is not negative. -/
def Solvent (weight : α → Int) (b : Int) (l : List α) : Prop :=
  ∀ first, first <+: l → 0 ≤ b + (first.map weight).sum

theorem solvent_nil : Solvent weight b [] ↔ 0 ≤ b := by
  simp [Solvent, List.prefix_nil]

theorem solvent_cons : Solvent weight b (a :: l) ↔ 0 ≤ b ∧ Solvent weight (b + weight a) l := by
  constructor
  · intro h
    refine ⟨by simpa using h [] List.nil_prefix, fun first hfirst => ?_⟩
    have := h (a :: first) ((List.prefix_cons_inj a).mpr hfirst)
    rw [List.map_cons, List.sum_cons] at this
    omega
  · rintro ⟨hb, h⟩ first hfirst
    rcases List.prefix_cons_iff.mp hfirst with rfl | ⟨rest, rfl, hrest⟩
    · simpa using hb
    · have := h rest hrest
      rw [List.map_cons, List.sum_cons]
      omega

theorem Solvent.nonneg (h : Solvent weight b l) : 0 ≤ b := by
  simpa using h [] List.nil_prefix

end Budget
