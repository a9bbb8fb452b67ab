import Mathlib.Tactic.Common

/-! Actions that read and change one key of a store. Actions on different keys
give the same answers and the same store in either order. -/
namespace KeyedStore

variable {S K V A B : Type*} (view : S → K → V)

/-- The action leaves the other keys alone, and what it does to its own and its
answer follow from what it finds there. The states may differ in what the view
does not show. -/
structure Local (valid : S → Prop) (key : K) (act : S → A → S → Prop) : Prop where
  frame : ∀ {s a t}, valid s → act s a t → ∀ k, k ≠ key → view t k = view s k
  determined : ∀ {s a t s' a' t'}, valid s → valid s' → view s key = view s' key →
    act s a t → act s' a' t' → view t key = view t' key ∧ a = a'

variable {view} {valid₁ valid₂ : S → Prop} {key₁ key₂ : K} {act₁ : S → A → S → Prop}
  {act₂ : S → B → S → Prop}

/-- One action before and after another one on a different key. -/
theorem Local.past (local₁ : Local view valid₁ key₁ act₁) (local₂ : Local view valid₂ key₂ act₂)
    (hne : key₁ ≠ key₂) {s t u v : S} {a a' : A} {b : B} (hs : valid₁ s) (hv : valid₁ v)
    (hs₂ : valid₂ s) (first : act₁ s a t) (other : act₂ s b v) (later : act₁ v a' u) :
    view t key₁ = view u key₁ ∧ a = a' :=
  local₁.determined hs hv (local₂.frame hs₂ other key₁ hne).symm first later

theorem Local.comm (local₁ : Local view valid₁ key₁ act₁) (local₂ : Local view valid₂ key₂ act₂)
    (hne : key₁ ≠ key₂) {s t₁ t₂ u₁ u₂ : S} {a a' : A} {b b' : B} (hs₁ : valid₁ s) (hs₂ : valid₂ s)
    (ht₂ : valid₂ t₁) (ht₁ : valid₁ t₂) (first₁ : act₁ s a t₁) (then₂ : act₂ t₁ b u₁)
    (first₂ : act₂ s b' t₂) (then₁ : act₁ t₂ a' u₂) : view u₁ = view u₂ ∧ a = a' ∧ b = b' := by
  obtain ⟨hkey₁, ha⟩ := local₁.past local₂ hne hs₁ ht₁ hs₂ first₁ first₂ then₁
  obtain ⟨hkey₂, hb⟩ := local₂.past local₁ hne.symm hs₂ ht₂ hs₁ first₂ first₁ then₂
  refine ⟨?_, ha, hb.symm⟩
  funext k
  by_cases h₁ : k = key₁
  · rw [h₁, local₂.frame ht₂ then₂ key₁ hne, hkey₁]
  · by_cases h₂ : k = key₂
    · rw [h₂, local₁.frame ht₁ then₁ key₂ hne.symm, hkey₂]
    · rw [local₂.frame ht₂ then₂ k h₂, local₁.frame hs₁ first₁ k h₁,
        local₁.frame ht₁ then₁ k h₁, local₂.frame hs₂ first₂ k h₂]

end KeyedStore
