import Mathlib.Algebra.BigOperators.Group.Finset.Basic
import Mathlib.Algebra.Order.BigOperators.Group.Finset
import Mathlib.Data.Fintype.BigOperators
import Mathlib.Tactic.Abel

/-! Any number of clients, each with a local state, of which one moves at a time.
A tally adds up a weight over all of them: how many clients are at some point of
their code, how many units they hold together. -/
namespace Clients

open scoped BigOperators

variable {ι κ : Type*} [Fintype ι]

/-- The sum of a weight of the local states over all clients. -/
def tally (weight : κ → Int) (states : ι → κ) : Int := ∑ c, weight (states c)

theorem tally_nonneg {weight : κ → Int} (states : ι → κ)
    (h : ∀ c, 0 ≤ weight (states c)) : 0 ≤ tally weight states :=
  Finset.sum_nonneg fun c _ => h c

theorem tally_eq_zero {weight : κ → Int} {states : ι → κ}
    (h : ∀ c, weight (states c) = 0) : tally weight states = 0 :=
  Finset.sum_eq_zero fun c _ => h c

theorem tally_eq_zero_iff {weight : κ → Int} {states : ι → κ}
    (h : ∀ c, 0 ≤ weight (states c)) :
    tally weight states = 0 ↔ ∀ c, weight (states c) = 0 := by
  rw [tally, Finset.sum_eq_zero_iff_of_nonneg fun c _ => h c]
  simp

theorem le_tally {weight : κ → Int} {states : ι → κ}
    (h : ∀ c, 0 ≤ weight (states c)) (c : ι) : weight (states c) ≤ tally weight states :=
  Finset.single_le_sum (f := fun c => weight (states c)) (fun d _ => h d) (Finset.mem_univ c)

/-- The clients that weigh at least one are no more than the tally. -/
theorem card_le_tally {weight : κ → Int} {states : ι → κ} (h : ∀ c, 0 ≤ weight (states c))
    (p : ι → Prop) [DecidablePred p] (hp : ∀ c, p c → 1 ≤ weight (states c)) :
    ((Finset.univ.filter p).card : Int) ≤ tally weight states := by
  have hone : ((Finset.univ.filter p).card : Int) = ∑ c ∈ Finset.univ.filter p, (1 : Int) := by
    simp
  rw [hone]
  calc ∑ c ∈ Finset.univ.filter p, (1 : Int)
      ≤ ∑ c ∈ Finset.univ.filter p, weight (states c) :=
        Finset.sum_le_sum fun c hc => hp c (Finset.mem_filter.mp hc).2
    _ ≤ ∑ c, weight (states c) :=
        Finset.sum_le_sum_of_subset_of_nonneg (Finset.filter_subset _ _) fun c _ _ => h c

variable [DecidableEq ι]

/-- A tally of at most one leaves room for one client. -/
theorem eq_of_tally_le_one {weight : κ → Int} {states : ι → κ}
    (h : ∀ c, 0 ≤ weight (states c)) (hone : tally weight states ≤ 1) {c d : ι}
    (hc : 1 ≤ weight (states c)) (hd : 1 ≤ weight (states d)) : c = d := by
  by_contra hne
  have hrest : weight (states d) ≤ ∑ x ∈ Finset.univ.erase c, weight (states x) :=
    Finset.single_le_sum (f := fun x => weight (states x)) (fun x _ => h x)
      (Finset.mem_erase.mpr ⟨Ne.symm hne, Finset.mem_univ d⟩)
  have hsplit : weight (states c) + ∑ x ∈ Finset.univ.erase c, weight (states x) =
      tally weight states :=
    Finset.add_sum_erase Finset.univ (fun x => weight (states x)) (Finset.mem_univ c)
  omega

/-- One client moves: the tally changes by the change of that client's weight. -/
theorem tally_update (weight : κ → Int) (states : ι → κ) (c : ι) (next : κ) :
    tally weight (Function.update states c next) =
      tally weight states - weight (states c) + weight next := by
  unfold tally
  rw [← Finset.add_sum_erase _ _ (Finset.mem_univ c),
    ← Finset.add_sum_erase Finset.univ (fun d => weight (states d)) (Finset.mem_univ c)]
  have hrest : ∑ d ∈ Finset.univ.erase c, weight (Function.update states c next d) =
      ∑ d ∈ Finset.univ.erase c, weight (states d) :=
    Finset.sum_congr rfl fun d hd => by
      rw [Function.update_of_ne (Finset.ne_of_mem_erase hd)]
  rw [hrest, Function.update_self]
  abel

omit [Fintype ι] in
/-- A property of every local state is kept when the one that moves has it. -/
theorem forall_update {states : ι → κ} {p : ι → κ → Prop} {c : ι} {next : κ}
    (h : ∀ d, d ≠ c → p d (states d)) (hc : p c next) :
    ∀ d, p d (Function.update states c next d) := by
  intro d
  by_cases hd : d = c
  · subst hd
    rwa [Function.update_self]
  · rw [Function.update_of_ne hd]
    exact h d hd

end Clients
