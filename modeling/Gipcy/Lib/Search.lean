import Mathlib.Data.List.Basic
import Mathlib.Tactic.Common

/-! A search in a sequence that is delivered one element after the other: a call
takes elements up to the first that is wanted, and the next call goes on behind it. -/
namespace Search

variable {α : Type*}

/-- What one call answers, and what it leaves to be delivered. -/
def next (p : α → Bool) : List α → Option α × List α
  | [] => (none, [])
  | a :: rest => if p a then (some a, rest) else next p rest

/-- The answers of the first `n` calls. -/
def answers (p : α → Bool) : Nat → List α → List (Option α)
  | 0, _ => []
  | n + 1, l => (next p l).1 :: answers p n (next p l).2

variable {p q : α → Bool} {l : List α}

/-- The first element of its kind. -/
theorem exists_first {P : α → Prop} (h : ∃ a ∈ l, P a) :
    ∃ ahead a rest, l = ahead ++ a :: rest ∧ (∀ b ∈ ahead, ¬ P b) ∧ P a := by
  induction l with
  | nil => simp at h
  | cons b l ih =>
    by_cases hb : P b
    · exact ⟨[], b, l, rfl, by simp, hb⟩
    · obtain ⟨a, ha, hP⟩ := h
      have hmem : a ∈ l := (List.mem_cons.mp ha).resolve_left fun heq => hb (heq ▸ hP)
      obtain ⟨ahead, a, rest, rfl, hahead, hP⟩ := ih ⟨a, hmem, hP⟩
      exact ⟨b :: ahead, a, rest, rfl, List.forall_mem_cons.mpr ⟨hb, hahead⟩, hP⟩

theorem next_fst (p : α → Bool) (l : List α) : (next p l).1 = (l.filter p).head? := by
  induction l with
  | nil => rfl
  | cons a l ih =>
    rw [next]
    by_cases ha : p a
    · simp [ha]
    · rw [if_neg ha, List.filter_cons_of_neg ha, ih]

theorem filter_next (p : α → Bool) (l : List α) : (next p l).2.filter p = (l.filter p).tail := by
  induction l with
  | nil => rfl
  | cons a l ih =>
    rw [next]
    by_cases ha : p a
    · simp [ha]
    · rw [if_neg ha, List.filter_cons_of_neg ha, ih]

/-- An element that is answered has been taken. -/
theorem length_next_lt {a : α} (h : (next p l).1 = some a) : (next p l).2.length < l.length := by
  induction l with
  | nil => cases h
  | cons b l ih =>
    rw [next] at h ⊢
    by_cases hb : p b
    · simp [hb]
    · rw [if_neg hb] at h ⊢
      exact Nat.lt_succ_of_lt (ih h)

/-- The calls answer the wanted elements, each once and in order, and then nothing. -/
theorem answers_eq (p : α → Bool) (n : Nat) (l : List α) :
    answers p n l = (List.range n).map fun k => (l.filter p)[k]? := by
  induction n generalizing l with
  | zero => rfl
  | succ n ih =>
    rw [answers, ih, next_fst, filter_next, List.range_succ_eq_map, List.map_cons, List.map_map,
      List.head?_eq_getElem?]
    congr 1
    exact List.map_congr_left fun k _ => List.getElem?_tail

/-- Calls that want more elements answer the same only if there are none of these. -/
theorem map_answers_eq_iff {β : Type*} {f : Option α → β} (distinct : ∀ a, f (some a) ≠ f none)
    (weaker : ∀ a ∈ l, q a → p a) :
    (∀ n, (answers p n l).map f = (List.range n).map fun k => f (l.filter q)[k]?) ↔
      ∀ a ∈ l, p a → q a := by
  constructor
  · intro h
    have hsub : (l.filter q).Sublist (l.filter p) := by
      have hboth : l.filter q = (l.filter p).filter q := by
        rw [List.filter_filter]
        refine List.filter_congr fun a ha => ?_
        rw [Bool.eq_iff_iff, Bool.and_eq_true]
        exact ⟨fun hq => ⟨hq, weaker a ha hq⟩, And.left⟩
      rw [hboth]
      exact List.filter_sublist
    -- The calls answer an element where the wanted ones are at an end.
    have hlength : (l.filter p).length ≤ (l.filter q).length := by
      by_contra hmore
      have hk := h ((l.filter q).length + 1)
      rw [answers_eq, List.map_map] at hk
      have hlast := congrArg (·[(l.filter q).length]?) hk
      simp only [List.getElem?_map, List.getElem?_range (Nat.lt_succ_self _), Option.map_some,
        Function.comp_apply, Option.some.injEq, List.getElem?_eq_none (Nat.le_refl _),
        List.getElem?_eq_getElem (Nat.not_le.mp hmore)] at hlast
      exact distinct _ hlast
    intro a ha hp
    have hsame := hsub.eq_of_length_le hlength
    exact (List.mem_filter.mp (hsame ▸ List.mem_filter.mpr ⟨ha, hp⟩)).2
  · intro h n
    have hsame : l.filter p = l.filter q :=
      List.filter_congr fun a ha => Bool.eq_iff_iff.mpr ⟨h a ha, weaker a ha⟩
    rw [answers_eq, hsame, List.map_map]
    rfl

end Search
