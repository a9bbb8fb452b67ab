import Mathlib.Data.List.Induction
import Mathlib.Tactic.Common

/-! Reversing a list in place, by swapping the elements at its ends. -/
namespace Reversal

variable {α : Type*}

def swap (i j : Nat) (s : List α) : List α :=
  match s[i]?, s[j]? with
  | some a, some b => (s.set j a).set i b
  | _, _ => s

/-- `while(i < j)`, swap and go on inwards. -/
def swapLoop (i j : Nat) (s : List α) : List α :=
  if i < j then swapLoop (i + 1) (j - 1) (swap i j s) else s
termination_by j - i

theorem swap_ends (front : List α) (a : α) (mid : List α) (b : α) (back : List α) :
    swap front.length (front.length + mid.length + 1) (front ++ (a :: (mid ++ [b])) ++ back) =
      front ++ (b :: (mid ++ [a])) ++ back := by
  have hfirst : (front ++ (a :: (mid ++ [b])) ++ back)[front.length]? = some a := by simp
  have hlast : (front ++ (a :: (mid ++ [b])) ++ back)[front.length + mid.length + 1]? =
      some b := by
    rw [List.append_assoc, List.getElem?_append_right (by omega)]
    simp [Nat.add_assoc]
  unfold swap
  rw [hfirst, hlast]
  simp [List.set_append_right, Nat.add_assoc]

/-- The loop on a part of the list reverses that part. -/
theorem swapLoop_part (front mid back : List α) :
    swapLoop front.length (front.length + mid.length - 1) (front ++ mid ++ back) =
      front ++ mid.reverse ++ back := by
  induction mid using List.bidirectionalRec generalizing front back with
  | nil =>
    rw [swapLoop, if_neg (by simp)]
    simp
  | singleton a =>
    rw [swapLoop, if_neg (by simp)]
    simp
  | cons_append a mid b ih =>
    have hlast : front.length + (a :: (mid ++ [b])).length - 1 = front.length + mid.length + 1 := by
      simp only [List.length_cons, List.length_append, List.length_nil]
      omega
    have hinner := ih (front ++ [b]) (a :: back)
    have hj : (front ++ [b]).length + mid.length - 1 = front.length + mid.length + 1 - 1 := by
      simp only [List.length_append, List.length_singleton]
      omega
    rw [hj, List.length_append, List.length_singleton] at hinner
    rw [hlast, swapLoop, if_pos (by omega), swap_ends]
    have hshape : front ++ (b :: (mid ++ [a])) ++ back = front ++ [b] ++ mid ++ a :: back := by simp
    rw [hshape, hinner]
    simp

theorem swapLoop_eq_reverse (s : List α) : swapLoop 0 (s.length - 1) s = s.reverse := by
  simpa using swapLoop_part [] s []

end Reversal
