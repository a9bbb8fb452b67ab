import Mathlib.Data.List.Basic
import Mathlib.Tactic.Common

/-! A loop that erases the element at its index and advances the index all the
same: every erased element moves its successor out of the way of the loop. -/
namespace EraseLoop

variable {σ α : Type*}

/-- `for(i = 0; i < list.size(); ++i) { body; list.erase(list.begin() + i); }`
from a given index on; `body` sees the element that is erased. -/
def eraseLoop (body : σ → α → σ) (i : Nat) (list : List α) (state : σ) : σ × List α :=
  if h : i < list.length then
    eraseLoop body (i + 1) (list.eraseIdx i) (body state list[i])
  else (state, list)
termination_by list.length - i
decreasing_by
  rw [List.length_eraseIdx_of_lt h]
  omega

/-- The elements that the loop erases, in order. -/
def erased : List α → List α
  | [] => []
  | [x] => [x]
  | x :: _ :: rest => x :: erased rest

/-- The elements that the loop passes over. -/
def skipped : List α → List α
  | [] | [_] => []
  | _ :: y :: rest => y :: skipped rest

/-- The loop in the middle: what it has passed over lies before its index. -/
theorem eraseLoop_append (body : σ → α → σ) (before rest : List α) (state : σ) :
    eraseLoop body before.length (before ++ rest) state =
      ((erased rest).foldl body state, before ++ skipped rest) := by
  induction rest using skipped.induct generalizing before state with
  | case1 =>
    rw [eraseLoop, dif_neg (by simp)]
    simp [erased, skipped]
  | case2 x =>
    have hlt : before.length < (before ++ [x]).length := by simp
    have herase : (before ++ [x]).eraseIdx before.length = before := by
      simp [List.eraseIdx_append_of_length_le]
    have hget : (before ++ [x])[before.length] = x := by simp
    rw [eraseLoop, dif_pos hlt, herase, hget, eraseLoop, dif_neg (by omega)]
    simp [erased, skipped]
  | case3 x y rest ih =>
    have hlt : before.length < (before ++ x :: y :: rest).length := by simp
    have herase : (before ++ x :: y :: rest).eraseIdx before.length =
        (before ++ [y]) ++ rest := by
      simp [List.eraseIdx_append_of_length_le]
    have hlen : before.length + 1 = (before ++ [y]).length := by simp
    have hget : (before ++ x :: y :: rest)[before.length] = x := by simp
    rw [eraseLoop, dif_pos hlt, herase, hlen, hget, ih]
    simp [erased, skipped]

theorem eraseLoop_zero (body : σ → α → σ) (list : List α) (state : σ) :
    eraseLoop body 0 list state = ((erased list).foldl body state, skipped list) :=
  eraseLoop_append body [] list state

/-- The loop clears no list of two elements or more. -/
theorem skipped_eq_nil_iff {list : List α} : skipped list = [] ↔ list.length ≤ 1 := by
  match list with
  | [] | [_] => simp [skipped]
  | _ :: _ :: _ => simp [skipped]

theorem erased_eq_self {list : List α} (h : list.length ≤ 1) : erased list = list := by
  match list with
  | [] | [_] => rfl
  | _ :: _ :: _ => simp at h

theorem nodup_of_length_le_one {list : List α} (h : list.length ≤ 1) : list.Nodup := by
  match list with
  | [] => exact .nil
  | [_] => exact List.nodup_cons.mpr ⟨List.not_mem_nil, .nil⟩
  | _ :: _ :: _ => simp at h

/-- What is erased and what is left make up the list. -/
theorem erased_append_skipped (list : List α) : (erased list ++ skipped list).Perm list := by
  induction list using skipped.induct with
  | case1 => exact .refl _
  | case2 x => exact .refl _
  | case3 x y rest ih =>
    have hmiddle : (erased rest ++ y :: skipped rest).Perm (y :: rest) :=
      List.perm_middle.trans (ih.cons y)
    exact hmiddle.cons x

end EraseLoop
