import Mathlib.Tactic.Common

/-! A System V semaphore set with one semaphore, and what the kernel keeps of it for a
process that asks for `SEM_UNDO`. -/
namespace SystemVSemaphore

/-- The largest value of a semaphore. -/
def SEMVMX : Int := 32767

structure SemSet where
  semval : Int
  semncnt : Nat
  semzcnt : Nat
deriving DecidableEq

/-- What a process meets that asks for one operation. -/
inductive Semop where
  | done (after : SemSet)
  | sleeps
  /-- `ERANGE`. -/
  | range
deriving DecidableEq

/-- An operation that is not 0, as far as the value goes. -/
def SemSet.semop (set : SemSet) (op : Int) : Semop :=
  if set.semval + op < 0 then .sleeps
  else if set.semval + op ≤ SEMVMX then .done { set with semval := set.semval + op }
  else .range

/-- The set after `semctl` with `SETVAL`. -/
def SemSet.setVal (set : SemSet) (val : Int) : Option SemSet :=
  if 0 ≤ val ∧ val ≤ SEMVMX then some { set with semval := val } else none

/-- What `semget` makes. -/
def SemSet.new : SemSet := ⟨0, 0, 0⟩

theorem SemSet.semop_eq_done_iff {set after : SemSet} {op : Int} :
    set.semop op = .done after ↔ 0 ≤ set.semval + op ∧ set.semval + op ≤ SEMVMX ∧
      after = { set with semval := set.semval + op } := by
  unfold SemSet.semop
  by_cases hlow : set.semval + op < 0
  · rw [if_pos hlow]
    constructor
    · rintro ⟨⟩
    · rintro ⟨h, -⟩
      omega
  · rw [if_neg hlow]
    by_cases hhigh : set.semval + op ≤ SEMVMX
    · rw [if_pos hhigh]
      constructor
      · rintro ⟨⟩
        exact ⟨by omega, hhigh, rfl⟩
      · rintro ⟨-, -, rfl⟩
        rfl
    · rw [if_neg hhigh]
      constructor
      · rintro ⟨⟩
      · rintro ⟨-, h, -⟩
        exact absurd h hhigh

/-- The largest adjustment that is kept. -/
def SEMAEM : Int := 32767

/-- The set as one process sees it that asks for `SEM_UNDO`: with the adjustment that its
exit would add to the value. -/
structure UndoSet where
  set : SemSet
  semadj : Int
deriving DecidableEq

/-- The adjustment counts against each operation. -/
def adjust (semadj op : Int) : Option Int :=
  if -SEMAEM - 1 ≤ semadj - op ∧ semadj - op ≤ SEMAEM then some (semadj - op) else none

/-- Where nobody else uses the set, the value and the adjustment have a constant sum. -/
def UndoSet.of (total : Int) (set : SemSet) : UndoSet := ⟨set, total - set.semval⟩

/-- Such an adjustment is kept as long as the value has its bounds. -/
theorem adjust_of {total : Int} (htotal : total = 0 ∨ total = 1) {set after : SemSet} {op : Int}
    (hdone : set.semop op = .done after) :
    adjust (UndoSet.of total set).semadj op = some (UndoSet.of total after).semadj := by
  obtain ⟨low, high, rfl⟩ := SemSet.semop_eq_done_iff.mp hdone
  have hsum : total - set.semval - op = total - (set.semval + op) := by omega
  simp only [SEMVMX] at high
  simp only [adjust, UndoSet.of, SEMAEM, hsum]
  exact if_pos ⟨by omega, by omega⟩

end SystemVSemaphore
