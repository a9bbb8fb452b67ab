import Gipcy.Ports.SemaphoreCalls
import Gipcy.Windows.Objects

/-! The semaphore calls of the Windows library against the initial value. Its semaphores
have the maximum 1, an unlock beyond it is lost, and a create with a greater value returns
a handle of nothing. -/
namespace Gipcy.Ports

open Budget
open Linux (Primitive IPC_OK IPC_GENERAL_ERROR)
open Windows (Objects IpcObject KernelObject)

variable {ν τ : Type*} [DecidableEq ν] [DecidableEq τ]

/-- Calls of one thread on one handle, with the answers of the locks. A lock has the
timeout 0. -/
inductive WindowsRun (t : τ) (h : IpcObject ν) :
    Objects ν τ → List SemCall → List Int → Prop where
  | nil (s) : WindowsRun t h s [] []
  | unlock {s r calls answers} : s.call t (.release .semaphore h) = some r →
      WindowsRun t h r.1 calls answers → WindowsRun t h s (.unlock :: calls) answers
  | lock {s taken r calls answers} : s.call t (.wait .semaphore h taken) = some r →
      WindowsRun t h r.1 calls answers → WindowsRun t h s (.lock :: calls) (r.2 :: answers)

/-- The answers of a semaphore with `n` units and room for one. -/
def windowsAnswers : Nat → List SemCall → List Int
  | _, [] => []
  | _, .unlock :: calls => windowsAnswers 1 calls
  | n + 1, .lock :: calls => IPC_OK :: windowsAnswers n calls
  | 0, .lock :: calls => IPC_GENERAL_ERROR :: windowsAnswers 0 calls

/-- The units and the unlocks that were lost, after a call. -/
def windowsStep : Nat × Nat → SemCall → Nat × Nat
  | (0, lost), .unlock => (1, lost)
  | (n + 1, lost), .unlock => (n + 1, lost + 1)
  | (n, lost), .lock => (n - 1, lost)

/-- No lock finds the semaphore empty after an unlock was lost. -/
def NotMissed (start : Nat × Nat) (calls : List SemCall) : Prop :=
  ∀ first, first ++ [.lock] <+: calls →
    (first.foldl windowsStep start).1 = 0 → (first.foldl windowsStep start).2 = 0

section Calls

variable {s : Objects ν τ} {t : τ} {h : IpcObject ν} {id n : Nat}

/-- The handle is that of a semaphore with `n` units. -/
structure Counts (s : Objects ν τ) (h : IpcObject ν) (id n : Nat) : Prop where
  live : h ∈ s.live
  descr : h.ipcDescr = some id
  object : s.objects id = some (.semaphore n)
  room : n ≤ 1

omit [DecidableEq ν] [DecidableEq τ] in
theorem Counts.object_eq (c : Counts s h id n) : s.object h = some (.semaphore n) := by
  simp [Objects.object, c.descr, c.object]

theorem Counts.unlock (t : τ) (c : Counts s h id n) :
    ∃ r, s.call t (.release .semaphore h) = some r ∧ Counts r.1 h id 1 := by
  have hobject := c.object_eq
  simp only [Objects.call, c.live, c.descr, hobject, if_true]
  cases n with
  | zero =>
    refine ⟨_, rfl, c.live, c.descr, ?_, Nat.le_refl 1⟩
    simp [Objects.count, Objects.set]
  | succ n =>
    obtain rfl : n = 0 := by have := c.room; omega
    exact ⟨_, rfl, c⟩

/-- A lock ends by the time limit exactly when there is no unit. -/
theorem Counts.call_lock (t : τ) (c : Counts s h id n) (taken : Bool) :
    (s.call t (.wait .semaphore h taken)).isSome = (taken != decide (n = 0)) ∧
    ∀ r, s.call t (.wait .semaphore h taken) = some r →
      r.2 = (if n = 0 then IPC_GENERAL_ERROR else IPC_OK) ∧ Counts r.1 h id (n - 1) := by
  have hobject := c.object_eq
  simp only [Objects.call, c.live, c.descr, hobject, if_true]
  cases n with
  | zero =>
    cases taken with
    | true =>
      refine ⟨rfl, fun r h => ?_⟩
      cases h
    | false =>
      refine ⟨rfl, ?_⟩
      rintro r ⟨⟩
      exact ⟨rfl, c⟩
  | succ n =>
    cases taken with
    | true =>
      refine ⟨rfl, ?_⟩
      rintro r ⟨⟩
      have hroom := c.room
      refine ⟨rfl, c.live, c.descr, ?_, by omega⟩
      simp [Objects.count, Objects.set]
    | false =>
      refine ⟨rfl, fun r h => ?_⟩
      cases h

theorem windowsRun_iff (c : Counts s h id n) (calls : List SemCall) (answers : List Int) :
    WindowsRun t h s calls answers ↔ answers = windowsAnswers n calls := by
  induction calls generalizing s n answers with
  | nil =>
    constructor
    · rintro ⟨⟩
      rfl
    · rintro rfl
      exact .nil s
  | cons call calls ih =>
    cases call with
    | unlock =>
      obtain ⟨r, hr, hcounts⟩ := c.unlock t
      constructor
      · rintro (_ | ⟨hr', rest⟩)
        cases hr.symm.trans hr'
        exact (ih hcounts answers).mp rest
      · exact fun he => .unlock hr ((ih hcounts answers).mpr he)
    | lock =>
      constructor
      · intro hrun
        cases hrun with
        | @lock _ taken r _ answers hr rest =>
          obtain ⟨hanswer, hcounts⟩ := (c.call_lock t taken).2 r hr
          rw [(ih hcounts _).mp rest, hanswer]
          cases n <;> rfl
      · rintro rfl
        have hends := (c.call_lock t !decide (n = 0)).1
        have hsome := hends.trans (by cases decide (n = 0) <;> rfl)
        obtain ⟨r, hr⟩ := Option.isSome_iff_exists.mp hsome
        obtain ⟨hanswer, hcounts⟩ := (c.call_lock t _).2 r hr
        have rest := WindowsRun.lock hr ((ih hcounts _).mpr rfl)
        rw [hanswer] at rest
        cases n <;> exact rest

/-- A handle of nothing never refuses. -/
theorem windowsRun_null_iff (live : h ∈ s.live) (null : h.ipcDescr = none) (calls : List SemCall)
    (answers : List Int) : WindowsRun t h s calls answers ↔ answers = qnxAnswers calls := by
  have hunlock : s.call t (.release .semaphore h) = some (s, IPC_OK) := by
    simp [Objects.call, live, null, Windows.releaseAnswer, Windows.ipcUnlockSemaphore]
  have hlock : ∀ taken, s.call t (.wait .semaphore h taken) =
      if taken then none else some (s, IPC_OK) := by
    intro taken
    simp [Objects.call, live, null, Windows.waitAnswer, Windows.ipcLockSemaphore]
  induction calls generalizing answers with
  | nil =>
    constructor
    · rintro ⟨⟩
      rfl
    · rintro rfl
      exact .nil s
  | cons call calls ih =>
    cases call with
    | unlock =>
      constructor
      · rintro (_ | ⟨hr, rest⟩)
        cases hunlock.symm.trans hr
        exact (ih answers).mp rest
      · exact fun he => .unlock hunlock ((ih answers).mpr he)
    | lock =>
      constructor
      · intro hrun
        cases hrun with
        | @lock _ taken r _ answers hr rest =>
          rw [hlock] at hr
          split at hr <;> cases hr
          rw [(ih _).mp rest]
          rfl
      · rintro rfl
        exact .lock (hlock false) ((ih _).mpr rfl)

end Calls

theorem notMissed_cons {start : Nat × Nat} {call : SemCall} {calls : List SemCall} :
    NotMissed start (call :: calls) ↔
      (call = .lock → start.1 = 0 → start.2 = 0) ∧ NotMissed (windowsStep start call) calls := by
  constructor
  · intro h
    refine ⟨?_, fun first hfirst => ?_⟩
    · rintro rfl
      exact h [] ⟨calls, rfl⟩
    · exact h (call :: first) ((List.prefix_cons_inj call).mpr hfirst)
  · rintro ⟨hcall, h⟩ first hfirst
    cases first with
    | nil =>
      obtain ⟨rfl, -⟩ := List.cons_prefix_cons.mp hfirst
      exact hcall rfl
    | cons call' first =>
      obtain ⟨hcall', hrest⟩ := List.cons_prefix_cons.mp hfirst
      subst hcall'
      exact h first hrest

/-- The answers honour the units that there are and those that were lost as long as
nobody misses the lost ones. -/
theorem honours_windowsAnswers (n lost : Nat) (hn : n ≤ 1) (calls : List SemCall) :
    Honours (n + lost) calls (windowsAnswers n calls) ↔ NotMissed (n, lost) calls := by
  induction calls generalizing n lost with
  | nil =>
    refine iff_of_true rfl fun first hfirst => ?_
    simp at hfirst
  | cons call calls ih =>
    rw [notMissed_cons]
    cases call with
    | unlock =>
      simp only [reduceCtorEq, false_implies, true_and, Honours, windowsAnswers]
      cases n with
      | zero =>
        have hstep := ih 1 lost (Nat.le_refl 1)
        have hb : ((0 : Nat) : Int) + lost + 1 = ((1 : Nat) : Int) + lost := by omega
        rw [hb]
        exact hstep
      | succ n =>
        obtain rfl : n = 0 := by omega
        have hstep := ih 1 (lost + 1) (Nat.le_refl 1)
        have hb : ((0 + 1 : Nat) : Int) + lost + 1 =
            ((1 : Nat) : Int) + ((lost + 1 : Nat) : Int) := by
          omega
        rw [hb]
        exact hstep
    | lock =>
      cases n with
      | zero =>
        have hrefused : IPC_GENERAL_ERROR ≠ IPC_OK := by decide
        have hstep := ih 0 lost (Nat.zero_le 1)
        simp only [Honours, windowsAnswers, windowsStep, hrefused, if_false, false_iff,
          forall_const, hstep]
        have hlost : ¬ 0 < ((0 : Nat) : Int) + lost ↔ lost = 0 := by omega
        rw [hlost]
      | succ n =>
        have hstep := ih n lost (by omega)
        have hb : ((n + 1 : Nat) : Int) + lost - 1 = n + lost := by omega
        have hpos : 0 < ((n + 1 : Nat) : Int) + lost := by omega
        simp only [Honours, windowsAnswers, windowsStep, if_true, hb, hstep, hpos, true_and,
          Nat.succ_ne_zero, false_implies, forall_const]
        rfl

section Claims

/-- The value given to a new semaphore is honoured on Windows, for the values 0 and 1, if
no lock finds it empty after an unlock beyond 1 was lost, and for greater values only if
nobody asks for more than there is. -/
theorem windows_value_iff {s : Objects ν τ} (t : τ) {name : ν} (new : s.names name = none)
    (value : Int) (hvalue : 0 ≤ value) (calls : List SemCall) :
    ∃ s' h, s.call t (.create .semaphore name 0 value (decide (value ≤ 1))) = some (s', IPC_OK) ∧
      s'.live = h :: s.live ∧
      (∃ answers, WindowsRun t h s' calls answers) ∧
      ((∀ answers, WindowsRun t h s' calls answers → Honours value calls answers) ↔
        if value ≤ 1 then NotMissed (value.toNat, 0) calls
        else Solvent SemCall.weight value calls) := by
  by_cases hone : value ≤ 1
  · have hmade : s.call t (.create .semaphore name 0 value (decide (value ≤ 1))) =
        some ((s.insert name t (.semaphore value.toNat)).ret ⟨name, .semaphore, some s.made⟩,
          IPC_OK) := by
      simp [Objects.call, Objects.create, new, KernelObject.initial, hvalue, hone]
    refine ⟨_, _, hmade, rfl, ?_⟩
    have hcounts : Counts ((s.insert name t (.semaphore value.toNat)).ret
        ⟨name, .semaphore, some s.made⟩) ⟨name, .semaphore, some s.made⟩ s.made value.toNat := by
      refine ⟨List.mem_cons_self, rfl, ?_, by omega⟩
      simp [Objects.ret, Objects.insert]
    simp only [windowsRun_iff hcounts, forall_eq, if_pos hone]
    have hhonours := honours_windowsAnswers value.toNat 0 (by omega) calls
    have hb : ((value.toNat : Nat) : Int) + ((0 : Nat) : Int) = value := by omega
    rw [hb] at hhonours
    exact ⟨⟨_, rfl⟩, hhonours⟩
  · have hmade : s.call t (.create .semaphore name 0 value (decide (value ≤ 1))) =
        some (s.ret ⟨name, .semaphore, none⟩, IPC_OK) := by
      simp [Objects.call, Objects.create, hone, Objects.createFailed]
    refine ⟨_, _, hmade, rfl, ?_⟩
    have hrun := windowsRun_null_iff (s := s.ret ⟨name, .semaphore, none⟩) (t := t)
      (h := ⟨name, .semaphore, none⟩) List.mem_cons_self rfl calls
    simp only [hrun, forall_eq, if_neg hone]
    exact ⟨⟨_, rfl⟩, honours_qnxAnswers value calls hvalue⟩

/-- A semaphore with one unit, taken, given back and taken again. -/
theorem windows_value_one : ∃ (s' : Objects Unit Unit) (h : IpcObject Unit),
    ∀ answers, WindowsRun () h s' [.lock, .unlock, .lock] answers →
      Honours 1 [.lock, .unlock, .lock] answers := by
  obtain ⟨s', h, -, -, -, hiff⟩ := @windows_value_iff Unit Unit _ _
    ⟨fun _ => none, fun _ => none, 0, [], fun _ _ => 0⟩ () () rfl 1 (by decide)
    [.lock, .unlock, .lock]
  refine ⟨s', h, hiff.mpr ?_⟩
  simp only [Int.le_refl, if_true, notMissed_cons]
  refine ⟨fun _ h => absurd h (by decide), nofun, fun _ h => absurd h (by decide), ?_⟩
  exact fun first hfirst => absurd (List.prefix_nil.mp hfirst) (by simp)

end Claims

end Gipcy.Ports
