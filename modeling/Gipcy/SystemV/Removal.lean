import Gipcy.Lib.Clients
import Gipcy.Lib.SystemVSemaphore
import Gipcy.Lib.Transition
import Gipcy.SystemV.Calls

/-! When a delete of the System V library removes the set. It goes by the value
of the semaphore, and takes 1 for a semaphore that nobody uses. -/
namespace Gipcy.SystemV

open Clients SystemVSemaphore Transition
open Linux (IpcType IPC_OK IPC_GENERAL_ERROR IPC_INVALID_HANDLE)

/-- `is_ok_remove`, from the results of `GETVAL`, `GETNCNT` and `GETZCNT`. -/
def isOkRemove (h : IpcObject) (semval semncnt semzcnt : Int) : Bool :=
  if h.ipcType ≠ .semaphore ∧ h.ipcType ≠ .mutex ∧ h.ipcType ≠ .event then false
  else if semval = -1 then false
  else if semncnt = -1 then false
  else if semzcnt = -1 then false
  else decide (semncnt = 0 ∧ semzcnt = 0 ∧ semval = 1)

/-- What a delete does: `IPC_RMID`, the unlinking of the key file, the answer. -/
structure Deletion where
  rmid : Bool
  unlinked : Bool
  error : Int
deriving DecidableEq

/-- The text shared by the three delete calls; `removed` is the result of
`IPC_RMID`. -/
def deleteObject (type : IpcType) (removed : SysResult) (set : SemSet) :
    Option IpcObject → Deletion
  | none => ⟨false, false, IPC_INVALID_HANDLE⟩
  | some h =>
    if h.ipcType ≠ type then ⟨false, false, IPC_INVALID_HANDLE⟩
    else if isOkRemove h set.semval set.semncnt set.semzcnt then
      if removed = .ok then ⟨true, true, IPC_OK⟩ else ⟨true, false, IPC_GENERAL_ERROR⟩
    else ⟨false, true, IPC_OK⟩

def ipcDeleteSemaphore := deleteObject .semaphore

def ipcDeleteMutex := deleteObject .mutex

def ipcDeleteEvent := deleteObject .event

/-- A client: the units it has locked and not unlocked, and whether it sleeps in
a lock. -/
structure Client where
  held : Nat
  waiting : Bool
deriving DecidableEq

def Client.asleep (x : Client) : Int := if x.waiting then 1 else 0

@[simp] theorem Client.asleep_true (held : Nat) : asleep ⟨held, true⟩ = 1 := rfl

@[simp] theorem Client.asleep_false (held : Nat) : asleep ⟨held, false⟩ = 0 := rfl

theorem Client.asleep_nonneg (x : Client) : 0 ≤ x.asleep := by
  unfold Client.asleep
  split <;> decide

structure Usage (ι : Type*) where
  set : SemSet
  client : ι → Client

/-- What the kernel does for a client: a lock that begins, one that wakes up with
its unit, one that ends by a signal or its time limit, and an unlock. -/
inductive Move where
  | lock
  | wake
  | giveUp
  | unlock
deriving DecidableEq

namespace Usage

variable {ι : Type*}

/-- Nobody holds a unit and nobody waits. -/
def Idle (s : Usage ι) : Prop := ∀ c, (s.client c).held = 0 ∧ (s.client c).waiting = false

/-- A delete executes `IPC_RMID` exactly on an idle semaphore. -/
def RemovedIffIdle (s : Usage ι) : Prop :=
  ∀ (h : IpcObject) (removed : SysResult), h.ipcType = .semaphore →
    ((ipcDeleteSemaphore removed s.set (some h)).rmid = true ↔ s.Idle)

variable [Fintype ι]

/-- The units held by all clients. -/
def held (s : Usage ι) : Int := tally (fun x : Client => (x.held : Int)) s.client

def sleepers (s : Usage ι) : Int := tally Client.asleep s.client

/-- The value and the units held add up to what the semaphore began with. -/
structure Inv (v : Int) (s : Usage ι) : Prop where
  nonneg : 0 ≤ s.set.semval
  units : s.set.semval + s.held = v
  semncnt : (s.set.semncnt : Int) = s.sleepers
  semzcnt : s.set.semzcnt = 0

section State

variable {v : Int} {s : Usage ι} {c : ι}

theorem inv_new (h : SemSet.new.setVal v = some s.set) (fresh : ∀ c, s.client c = ⟨0, false⟩) :
    Inv v s := by
  obtain ⟨⟨hlow, -⟩, hset⟩ := Option.ite_none_right_eq_some.mp h
  have hheld : s.held = 0 := tally_eq_zero fun c => by rw [fresh c]; rfl
  have hsleepers : s.sleepers = 0 := tally_eq_zero fun c => by rw [fresh c]; rfl
  have hset := (Option.some.inj hset).symm
  refine ⟨?_, ?_, ?_, ?_⟩
  · rw [hset]
    exact hlow
  · rw [hset, hheld]
    exact Int.add_zero v
  · rw [hset, hsleepers]
    rfl
  · rw [hset]
    rfl

theorem Inv.one_le_semncnt (h : Inv v s) (hc : (s.client c).waiting = true) :
    1 ≤ s.set.semncnt := by
  have hasleep : (s.client c).asleep = 1 := if_pos hc
  have hle : (s.client c).asleep ≤ s.sleepers :=
    le_tally (fun d => (s.client d).asleep_nonneg) c
  rw [← h.semncnt, hasleep] at hle
  omega

/-- A delete looks for the value 1 and for nobody asleep. -/
theorem rmid_iff (h : Inv v s) (handle : IpcObject) (type : handle.ipcType = .semaphore)
    (removed : SysResult) :
    (ipcDeleteSemaphore removed s.set (some handle)).rmid = true ↔
      s.set.semncnt = 0 ∧ s.set.semval = 1 := by
  have hval := h.nonneg
  have hzero := h.semzcnt
  have hok : isOkRemove handle s.set.semval s.set.semncnt s.set.semzcnt =
      decide (s.set.semncnt = 0 ∧ s.set.semval = 1) := by
    unfold isOkRemove
    rw [if_neg (by simp [type]), if_neg (by omega), if_neg (by omega), if_neg (by omega),
      decide_eq_decide]
    omega
  unfold ipcDeleteSemaphore deleteObject
  simp only [type, ne_eq, not_true_eq_false, if_false, hok, decide_eq_true_eq]
  by_cases hfree : s.set.semncnt = 0 ∧ s.set.semval = 1
  · rw [if_pos hfree]
    by_cases hremoved : removed = .ok <;> simp [hremoved, hfree]
  · rw [if_neg hfree]
    exact iff_of_false nofun hfree

theorem awake_iff (h : Inv v s) : s.set.semncnt = 0 ↔ ∀ c, (s.client c).waiting = false := by
  have hzero : s.sleepers = 0 ↔ ∀ c, (s.client c).asleep = 0 :=
    tally_eq_zero_iff fun c => (s.client c).asleep_nonneg
  rw [← h.semncnt, Int.natCast_eq_zero] at hzero
  rw [hzero]
  refine forall_congr' fun c => ?_
  cases hc : (s.client c).waiting <;> simp [Client.asleep, hc]

theorem idle_iff (h : Inv v s) : s.Idle ↔ s.set.semncnt = 0 ∧ s.held = 0 := by
  have hzero : s.held = 0 ↔ ∀ c, ((s.client c).held : Int) = 0 :=
    tally_eq_zero_iff fun c => Int.natCast_nonneg _
  rw [Idle, forall_and, awake_iff h, hzero, and_comm]
  simp

theorem removedIffIdle_iff (h : Inv v s) :
    RemovedIffIdle s ↔
      ((s.set.semncnt = 0 ∧ s.set.semval = 1) ↔ (s.set.semncnt = 0 ∧ s.held = 0)) := by
  constructor
  · intro hr
    rw [← rmid_iff h ⟨.semaphore, 1, 0⟩ rfl .ok, hr _ _ rfl, idle_iff h]
  · intro hiff handle removed type
    rw [rmid_iff h handle type, hiff, idle_iff h]

end State

variable [DecidableEq ι]

def put (s : Usage ι) (set : SemSet) (c : ι) (x : Client) : Usage ι :=
  ⟨set, Function.update s.client c x⟩

def next (s : Usage ι) : ι × Move → Option (Usage ι)
  | (c, .lock) =>
    if (s.client c).waiting then none
    else
      match s.set.semop lockOps.semOp with
      | .done set => some (s.put set c ⟨(s.client c).held + 1, false⟩)
      | .sleeps =>
        some (s.put { s.set with semncnt := s.set.semncnt + 1 } c ⟨(s.client c).held, true⟩)
      | .range => some s
  | (c, .wake) =>
    if (s.client c).waiting then
      match s.set.semop lockOps.semOp with
      | .done set =>
        some (s.put { set with semncnt := set.semncnt - 1 } c ⟨(s.client c).held + 1, false⟩)
      | _ => none
    else none
  | (c, .giveUp) =>
    if (s.client c).waiting then
      some (s.put { s.set with semncnt := s.set.semncnt - 1 } c ⟨(s.client c).held, false⟩)
    else none
  | (c, .unlock) =>
    if (s.client c).waiting then none
    else
      match s.set.semop unlockOps.semOp with
      | .done set => some (s.put set c ⟨(s.client c).held - 1, false⟩)
      | _ => some s

/-- A client unlocks only what it locked. -/
def Owned (s : Usage ι) (a : ι × Move) : Prop := a.2 = .unlock → 0 < (s.client a.1).held

/-- The runs of a semaphore that was made with the value `v`. -/
def system (v : Int) (ι : Type*) [DecidableEq ι] : System (Usage ι) (ι × Move) :=
  (System.ofNext (fun s => SemSet.new.setVal v = some s.set ∧ ∀ c, s.client c = ⟨0, false⟩)
    next).guard Owned

section Steps

variable {v : Int} {s t : Usage ι} {c : ι}

/-- One client moves, and the set changes with it. -/
theorem Inv.put (h : Inv v s) {set : SemSet} {x : Client} (nonneg : 0 ≤ set.semval)
    (units : set.semval + x.held = s.set.semval + (s.client c).held)
    (semncnt : (set.semncnt : Int) - x.asleep = s.set.semncnt - (s.client c).asleep)
    (semzcnt : set.semzcnt = 0) : Inv v (s.put set c x) := by
  have hheld : (s.put set c x).held = s.held - (s.client c).held + x.held := tally_update _ _ _ _
  have hsleepers : (s.put set c x).sleepers = s.sleepers - (s.client c).asleep + x.asleep :=
    tally_update _ _ _ _
  have hunits := h.units
  have hsemncnt := h.semncnt
  refine ⟨nonneg, ?_, ?_, semzcnt⟩
  · show set.semval + (s.put set c x).held = v
    omega
  · show (set.semncnt : Int) = (s.put set c x).sleepers
    omega

theorem Inv.lock (h : Inv v s) (step : s.next (c, .lock) = some t) : Inv v t := by
  simp only [next] at step
  by_cases hc : (s.client c).waiting
  · rw [if_pos hc] at step
    cases step
  · have hasleep : (s.client c).asleep = 0 := if_neg hc
    rw [if_neg hc] at step
    cases hop : s.set.semop lockOps.semOp with
    | done set =>
      obtain ⟨hlow, -, rfl⟩ := SemSet.semop_eq_done_iff.mp hop
      simp only [hop, Option.some.injEq] at step
      subst step
      refine h.put hlow ?_ ?_ h.semzcnt
      · simp only [lockOps]
        omega
      · rw [hasleep, Client.asleep_false]
    | sleeps =>
      simp only [hop, Option.some.injEq] at step
      subst step
      refine h.put h.nonneg rfl ?_ h.semzcnt
      rw [hasleep, Client.asleep_true]
      push_cast
      omega
    | range =>
      simp only [hop, Option.some.injEq] at step
      exact step ▸ h

theorem Inv.wake (h : Inv v s) (step : s.next (c, .wake) = some t) : Inv v t := by
  simp only [next] at step
  by_cases hc : (s.client c).waiting
  · have hasleep : (s.client c).asleep = 1 := if_pos hc
    have hone := h.one_le_semncnt hc
    rw [if_pos hc] at step
    cases hop : s.set.semop lockOps.semOp with
    | done set =>
      obtain ⟨hlow, -, rfl⟩ := SemSet.semop_eq_done_iff.mp hop
      simp only [hop, Option.some.injEq] at step
      subst step
      refine h.put hlow ?_ ?_ h.semzcnt
      · simp only [lockOps]
        omega
      · rw [hasleep, Client.asleep_false]
        dsimp only
        omega
    | sleeps =>
      simp only [hop] at step
      cases step
    | range =>
      simp only [hop] at step
      cases step
  · rw [if_neg hc] at step
    cases step

theorem Inv.giveUp (h : Inv v s) (step : s.next (c, .giveUp) = some t) : Inv v t := by
  simp only [next] at step
  by_cases hc : (s.client c).waiting
  · have hasleep : (s.client c).asleep = 1 := if_pos hc
    have hone := h.one_le_semncnt hc
    rw [if_pos hc, Option.some.injEq] at step
    subst step
    refine h.put h.nonneg rfl ?_ h.semzcnt
    rw [hasleep, Client.asleep_false]
    dsimp only
    omega
  · rw [if_neg hc] at step
    cases step

theorem Inv.unlock (h : Inv v s) (owned : 0 < (s.client c).held)
    (step : s.next (c, .unlock) = some t) : Inv v t := by
  simp only [next] at step
  by_cases hc : (s.client c).waiting
  · rw [if_pos hc] at step
    cases step
  · have hasleep : (s.client c).asleep = 0 := if_neg hc
    rw [if_neg hc] at step
    cases hop : s.set.semop unlockOps.semOp with
    | done set =>
      obtain ⟨hlow, -, rfl⟩ := SemSet.semop_eq_done_iff.mp hop
      simp only [hop, Option.some.injEq] at step
      subst step
      refine h.put hlow ?_ ?_ h.semzcnt
      · simp only [unlockOps]
        omega
      · rw [hasleep, Client.asleep_false]
    | sleeps =>
      simp only [hop, Option.some.injEq] at step
      exact step ▸ h
    | range =>
      simp only [hop, Option.some.injEq] at step
      exact step ▸ h

theorem inv_reachable (h : (system v ι).Reachable s) : Inv v s := by
  apply h.invariant (I := Inv v)
  · rintro s ⟨hset, fresh⟩
    exact inv_new hset fresh
  · rintro s ⟨c, move⟩ t - inv ⟨owned, step⟩
    cases move with
    | lock => exact inv.lock step
    | wake => exact inv.wake step
    | giveUp => exact inv.giveUp step
    | unlock => exact inv.unlock (owned rfl) step

/-- At every moment of a run. -/
theorem removedIffIdle_reachable_iff (h : (system v ι).Reachable s) : RemovedIffIdle s ↔
    (∃ c, (s.client c).waiting = true) ∨ v = 1 ∨ s.held ≠ 0 ∧ s.held ≠ v - 1 := by
  have inv := inv_reachable h
  have hunits := inv.units
  have hwaits : (∃ c, (s.client c).waiting = true) ↔ s.set.semncnt ≠ 0 := by
    rw [ne_eq, awake_iff inv]
    simp
  rw [removedIffIdle_iff inv, hwaits]
  omega

omit [Fintype ι] in
/-- The semaphore before anybody calls. -/
theorem reachable_unused {made : SemSet} (hmade : SemSet.new.setVal v = some made) :
    (system v ι).Reachable ⟨made, fun _ => ⟨0, false⟩⟩ := .init ⟨hmade, fun _ => rfl⟩

theorem removedIffIdle_unused {made : SemSet} (hmade : SemSet.new.setVal v = some made)
    (h : RemovedIffIdle (⟨made, fun _ => ⟨0, false⟩⟩ : Usage ι)) : v = 1 := by
  have hheld : (⟨made, fun _ => ⟨0, false⟩⟩ : Usage ι).held = 0 := tally_eq_zero fun _ => rfl
  rcases (removedIffIdle_reachable_iff (reachable_unused hmade)).mp h with ⟨c, hc⟩ | hv | hsome
  · cases hc
  · exact hv
  · exact absurd hheld hsome.1

end Steps

section Claims

/-- At every moment of a run a delete goes right if somebody waits, or the value
began as 1, or some but not all but one of the units are held. In particular it
goes right in every run only for semaphores that begin with 1. -/
theorem removed_iff_idle_iff {ι : Type*} [DecidableEq ι] [Fintype ι] (v : Int)
    {made : SemSet} (hmade : SemSet.new.setVal v = some made) :
    ((∀ s, (system v ι).Reachable s → RemovedIffIdle s) ↔ v = 1) ∧
    ∀ s, (system v ι).Reachable s →
      (RemovedIffIdle s ↔
        (∃ c, (s.client c).waiting = true) ∨ v = 1 ∨ s.held ≠ 0 ∧ s.held ≠ v - 1) := by
  refine ⟨⟨fun h => ?_, fun hv s hs => ?_⟩, fun s hs => removedIffIdle_reachable_iff hs⟩
  · exact removedIffIdle_unused hmade (h _ (reachable_unused hmade))
  · exact (removedIffIdle_reachable_iff hs).mpr (.inr (.inl hv))

/-- A semaphore with the value 1 that nobody uses. -/
theorem removed_iff_idle_one : RemovedIffIdle (⟨⟨1, 0, 0⟩, fun _ => ⟨0, false⟩⟩ : Usage Bool) :=
  (removed_iff_idle_iff 1 (show SemSet.new.setVal 1 = some ⟨1, 0, 0⟩ from rfl)).1.mpr rfl _
    (reachable_unused rfl)

/-- A semaphore that begins with 2 is not removed, though nobody uses it. -/
theorem not_removed_iff_idle : ¬ ∀ v, 0 ≤ v → ∀ s, (system v Bool).Reachable s →
    RemovedIffIdle s := by
  intro h
  have hmade : SemSet.new.setVal 2 = some ⟨2, 0, 0⟩ := rfl
  have hv : (2 : Int) = 1 := removedIffIdle_unused (ι := Bool) hmade
    (h 2 (by decide) _ (reachable_unused hmade))
  exact absurd hv (by decide)

end Claims

end Usage

end Gipcy.SystemV
