import Gipcy.Lib.SystemVSemaphore
import Gipcy.Lib.SystemWait
import Gipcy.Linux.Insys

/-! The calls of the System V library that wait on a semaphore or post one.
`semtimedop` is a parameter: the set, the operation, the wait, and the state of
the kernel, with no result where the wait does not end. -/
namespace Gipcy.SystemV

open SystemVSemaphore SystemWait
open Linux (IpcType IPC_OK IPC_GENERAL_ERROR IPC_INVALID_HANDLE IPC_WAIT_TIMEOUT)

abbrev EINTR : Int := 4
abbrev EAGAIN : Int := 11
abbrev ERANGE : Int := 34

abbrev SEM_UNDO : Int := 0x1000

/-- `struct sembuf`. -/
structure SemBuf where
  semNum : Nat
  semOp : Int
  semFlg : Int
deriving DecidableEq

/-- The fields of `struct ipc_t` that the calls read. -/
structure IpcObject where
  ipcType : IpcType
  ipcSem : Int
  ipcSize : Nat
deriving DecidableEq

/-- 0, or -1 with an `errno`. -/
inductive SysResult where
  | ok
  | error (errno : Int)
deriving DecidableEq

/-- The operations of a lock and of an unlock. -/
def lockOps : SemBuf := ⟨0, -1, SEM_UNDO⟩

def unlockOps : SemBuf := ⟨0, 1, SEM_UNDO⟩

abbrev Semtimedop (σ : Type) := Int → SemBuf → Wait → σ → Option (σ × SysResult)

/-- What a lock makes of the result of a wait with a limit. -/
def timedResult : SysResult → Int
  | .ok => IPC_OK
  | .error errno =>
    if errno = EINTR then IPC_GENERAL_ERROR
    else if errno = EAGAIN then IPC_WAIT_TIMEOUT
    else IPC_GENERAL_ERROR

def plainResult : SysResult → Int
  | .ok => IPC_OK
  | .error _ => IPC_GENERAL_ERROR

theorem timedResult_eq_ok_iff (r : SysResult) : timedResult r = IPC_OK ↔ r = .ok := by
  cases r with
  | ok => exact iff_of_true rfl rfl
  | error errno =>
    refine iff_of_false ?_ nofun
    dsimp only [timedResult]
    split
    · decide
    · split <;> decide

theorem plainResult_eq_ok_iff (r : SysResult) : plainResult r = IPC_OK ↔ r = .ok := by
  cases r with
  | ok => exact iff_of_true rfl rfl
  | error errno => exact iff_of_false (by simp only [plainResult]; decide) nofun

section Calls

variable {σ : Type} (semtimedop : Semtimedop σ)

/-- The text shared by the three lock calls. -/
def lockObject (handle : Option IpcObject) (timeout : Int32) (s : σ) : Option (σ × Int) :=
  match handle with
  | none => some (s, IPC_INVALID_HANDLE)
  | some h =>
    if timeout > 0 then
      let nsec := timeout / 1000
      let ts : Timespec := ⟨nsec.toInt, timeout.toInt⟩
      (semtimedop h.ipcSem lockOps (.relative ts) s).map fun r => (r.1, timedResult r.2)
    else (semtimedop h.ipcSem lockOps .unlimited s).map fun r => (r.1, plainResult r.2)

/-- The text shared by the three unlock calls. -/
def unlockObject (handle : Option IpcObject) (s : σ) : Option (σ × Int) :=
  match handle with
  | none => some (s, IPC_INVALID_HANDLE)
  | some h =>
    (semtimedop h.ipcSem unlockOps .unlimited s).map fun r => (r.1, plainResult r.2)

def ipcLockSemaphore := lockObject semtimedop

def ipcUnlockSemaphore := unlockObject semtimedop

def ipcCaptureMutex := lockObject semtimedop

def ipcReleaseMutex := unlockObject semtimedop

/-- An event that resets itself is raised again after a wait that succeeded. -/
def ipcWaitEvent (handle : Option IpcObject) (timeout : Int32) (s : σ) : Option (σ × Int) :=
  (lockObject semtimedop handle timeout s).bind fun r =>
    match handle with
    | none => some r
    | some h =>
      if r.2 = IPC_OK ∧ h.ipcSize = 0 then
        (semtimedop h.ipcSem unlockOps .unlimited r.1).map fun t => (t.1, IPC_OK)
      else some r

def ipcSetEvent := unlockObject semtimedop

end Calls

/-- The waits that a call asks for, where all its system calls end the same way. -/
def waits (call : Semtimedop (List Wait) → List Wait → Option (List Wait × Int))
    (result : SysResult) : Option (List Wait) :=
  (call (fun _ ops wait log => some (if ops.semOp < 0 then log ++ [wait] else log, result))
    []).map Prod.fst

/-- The wait that the three lock calls ask for. -/
def lockWait (timeout : Int32) : Wait :=
  if timeout > 0 then .relative ⟨(timeout / 1000).toInt, timeout.toInt⟩ else .unlimited

/-- A lock is one `semtimedop`, and it succeeds exactly if that does. -/
theorem exists_semtimedop_of_lockObject {σ : Type} {semtimedop : Semtimedop σ} {h : IpcObject}
    {timeout : Int32} {s : σ} {r : σ × Int}
    (hr : lockObject semtimedop (some h) timeout s = some r) :
    ∃ result, semtimedop h.ipcSem lockOps (lockWait timeout) s = some (r.1, result) ∧
      (r.2 = IPC_OK ↔ result = .ok) := by
  unfold lockObject at hr
  unfold lockWait
  by_cases ht : timeout > 0
  · simp only [ht, if_true, Option.map_eq_some_iff] at hr ⊢
    obtain ⟨⟨t, result⟩, hcall, rfl⟩ := hr
    exact ⟨result, hcall, timedResult_eq_ok_iff result⟩
  · simp only [ht, if_false, Option.map_eq_some_iff] at hr ⊢
    obtain ⟨⟨t, result⟩, hcall, rfl⟩ := hr
    exact ⟨result, hcall, plainResult_eq_ok_iff result⟩

theorem exists_semtimedop_of_unlockObject {σ : Type} {semtimedop : Semtimedop σ}
    {h : IpcObject} {s : σ} {r : σ × Int} (hr : unlockObject semtimedop (some h) s = some r) :
    ∃ result, semtimedop h.ipcSem unlockOps .unlimited s = some (r.1, result) ∧
      (r.2 = IPC_OK ↔ result = .ok) := by
  obtain ⟨⟨t, result⟩, hcall, rfl⟩ := Option.map_eq_some_iff.mp hr
  exact ⟨result, hcall, plainResult_eq_ok_iff result⟩

section Waits

variable (h : IpcObject) (timeout : Int32) (result : SysResult)

theorem waits_lockObject :
    waits (fun semtimedop => lockObject semtimedop (some h) timeout) result =
      some [lockWait timeout] := by
  by_cases ht : timeout > 0 <;> simp [waits, lockObject, lockWait, lockOps, ht]

theorem waits_ipcWaitEvent :
    waits (fun semtimedop => ipcWaitEvent semtimedop (some h) timeout) result =
      some [lockWait timeout] := by
  have hlock := waits_lockObject h timeout result
  simp only [waits, Option.map_eq_some_iff] at hlock ⊢
  obtain ⟨r, hr, hlog⟩ := hlock
  by_cases hpost : r.2 = IPC_OK ∧ h.ipcSize = 0
  · exact ⟨(r.1, IPC_OK), by simp [ipcWaitEvent, unlockOps, hr, hpost], hlog⟩
  · exact ⟨r, by simp [ipcWaitEvent, hr, hpost], hlog⟩

end Waits

section OneSet

/-- `semtimedop` and `semop` on the one set; with an `errno` they fail and leave it
alone. -/
def semtimedop (failed : Option Int) : Semtimedop SemSet := fun _ ops _ set =>
  match failed with
  | some errno => some (set, .error errno)
  | none =>
    match set.semop ops.semOp with
    | .done after => some (after, .ok)
    | .sleeps => none
    | .range => some (set, .error ERANGE)

theorem semtimedop_eq_some {failed : Option Int} {id : Int} {ops : SemBuf}
    {wait : Wait} {set t : SemSet} {result : SysResult}
    (h : semtimedop failed id ops wait set = some (t, result)) :
    result = .ok ∧ set.semop ops.semOp = .done t ∨ result ≠ .ok ∧ t = set := by
  cases failed with
  | some errno =>
    cases h
    exact .inr ⟨nofun, rfl⟩
  | none =>
    simp only [semtimedop] at h
    cases hop : set.semop ops.semOp with
    | done after =>
      rw [hop] at h
      cases h
      exact .inl ⟨rfl, rfl⟩
    | sleeps =>
      rw [hop] at h
      cases h
    | range =>
      rw [hop] at h
      cases h
      exact .inr ⟨nofun, rfl⟩

end OneSet

end Gipcy.SystemV
