import Gipcy.Lib.PosixSemaphore
import Gipcy.Lib.SystemWait
import Gipcy.Linux.Insys

/-! The calls of the POSIX library that wait on a semaphore or post one.
`sem_wait` and `sem_timedwait` are one parameter, `sem_post` another; a wait that
does not end has no result. -/
namespace Gipcy.Posix

open SystemWait
open Linux (IpcType IPC_OK IPC_GENERAL_ERROR IPC_INVALID_HANDLE IPC_WAIT_TIMEOUT ETIMEDOUT)

/-- 0, or -1 with an `errno`. -/
inductive SysResult where
  | ok
  | error (errno : Int)
deriving DecidableEq

/-- The fields of `struct ipc_t` that the calls read; `Sem` is the type of the
semaphores that `sem_open` gives out. -/
structure IpcObject (Sem : Type) where
  ipcType : IpcType
  ipcSem : Sem

def lockResult : SysResult → Int
  | .ok => IPC_OK
  | .error errno => if errno = ETIMEDOUT then IPC_WAIT_TIMEOUT else IPC_GENERAL_ERROR

theorem lockResult_eq_ok_iff (r : SysResult) : lockResult r = IPC_OK ↔ r = .ok := by
  cases r with
  | ok => exact iff_of_true rfl rfl
  | error errno =>
    refine iff_of_false ?_ nofun
    dsimp only [lockResult]
    split <;> decide

section Calls

variable {σ Sem : Type}

/-- The text shared by the three lock calls. -/
def lockObject (semWait : Sem → Wait → σ → Option (σ × SysResult))
    (handle : Option (IpcObject Sem)) (timeout : Int32) (s : σ) : Option (σ × Int) :=
  match handle with
  | none => some (s, IPC_INVALID_HANDLE)
  | some h =>
    let wait : Wait :=
      if timeout > 0 then .absolute ⟨0, (timeout * 10000).toInt⟩ else .unlimited
    (semWait h.ipcSem wait s).map fun r => (r.1, lockResult r.2)

/-- The text shared by the three unlock calls. -/
def unlockObject (semPost : Sem → σ → σ × SysResult) (handle : Option (IpcObject Sem)) (s : σ) :
    σ × Int :=
  match handle with
  | none => (s, IPC_INVALID_HANDLE)
  | some h =>
    let r := semPost h.ipcSem s
    (r.1, if r.2 = .ok then IPC_OK else IPC_GENERAL_ERROR)

def ipcLockSemaphore := @lockObject σ Sem

def ipcUnlockSemaphore := @unlockObject σ Sem

def ipcCaptureMutex := @lockObject σ Sem

def ipcReleaseMutex := @unlockObject σ Sem

def ipcWaitEvent := @lockObject σ Sem

def ipcSetEvent := @unlockObject σ Sem

end Calls

/-- The waits that a call asks for, where all of them end the same way. -/
def waits {Sem : Type}
    (call : (Sem → Wait → List Wait → Option (List Wait × SysResult)) → List Wait →
      Option (List Wait × Int)) (result : SysResult) : Option (List Wait) :=
  (call (fun _ wait log => some (log ++ [wait], result)) []).map Prod.fst

/-- The wait that the three lock calls ask for. -/
def lockWait (timeout : Int32) : Wait :=
  if timeout > 0 then .absolute ⟨0, (timeout * 10000).toInt⟩ else .unlimited

theorem waits_lockObject {Sem : Type} (h : IpcObject Sem) (timeout : Int32)
    (result : SysResult) :
    waits (fun semWait => lockObject semWait (some h) timeout) result =
      some [lockWait timeout] := rfl

/-- A lock is one wait, and it succeeds exactly if that does. -/
theorem exists_semWait_of_lockObject {σ Sem : Type}
    {semWait : Sem → Wait → σ → Option (σ × SysResult)} {h : IpcObject Sem} {timeout : Int32}
    {s : σ} {r : σ × Int} (hr : lockObject semWait (some h) timeout s = some r) :
    ∃ result, semWait h.ipcSem (lockWait timeout) s = some (r.1, result) ∧
      (r.2 = IPC_OK ↔ result = .ok) := by
  obtain ⟨⟨t, result⟩, hcall, rfl⟩ := Option.map_eq_some_iff.mp hr
  exact ⟨result, hcall, lockResult_eq_ok_iff result⟩

section OneSemaphore

open PosixSemaphore

/-- `sem_wait` and `sem_timedwait` on the one semaphore; with an `errno` they fail
and leave it alone. -/
def semWaitCall (failed : Option Int) (_ : Unit) (_ : SystemWait.Wait) (sem : Sem) :
    Option (Sem × SysResult) :=
  match failed with
  | some errno => some (sem, .error errno)
  | none =>
    match semWait sem with
    | .took after => some (after, .ok)
    | .blocks | .invalid => none

/-- `sem_post`, which can fail as well. -/
def semPostCall (lim : Limits) (failed : Option Int) (_ : Unit) (sem : Sem) : Sem × SysResult :=
  match failed with
  | some errno => (sem, .error errno)
  | none => (semPost lim sem, .ok)

/-- A wait takes a unit, or it fails and leaves the semaphore alone. -/
theorem semWaitCall_cases {failed : Option Int} {sem after : Sem} {wait : SystemWait.Wait}
    {result : SysResult}
    (hcall : semWaitCall failed () wait sem = some (after, result)) :
    failed = none ∧ result = .ok ∧ (∃ n, sem = some (n + 1) ∧ after = some n) ∨
      failed ≠ none ∧ result ≠ .ok ∧ after = sem := by
  cases failed with
  | some errno =>
    cases hcall
    exact .inr ⟨nofun, nofun, rfl⟩
  | none =>
    unfold semWaitCall at hcall
    match sem, hcall with
    | some (n + 1), hcall =>
      cases hcall
      exact .inl ⟨rfl, rfl, n, rfl, rfl⟩

theorem unlockObject_semPostCall (lim : Limits) (failed : Option Int) (h : IpcObject Unit)
    (n : Nat) : ∃ m, n ≤ m ∧ m ≤ n + 1 ∧
      (unlockObject (semPostCall lim failed) (some h) (some n)).1 = some m := by
  cases failed with
  | some errno => exact ⟨n, le_refl n, Nat.le_succ n, rfl⟩
  | none =>
    refine ⟨if n < lim.semValueMax then n + 1 else n, ?_, ?_, rfl⟩ <;> split <;> omega

end OneSemaphore

end Gipcy.Posix
