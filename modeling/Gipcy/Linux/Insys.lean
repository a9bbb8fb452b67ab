import Gipcy.Linux.Ioctl

/-! The acquire and delete calls of the insys library, over the ioctl handlers. -/
namespace Gipcy.Linux

open CountingSemaphore Transition

/-- The constants of `ipcerr.h` as the `int` that the calls return. -/
def IPC_OK : Int := 0

def IPC_GENERAL_ERROR : Int := (0xC0000100 : UInt32).toInt32.toInt

def IPC_INVALID_HANDLE : Int := (0xC0000101 : UInt32).toInt32.toInt

def IPC_WAIT_TIMEOUT : Int := (0xC0000102 : UInt32).toInt32.toInt

theorem waitTimeout_ne_ok : IPC_WAIT_TIMEOUT ≠ IPC_OK := by decide

/-- The system call: the result of `ioctl` and `errno`. -/
def sysIoctl (error : Int) : Int × Int := if error < 0 then (-1, -error) else (error, 0)

theorem sysIoctl_neg {error : Int} (h : error < 0) : sysIoctl error = (-1, -error) := if_pos h

theorem sysIoctl_zero : sysIoctl 0 = (0, 0) := rfl

/-- `ipc_driver_handle`, with the value of `ipc_driver_fd`. -/
def ipcDriverHandle (ipcDriverFd : Int) : Int := if ipcDriverFd > 0 then ipcDriverFd else -1

def ipcLockSemaphore (ipcDriverFd : Int) (enter wake : Driver) (handle : Ptr) (timeout : Int32)
    (how : WaitEnd) : Option Outcome :=
  if ipcDriverHandle ipcDriverFd < 0 then some (.same enter (-1))
  else
    (ioctlSemLock enter wake ⟨handle, timeout, 0⟩ true how).map fun r =>
      let res := (sysIoctl r.error).1
      { r with error := if res < 0 then res else IPC_OK }

def ipcCaptureMutex (ipcDriverFd : Int) (gettid : Int32) (enter wake : Driver) (handle : Ptr)
    (timeout : Int32) (how : WaitEnd) : Option Outcome :=
  if ipcDriverHandle ipcDriverFd < 0 then some (.same enter (-1))
  else
    (ioctlMutexLock enter wake ⟨handle, timeout, gettid⟩ true how).map fun r =>
      let res := (sysIoctl r.error).1
      { r with error := if res < 0 then IPC_WAIT_TIMEOUT else IPC_OK }

def ipcWaitEvent (ipcDriverFd : Int) (enter wake : Driver) (handle : Ptr) (timeout : Int32)
    (how : WaitEnd) : Option Outcome :=
  if ipcDriverHandle ipcDriverFd < 0 then some (.same enter (-1))
  else
    (ioctlEventLock enter wake ⟨handle, timeout, 0⟩ true how).map fun r =>
      let res := sysIoctl r.error
      -- Any other `errno` falls through to the success.
      { r with error := if res.1 < 0 ∧ res.2 = ETIMEDOUT then IPC_WAIT_TIMEOUT else IPC_OK }

def ipcDeleteSemaphore (ipcDriverFd : Int) (drv : Driver) (handle : Ptr) : Driver × Int :=
  if ipcDriverHandle ipcDriverFd < 0 then (drv, -1)
  else
    let closed := ioctlSemClose drv ⟨handle⟩ true
    (closed.1, if (sysIoctl closed.2).1 < 0 then -1 else IPC_OK)

def ipcDeleteMutex (ipcDriverFd : Int) (drv : Driver) (handle : Ptr) : Driver × Int :=
  if ipcDriverHandle ipcDriverFd < 0 then (drv, -1)
  else
    let closed := ioctlMutexClose drv ⟨handle⟩ true
    (closed.1, if (sysIoctl closed.2).1 < 0 then -1 else IPC_OK)

def ipcDeleteEvent (ipcDriverFd : Int) (drv : Driver) (handle : Ptr) : Driver × Int :=
  if ipcDriverHandle ipcDriverFd < 0 then (drv, -1)
  else
    let closed := ioctlEventClose drv ⟨handle⟩ true
    (closed.1, if (sysIoctl closed.2).1 < 0 then -1 else IPC_OK)

inductive IpcType where
  | semaphore
  | sharedMem
  | mutex
  | event
  | thread
  | library
  | file
  | device
  | dir
  | socket
deriving DecidableEq

/-- The objects that are a semaphore in the other two libraries. -/
inductive Primitive where
  | semaphore
  | mutex
  | event
deriving DecidableEq

def Primitive.ipcType : Primitive → IpcType
  | .semaphore => .semaphore
  | .mutex => .mutex
  | .event => .event

/-- The fields of `struct ipc_t` that a delete reads. -/
structure IpcObject where
  ipcType : IpcType
  ipcUser : Ptr
  ipcData : Ptr
  ipcSize : Int32

def sharedMemoryClose (ipcDriverFd : Int) (drv : Driver) (handle : Ptr) : Driver × Int :=
  if ipcDriverHandle ipcDriverFd < 0 then (drv, -EINVAL)
  else
    let closed := ioctlShmClose drv ⟨handle⟩ true
    (closed.1, (sysIoctl closed.2).1)

/-- `IPC_unmapSharedMemory` on a mapped object, `munmap` not failing. -/
def ipcUnmapSharedMemory (h : IpcObject) : IpcObject := { h with ipcData := 0, ipcSize := 0 }

/-- `IPC_deleteSharedMemory`, `shm_unlink` not failing. The object comes back as
the unmapping leaves it. -/
def ipcDeleteSharedMemory (ipcDriverFd : Int) (drv : Driver) :
    Option IpcObject → Driver × Option IpcObject × Int
  | none => (drv, none, -1)
  | some h =>
    if h.ipcType ≠ .sharedMem then (drv, some h, IPC_INVALID_HANDLE)
    else
      let h := if h.ipcData ≠ 0 then ipcUnmapSharedMemory h else h
      let closed := sharedMemoryClose ipcDriverFd drv h.ipcUser
      if closed.2 < 0 then
        if closed.2 = -EBUSY then (closed.1, some h, IPC_OK)
        else (closed.1, some h, IPC_GENERAL_ERROR)
      else (closed.1, some h, IPC_OK)

/-- The delete call of each kind, on the handle that the driver gave out. For
shared memory it is a field of the library's own object. -/
def ipcDelete (ipcDriverFd : Int) (drv : Driver) (handle : Ptr) (ipcData : Ptr)
    (ipcSize : Int32) : Kind → Driver × Int
  | .sem => ipcDeleteSemaphore ipcDriverFd drv handle
  | .mutex => ipcDeleteMutex ipcDriverFd drv handle
  | .event => ipcDeleteEvent ipcDriverFd drv handle
  | .shm =>
    let deleted := ipcDeleteSharedMemory ipcDriverFd drv
      (some ⟨.sharedMem, handle, ipcData, ipcSize⟩)
    (deleted.1, deleted.2.2)

/-! Acquire calls. -/

/-- Success is reported exactly for a unit taken, or for an owner that asked
again, and anything else leaves the entry alone. -/
def AcquireReported (p : Ptr) (owner : Prop) (r : Outcome) : Prop :=
  (r.error = IPC_OK ↔ (TookUnit p r ∨ owner)) ∧ (r.error ≠ IPC_OK → Untouched p r)

/-- The calling thread owns the mutex. -/
def Owns (drv : Driver) (handle : Ptr) (tid : Int32) : Prop :=
  handleExists .mutex drv handle = true ∧ (drv.mem (containerOf handle)).lockerid = tid

section Acquire

variable {p : Ptr} {owner : Prop} {r : Outcome}

variable {error : Int}

theorem acquireReported_took (h : error = IPC_OK) (ht : TookUnit p r) :
    AcquireReported p owner { r with error := error } :=
  ⟨iff_of_true h (.inl ht), fun hne => absurd h hne⟩

theorem acquireReported_owner (h : error = IPC_OK) (ho : owner) :
    AcquireReported p owner { r with error := error } :=
  ⟨iff_of_true h (.inr ho), fun hne => absurd h hne⟩

theorem acquireReported_failed (h : error ≠ IPC_OK) (hu : Untouched p r) (ho : ¬ owner) :
    AcquireReported p owner { r with error := error } :=
  ⟨iff_of_false h fun ht => ht.elim (Untouched.not_took hu) ho, fun _ => hu⟩

theorem not_acquireReported (h : error = IPC_OK) (ht : ¬ TookUnit p r) (ho : ¬ owner) :
    ¬ AcquireReported p owner { r with error := error } :=
  fun hr => (hr.1.mp h).elim ht ho

end Acquire

section AcquireCalls

variable {fd : Int} {tid : Int32} {enter wake : Driver} {handle : Ptr} {timeout : Int32}
  {how : WaitEnd} {r : Outcome}

theorem ipcDriverHandle_neg_iff : ipcDriverHandle fd < 0 ↔ ¬ 0 < fd := by
  unfold ipcDriverHandle
  split <;> omega

/-- A call on a driver that is not open. -/
theorem same_reported {owner : Prop} {p : Ptr} (h : r = .same enter (-1)) :
    AcquireReported p owner r ↔ ¬ owner := by
  subst h
  have hne : (-1 : Int) ≠ IPC_OK := by decide
  constructor
  · intro hr ho
    exact hne (hr.1.mpr (.inr ho))
  · exact acquireReported_failed hne (untouched_same enter (-1))

theorem lockSemaphore_reported (h : ipcLockSemaphore fd enter wake handle timeout how = some r) :
    AcquireReported (containerOf handle) False r := by
  unfold ipcLockSemaphore at h
  split at h
  · exact (same_reported (Option.some.inj h).symm).mpr not_false
  · obtain ⟨q, hq, rfl⟩ := Option.map_eq_some_iff.mp h
    rcases ipcSemLock_cases hq with ⟨herr, hu⟩ | ⟨herr, ht⟩
    · refine acquireReported_failed ?_ hu not_false
      simp [sysIoctl_neg herr, IPC_OK]
    · refine acquireReported_took ?_ ht
      rw [herr, sysIoctl_zero]
      rfl

theorem captureMutex_reported
    (h : ipcCaptureMutex fd tid enter wake handle timeout how = some r) :
    AcquireReported (containerOf handle) (Owns enter handle tid) r ↔
      if 0 < fd then
        ¬ (handleExists .mutex enter handle = true ∧
          (enter.mem (containerOf handle)).lockerid ≠ tid ∧ timeout < 0 ∧ how = .interrupted)
      else ¬ Owns enter handle tid := by
  unfold ipcCaptureMutex at h
  by_cases hfd : 0 < fd
  · rw [if_neg (ipcDriverHandle_neg_iff.not.mpr (not_not.mpr hfd))] at h
    rw [if_pos hfd]
    obtain ⟨q, hq, rfl⟩ := Option.map_eq_some_iff.mp h
    rcases ipcMutexLock_cases hq with ⟨hh, rfl⟩ | ⟨hh, hl, rfl⟩ |
      ⟨hh, hl, ht, herr, hbroken, htook⟩ |
      ⟨hh, hl, ht, hend⟩
    · refine iff_of_true (acquireReported_failed ?_ (untouched_same _ _) fun ho => ?_) fun hc => ?_
      · rw [Outcome.same_error, sysIoctl_neg (by decide)]
        exact waitTimeout_ne_ok
      · simp [ho.1] at hh
      · simp [hc.1] at hh
    · refine iff_of_true (acquireReported_owner ?_ ⟨hh, hl⟩) fun hc => hc.2.1 hl
      rw [Outcome.same_error, sysIoctl_zero]
      rfl
    · have hok : (if (sysIoctl q.error).1 < 0 then IPC_WAIT_TIMEOUT else IPC_OK) = IPC_OK := by
        rw [herr, sysIoctl_zero]
        rfl
      by_cases hi : how = .interrupted
      · exact iff_of_false (not_acquireReported hok (hbroken hi) fun ho => hl ho.2)
          (not_not.mpr ⟨hh, hl, ht, hi⟩)
      · exact iff_of_true (acquireReported_took hok (htook hi)) fun hc => hi hc.2.2.2
    · refine iff_of_true ?_ fun hc => ht hc.2.2.1
      rcases hend with ⟨herr, htook⟩ | ⟨herr, hu⟩
      · refine acquireReported_took ?_ htook
        rw [herr, sysIoctl_zero]
        rfl
      · refine acquireReported_failed ?_ hu fun ho => hl ho.2
        rw [herr, sysIoctl_neg (by decide)]
        exact waitTimeout_ne_ok
  · rw [if_pos (ipcDriverHandle_neg_iff.mpr hfd)] at h
    rw [if_neg hfd]
    exact same_reported (Option.some.inj h).symm

theorem waitEvent_reported (h : ipcWaitEvent fd enter wake handle timeout how = some r) :
    AcquireReported (containerOf handle) False r ↔
      (0 < fd → handleExists .event enter handle = true) := by
  unfold ipcWaitEvent at h
  by_cases hfd : 0 < fd
  · rw [if_neg (ipcDriverHandle_neg_iff.not.mpr (not_not.mpr hfd))] at h
    obtain ⟨q, hq, rfl⟩ := Option.map_eq_some_iff.mp h
    rcases ipcEventLock_cases hq with ⟨hh, rfl⟩ | ⟨hh, ⟨herr, htook⟩ | ⟨herr, hu⟩⟩
    · refine iff_of_false (not_acquireReported ?_ ?_ not_false) fun hc => ?_
      · rw [Outcome.same_error, sysIoctl_neg (by decide)]
        rfl
      · exact Untouched.not_took (untouched_same enter (-EINVAL))
      · simp [hc hfd] at hh
    · refine iff_of_true (acquireReported_took ?_ htook) fun _ => hh
      rw [herr, sysIoctl_zero]
      rfl
    · refine iff_of_true (acquireReported_failed ?_ hu not_false) fun _ => hh
      rw [herr, sysIoctl_neg (by decide)]
      exact waitTimeout_ne_ok
  · rw [if_pos (ipcDriverHandle_neg_iff.mpr hfd)] at h
    refine iff_of_true ((same_reported (Option.some.inj h).symm).mpr not_false) fun hc => ?_
    exact absurd hc hfd

end AcquireCalls

/-! Delete calls. -/

/-- Success is reported exactly for one reference released, and anything else
leaves the owner count alone. -/
def DeleteReported (k : Kind) (p : Ptr) (before : Driver) (r : Driver × Int) : Prop :=
  (r.2 = IPC_OK ↔ r.1.refs k p = before.refs k p - 1) ∧
    (r.2 ≠ IPC_OK → r.1.refs k p = before.refs k p)

section DeleteCalls

variable {drv : Driver} {k : Kind} {p : Ptr}

theorem registryClose_refs (wf : drv.WellFormed) (hp : p ∈ drv.mList k) (param : IpcClose)
    (hc : containerOf param.handle = p) :
    (registryClose k drv param).1.refs k p = drv.refs k p - 1 := by
  by_cases last : (drv.mem p).ownerCount = 1
  · have hgone : p ∉ (registryClose k drv param).1.mList k := by
      rw [registryClose_last wf _ hp hc last, wf.mem_erase hp]
      exact fun h => h.2 rfl
    rw [Driver.refs_of_not_mem hgone, Driver.refs_of_mem hp, last]
    rfl
  · rw [registryClose_busy wf _ hp hc last, Driver.refs_of_mem (by exact hp), Driver.refs_of_mem hp]
    simp

theorem registryClose_error (wf : drv.WellFormed) (hp : p ∈ drv.mList k) (param : IpcClose)
    (hc : containerOf param.handle = p) :
    (registryClose k drv param).2 = if (drv.mem p).ownerCount = 1 then 0 else -EBUSY := by
  split
  · rw [registryClose_last wf _ hp hc ‹_›]
  · rw [registryClose_busy wf _ hp hc ‹_›]

/-- A close of a registered handle always releases a reference, so a delete is
reported right exactly when it answers `IPC_OK`. -/
theorem deleteReported_iff_ok {after : Driver} {res : Int}
    (h : after.refs k p = drv.refs k p - 1) :
    DeleteReported k p drv (after, res) ↔ res = IPC_OK := by
  constructor
  · intro hr
    exact hr.1.mpr h
  · intro hok
    exact ⟨iff_of_true hok h, fun hne => absurd hok hne⟩

theorem deleteReported_same {res : Int} (h : res ≠ IPC_OK) : DeleteReported k p drv (drv, res) := by
  refine ⟨iff_of_false h fun heq => ?_, fun _ => rfl⟩
  simp only at heq
  omega

/-- The answer of each delete call on an open driver, for a registered handle. -/
theorem ipcDelete_answer (wf : drv.WellFormed) (hp : p ∈ drv.mList k) {fd : Int} (hfd : 0 < fd)
    (ipcData : Ptr) (ipcSize : Int32) :
    (ipcDelete fd drv (userHandle p) ipcData ipcSize k).1 =
        (registryClose k drv ⟨userHandle p⟩).1 ∧
      ((ipcDelete fd drv (userHandle p) ipcData ipcSize k).2 = IPC_OK ↔
        (k = .mutex ∨ (drv.mem p).ownerCount = 1)) := by
  have hopen : ¬ ipcDriverHandle fd < 0 := ipcDriverHandle_neg_iff.not.mpr (not_not.mpr hfd)
  have herror := registryClose_error wf hp ⟨userHandle p⟩ (containerOf_userHandle p)
  rcases hclose : registryClose k drv ⟨userHandle p⟩ with ⟨after, res⟩
  rw [hclose] at herror
  simp only at herror
  subst herror
  cases k with
  | sem =>
    simp only [ipcDelete, ipcDeleteSemaphore, if_neg hopen, ioctlSemClose, ioctlClose, ipcSemClose,
      Bool.not_true, Bool.false_eq_true, ↓reduceIte, hclose]
    by_cases last : (drv.mem p).ownerCount = 1 <;> simp [last, sysIoctl, EBUSY, IPC_OK]
  | mutex =>
    simp only [ipcDelete, ipcDeleteMutex, if_neg hopen, ioctlMutexClose, ipcMutexClose,
      Bool.not_true, Bool.false_eq_true, ↓reduceIte, hclose]
    by_cases last : (drv.mem p).ownerCount = 1 <;> simp [last, sysIoctl, EBUSY, IPC_OK]
  | event =>
    simp only [ipcDelete, ipcDeleteEvent, if_neg hopen, ioctlEventClose, ioctlClose, ipcEventClose,
      Bool.not_true, Bool.false_eq_true, ↓reduceIte, hclose]
    by_cases last : (drv.mem p).ownerCount = 1 <;> simp [last, sysIoctl, EBUSY, IPC_OK]
  | shm =>
    have hobject : (if ipcData ≠ 0 then ipcUnmapSharedMemory ⟨.sharedMem, userHandle p, ipcData,
        ipcSize⟩ else ⟨.sharedMem, userHandle p, ipcData, ipcSize⟩).ipcUser = userHandle p := by
      split <;> rfl
    simp only [ipcDelete, ipcDeleteSharedMemory, hobject, sharedMemoryClose, if_neg hopen,
      ioctlShmClose, ioctlClose, ipcShmClose, Bool.not_true, Bool.false_eq_true, ↓reduceIte, hclose,
      ne_eq, not_true_eq_false]
    by_cases last : (drv.mem p).ownerCount = 1 <;>
      simp [last, sysIoctl, EBUSY, IPC_OK, IPC_GENERAL_ERROR]

theorem ipcDelete_closed (drv : Driver) (k : Kind) {fd : Int} (hfd : ¬ 0 < fd)
    (handle ipcData : Ptr)
    (ipcSize : Int32) :
    (ipcDelete fd drv handle ipcData ipcSize k).1 = drv ∧
      (ipcDelete fd drv handle ipcData ipcSize k).2 ≠ IPC_OK := by
  have hclosed : ipcDriverHandle fd < 0 := ipcDriverHandle_neg_iff.mpr hfd
  cases k with
  | sem =>
    simp only [ipcDelete, ipcDeleteSemaphore, if_pos hclosed]
    decide
  | mutex =>
    simp only [ipcDelete, ipcDeleteMutex, if_pos hclosed]
    decide
  | event =>
    simp only [ipcDelete, ipcDeleteEvent, if_pos hclosed]
    decide
  | shm =>
    simp only [ipcDelete, ipcDeleteSharedMemory, sharedMemoryClose, if_pos hclosed]
    simp [EINVAL, EBUSY, IPC_OK, IPC_GENERAL_ERROR]

theorem ipcDelete_reported (wf : drv.WellFormed) (hp : p ∈ drv.mList k) (fd : Int)
    (ipcData : Ptr) (ipcSize : Int32) :
    DeleteReported k p drv (ipcDelete fd drv (userHandle p) ipcData ipcSize k) ↔
      (¬ 0 < fd ∨ k = .mutex ∨ (drv.mem p).ownerCount = 1) := by
  by_cases hfd : 0 < fd
  · obtain ⟨hdrv, hok⟩ := ipcDelete_answer wf hp hfd ipcData ipcSize
    have hrefs := registryClose_refs wf hp ⟨userHandle p⟩ (containerOf_userHandle p)
    rw [← hdrv] at hrefs
    exact (deleteReported_iff_ok hrefs).trans (hok.trans (or_iff_right (not_not.mpr hfd)).symm)
  · obtain ⟨hdrv, hne⟩ := ipcDelete_closed drv k hfd (userHandle p) ipcData ipcSize
    refine iff_of_true ?_ (.inl hfd)
    rw [← Prod.eta (ipcDelete fd drv (userHandle p) ipcData ipcSize k), hdrv]
    exact deleteReported_same hne

end DeleteCalls

section Claims

/-- When the three acquire calls report what the driver did: a semaphore lock
always, a mutex capture unless a signal ends its wait without a limit, an event
wait unless the driver turns the handle down. -/
theorem acquire_reported_iff (fd : Int) (tid : Int32) (enter wake : Driver) (handle : Ptr)
    (timeout : Int32) (how : WaitEnd) :
    (∀ r, ipcLockSemaphore fd enter wake handle timeout how = some r →
      AcquireReported (containerOf handle) False r) ∧
    (∀ r, ipcCaptureMutex fd tid enter wake handle timeout how = some r →
      (AcquireReported (containerOf handle) (Owns enter handle tid) r ↔
        if 0 < fd then
          ¬ (handleExists .mutex enter handle = true ∧
            (enter.mem (containerOf handle)).lockerid ≠ tid ∧ timeout < 0 ∧ how = .interrupted)
        else ¬ Owns enter handle tid)) ∧
    (∀ r, ipcWaitEvent fd enter wake handle timeout how = some r →
      (AcquireReported (containerOf handle) False r ↔
        (0 < fd → handleExists .event enter handle = true))) :=
  ⟨fun _ h => lockSemaphore_reported h, fun _ h => captureMutex_reported h,
    fun _ h => waitEvent_reported h⟩

/-- Thread 8 is interrupted in its wait for the mutex of thread 7; and anyone
waits for an event with the handle `NULL`. -/
theorem acquire_not_reported :
    (¬ ∀ s : Device Unit, (Device.system Unit).Reachable s → ∀ tid handle timeout how r,
      ipcCaptureMutex 3 tid s.drv s.drv handle timeout how = some r →
        AcquireReported (containerOf handle) (Owns s.drv handle tid) r) ∧
    (¬ ∀ s : Device Unit, (Device.system Unit).Reachable s → ∀ handle timeout how r,
      ipcWaitEvent 3 s.drv s.drv handle timeout how = some r →
        AcquireReported (containerOf handle) False r) := by
  constructor
  · intro h
    obtain ⟨s, hs, hh, hl, hsome⟩ : ∃ s : Device Unit, (Device.system Unit).Reachable s ∧
        handleExists .mutex s.drv (userHandle 4096) = true ∧
        (s.drv.mem (containerOf (userHandle 4096))).lockerid ≠ 8 ∧
        (ipcCaptureMutex 3 8 s.drv s.drv (userHandle 4096) (-1) .interrupted).isSome = true :=
      exists_reachable_of_run ⟨ipcProbe fun _ => Entry.zero, [], [], []⟩
        [.deviceOpen (), .create () .mutex ⟨CStr.x, 1, 0, 7⟩ 4096]
        (fun s => decide (handleExists .mutex s.drv (userHandle 4096) = true ∧
          (s.drv.mem (containerOf (userHandle 4096))).lockerid ≠ 8 ∧
          (ipcCaptureMutex 3 8 s.drv s.drv (userHandle 4096) (-1) .interrupted).isSome = true))
        ⟨_, rfl⟩ (by decide) fun _ _ hp => of_decide_eq_true hp
    obtain ⟨r, hr⟩ := Option.isSome_iff_exists.mp hsome
    have hreported := (captureMutex_reported hr).mp (h s hs 8 _ _ _ r hr)
    rw [if_pos (by decide)] at hreported
    exact hreported ⟨hh, hl, by decide, rfl⟩
  · intro h
    obtain ⟨s, hs, hsome⟩ : ∃ s : Device Unit, (Device.system Unit).Reachable s ∧
        (ipcWaitEvent 3 s.drv s.drv 0 0 .acquired).isSome = true :=
      exists_reachable_of_run ⟨ipcProbe fun _ => Entry.zero, [], [], []⟩ [.deviceOpen ()]
        (fun s => (ipcWaitEvent 3 s.drv s.drv 0 0 .acquired).isSome) ⟨_, rfl⟩ (by decide)
        fun _ _ hp => hp
    obtain ⟨r, hr⟩ := Option.isSome_iff_exists.mp hsome
    have hreported := (waitEvent_reported hr).mp (h s hs _ _ _ r hr) (by decide)
    simp [handleExists] at hreported

variable {φ : Type*} [DecidableEq φ]

/-- When a delete call reports what it did: on a closed driver, for a mutex, and
for the last user of a name. -/
theorem delete_reported_iff {s : Device φ} (h : (Device.system φ).Reachable s) {k : Kind} {p : Ptr}
    (hp : p ∈ s.drv.mList k) (fd : Int) (ipcData : Ptr) (ipcSize : Int32) :
    DeleteReported k p s.drv (ipcDelete fd s.drv (userHandle p) ipcData ipcSize k) ↔
      (¬ 0 < fd ∨ k = .mutex ∨ (s.drv.mem p).ownerCount = 1) :=
  ipcDelete_reported (Device.sound_reachable h).wf hp fd ipcData ipcSize

theorem delete_reported_iff_one_user :
    ∃ s : Device Unit, (Device.system Unit).Reachable s ∧
      DeleteReported .sem 4096 s.drv (ipcDelete 3 s.drv (userHandle 4096) 0 0 .sem) := by
  refine exists_reachable_of_run ⟨ipcProbe fun _ => Entry.zero, [], [], []⟩
    [.deviceOpen (), .create () .sem ⟨CStr.x, 1, 0, 0⟩ 4096]
    (fun s => decide (4096 ∈ s.drv.mList .sem ∧ (s.drv.mem 4096).ownerCount = 1)) ⟨_, rfl⟩
    (by decide) fun s hs hp => ?_
  obtain ⟨hlisted, hone⟩ := of_decide_eq_true hp
  exact (delete_reported_iff hs hlisted 3 0 0).mpr (.inr (.inr hone))

/-- Two users of one semaphore: the delete of the first fails and yet takes its
reference. -/
theorem delete_not_reported :
    ¬ ∀ s : Device Unit, (Device.system Unit).Reachable s → ∀ k, ∀ p ∈ s.drv.mList k,
      ∀ fd ipcData ipcSize,
        DeleteReported k p s.drv (ipcDelete fd s.drv (userHandle p) ipcData ipcSize k) := by
  intro h
  obtain ⟨s, hs, hlisted, htwo⟩ : ∃ s : Device Unit, (Device.system Unit).Reachable s ∧
      4096 ∈ s.drv.mList .sem ∧ (s.drv.mem 4096).ownerCount = 2 :=
    exists_reachable_of_run ⟨ipcProbe fun _ => Entry.zero, [], [], []⟩
      [.deviceOpen (), .create () .sem ⟨CStr.x, 1, 0, 0⟩ 4096,
        .create () .sem ⟨CStr.x, 1, 0, 0⟩ 8192]
      (fun s => decide (4096 ∈ s.drv.mList .sem ∧ (s.drv.mem 4096).ownerCount = 2)) ⟨_, rfl⟩
      (by decide) fun _ _ hp => of_decide_eq_true hp
  have hreported := h s hs .sem 4096 hlisted 3 0 0
  rw [ipcDelete_reported (Device.sound_reachable hs).wf hlisted] at hreported
  rcases hreported with hfd | hk | hone
  · exact hfd (by decide)
  · cases hk
  · omega

end Claims

end Gipcy.Linux
