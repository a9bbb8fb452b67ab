import Gipcy.Linux.Calls

/-! Threads that are created paused and then started. The semaphore that holds
them back belongs to the caller; no other client moves during these calls. -/
namespace Gipcy.Linux

open CountingSemaphore Transition

def IPC_CREATE_THREAD_PAUSED : Int32 := 0x1

/-- `struct thread_param`. The calls look at no other field. -/
structure ThreadParam where
  threadFunction : Ptr
  threadMutex : Ptr

/-- The fields of `struct ipc_t` that the calls set and read. -/
structure ThreadObject where
  ipcType : IpcType
  ipcData : Option ThreadParam

/-- `allocated` says whether `allocate_ipc_object` returns an object, `how` is
the end of the lock's wait, `res` the result of `pthread_create`. -/
def ipcCreateThreadEx (ipcDriverFd : Int) (drv : Driver) (tp : Option ThreadParam)
    (flags : Int32) (allocated : Bool) (how : WaitEnd) (res : Int32) :
    Option (Driver × Option ThreadObject) :=
  match tp with
  | none => some (drv, none)
  | some tp =>
    if tp.threadFunction = 0 ∨ tp.threadMutex = 0 then some (drv, none)
    else if !allocated then some (drv, none)
    else
      let h : ThreadObject := ⟨.thread, some tp⟩
      let paused :=
        if flags &&& IPC_CREATE_THREAD_PAUSED ≠ 0 then
          -- The result of the lock is not looked at.
          (ipcLockSemaphore ipcDriverFd drv drv tp.threadMutex 0 how).map Outcome.after
        else some drv
      paused.map fun drv => (drv, if res ≠ 0 then none else some h)

def ipcStartThread (ipcDriverFd : Int) (drv : Driver) (handle : Option ThreadObject) :
    Driver × Int :=
  match handle with
  | none => (drv, IPC_INVALID_HANDLE)
  | some h =>
    if h.ipcType ≠ .thread then (drv, IPC_INVALID_HANDLE)
    else
      match h.ipcData with
      | none => (drv, IPC_GENERAL_ERROR)
      | some tp =>
        (if tp.threadMutex ≠ 0 then (ipcUnlockSemaphore ipcDriverFd drv tp.threadMutex).1 else drv,
          IPC_OK)

/-! The lock and the unlock between them. -/

/-- The count of the semaphore with a handle. -/
def Driver.count (drv : Driver) (handle : Ptr) : Int := (drv.mem (containerOf handle)).sema

/-- A lock that may not wait gets a unit. -/
def Available (ipcDriverFd : Int) (drv : Driver) (handle : Ptr) : Prop :=
  0 < ipcDriverFd ∧ handleExists .sem drv handle = true ∧ 0 < drv.count handle

/-- The driver after such a lock. -/
def Driver.takeUnit (drv : Driver) (handle : Ptr) : Driver :=
  drv.write (containerOf handle)
    { drv.mem (containerOf handle) with sema := drv.count handle - 1 }.incLock

section Lock

variable {fd : Int} {drv : Driver} {handle : Ptr} {how : WaitEnd} {r : Outcome}

@[simp] theorem takeUnit_count : (drv.takeUnit handle).count handle = drv.count handle - 1 := by
  simp [Driver.takeUnit, Driver.count, Entry.incLock]

@[simp] theorem takeUnit_handleExists :
    handleExists .sem (drv.takeUnit handle) handle = handleExists .sem drv handle := by
  simp [handleExists, Driver.takeUnit, Entry.incLock]

/-- On an open driver that knows the handle, the lock is a timed wait. -/
theorem lockSemaphore_known (h : 0 < fd ∧ handleExists .sem drv handle = true) :
    (ipcLockSemaphore fd drv drv handle 0 how).map Outcome.after =
      ((drv.mem (containerOf handle)).down .timed how).map fun e =>
        if how = .acquired then drv.write (containerOf handle) e.incLock
        else drv.write (containerOf handle) e := by
  have htimeout : ¬ (0 : Int32) < 0 := by decide
  rw [ipcLockSemaphore, if_neg (ipcDriverHandle_open h.1), ioctlSemLock, ioctlLock]
  simp only [Bool.not_true, Bool.false_eq_true, ↓reduceIte, ipcLock, ipcSemLock, h.2, htimeout,
    Option.map_map]
  apply congrArg (fun f => Option.map f _)
  funext e
  by_cases hhow : how = .acquired <;> simp [hhow]

/-- Otherwise it is refused. -/
theorem lockSemaphore_refused (h : ¬ (0 < fd ∧ handleExists .sem drv handle = true)) :
    (ipcLockSemaphore fd drv drv handle 0 how).map Outcome.after = some drv := by
  unfold ipcLockSemaphore
  by_cases hfd : 0 < fd
  · have hh : ¬ handleExists .sem drv handle = true := fun hh => h ⟨hfd, hh⟩
    rw [if_neg (ipcDriverHandle_open hfd), ioctlSemLock, ioctlLock]
    simp only [Bool.not_true, Bool.false_eq_true, ↓reduceIte, ipcLock, ipcSemLock, hh]
    rfl
  · rw [if_pos (ipcDriverHandle_neg_iff.mpr hfd)]
    rfl

/-- A lock that may not wait takes a unit, or it leaves the driver as it was. -/
theorem lockSemaphore_after (h : ipcLockSemaphore fd drv drv handle 0 how = some r) :
    (Available fd drv handle ∧ r.after = drv.takeUnit handle) ∨
      (¬ Available fd drv handle ∧ r.after = drv) := by
  have hafter : (ipcLockSemaphore fd drv drv handle 0 how).map Outcome.after = some r.after := by
    rw [h, Option.map_some]
  by_cases hknown : 0 < fd ∧ handleExists .sem drv handle = true
  · rw [lockSemaphore_known hknown] at hafter
    obtain ⟨e, he, hr⟩ := Option.map_eq_some_iff.mp hafter
    rcases Entry.down_timed he with ⟨rfl, hpos, rfl⟩ | ⟨rfl, hnone, rfl⟩
    · exact .inl ⟨⟨hknown.1, hknown.2, hpos⟩, hr.symm⟩
    · refine .inr ⟨fun ha => absurd ha.2.2 (Int.not_lt.mpr hnone), ?_⟩
      exact hr.symm.trans (drv.write_self _)
  · rw [lockSemaphore_refused hknown] at hafter
    exact .inr ⟨fun ha => hknown ⟨ha.1, ha.2.1⟩, (Option.some.inj hafter).symm⟩

theorem lockSemaphore_returns (fd : Int) (drv : Driver) (handle : Ptr) :
    ∃ how, (ipcLockSemaphore fd drv drv handle 0 how).isSome = true := by
  by_cases hknown : 0 < fd ∧ handleExists .sem drv handle = true
  · obtain ⟨how, hends⟩ := timed_ends (drv.mem (containerOf handle)).sema
    exists how
    rw [← Option.isSome_map (f := Outcome.after), lockSemaphore_known hknown, Option.isSome_map,
      Entry.down, Option.isSome_map, hends]
  · exists .timedOut
    rw [← Option.isSome_map (f := Outcome.after), lockSemaphore_refused hknown]
    rfl

theorem unlockSemaphore_count (h : Available fd drv handle) :
    (ipcUnlockSemaphore fd (drv.takeUnit handle) handle).1.count handle = drv.count handle := by
  have hunlock : ipcSemUnlock (drv.takeUnit handle) ⟨handle, 0⟩ =
      ((drv.takeUnit handle).write (containerOf handle)
        ((drv.takeUnit handle).mem (containerOf handle)).up.decLock, 0) := by
    rw [ipcSemUnlock, if_pos (takeUnit_handleExists.trans h.2.1)]
  rw [ipcUnlockSemaphore, ioctlSemUnlock, unlockObject_ok h.1 hunlock]
  simp [Driver.count, Entry.up, Entry.decLock, post, Driver.takeUnit, Entry.incLock]

end Lock

/-- What a paused create is to do: it returns no handle and leaves the count, or
it returns one and has taken a unit that the start gives back. -/
def PausedOnce (ipcDriverFd : Int) (drv : Driver) (handle : Ptr)
    (r : Driver × Option ThreadObject) : Prop :=
  (r.2 = none ∧ r.1.count handle = drv.count handle) ∨
    ∃ h, r.2 = some h ∧ r.1.count handle = drv.count handle - 1 ∧
      (ipcStartThread ipcDriverFd r.1 (some h)).1.count handle = drv.count handle

section Paused

variable {fd : Int} {drv : Driver} {tp : ThreadParam} {allocated : Bool} {how : WaitEnd}
  {res : Int32}

theorem createThreadEx_refused
    (h : ¬ (allocated = true ∧ tp.threadFunction ≠ 0 ∧ tp.threadMutex ≠ 0)) (flags : Int32) :
    ipcCreateThreadEx fd drv (some tp) flags allocated how res = some (drv, none) := by
  unfold ipcCreateThreadEx
  by_cases hnull : tp.threadFunction = 0 ∨ tp.threadMutex = 0
  · exact if_pos hnull
  · have hnot : ¬ allocated = true := fun ha =>
      h ⟨ha, fun hf => hnull (.inl hf), fun hm => hnull (.inr hm)⟩
    simp [hnull, hnot]

theorem createThreadEx_paused (ha : allocated = true) (hf : tp.threadFunction ≠ 0)
    (hm : tp.threadMutex ≠ 0) :
    ipcCreateThreadEx fd drv (some tp) IPC_CREATE_THREAD_PAUSED allocated how res =
      (ipcLockSemaphore fd drv drv tp.threadMutex 0 how).map fun r =>
        (r.after, if res ≠ 0 then none else some ⟨.thread, some tp⟩) := by
  have hflag : (IPC_CREATE_THREAD_PAUSED &&& IPC_CREATE_THREAD_PAUSED : Int32) ≠ 0 := by decide
  simp only [ipcCreateThreadEx, hf, hm, or_self, ↓reduceIte, ha, Bool.not_true,
    Bool.false_eq_true, ne_eq, hflag, not_false_eq_true, Option.map_map]
  rfl

theorem startThread_count (hm : tp.threadMutex ≠ 0) (h : Available fd drv tp.threadMutex) :
    (ipcStartThread fd (drv.takeUnit tp.threadMutex)
      (some ⟨.thread, some tp⟩)).1.count tp.threadMutex = drv.count tp.threadMutex := by
  simp only [ipcStartThread, ne_eq, not_true_eq_false, ↓reduceIte, hm, not_false_eq_true]
  exact unlockSemaphore_count h

/-- A thread that was not created leaves the count alone if the lock did. -/
theorem pausedOnce_none {after : Driver} :
    PausedOnce fd drv tp.threadMutex (after, none) ↔
      after.count tp.threadMutex = drv.count tp.threadMutex := by
  simp [PausedOnce]

/-- After the lock, the create does what it is to do exactly when both the lock
and `pthread_create` went well, or neither did. -/
theorem pausedOnce_iff (hm : tp.threadMutex ≠ 0) {r : Outcome}
    (h : ipcLockSemaphore fd drv drv tp.threadMutex 0 how = some r) :
    PausedOnce fd drv tp.threadMutex
        (r.after, if res ≠ 0 then none else some ⟨.thread, some tp⟩) ↔
      (res = 0 ↔ Available fd drv tp.threadMutex) := by
  by_cases hres : res = 0
  · rw [if_neg (not_not.mpr hres), iff_true_left hres]
    rcases lockSemaphore_after h with ⟨ha, hafter⟩ | ⟨hn, hafter⟩
    · refine iff_of_true (.inr ⟨_, rfl, ?_, ?_⟩) ha
      · rw [hafter, takeUnit_count]
      · rw [hafter, startThread_count hm ha]
    · refine iff_of_false ?_ hn
      rintro (⟨hnone, -⟩ | ⟨t, -, hcount, -⟩)
      · cases hnone
      · simp only [hafter] at hcount
        omega
  · rw [if_pos hres, iff_false_left hres, pausedOnce_none]
    rcases lockSemaphore_after h with ⟨ha, hafter⟩ | ⟨hn, hafter⟩
    · rw [hafter, takeUnit_count]
      exact iff_of_false (by omega) (not_not.mpr ha)
    · rw [hafter]
      exact iff_of_true rfl hn

/-- A paused create does what it is to do for every way its lock can end. -/
def PausedRight (ipcDriverFd : Int) (drv : Driver) (tp : ThreadParam) (allocated : Bool)
    (res : Int32) : Prop :=
  let create := fun how => ipcCreateThreadEx ipcDriverFd drv (some tp) IPC_CREATE_THREAD_PAUSED
    allocated how res
  (∃ how, (create how).isSome = true) ∧
    ∀ how r, create how = some r → PausedOnce ipcDriverFd drv tp.threadMutex r

theorem pausedRight_refused
    (h : ¬ (allocated = true ∧ tp.threadFunction ≠ 0 ∧ tp.threadMutex ≠ 0)) :
    PausedRight fd drv tp allocated res := by
  simp only [PausedRight, createThreadEx_refused h]
  refine ⟨⟨.timedOut, rfl⟩, fun how r hr => ?_⟩
  rw [← Option.some.inj hr]
  exact pausedOnce_none.mpr rfl

theorem pausedRight_iff (ha : allocated = true) (hf : tp.threadFunction ≠ 0)
    (hm : tp.threadMutex ≠ 0) :
    PausedRight fd drv tp allocated res ↔ (res = 0 ↔ Available fd drv tp.threadMutex) := by
  simp only [PausedRight, createThreadEx_paused ha hf hm, Option.isSome_map]
  constructor
  · rintro ⟨⟨how, hsome⟩, hall⟩
    obtain ⟨r, hr⟩ := Option.isSome_iff_exists.mp hsome
    refine (pausedOnce_iff hm hr).mp (hall how _ ?_)
    rw [hr, Option.map_some]
  · intro hiff
    refine ⟨lockSemaphore_returns fd drv tp.threadMutex, fun how q hq => ?_⟩
    obtain ⟨r, hr, rfl⟩ := Option.map_eq_some_iff.mp hq
    exact (pausedOnce_iff hm hr).mpr hiff

end Paused

section Claims

/-- A paused create and the start behind it keep the count right exactly when
`pthread_create` succeeds if and only if the lock finds a unit, unless the call
turns its arguments down. -/
theorem createThread_paused_iff (fd : Int) (drv : Driver) (tp : ThreadParam) (allocated : Bool)
    (res : Int32) :
    PausedRight fd drv tp allocated res ↔
      (allocated = true → tp.threadFunction ≠ 0 → tp.threadMutex ≠ 0 →
        (res = 0 ↔ Available fd drv tp.threadMutex)) := by
  by_cases hvalid : allocated = true ∧ tp.threadFunction ≠ 0 ∧ tp.threadMutex ≠ 0
  · obtain ⟨ha, hf, hm⟩ := hvalid
    have hiff : PausedRight fd drv tp allocated res ↔
        (res = 0 ↔ Available fd drv tp.threadMutex) := pausedRight_iff ha hf hm
    exact ⟨fun h _ _ _ => hiff.mp h, fun h => hiff.mpr (h ha hf hm)⟩
  · exact iff_of_true (pausedRight_refused hvalid) fun ha hf hm => absurd ⟨ha, hf, hm⟩ hvalid

/-- The semaphore has one unit, the lock takes it, and `pthread_create` fails with
`EAGAIN`. -/
theorem createThread_paused_lost :
    ¬ ∀ s : Device Unit, (Device.system Unit).Reachable s → ∀ tp allocated res,
      PausedRight 3 s.drv tp allocated res := by
  intro h
  obtain ⟨s, hs, hh, hcount⟩ : ∃ s : Device Unit, (Device.system Unit).Reachable s ∧
      handleExists .sem s.drv (userHandle 4096) = true ∧ 0 < s.drv.count (userHandle 4096) :=
    exists_reachable_of_run ⟨ipcProbe fun _ => Entry.zero, [], [], []⟩
      [.deviceOpen (), .create () .sem ⟨CStr.x, 1, 0, 0⟩ 4096]
      (fun s => decide (handleExists .sem s.drv (userHandle 4096) = true ∧
        0 < s.drv.count (userHandle 4096))) ⟨_, rfl⟩ (by decide) fun _ _ hp =>
        of_decide_eq_true hp
  have havail : Available 3 s.drv (userHandle 4096) := ⟨by decide, hh, hcount⟩
  have hright := h s hs ⟨1, userHandle 4096⟩ true 11
  rw [pausedRight_iff rfl Nat.one_ne_zero (userHandle_ne_zero 4096)] at hright
  exact absurd (hright.mpr havail) (by decide)

end Claims

end Gipcy.Linux
