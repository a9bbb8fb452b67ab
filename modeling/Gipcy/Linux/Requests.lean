import Gipcy.Linux.Accesses
import Gipcy.Linux.Registry

/-! The lock and unlock requests as whole functions, for a caller that cares
about their result only. A lock looks at the driver when it enters and, if it
comes to a wait, goes on with the driver in which that wait ends. -/
namespace Gipcy.Linux

open CountingSemaphore

/-- What a request does: it finds the driver in the state `before`, leaves it in
the state `after`, and returns `error`. -/
structure Outcome where
  before : Driver
  after : Driver
  error : Int

def Outcome.same (drv : Driver) (error : Int) : Outcome := ⟨drv, drv, error⟩

@[simp] theorem Outcome.same_error (drv : Driver) (error : Int) :
    (Outcome.same drv error).error = error := rfl

/-- `ipc_sem_lock`; no result where the wait cannot end in the given way. -/
def ipcSemLock (enter wake : Driver) (param : IpcLock) (how : WaitEnd) : Option Outcome :=
  if handleExists .sem enter param.handle then
    let entry := containerOf param.handle
    if param.timeout < 0 then
      ((wake.mem entry).down .unlimited how).map fun e =>
        ⟨wake, wake.write entry e.incLock, 0⟩
    else
      ((wake.mem entry).down .timed how).map fun e =>
        if how = .acquired then ⟨wake, wake.write entry e.incLock, 0⟩
        else ⟨wake, wake.write entry e, -ETIME⟩
  else some (.same enter (-EINVAL))

/-- `ipc_mutex_lock`. -/
def ipcMutexLock (enter wake : Driver) (param : IpcLock) (how : WaitEnd) : Option Outcome :=
  if handleExists .mutex enter param.handle then
    let entry := containerOf param.handle
    if (enter.mem entry).lockerid = param.lockerid then some (.same enter 0)
    else if param.timeout < 0 then
      -- The result of `down_interruptible` is not looked at.
      ((wake.mem entry).down .interruptible how).map fun e =>
        ⟨wake, wake.write entry { e.incLock with lockerid := param.lockerid }, 0⟩
    else
      ((wake.mem entry).down .timed how).map fun e =>
        if how = .acquired then
          ⟨wake, wake.write entry { e.incLock with lockerid := param.lockerid }, 0⟩
        else ⟨wake, wake.write entry e, -ETIME⟩
  else some (.same enter (-EINVAL))

/-- `ipc_event_lock`. -/
def ipcEventLock (enter wake : Driver) (param : IpcLock) (how : WaitEnd) : Option Outcome :=
  if handleExists .event enter param.handle then
    let entry := containerOf param.handle
    if param.timeout < 0 then
      ((wake.mem entry).down .unlimited how).map fun e =>
        ⟨wake, wake.write entry e.incLock, 0⟩
    else
      ((wake.mem entry).down .timed how).map fun e =>
        if how = .acquired then ⟨wake, wake.write entry e.incLock, 0⟩
        else ⟨wake, wake.write entry e, -ETIMEDOUT⟩
  else some (.same enter (-EINVAL))

def ipcLock : Kind → Driver → Driver → IpcLock → WaitEnd → Option Outcome
  | .sem => ipcSemLock
  | .mutex => ipcMutexLock
  | .event => ipcEventLock
  | .shm => fun _ _ _ _ => none

/-- A request that no other client interrupts makes its accesses one after the
other, at most `n` of them. -/
def alone (how : WaitEnd) : Nat → Call → Entry → Option (Entry × Int)
  | 0, _, _ => none
  | n + 1, call, e =>
    (access call how e).bind fun r =>
      match r.2 with
      | .goto point => alone how n { call with point := point } r.1
      | .ret error => some (r.1, error)

theorem Driver.write_self (drv : Driver) (p : Ptr) : drv.write p (drv.mem p) = drv := by
  simp [Driver.write]

/-- The whole functions are the tables of accesses, run through. -/
theorem ipcLock_alone (k : Kind) {point : Point} (hp : firstPoint k .lock = some point)
    (drv : Driver) (param : IpcLock) (how : WaitEnd)
    (hh : handleExists k drv param.handle = true) :
    ipcLock k drv drv param how =
      (alone how 4 ⟨k, .lock, param.timeout, param.lockerid, point⟩
        (drv.mem (containerOf param.handle))).map
        fun r => ⟨drv, drv.write (containerOf param.handle) r.1, r.2⟩ := by
  cases k with
  | sem =>
    cases hp
    simp only [ipcLock, ipcSemLock, hh, ↓reduceIte, alone, access, semAccess]
    split
    · cases h : (drv.mem (containerOf param.handle)).down .unlimited how <;> rfl
    · cases h : (drv.mem (containerOf param.handle)).down .timed how with
      | none => rfl
      | some e => by_cases ha : how = .acquired <;> simp [afterTimed, ha]
  | mutex =>
    cases hp
    simp only [ipcLock, ipcMutexLock, hh, ↓reduceIte, alone, access, mutexAccess]
    by_cases hl : (drv.mem (containerOf param.handle)).lockerid = param.lockerid
    · simp [hl, Outcome.same, drv.write_self]
    · simp only [hl, ↓reduceIte, Option.bind_some]
      split
      · cases h : (drv.mem (containerOf param.handle)).down .interruptible how <;> rfl
      · cases h : (drv.mem (containerOf param.handle)).down .timed how with
        | none => rfl
        | some e => by_cases ha : how = .acquired <;> simp [afterTimed, ha]
  | event =>
    cases hp
    simp only [ipcLock, ipcEventLock, hh, ↓reduceIte, alone, access, eventAccess]
    split
    · cases h : (drv.mem (containerOf param.handle)).down .unlimited how <;> rfl
    · cases h : (drv.mem (containerOf param.handle)).down .timed how with
      | none => rfl
      | some e => by_cases ha : how = .acquired <;> simp [afterTimed, ha]
  | shm => cases hp

/-! Unlock requests. They never wait, so they run as they find the driver. -/

def ipcSemUnlock (drv : Driver) (param : IpcUnlock) : Driver × Int :=
  if handleExists .sem drv param.handle then
    let entry := containerOf param.handle
    (drv.write entry (drv.mem entry).up.decLock, 0)
  else (drv, -EINVAL)

/-- A thread that does not own the mutex is answered 0 as well. -/
def ipcMutexUnlock (drv : Driver) (param : IpcUnlock) : Driver × Int :=
  if handleExists .mutex drv param.handle then
    let entry := containerOf param.handle
    if (drv.mem entry).lockerid ≠ param.lockerid then (drv, 0)
    else
      let mutex := { drv.mem entry with lockerid := 0 }
      (drv.write entry mutex.up.decLock, 0)
  else (drv, -EINVAL)

/-- The text shared by `ipc_event_unlock` and `ipc_event_reset`. -/
def eventRaise (drv : Driver) (handle : Ptr) : Driver × Int :=
  if handleExists .event drv handle then
    let entry := containerOf handle
    if (drv.mem entry).lockCount ≠ 0 then (drv.write entry (drv.mem entry).up.decLock, 0)
    else (drv, 0)
  else (drv, -EINVAL)

def ipcEventUnlock (drv : Driver) (param : IpcUnlock) : Driver × Int := eventRaise drv param.handle

def ipcEventReset (drv : Driver) (param : IpcReset) : Driver × Int := eventRaise drv param.handle

def ipcUnlock : Kind → Driver → IpcUnlock → Option (Driver × Int)
  | .sem, drv, param => some (ipcSemUnlock drv param)
  | .mutex, drv, param => some (ipcMutexUnlock drv param)
  | .event, drv, param => some (ipcEventUnlock drv param)
  | .shm, _, _ => none

/-- These too are the tables of accesses, run through. -/
theorem ipcUnlock_alone (k : Kind) {point : Point} (hp : firstPoint k .unlock = some point)
    (drv : Driver) (param : IpcUnlock) (how : WaitEnd)
    (hh : handleExists k drv param.handle = true) :
    ipcUnlock k drv param =
      (alone how 4 ⟨k, .unlock, 0, param.lockerid, point⟩
        (drv.mem (containerOf param.handle))).map
        fun r => (drv.write (containerOf param.handle) r.1, r.2) := by
  cases k with
  | sem =>
    cases hp
    simp only [ipcUnlock, ipcSemUnlock, hh, ↓reduceIte]
    rfl
  | mutex =>
    cases hp
    simp only [ipcUnlock, ipcMutexUnlock, hh, ↓reduceIte, alone, access, mutexAccess]
    by_cases hl : (drv.mem (containerOf param.handle)).lockerid = param.lockerid
    · simp [hl]
    · simp [hl, drv.write_self]
  | event =>
    cases hp
    simp only [ipcUnlock, ipcEventUnlock, eventRaise, hh, ↓reduceIte, alone, access, eventAccess]
    by_cases hl : (drv.mem (containerOf param.handle)).lockCount = 0
    · simp [hl, drv.write_self]
    · simp [hl]
  | shm => cases hp

/-! What a lock request comes to. -/

/-- The entry's counts and owner are untouched. -/
def Untouched (p : Ptr) (r : Outcome) : Prop :=
  (r.after.mem p).sema = (r.before.mem p).sema ∧
    (r.after.mem p).lockCount = (r.before.mem p).lockCount ∧
    (r.after.mem p).lockerid = (r.before.mem p).lockerid

/-- The call took one unit of the entry's semaphore. -/
def TookUnit (p : Ptr) (r : Outcome) : Prop :=
  (r.after.mem p).sema = (r.before.mem p).sema - 1

section Results

variable {p : Ptr} {r : Outcome}

theorem untouched_same (drv : Driver) (error : Int) : Untouched p (.same drv error) :=
  ⟨rfl, rfl, rfl⟩

theorem Untouched.not_took (h : Untouched p r) : ¬ TookUnit p r := by
  intro ht
  have := h.1
  unfold TookUnit at ht
  omega

variable {wake : Driver} {how : WaitEnd} {f : Entry → Entry}

/-- A wait without a limit returns with a unit. -/
theorem unlimited_result
    (h : ((wake.mem p).down .unlimited how).map
        (fun e => (⟨wake, wake.write p (f e), 0⟩ : Outcome)) =
      some r) (hf : ∀ e, (f e).sema = e.sema) : r.error = 0 ∧ TookUnit p r := by
  obtain ⟨e, he, rfl⟩ := Option.map_eq_some_iff.mp h
  obtain ⟨_, _, rfl⟩ := Entry.down_unlimited he
  exact ⟨rfl, by simp [TookUnit, hf]⟩

/-- A timed wait returns with a unit, or with its error and nothing changed. -/
theorem timed_result {error : Int}
    (h : ((wake.mem p).down .timed how).map (fun e => if how = .acquired then
        (⟨wake, wake.write p (f e), 0⟩ : Outcome) else ⟨wake, wake.write p e, error⟩) = some r)
    (hf : ∀ e, (f e).sema = e.sema) :
    (r.error = 0 ∧ TookUnit p r) ∨ (r.error = error ∧ Untouched p r) := by
  obtain ⟨e, he, rfl⟩ := Option.map_eq_some_iff.mp h
  rcases Entry.down_timed he with ⟨rfl, _, rfl⟩ | ⟨rfl, _, rfl⟩
  · exact .inl ⟨rfl, by simp [TookUnit, hf]⟩
  · exact .inr ⟨rfl, by simp [Untouched, Driver.write_self]⟩

/-- A wait that a signal may break returns 0 in either case. -/
theorem interruptible_result
    (h : ((wake.mem p).down .interruptible how).map
      (fun e => (⟨wake, wake.write p (f e), 0⟩ : Outcome)) = some r)
    (hf : ∀ e, (f e).sema = e.sema) :
    r.error = 0 ∧ (how = .interrupted → ¬ TookUnit p r) ∧ (how ≠ .interrupted → TookUnit p r) := by
  obtain ⟨e, he, rfl⟩ := Option.map_eq_some_iff.mp h
  rcases Entry.down_interruptible he with ⟨rfl, _, rfl⟩ | ⟨rfl, _, rfl⟩
  · exact ⟨rfl, fun h => (by cases h), fun _ => by simp [TookUnit, hf]⟩
  · refine ⟨rfl, fun _ => ?_, fun h => absurd rfl h⟩
    simp only [TookUnit, Driver.write_mem_self, hf]
    omega

variable {enter : Driver} {param : IpcLock}

theorem ipcSemLock_cases (h : ipcSemLock enter wake param how = some r) :
    (r.error < 0 ∧ Untouched (containerOf param.handle) r) ∨
      (r.error = 0 ∧ TookUnit (containerOf param.handle) r) := by
  unfold ipcSemLock at h
  split at h
  · simp only at h
    split at h
    · exact .inr (unlimited_result h fun _ => rfl)
    · rcases timed_result h fun _ => rfl with htook | ⟨herr, hu⟩
      · exact .inr htook
      · exact .inl ⟨by rw [herr]; decide, hu⟩
  · cases h
    exact .inl ⟨Int.negSucc_lt_zero 21, untouched_same _ _⟩

theorem ipcMutexLock_cases (h : ipcMutexLock enter wake param how = some r) :
    let p := containerOf param.handle
    (handleExists .mutex enter param.handle = false ∧ r = .same enter (-EINVAL)) ∨
    (handleExists .mutex enter param.handle = true ∧ (enter.mem p).lockerid = param.lockerid ∧
      r = .same enter 0) ∨
    (handleExists .mutex enter param.handle = true ∧ (enter.mem p).lockerid ≠ param.lockerid ∧
      param.timeout < 0 ∧ r.error = 0 ∧ (how = .interrupted → ¬ TookUnit p r) ∧
      (how ≠ .interrupted → TookUnit p r)) ∨
    (handleExists .mutex enter param.handle = true ∧ (enter.mem p).lockerid ≠ param.lockerid ∧
      ¬ param.timeout < 0 ∧
      ((r.error = 0 ∧ TookUnit p r) ∨ (r.error = -ETIME ∧ Untouched p r))) := by
  intro p
  unfold ipcMutexLock at h
  split at h
  · rename_i hh
    simp only at h
    split at h
    · rename_i hl
      cases h
      exact .inr (.inl ⟨hh, hl, rfl⟩)
    · rename_i hl
      split at h
      · rename_i ht
        exact .inr (.inr (.inl ⟨hh, hl, ht, interruptible_result h fun _ => rfl⟩))
      · rename_i ht
        exact .inr (.inr (.inr ⟨hh, hl, ht, timed_result h fun _ => rfl⟩))
  · rename_i hh
    cases h
    exact .inl ⟨Bool.eq_false_iff.mpr hh, rfl⟩

theorem ipcEventLock_cases (h : ipcEventLock enter wake param how = some r) :
    (handleExists .event enter param.handle = false ∧ r = .same enter (-EINVAL)) ∨
    (handleExists .event enter param.handle = true ∧
      ((r.error = 0 ∧ TookUnit (containerOf param.handle) r) ∨
        (r.error = -ETIMEDOUT ∧ Untouched (containerOf param.handle) r))) := by
  unfold ipcEventLock at h
  split at h
  · rename_i hh
    simp only at h
    split at h
    · exact .inr ⟨hh, .inl (unlimited_result h fun _ => rfl)⟩
    · exact .inr ⟨hh, timed_result h fun _ => rfl⟩
  · rename_i hh
    cases h
    exact .inl ⟨Bool.eq_false_iff.mpr hh, rfl⟩

end Results

end Gipcy.Linux
