import Gipcy.Posix.Calls
import Gipcy.SystemV.Calls
import Gipcy.Linux.Requests
import Mathlib.Data.Nat.Cast.Basic

/-! What the timeout of a lock, capture or wait becomes in the three Linux
backends: ticks of the timer in the driver, a duration in the System V library, a
deadline in the POSIX library. -/
namespace Gipcy.Ports

open SystemWait CountingSemaphore
open Linux (Kind)

section Insys

variable (timer : Timer)

/-- The text shared by the three lock functions of the driver. -/
def downWait (timeout : Int32) : Wait :=
  if timeout < 0 then .unlimited else .jiffies (timer.msecsToJiffies timeout.toUInt32)

/-- `ipc_sem_lock`. -/
def ipcSemLockWait := downWait timer

/-- `ipc_mutex_lock`. -/
def ipcMutexLockWait := downWait timer

/-- `ipc_event_lock`. -/
def ipcEventLockWait := downWait timer

/-- The function that waits without a limit is `down`, for a mutex
`down_interruptible`. -/
def waitKind (k : Kind) : Wait → WaitKind
  | .unlimited => if k = .mutex then .interruptible else .unlimited
  | _ => .timed

/-- The lock functions end as the wait on this argument does. -/
theorem ipcLock_isSome (k : Kind) (hk : k ≠ .shm) {enter wake : Linux.Driver}
    {param : Linux.IpcLock} (exist : Linux.handleExists k enter param.handle = true)
    (other : k = .mutex → (enter.mem (Linux.containerOf param.handle)).lockerid ≠ param.lockerid)
    (how : WaitEnd) :
    (Linux.ipcLock k enter wake param how).isSome =
      (wait (waitKind k (downWait timer param.timeout)) how
        (wake.mem (Linux.containerOf param.handle)).sema).isSome := by
  cases k with
  | shm => exact absurd rfl hk
  | sem =>
    by_cases ht : param.timeout < 0 <;>
      simp [Linux.ipcLock, Linux.ipcSemLock, Linux.Entry.down, exist, downWait, waitKind, ht]
  | mutex =>
    have hother := other rfl
    by_cases ht : param.timeout < 0 <;>
      simp [Linux.ipcLock, Linux.ipcMutexLock, Linux.Entry.down, exist, hother, downWait,
        waitKind, ht]
  | event =>
    by_cases ht : param.timeout < 0 <;>
      simp [Linux.ipcLock, Linux.ipcEventLock, Linux.Entry.down, exist, downWait, waitKind, ht]

end Insys

inductive Backend where
  | insys
  | systemV
  | posix
deriving DecidableEq

inductive WaitCall where
  | lockSemaphore
  | captureMutex
  | waitEvent
deriving DecidableEq

/-- The waits that a call on a handle asks for; `v` and `p` are the handles and
the ends of the system calls. -/
def waits (timer : Timer) {Sem : Type} (v : SystemV.IpcObject × SystemV.SysResult)
    (p : Posix.IpcObject Sem × Posix.SysResult) (timeout : Int32) :
    Backend → WaitCall → Option (List Wait)
  | .insys, .lockSemaphore => some [ipcSemLockWait timer timeout]
  | .insys, .captureMutex => some [ipcMutexLockWait timer timeout]
  | .insys, .waitEvent => some [ipcEventLockWait timer timeout]
  | .systemV, .lockSemaphore =>
    SystemV.waits (SystemV.ipcLockSemaphore · (some v.1) timeout) v.2
  | .systemV, .captureMutex =>
    SystemV.waits (SystemV.ipcCaptureMutex · (some v.1) timeout) v.2
  | .systemV, .waitEvent => SystemV.waits (SystemV.ipcWaitEvent · (some v.1) timeout) v.2
  | .posix, .lockSemaphore => Posix.waits (Posix.ipcLockSemaphore · (some p.1) timeout) p.2
  | .posix, .captureMutex => Posix.waits (Posix.ipcCaptureMutex · (some p.1) timeout) p.2
  | .posix, .waitEvent => Posix.waits (Posix.ipcWaitEvent · (some p.1) timeout) p.2

/-- The argument of the one wait of a backend. -/
def waitOf (timer : Timer) (timeout : Int32) : Backend → Wait
  | .insys => downWait timer timeout
  | .systemV => SystemV.lockWait timeout
  | .posix => Posix.lockWait timeout

/-- Each of the three calls waits once, for as long as the timeout means. -/
def KeepsTimeout (timer : Timer) (now : Nat) {Sem : Type}
    (v : SystemV.IpcObject × SystemV.SysResult) (p : Posix.IpcObject Sem × Posix.SysResult)
    (timeout : Int32) (b : Backend) : Prop :=
  ∀ call, ∃ w, waits timer v p timeout b call = some [w] ∧ w.Means timer now timeout.toInt

section Backends

variable {timer : Timer} {now : Nat} {Sem : Type} {v : SystemV.IpcObject × SystemV.SysResult}
  {p : Posix.IpcObject Sem × Posix.SysResult} {timeout : Int32}

theorem waits_eq (b : Backend) (call : WaitCall) :
    waits timer v p timeout b call = some [waitOf timer timeout b] := by
  cases b with
  | insys => cases call <;> rfl
  | systemV =>
    cases call with
    | lockSemaphore => exact SystemV.waits_lockObject v.1 timeout v.2
    | captureMutex => exact SystemV.waits_lockObject v.1 timeout v.2
    | waitEvent => exact SystemV.waits_ipcWaitEvent v.1 timeout v.2
  | posix => cases call <;> rfl

theorem keepsTimeout_iff (b : Backend) :
    KeepsTimeout timer now v p timeout b ↔
      (waitOf timer timeout b).Means timer now timeout.toInt := by
  constructor
  · intro h
    obtain ⟨w, hw, hmeans⟩ := h .lockSemaphore
    rw [waits_eq] at hw
    cases hw
    exact hmeans
  · exact fun h call => ⟨_, waits_eq b call, h⟩

theorem downWait_means_iff :
    (downWait timer timeout).Means timer now timeout.toInt ↔
      timeout.toInt < 0 ∨ (1000 : Int) ∣ timeout.toInt * timer.HZ := by
  unfold downWait
  by_cases h : timeout < 0
  · have hneg : timeout.toInt < 0 := Int32.lt_iff_toInt_lt.mp h
    rw [if_pos h, means_unlimited_iff]
    exact iff_of_true hneg (.inl hneg)
  · have hnonneg : 0 ≤ timeout.toInt := not_lt.mp fun hneg => h (Int32.lt_iff_toInt_lt.mpr hneg)
    have hle : 0 ≤ timeout := Int32.le_iff_toInt_le.mpr hnonneg
    have hnat : ((timeout.toUInt32.toNat : Nat) : Int) = timeout.toInt := by
      rw [Int32.toNat_toUInt32_of_le hle, Int32.cast_toNatClampNeg timeout hle]
    have hlt := timeout.toInt_lt
    rw [if_neg h, means_iff_lasts timer now _ hnonneg, ← hnat,
      lasts_jiffies_iff timer now _ (by omega)]
    norm_cast
    exact (or_iff_right (by omega)).symm

/-- The whole seconds are right, the rest is counted twice and in the wrong unit. -/
theorem lockWait_means_iff_systemV :
    (SystemV.lockWait timeout).Means timer now timeout.toInt ↔ timeout.toInt < 0 := by
  unfold SystemV.lockWait
  by_cases h : timeout > 0
  · have hpos : 0 < timeout.toInt := Int32.lt_iff_toInt_lt.mp h
    have hdiv : (timeout / 1000).toInt = timeout.toInt / 1000 := by
      rw [Int32.toInt_div_of_ne_right timeout 1000 (by decide)]
      exact Int.tdiv_eq_ediv_of_nonneg hpos.le
    rw [if_pos h, means_iff_lasts timer now _ hpos.le]
    simp only [Wait.Lasts, Timespec.Normalised, Timespec.nanos, nanosPerSec, nanosPerMsec, hdiv]
    omega
  · rw [if_neg h, means_unlimited_iff]

/-- The number is far too small for an instant, and no clock is read. -/
theorem lockWait_means_iff_posix :
    (Posix.lockWait timeout).Means timer now timeout.toInt ↔ timeout.toInt < 0 := by
  unfold Posix.lockWait
  by_cases h : timeout > 0
  · have hpos : 0 < timeout.toInt := Int32.lt_iff_toInt_lt.mp h
    have hmul : (timeout * 10000).toInt = (timeout.toInt * 10000).bmod (2 ^ 32) :=
      Int32.toInt_mul timeout 10000
    rw [if_pos h, means_iff_lasts timer now _ hpos.le]
    simp only [Wait.Lasts, Timespec.Normalised, Timespec.nanos, nanosPerSec, nanosPerMsec, hmul]
    rw [show (2 : Nat) ^ 32 = 4294967296 from rfl, Int.bmod_def]
    -- A deadline this late leaves no room for the product to wrap around.
    have hquot : 0 ≤ timeout.toInt * 10000 / 4294967296 := by omega
    omega
  · rw [if_neg h, means_unlimited_iff]

end Backends

section Claims

/-- The driver is exact where the timeout is a whole number of ticks, the other two
only where there is no limit; so the three agree below 0 alone. -/
theorem keeps_timeout_iff (timer : Timer) (now : Nat) {Sem : Type}
    (v : SystemV.IpcObject × SystemV.SysResult) (p : Posix.IpcObject Sem × Posix.SysResult)
    (timeout : Int32) :
    ((∀ b, KeepsTimeout timer now v p timeout b) ↔ timeout.toInt < 0) ∧
    (KeepsTimeout timer now v p timeout .insys ↔
      timeout.toInt < 0 ∨ (1000 : Int) ∣ timeout.toInt * timer.HZ) ∧
    (KeepsTimeout timer now v p timeout .systemV ↔ timeout.toInt < 0) ∧
    (KeepsTimeout timer now v p timeout .posix ↔ timeout.toInt < 0) := by
  have hinsys : KeepsTimeout timer now v p timeout .insys ↔ _ :=
    (keepsTimeout_iff _).trans downWait_means_iff
  have hsystemV : KeepsTimeout timer now v p timeout .systemV ↔ _ :=
    (keepsTimeout_iff _).trans lockWait_means_iff_systemV
  have hposix : KeepsTimeout timer now v p timeout .posix ↔ _ :=
    (keepsTimeout_iff _).trans lockWait_means_iff_posix
  refine ⟨⟨fun h => hposix.mp (h .posix), fun h b => ?_⟩, hinsys, hsystemV, hposix⟩
  cases b with
  | insys => exact hinsys.mpr (.inl h)
  | systemV => exact hsystemV.mpr h
  | posix => exact hposix.mpr h

/-- A semaphore of each library, for examples. -/
def systemVSem : SystemV.IpcObject := ⟨.semaphore, 1, 0⟩

def posixSem : Posix.IpcObject Unit := ⟨.semaphore, ()⟩

/-- With the timeout 0 the two libraries wait without a limit. -/
theorem timeout_not_kept : ¬ ∀ (timer : Timer) (now : Nat) (timeout : Int32) (b : Backend),
    KeepsTimeout timer now (systemVSem, .ok) (posixSem, .ok) timeout b := by
  intro h
  obtain ⟨w, hw, hmeans⟩ := h .msec 0 0 .posix .lockSemaphore
  rw [waits_eq] at hw
  cases hw
  exact absurd ((means_unlimited_iff .msec 0).mp hmeans) (by decide)

end Claims

end Gipcy.Ports
