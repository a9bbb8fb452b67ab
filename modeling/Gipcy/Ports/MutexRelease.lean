import Gipcy.Lib.OwnerlessMutex
import Gipcy.Lib.SystemVSemaphore
import Gipcy.Posix.Calls
import Gipcy.Qnx.Semaphores
import Gipcy.SystemV.Calls

/-! The mutexes of the QNX manager and of the POSIX and System V libraries. None
of them looks at who releases. -/
namespace Gipcy.Ports

open OwnerlessMutex PosixSemaphore SystemVSemaphore SystemWait Transition
open Linux (CStr Ptr Kind IPC_OK IPC_GENERAL_ERROR)

/-! The QNX manager. -/

section Qnx

variable (lim : Limits) (p : Ptr)

/-- The driver functions on the handle `p`, for a capture with its timeout and what the clock
says. A capture that finds no unit waits: with a deadline it ends with an error, without one
the manager does not return. -/
def qnxMutex : Mutex Qnx.Driver (Int32 × Qnx.Clock) where
  capture drv how :=
    match Qnx.ipcMutexLock lim drv ⟨p, how.1⟩ how.2 with
    | .done drv error => some (drv, decide (error = 0))
    | .waits drv _ => some (drv, false)
    | .undefined => none
  release drv _ :=
    match Qnx.ipcMutexUnlock lim drv ⟨p⟩ with
    | .done drv _ | .waits drv _ => some drv
    | .undefined => none

/-- The driver has just made the mutex at `p`; the library sends 0 for a mutex
that begins locked and 1 for one that does not. -/
def QnxCreated (drv : Qnx.Driver) : Prop :=
  ∃ before name value, Qnx.Open before ∧ Qnx.findName before .mutex name = none ∧
    (value = 0 ∨ value = 1) ∧ p ≠ 0 ∧
    Qnx.ipcMutexCreate lim before ⟨name, value, 0⟩ (some p) = .done drv p

/-- The registries are open and the entry at `p` is a mutex. -/
structure QnxMutexAt (p : Ptr) (drv : Qnx.Driver) : Prop where
  isOpen : Qnx.Open drv
  exist : Qnx.handleExists .mutex drv p
  sema : (drv.mem p).sema.isSome

variable {lim p} {drv : Qnx.Driver}

theorem QnxMutexAt.setLock (h : QnxMutexAt p drv) {sem : Sem} (hup : Up sem) :
    QnxMutexAt p (drv.setLock .mutex sem) :=
  ⟨h.isOpen.setLock hup, h.exist, h.sema⟩

theorem QnxMutexAt.setSema (h : QnxMutexAt p drv) {sema : Sem} (hsema : sema.isSome)
    (lockCount : UInt32) :
    QnxMutexAt p (drv.write p { drv.mem p with sema := sema, lockCount := lockCount }) :=
  ⟨h.isOpen.of_lock_eq rfl, h.exist.write rfl, by simpa using hsema⟩

/-- A capture takes a unit, or it leaves the driver as it was. -/
theorem QnxMutexAt.capture_cases {lim : Limits} (h : QnxMutexAt p drv) {how : Int32 × Qnx.Clock}
    {t : Qnx.Driver} {took : Bool} (step : (qnxMutex lim p).capture drv how = some (t, took)) :
    (took = true ∧ ∃ n sem, Up sem ∧ (drv.mem p).sema = some (n + 1) ∧
      t = (drv.write p { drv.mem p with
        sema := some n, lockCount := (drv.mem p).lockCount + 1 }).setLock .mutex sem) ∨
    (took = false ∧ ∃ sem, Up sem ∧ t = drv.setLock .mutex sem) := by
  have hup : ∀ {sem}, Qnx.Open (drv.setLock .mutex sem) → Up sem := fun hopen => by
    simpa using hopen .mutex
  have outcome := Qnx.objectLock_outcome (k := .mutex) lim h.isOpen (Qnx.lockFailed .mutex)
    ⟨p, how.1⟩ how.2
  simp only [qnxMutex, Qnx.ipcMutexLock] at step
  generalize Qnx.objectLock lim .mutex (Qnx.lockFailed .mutex) drv ⟨p, how.1⟩ how.2 = r
    at step outcome
  cases outcome with
  | refused sem hopen hnot => exact absurd h.exist hnot
  | took sem n hopen hexist hsema =>
    cases step
    exact .inl ⟨rfl, n, sem, hup hopen, hsema, rfl⟩
  | waits sem hopen =>
    cases step
    exact .inr ⟨rfl, sem, hup hopen, rfl⟩
  | unheeded sem hopen hexist hsema =>
    have hsome := h.sema
    simp [hsema] at hsome
  | failed sem hopen =>
    cases step
    exact .inr ⟨rfl, sem, hup hopen, rfl⟩
  | overflow => cases step

theorem QnxMutexAt.unlock_ends (lim : Limits) (h : QnxMutexAt p drv) :
    ∃ sem, Up sem ∧ Qnx.ipcMutexUnlock lim drv ⟨p⟩ = .done ((drv.write p { drv.mem p with
      sema := semPost lim (drv.mem p).sema
      lockCount := (drv.mem p).lockCount - 1 }).setLock .mutex sem) 0 := by
  obtain ⟨sem, hup, heq⟩ :=
    Qnx.handleCheck_eq lim .mutex h.isOpen Kind.mutex.id p (fun drv exist => _)
  refine ⟨sem, hup, ?_⟩
  simp only [Qnx.ipcMutexUnlock, Qnx.objectUnlock, if_neg h.exist.1]
  rw [heq]
  simp [h.exist.1, h.exist.2]

def qnxCounted (lim : Limits) (p : Ptr) : Counted (qnxMutex lim p) where
  valid := QnxMutexAt p
  count drv := (drv.mem p).sema.getD 0
  captured := by
    intro drv how t h step
    obtain ⟨-, n, sem, hup, hn, rfl⟩ | ⟨hfalse, -⟩ := h.capture_cases step
    · exact ⟨(h.setSema rfl _).setLock hup, by simp [hn]⟩
    · cases hfalse
  refused := by
    intro drv how t h step
    obtain ⟨htrue, -⟩ | ⟨-, sem, hup, rfl⟩ := h.capture_cases step
    · cases htrue
    · exact ⟨h.setLock hup, rfl⟩
  released := by
    intro drv timeout t h step
    obtain ⟨sem, hup, heq⟩ := h.unlock_ends lim
    obtain ⟨n, hn⟩ := Option.isSome_iff_exists.mp h.sema
    simp only [qnxMutex, heq] at step
    cases step
    refine ⟨(h.setSema ?_ _).setLock hup, ?_⟩
    · simp [hn, semPost]
    · simp only [Qnx.Driver.setLock_mem, Qnx.Driver.write_mem_self, hn, semPost, Option.getD_some]
      split <;> omega

/-- A mutex begins with one unit, or locked with none. -/
theorem QnxCreated.first (h : QnxCreated lim p drv) :
    (qnxCounted lim p).valid drv ∧ (qnxCounted lim p).count drv ≤ 1 := by
  obtain ⟨before, name, value, hopen, hfind, hvalue, hp, hmade⟩ := h
  obtain ⟨sem, hup, heq⟩ := @Qnx.registryCreate_new _ _ lim (fun value : Int32 =>
    if value ≠ 0 then semInit lim value.toUInt32 else some 0) p ⟨name, value, 0⟩ hopen hfind
  injection hmade.symm.trans heq with hdrv
  subst hdrv
  have hlarge := lim.large
  have hone : semInit lim (Int32.toUInt32 1) = some 1 := if_pos (by
    rw [show (Int32.toUInt32 1).toNat = 1 from rfl]
    omega)
  have hsema : (if value ≠ 0 then semInit lim value.toUInt32 else some 0) =
      some (if value = 0 then 0 else 1) := by
    rcases hvalue with rfl | rfl
    · rfl
    · exact hone
  have hnew : (((Qnx.insertEntry .mutex (some (if value = 0 then 0 else 1)) before name p).setLock
      .mutex sem).mem p).sema = some (if value = 0 then 0 else 1) := by
    simp [Qnx.insertEntry, Qnx.newEntry]
  rw [hsema]
  refine ⟨⟨?_, ⟨hp, ?_⟩, ?_⟩, ?_⟩
  · have hafter : Qnx.Open (Qnx.insertEntry .mutex (some (if value = 0 then 0 else 1)) before
      name p) := hopen.of_lock_eq rfl
    exact hafter.setLock hup
  · simp [Qnx.insertEntry, Qnx.newEntry]
  · rw [hnew]
    rfl
  · simp only [qnxCounted, hnew, Option.getD_some]
    split <;> omega

end Qnx

/-! The POSIX library. -/

section Posix

open Posix (semWaitCall semPostCall)

variable (lim : Limits)

/-- The library calls on the handle `h` of one semaphore. -/
def posixMutex (h : Posix.IpcObject Unit) : Mutex Sem (Int32 × Option Int) where
  capture sem how :=
    (Posix.ipcCaptureMutex (semWaitCall how.2) (some h) how.1 sem).map fun r =>
      (r.1, decide (r.2 = IPC_OK))
  release sem how := some (Posix.ipcReleaseMutex (semPostCall lim how.2) (some h) sem).1

variable {lim}

/-- A capture takes a unit, or fails and leaves the semaphore alone. -/
theorem posix_capture {h : Posix.IpcObject Unit} {sem t : Sem} {how : Int32 × Option Int}
    {took : Bool} (step : (posixMutex lim h).capture sem how = some (t, took)) :
    took = true ∧ (∃ n, sem = some (n + 1) ∧ t = some n) ∨ took = false ∧ t = sem := by
  obtain ⟨r, hr, heq⟩ := Option.map_eq_some_iff.mp step
  obtain ⟨result, hcall, hok⟩ := Posix.exists_semWait_of_lockObject hr
  obtain ⟨rfl, rfl⟩ := Prod.mk.inj heq
  rcases Posix.semWaitCall_cases hcall with ⟨-, hresult, hunit⟩ | ⟨-, hresult, hsame⟩
  · exact .inl ⟨decide_eq_true (hok.mpr hresult), hunit⟩
  · exact .inr ⟨decide_eq_false fun he => hresult (hok.mp he), hsame⟩

variable (lim)

def posixCounted (h : Posix.IpcObject Unit) : Counted (posixMutex lim h) where
  valid sem := sem.isSome
  count sem := sem.getD 0
  captured := by
    intro sem how t hsem step
    rcases posix_capture step with ⟨-, n, rfl, rfl⟩ | ⟨hfalse, -⟩
    · exact ⟨rfl, rfl⟩
    · cases hfalse
  refused := by
    intro sem how t hsem step
    rcases posix_capture step with ⟨htrue, -⟩ | ⟨-, rfl⟩
    · cases htrue
    · exact ⟨hsem, rfl⟩
  released := by
    rintro sem ⟨timeout, failed⟩ t hsem step
    obtain ⟨n, rfl⟩ := Option.isSome_iff_exists.mp hsem
    obtain ⟨m, -, hle, hm⟩ := Posix.unlockObject_semPostCall lim failed h n
    obtain rfl : some m = t := hm.symm.trans (Option.some.inj step)
    exact ⟨rfl, hle⟩

/-- `IPC_createMutex` gives `sem_open` this value. -/
def mutexValue (value : Bool) : Nat := if value then 0 else 1

theorem mutexValue_le (value : Bool) : mutexValue value ≤ 1 := by
  cases value <;> decide

end Posix

/-! The System V library. -/

section SystemV

open SystemV (semtimedop semtimedop_eq_some)

/-- The library calls on the handle `h` of one set. -/
def systemVMutex (h : SystemV.IpcObject) : Mutex SemSet (Int32 × Option Int) where
  capture set how :=
    (SystemV.ipcCaptureMutex (semtimedop how.2) (some h) how.1 set).map fun r =>
      (r.1, decide (r.2 = IPC_OK))
  release set how := (SystemV.ipcReleaseMutex (semtimedop how.2) (some h) set).map Prod.fst

theorem systemV_capture {h : SystemV.IpcObject} {set t : SemSet} {how : Int32 × Option Int}
    {took : Bool} (step : (systemVMutex h).capture set how = some (t, took)) :
    took = true ∧ set.semop (-1) = .done t ∨ took = false ∧ t = set := by
  obtain ⟨r, hr, heq⟩ := Option.map_eq_some_iff.mp step
  obtain ⟨result, hcall, hok⟩ := SystemV.exists_semtimedop_of_lockObject hr
  obtain ⟨rfl, rfl⟩ := Prod.mk.inj heq
  rcases semtimedop_eq_some hcall with ⟨hresult, hdone⟩ | ⟨hresult, hsame⟩
  · exact .inl ⟨decide_eq_true (hok.mpr hresult), hdone⟩
  · exact .inr ⟨decide_eq_false fun he => hresult (hok.mp he), hsame⟩

theorem systemV_release {h : SystemV.IpcObject} {set t : SemSet} {how : Int32 × Option Int}
    (step : (systemVMutex h).release set how = some t) : set.semop 1 = .done t ∨ t = set := by
  obtain ⟨r, hr, rfl⟩ := Option.map_eq_some_iff.mp step
  obtain ⟨result, hcall, -⟩ := SystemV.exists_semtimedop_of_unlockObject hr
  exact (semtimedop_eq_some hcall).imp And.right And.right

def systemVCounted (h : SystemV.IpcObject) : Counted (systemVMutex h) where
  valid set := 0 ≤ set.semval
  count set := set.semval.toNat
  captured := by
    intro set how t hset step
    rcases systemV_capture step with ⟨-, hdone⟩ | ⟨hfalse, -⟩
    · obtain ⟨hlow, -, rfl⟩ := SemSet.semop_eq_done_iff.mp hdone
      refine ⟨hlow, ?_⟩
      dsimp only
      omega
    · cases hfalse
  refused := by
    intro set how t hset step
    rcases systemV_capture step with ⟨htrue, -⟩ | ⟨-, rfl⟩
    · cases htrue
    · exact ⟨hset, rfl⟩
  released := by
    intro set how t hset step
    rcases systemV_release step with hdone | rfl
    · obtain ⟨hlow, -, rfl⟩ := SemSet.semop_eq_done_iff.mp hdone
      refine ⟨hlow, ?_⟩
      dsimp only
      omega
    · exact ⟨hset, by omega⟩

/-- The set after `IPC_createMutex`; its value is not looked at. -/
def mutexSet : Option SemSet := SemSet.new.setVal 1

end SystemV

section Claims

variable {ι : Type*} [DecidableEq ι]

/-- In all three a release that comes from the client inside, or that is the first
of a mutex made locked, keeps the clients apart. -/
theorem exclusive_of_owner_releases :
    (∀ (lim : Limits) (p : Ptr) (s : State Qnx.Driver ι),
      ((State.system (qnxMutex lim p) (QnxCreated lim p) ι).guard
        (State.Harmless (qnxCounted lim p))).Reachable s →
      State.Exclusive (qnxCounted lim p) s) ∧
    (∀ (lim : Limits) (h : Posix.IpcObject Unit) (value : Bool) (s : State Sem ι),
      ((State.system (posixMutex lim h) (· = some (mutexValue value)) ι).guard
        (State.Harmless (posixCounted lim h))).Reachable s →
      State.Exclusive (posixCounted lim h) s) ∧
    ∀ (h : SystemV.IpcObject) (s : State SemSet ι),
      ((State.system (systemVMutex h) (some · = mutexSet) ι).guard
        (State.Harmless (systemVCounted h))).Reachable s →
      State.Exclusive (systemVCounted h) s := by
  refine ⟨fun lim p s => State.exclusive_of_harmless fun drv => QnxCreated.first,
    fun lim h value s => State.exclusive_of_harmless ?_,
    fun h s => State.exclusive_of_harmless ?_⟩
  · rintro _ rfl
    exact ⟨rfl, mutexValue_le value⟩
  · intro set hset
    cases hset
    exact ⟨Int.zero_le_ofNat 1, le_rfl⟩

/-- A handle of each library, for examples. -/
def posixHandle : Posix.IpcObject Unit := ⟨.mutex, ()⟩

def systemVHandle : SystemV.IpcObject := ⟨.mutex, 1, 0⟩

/-- Capture, release and capture by another, on a new System V mutex. -/
theorem exclusive_of_turns : ∃ s : State SemSet Bool,
    ((State.system (systemVMutex systemVHandle) (some · = mutexSet) Bool).guard
      (State.Harmless (systemVCounted systemVHandle))).Reachable s ∧
    s.inside true = true ∧ State.Exclusive (systemVCounted systemVHandle) s := by
  let S := (State.system (systemVMutex systemVHandle) (some · = mutexSet) Bool).guard
    (State.Harmless (systemVCounted systemVHandle))
  have made : S.Reachable ⟨⟨1, 0, 0⟩, fun _ => false⟩ := .init ⟨rfl, fun _ => rfl⟩
  let capture : Call (Int32 × Option Int) := .capture (0, none)
  let release : Call (Int32 × Option Int) := .release (0, none)
  have captured := made.step (a := (false, capture)) ⟨trivial, rfl⟩
  have released := captured.step (a := (false, release)) ⟨.inl rfl, rfl⟩
  have again := released.step (a := (true, capture)) ⟨trivial, rfl⟩
  exact ⟨_, again, rfl, exclusive_of_owner_releases.2.2 systemVHandle _ again⟩

/-- A QNX mutex that was just made. -/
def newQnxMutex : Qnx.Driver :=
  match Qnx.ipcMutexCreate Qnx.leastLimits (Qnx.createInstance Qnx.leastLimits fun _ => .zero)
    ⟨CStr.x, 1, 0⟩ (some 4096) with
  | .done drv _ => drv
  | _ => Qnx.createInstance Qnx.leastLimits fun _ => .zero

theorem newQnxMutex_created : QnxCreated Qnx.leastLimits 4096 newQnxMutex :=
  ⟨_, CStr.x, 1, Qnx.Server.open_createInstance Qnx.leastLimits fun _ => .zero, rfl, .inr rfl,
    by decide, rfl⟩

/-- One client captures, another releases and captures. -/
def strayRelease {γ : Type} (how : γ) : List (Bool × Call γ) :=
  [(false, .capture how), (true, .release how), (true, .capture how)]

theorem not_exclusive_after_stray_release :
    (¬ ∀ (lim : Limits) (p : Ptr) (s : State Qnx.Driver Bool),
      (State.system (qnxMutex lim p) (QnxCreated lim p) Bool).Reachable s →
      State.Exclusive (qnxCounted lim p) s) ∧
    (¬ ∀ (lim : Limits) (h : Posix.IpcObject Unit) (value : Bool) (s : State Sem Bool),
      (State.system (posixMutex lim h) (· = some (mutexValue value)) Bool).Reachable s →
      State.Exclusive (posixCounted lim h) s) ∧
    ¬ ∀ (h : SystemV.IpcObject) (s : State SemSet Bool),
      (State.system (systemVMutex h) (some · = mutexSet) Bool).Reachable s →
      State.Exclusive (systemVCounted h) s := by
  refine ⟨fun h => ?_, fun h => ?_, fun h => ?_⟩
  · obtain ⟨s, reachable, hs⟩ := State.exists_not_exclusive
      (qnxCounted Qnx.leastLimits 4096) _ newQnxMutex_created (strayRelease (0, .zero)) (by decide)
    exact hs (h _ _ s reachable)
  · obtain ⟨s, reachable, hs⟩ := State.exists_not_exclusive
      (posixCounted Qnx.leastLimits posixHandle) (· = some (mutexValue false)) rfl
      (strayRelease (0, none)) (by decide)
    exact hs (h _ _ false s reachable)
  · obtain ⟨s, reachable, hs⟩ := State.exists_not_exclusive
      (systemVCounted systemVHandle) (some · = mutexSet) rfl (strayRelease (0, none)) (by decide)
    exact hs (h _ s reachable)

end Claims

end Gipcy.Ports
