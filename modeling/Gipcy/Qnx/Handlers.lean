import Gipcy.Qnx.Deadline
import Gipcy.Qnx.Types

/-! The functions of `ipcsem.cpp`, `ipcmutex.cpp`, `ipcevent.cpp` and
`ipcshm.cpp`, run by the one thread of the resource manager. A function returns,
or it waits on a semaphore, or it does what C leaves undefined: it reads through
`NULL` or overflows an `int`. -/
namespace Gipcy.Qnx

open PosixSemaphore
open Linux (CStr Ptr Kind nameSize_pos)

/-- The semaphore that the running handler waits on; a timed wait ends by itself. -/
inductive Waiting where
  | registry (k : Kind)
  | object (k : Kind) (p : Ptr) (timed : Bool)
deriving DecidableEq

inductive Result (α : Type) where
  | done (drv : Driver) (value : α)
  | waits (drv : Driver) (on : Waiting)
  | undefined

def Result.map {α β : Type} (f : α → β) : Result α → Result β
  | .done drv value => .done drv (f value)
  | .waits drv on => .waits drv on
  | .undefined => .undefined

/-- `sem_wait(&drv->m_sem_lock)`, with what follows it. -/
def semWaitLock {α : Type} (k : Kind) (drv : Driver) (rest : Driver → Result α) : Result α :=
  match semWait (drv.lock k) with
  | .took sem => rest (drv.setLock k sem)
  | .blocks => .waits drv (.registry k)
  | .invalid => rest drv

/-- `sem_post(&drv->m_sem_lock)`. -/
def semPostLock (lim : Limits) (k : Kind) (drv : Driver) : Driver :=
  drv.setLock k (semPost lim (drv.lock k))

/-- The search by `strcmp`. -/
def findName (drv : Driver) (k : Kind) (name : CStr 128) : Option Ptr :=
  (drv.mList k).find? fun p => decide ((drv.mem p).name = name)

/-- `++sem->sem_owner_count`. -/
def countOwner (drv : Driver) (p : Ptr) : Driver :=
  drv.write p { drv.mem p with ownerCount := (drv.mem p).ownerCount + 1 }

/-- The text shared by the four create functions; `init` is what they do with
the semaphore of a new entry. -/
def registryCreate (lim : Limits) (k : Kind) (init : Int32 → Sem) (drv : Driver)
    (param : IpcCreate) (malloc : Option Ptr) : Result Ptr :=
  semWaitLock k drv fun drv =>
    match findName drv k param.name with
    | some p =>
      let drv := countOwner drv p
      .done (semPostLock lim k drv) (drv.mem p).handle
    | none =>
      match malloc with
      -- `do_out` is shared with the success path and reads `sem->sem_handle`.
      | none => .undefined
      | some p =>
        let e := { Entry.zero with
          name := param.name.snprintf 128 nameSize_pos
          handle := p
          sema := init param.value }.setId k
        let drv := (drv.write p e).setList k (drv.mList k ++ [p])
        let drv := countOwner drv p
        .done (semPostLock lim k drv) (drv.mem p).handle

def ipcSemCreate (lim : Limits) :=
  registryCreate lim .sem fun value => semInit lim value.toUInt32

/-- A value of 0 makes a locked mutex: `sem_init` to 1 and then a `sem_wait`. -/
def ipcMutexCreate (lim : Limits) :=
  registryCreate lim .mutex fun value =>
    if value ≠ 0 then semInit lim value.toUInt32 else some 0

def ipcEventCreate (lim : Limits) := registryCreate lim .event fun _ => semInit lim 1

def ipcShmOpen (lim : Limits) := registryCreate lim .shm fun _ => none

/-- The handle check between `sem_wait` and `sem_post`; `id` is the magic number
that the function compares with. -/
def handleCheck {α : Type} (lim : Limits) (k : Kind) (id : UInt32) (drv : Driver) (handle : Ptr)
    (rest : Driver → Bool → Result α) : Result α :=
  semWaitLock k drv fun drv =>
    rest (semPostLock lim k drv) (handle ≠ 0 ∧ (drv.mem handle).idOf k = id)

/-- `++entry->sem_lock_count`. -/
def countLock (drv : Driver) (p : Ptr) : Driver :=
  drv.write p { drv.mem p with lockCount := (drv.mem p).lockCount + 1 }

/-- The rest of a lock once its `sem_wait` or `sem_timedwait` has ended, or while
it lasts. -/
def lockEnd (k : Kind) (drv : Driver) (handle : Ptr) (timed : Bool) (invalid : Result Int) :
    Wait → Result Int
  | .took sem =>
    .done (countLock (drv.write handle { drv.mem handle with sema := sem }) handle) 0
  | .blocks => .waits drv (.object k handle timed)
  | .invalid => invalid

/-- The text shared by the three lock functions; `failed` is what they make of a
failure of `sem_timedwait`, from its `errno`, and `clock` what they read. -/
def objectLock (lim : Limits) (k : Kind) (failed : Int → Int) (drv : Driver) (param : IpcLock)
    (clock : Clock) : Result Int :=
  if param.handle = 0 then .done drv (-EINVAL)
  else handleCheck lim k k.id drv param.handle fun drv exist =>
    if exist then
      let sema := (drv.mem param.handle).sema
      if param.timeout < 0 then
        -- The result of `sem_wait` is dropped.
        lockEnd k drv param.handle false (.done (countLock drv param.handle) 0) (semWait sema)
      else
        match msToTimespec param.timeout clock.reading with
        | none => .undefined
        | some tm =>
          lockEnd k drv param.handle true (.done drv (failed EINVAL)) (semTimedwait lim tm sema)
    else .done drv (-EINVAL)

/-- `sem_timedwait` has returned -1; the semaphore functions return `errno`. -/
def lockFailed : Kind → Int → Int
  | .sem, errno => errno
  | _, _ => -1

def ipcSemLock (lim : Limits) := objectLock lim .sem (lockFailed .sem)
def ipcMutexLock (lim : Limits) := objectLock lim .mutex (lockFailed .mutex)
def ipcEventLock (lim : Limits) := objectLock lim .event (lockFailed .event)

/-- The text shared by the three unlock functions and `ipc_event_reset`. -/
def objectUnlock (lim : Limits) (k : Kind) (id : UInt32) (drv : Driver) (handle : Ptr) :
    Result Int :=
  if handle = 0 then .done drv (-EINVAL)
  else handleCheck lim k id drv handle fun drv exist =>
    if exist then
      let e := drv.mem handle
      .done (drv.write handle
        { e with sema := semPost lim e.sema, lockCount := e.lockCount - 1 }) 0
    else .done drv (-EINVAL)

def ipcSemUnlock (lim : Limits) (drv : Driver) (param : IpcUnlock) :=
  objectUnlock lim .sem Kind.sem.id drv param.handle

def ipcMutexUnlock (lim : Limits) (drv : Driver) (param : IpcUnlock) :=
  objectUnlock lim .mutex Kind.mutex.id drv param.handle

def ipcEventUnlock (lim : Limits) (drv : Driver) (param : IpcUnlock) :=
  objectUnlock lim .event Kind.event.id drv param.handle

/-- The only one of the four that compares `event_id` with another kind's number. -/
def ipcEventReset (lim : Limits) (drv : Driver) (param : IpcReset) :=
  objectUnlock lim .event Kind.mutex.id drv param.handle

/-- The loop of the four close functions; `destroy` is `sem_destroy` where there
is a semaphore. -/
def closeLoop (handle : Ptr) (destroy : Entry → Entry) :
    List Ptr → (Ptr → Entry) → Int → (Ptr → Entry) × List Ptr × Int
  | [], mem, error => (mem, [], error)
  | p :: rest, mem, error =>
    if p = handle then
      let e := { mem p with ownerCount := (mem p).ownerCount - 1 }
      if e.ownerCount = 0 then (Function.update mem p (destroy e), rest, 0)
      else
        let after := closeLoop handle destroy rest (Function.update mem p e) (-EBUSY)
        (after.1, p :: after.2.1, after.2.2)
    else
      let after := closeLoop handle destroy rest mem error
      (after.1, p :: after.2.1, after.2.2)

/-- What the four close functions do once they have entered their registry. -/
def closeBody (lim : Limits) (k : Kind) (exist : Entry → Bool) (destroy : Entry → Entry)
    (handle : Ptr) (drv : Driver) : Result Int :=
  if exist (drv.mem handle) then
    let after := closeLoop handle destroy (drv.mList k) drv.mem (-EINVAL)
    .done (semPostLock lim k ({ drv with mem := after.1 }.setList k after.2.1)) after.2.2
  else .done (semPostLock lim k drv) (-EINVAL)

def Entry.destroy (e : Entry) : Entry := { e with sema := none }

/-- A `sem_post` stands where the other three have their `sem_wait`. -/
def ipcSemClose (lim : Limits) (drv : Driver) (param : IpcClose) : Result Int :=
  if param.handle = 0 then .done drv (-EINVAL)
  else
    closeBody lim .sem (fun e => e.idOf .sem = Kind.sem.id) Entry.destroy param.handle
      (semPostLock lim .sem drv)

/-- The text shared by the other three. -/
def registryClose (lim : Limits) (k : Kind) (exist : Entry → Bool) (destroy : Entry → Entry)
    (drv : Driver) (param : IpcClose) : Result Int :=
  if param.handle = 0 then .done drv (-EINVAL)
  else semWaitLock k drv (closeBody lim k exist destroy param.handle)

/-- `exist` begins as `true`. -/
def ipcMutexClose (lim : Limits) := registryClose lim .mutex (fun _ => true) Entry.destroy

/-- The handle is compared with `MUTEX_ID`, and so is that of a shared memory. -/
def ipcEventClose (lim : Limits) :=
  registryClose lim .event (fun e => e.idOf .event = Kind.mutex.id) Entry.destroy

def ipcShmClose (lim : Limits) :=
  registryClose lim .shm (fun e => e.idOf .shm = Kind.mutex.id) fun e => e

/-- Nobody is inside a registry. -/
def Open (drv : Driver) : Prop := ∀ k, Up (drv.lock k)

namespace Open

variable {drv : Driver} {α : Type}

theorem of_lock_eq {drv' : Driver} (h : Open drv) (he : drv'.lock = drv.lock) : Open drv' := by
  unfold Open
  rw [he]
  exact h

theorem setLock (h : Open drv) {k : Kind} {sem : Sem} (hk : Up sem) : Open (drv.setLock k sem) := by
  intro l
  by_cases hl : l = k
  · subst hl
    rw [Driver.setLock_lock_self]
    exact hk
  · rw [drv.setLock_lock_ne _ hl]
    exact h l

theorem semPostLock (h : Open drv) (lim : Limits) (k : Kind) : Open (semPostLock lim k drv) :=
  h.setLock ((h k).semPost lim)

/-- Entering an open registry does not wait. -/
theorem semWaitLock (h : Open drv) (k : Kind) (rest : Driver → Result α) :
    ∃ n, semWaitLock k drv rest = rest (drv.setLock k (some n)) := by
  obtain ⟨n, hn⟩ := (h k).semWait
  exact ⟨n, by simp only [Qnx.semWaitLock, hn]⟩

/-- A registry that was entered is open again after the `sem_post`, whatever was
done to the list and the entries between. -/
theorem leave (h : Open drv) (lim : Limits) {k : Kind} {n : Nat} {drv' : Driver}
    (he : drv'.lock = (drv.setLock k (some n)).lock) : Open (Qnx.semPostLock lim k drv') := by
  intro l
  unfold Qnx.semPostLock
  by_cases hl : l = k
  · subst hl
    rw [Driver.setLock_lock_self, he, Driver.setLock_lock_self]
    exact up_semPost lim n
  · rw [drv'.setLock_lock_ne _ hl, he, drv.setLock_lock_ne _ hl]
    exact h l

end Open

/-- A function that returns and leaves the registries open. -/
def Result.Returns {α : Type} (r : Result α) : Prop :=
  ∃ drv value, r = .done drv value ∧ Open drv

/-- A handle that the check of its kind accepts. -/
def handleExists (k : Kind) (drv : Driver) (handle : Ptr) : Prop :=
  handle ≠ 0 ∧ (drv.mem handle).idOf k = k.id

instance (k : Kind) (drv : Driver) (handle : Ptr) : Decidable (handleExists k drv handle) :=
  inferInstanceAs (Decidable (_ ∧ _))

/-- What is written at a handle keeps it valid if the magic number stays. -/
theorem handleExists.write {k : Kind} {drv : Driver} {handle : Ptr}
    (exist : handleExists k drv handle) {e : Entry}
    (id : e.idOf k = (drv.mem handle).idOf k) : handleExists k (drv.write handle e) handle := by
  refine ⟨exist.1, ?_⟩
  rw [Driver.write_mem_self, id]
  exact exist.2

/-- A lock request that finds no unit. -/
def FindsNone (k : Kind) (drv : Driver) (param : IpcLock) : Prop :=
  handleExists k drv param.handle ∧ (drv.mem param.handle).sema = some 0

instance (k : Kind) (drv : Driver) (param : IpcLock) : Decidable (FindsNone k drv param) :=
  inferInstanceAs (Decidable (_ ∧ _))

section Outcomes

variable {lim : Limits} {drv : Driver} {k : Kind}

theorem registryCreate_returns (h : Open drv) {init : Int32 → Sem} {param : IpcCreate}
    {malloc : Option Ptr} (memory : findName drv k param.name = none → malloc ≠ none) :
    (registryCreate lim k init drv param malloc).Returns := by
  unfold registryCreate
  obtain ⟨n, hn⟩ := h.semWaitLock k (fun drv => _)
  rw [hn]
  have hfind : findName (drv.setLock k (some n)) k param.name = findName drv k param.name := rfl
  rw [hfind]
  cases hname : findName drv k param.name with
  | some p => exact ⟨_, _, rfl, h.leave lim rfl⟩
  | none =>
    cases malloc with
    | none => exact absurd rfl (memory hname)
    | some p => exact ⟨_, _, rfl, h.leave lim rfl⟩

theorem registryCreate_undefined (h : Open drv) {init : Int32 → Sem} {param : IpcCreate}
    (hname : findName drv k param.name = none) :
    registryCreate lim k init drv param none = .undefined := by
  unfold registryCreate
  obtain ⟨n, hn⟩ := h.semWaitLock k (fun drv => _)
  rw [hn]
  have hfind : findName (drv.setLock k (some n)) k param.name = none := hname
  rw [hfind]

/-- The handle check does not wait either. -/
theorem handleCheck_eq {α : Type} (lim : Limits) (k : Kind) (h : Open drv) (id : UInt32)
    (handle : Ptr)
    (rest : Driver → Bool → Result α) :
    ∃ sem, Up sem ∧ handleCheck lim k id drv handle rest =
      rest (drv.setLock k sem) (handle ≠ 0 ∧ (drv.mem handle).idOf k = id) := by
  obtain ⟨n, hn⟩ := h.semWaitLock k (fun drv =>
    rest (semPostLock lim k drv) (handle ≠ 0 ∧ (drv.mem handle).idOf k = id))
  refine ⟨semPost lim (some n), up_semPost lim n, hn.trans ?_⟩
  simp only [semPostLock, Driver.setLock_lock_self, Driver.setLock_setLock, Driver.setLock_mem]
  rfl

theorem objectUnlock_returns (h : Open drv) (id : UInt32) (handle : Ptr) :
    (objectUnlock lim k id drv handle).Returns := by
  unfold objectUnlock
  split
  · exact ⟨_, _, rfl, h⟩
  · obtain ⟨sem, hup, heq⟩ := handleCheck_eq lim k h id handle (fun drv exist => _)
    rw [heq]
    split
    · exact ⟨_, _, rfl, (h.setLock hup).of_lock_eq rfl⟩
    · exact ⟨_, _, rfl, h.setLock hup⟩

/-- An unlock of an object posts its semaphore, any other is refused. -/
theorem objectUnlock_eq (lim : Limits) (k : Kind) (h : Open drv) (handle : Ptr) :
    ∃ drv', objectUnlock lim k k.id drv handle =
        .done drv' (if handleExists k drv handle then 0 else -EINVAL) ∧
      (handleExists k drv handle →
        (drv'.mem handle).sema = semPost lim (drv.mem handle).sema) := by
  unfold objectUnlock
  by_cases hnull : handle = 0
  · have hnot : ¬ handleExists k drv handle := fun he => he.1 hnull
    rw [if_pos hnull, if_neg hnot]
    exact ⟨drv, rfl, fun he => absurd he hnot⟩
  · rw [if_neg hnull]
    obtain ⟨sem, -, heq⟩ :=
      handleCheck_eq lim k h k.id handle (fun drv exist => _)
    rw [heq]
    by_cases hexist : handleExists k drv handle
    · have htrue : decide (handle ≠ 0 ∧ (drv.mem handle).idOf k = k.id) = true :=
        decide_eq_true hexist
      rw [if_pos htrue, if_pos hexist]
      exact ⟨_, rfl, fun _ => by simp [Driver.write]⟩
    · have hfalse : ¬ decide (handle ≠ 0 ∧ (drv.mem handle).idOf k = k.id) = true := fun he =>
        hexist (of_decide_eq_true he)
      rw [if_neg hfalse, if_neg hexist]
      exact ⟨_, rfl, fun he => absurd he hexist⟩

/-- A lock with a time limit on an object of its kind has to compute a deadline that
overflows. -/
def Overflows (k : Kind) (drv : Driver) (param : IpcLock) : Prop :=
  handleExists k drv param.handle ∧ 2147 < param.timeout.toInt

instance (k : Kind) (drv : Driver) (param : IpcLock) : Decidable (Overflows k drv param) :=
  inferInstanceAs (Decidable (_ ∧ _))

/-- What becomes of a lock. -/
inductive LockOutcome (lim : Limits) (k : Kind) (failed : Int → Int) (drv : Driver)
    (param : IpcLock) (clock : Clock) : Result Int → Prop where
  | refused (sem : Sem) : Open (drv.setLock k sem) → ¬ handleExists k drv param.handle →
      LockOutcome lim k failed drv param clock (.done (drv.setLock k sem) (-EINVAL))
  | took (sem : Sem) (n : Nat) : Open (drv.setLock k sem) → handleExists k drv param.handle →
      (drv.mem param.handle).sema = some (n + 1) →
      (¬ param.timeout < 0 → param.timeout.toInt ≤ 2147 ∧
        (clock.InSecond param.timeout ∨ lim.readsDeadline = false)) →
      LockOutcome lim k failed drv param clock
        (.done ((drv.write param.handle { drv.mem param.handle with
          sema := some n, lockCount := (drv.mem param.handle).lockCount + 1 }).setLock k sem) 0)
  | waits (sem : Sem) : Open (drv.setLock k sem) → FindsNone k drv param →
      (¬ param.timeout < 0 → param.timeout.toInt ≤ 2147 ∧ clock.InSecond param.timeout) →
      LockOutcome lim k failed drv param clock
        (.waits (drv.setLock k sem) (.object k param.handle (!decide (param.timeout < 0))))
  /-- `sem_wait` has failed, and nobody looks. -/
  | unheeded (sem : Sem) : Open (drv.setLock k sem) → handleExists k drv param.handle →
      (drv.mem param.handle).sema = none → param.timeout < 0 →
      LockOutcome lim k failed drv param clock
        (.done (countLock (drv.setLock k sem) param.handle) 0)
  | failed (sem : Sem) : Open (drv.setLock k sem) → handleExists k drv param.handle →
      ¬ param.timeout < 0 → param.timeout.toInt ≤ 2147 →
      ((drv.mem param.handle).sema = none ∨ ¬ clock.InSecond param.timeout ∧
        (lim.readsDeadline = true ∨ (drv.mem param.handle).sema = some 0)) →
      LockOutcome lim k failed drv param clock (.done (drv.setLock k sem) (failed EINVAL))
  | overflow : Overflows k drv param → ¬ param.timeout < 0 →
      LockOutcome lim k failed drv param clock .undefined

theorem lockEnd_took (sem sema : Sem) (handle : Ptr) (timed : Bool) (invalid : Result Int) :
    lockEnd k (drv.setLock k sem) handle timed invalid (.took sema) =
      .done ((drv.write handle { drv.mem handle with
        sema := sema, lockCount := (drv.mem handle).lockCount + 1 }).setLock k sem) 0 := by
  simp [lockEnd, countLock, Driver.write, Driver.setLock]

theorem objectLock_outcome (lim : Limits) (h : Open drv) (failed : Int → Int) (param : IpcLock)
    (clock : Clock) :
    LockOutcome lim k failed drv param clock (objectLock lim k failed drv param clock) := by
  unfold objectLock
  split
  · rename_i hnull
    have hsame : drv.setLock k (drv.lock k) = drv := by simp [Driver.setLock]
    have hrefused : LockOutcome lim k failed drv param clock
        (.done (drv.setLock k (drv.lock k)) (-EINVAL)) :=
      .refused _ (hsame.symm ▸ h) fun hexist => hexist.1 hnull
    rwa [hsame] at hrefused
  · obtain ⟨sem, hup, heq⟩ := handleCheck_eq lim k h k.id param.handle (fun drv exist => _)
    have hopen : Open (drv.setLock k sem) := h.setLock hup
    rw [heq]
    by_cases hexist : handleExists k drv param.handle
    · have htrue : decide (param.handle ≠ 0 ∧ (drv.mem param.handle).idOf k = k.id) = true :=
        decide_eq_true hexist
      rw [if_pos htrue, Driver.setLock_mem]
      by_cases htimeout : param.timeout < 0
      · simp only [htimeout, if_true]
        rcases hsema : (drv.mem param.handle).sema with _ | n | n
        · exact .unheeded sem hopen hexist hsema htimeout
        · have hwaits : LockOutcome lim k failed drv param clock (.waits (drv.setLock k sem)
              (.object k param.handle (!decide (param.timeout < 0)))) :=
            .waits sem hopen ⟨hexist, hsema⟩ (absurd htimeout)
          rwa [decide_eq_true htimeout] at hwaits
        · simp only [semWait, lockEnd_took]
          exact .took sem n hopen hexist hsema (absurd htimeout)
      · rw [if_neg htimeout]
        rcases clock.msToTimespec_cases htimeout with ⟨high, hnone⟩ | ⟨low, ts, hts, hnormal⟩
        · rw [hnone]
          exact .overflow ⟨hexist, high⟩ htimeout
        · rw [hts]
          obtain ⟨n, hsema, hreads, heq⟩ | ⟨hsema, hnorm, heq⟩ | ⟨hinvalid, heq⟩ :=
            semTimedwait_cases lim ts (drv.mem param.handle).sema
          · simp only [heq, lockEnd_took]
            exact .took sem n hopen hexist hsema fun _ => ⟨low, hreads.imp_left hnormal.mp⟩
          · have hwaits : LockOutcome lim k failed drv param clock (.waits (drv.setLock k sem)
                (.object k param.handle (!decide (param.timeout < 0)))) :=
              .waits sem hopen ⟨hexist, hsema⟩ fun _ => ⟨low, hnormal.mp hnorm⟩
            simp only [heq]
            rwa [decide_eq_false htimeout] at hwaits
          · simp only [heq]
            rw [hnormal] at hinvalid
            exact .failed sem hopen hexist htimeout low hinvalid
    · have hfalse : ¬ decide (param.handle ≠ 0 ∧ (drv.mem param.handle).idOf k = k.id) = true :=
        fun he => hexist (of_decide_eq_true he)
      rw [if_neg hfalse]
      exact .refused sem hopen hexist

/-- The loop writes no registry lock. -/
theorem closeBody_returns {exist : Entry → Bool} {destroy : Entry → Entry} {handle : Ptr}
    {drv' : Driver}
    (h : ∀ drv'' : Driver, drv''.lock = drv'.lock → Open (semPostLock lim k drv'')) :
    (closeBody lim k exist destroy handle drv').Returns := by
  unfold closeBody
  split
  · exact ⟨_, _, rfl, h _ rfl⟩
  · exact ⟨_, _, rfl, h _ rfl⟩

theorem registryClose_returns (h : Open drv) (exist : Entry → Bool) (destroy : Entry → Entry)
    (param : IpcClose) : (registryClose lim k exist destroy drv param).Returns := by
  unfold registryClose
  split
  · exact ⟨_, _, rfl, h⟩
  · obtain ⟨n, hn⟩ := h.semWaitLock k (closeBody lim k exist destroy param.handle)
    rw [hn]
    exact closeBody_returns fun drv'' he => h.leave lim he

theorem ipcSemClose_returns (h : Open drv) (param : IpcClose) :
    (ipcSemClose lim drv param).Returns := by
  unfold ipcSemClose
  split
  · exact ⟨_, _, rfl, h⟩
  · refine closeBody_returns fun drv'' he => ?_
    have hopen : Open drv'' := (h.semPostLock lim .sem).of_lock_eq he
    exact hopen.semPostLock lim .sem

end Outcomes

end Gipcy.Qnx
