import Gipcy.Linux.Calls
import Gipcy.Qnx.Insys

/-! The mutex and event calls of the insys library over the resource manager, for a client
that nobody disturbs. Nothing is known of who captures or releases, a new event has one unit
whatever was asked for, and every reset is refused. -/
namespace Gipcy.Qnx

open PosixSemaphore
open Linux (CStr Ptr Kind nameSize_pos IPC_OK ipcDriverHandle ipcDriverHandle_open)

section Calls

variable (lim : Limits) (failed : Int → Int) (errno ipcDriverFd : Int) (s : Server)

/-- The text shared by the two creates. -/
def createObject (k : Kind) (param : IpcCreate) (malloc : Option Ptr) : Option (Server × Ptr) :=
  if ipcDriverHandle ipcDriverFd < 0 then some (s, 0)
  else
    (s.call lim errno (.create k param) malloc).map fun r =>
      (r.1, if devctl failed r.2 < 0 then 0 else r.2.handle)

def ipcCreateMutex {m : Nat} (name : CStr m) (value : Bool) (malloc : Option Ptr) :
    Option (Server × Ptr) :=
  createObject lim failed errno ipcDriverFd s .mutex
    ⟨name.snprintf 128 nameSize_pos, if value then 0 else 1, 0⟩ malloc

def ipcCreateEvent {m : Nat} (name : CStr m) (manual value : Bool) (malloc : Option Ptr) :
    Option (Server × Ptr) :=
  createObject lim failed errno ipcDriverFd s .event
    ⟨name.snprintf 128 nameSize_pos, if value then 0 else 1, if manual then 1 else 0⟩ malloc

/-- The text shared by the calls on a handle. -/
def requestObject (command : Command) : Option (Server × Int) :=
  if ipcDriverHandle ipcDriverFd < 0 then some (s, -1)
  else
    (s.call lim errno command none).map fun r =>
      (r.1, if devctl failed r.2 < 0 then -1 else IPC_OK)

def ipcCaptureMutex (handle : Ptr) (timeout : Int32) (clock : Clock) : Option (Server × Int) :=
  requestObject lim failed errno ipcDriverFd s (.lock .mutex ⟨handle, timeout⟩ clock)

def ipcReleaseMutex (handle : Ptr) : Option (Server × Int) :=
  requestObject lim failed errno ipcDriverFd s (.unlock .mutex ⟨handle⟩)

def ipcWaitEvent (handle : Ptr) (timeout : Int32) (clock : Clock) : Option (Server × Int) :=
  requestObject lim failed errno ipcDriverFd s (.lock .event ⟨handle, timeout⟩ clock)

def ipcSetEvent (handle : Ptr) : Option (Server × Int) :=
  requestObject lim failed errno ipcDriverFd s (.unlock .event ⟨handle⟩)

def ipcResetEvent (handle : Ptr) : Option (Server × Int) :=
  requestObject lim failed errno ipcDriverFd s (.eventReset ⟨handle⟩)

end Calls

/-! What the manager does on each command. -/

section Handlers

variable {drv : Driver} {p : Ptr} {k : Kind}

theorem mutexCreate_new (lim : Limits) {param : IpcCreate} (h : Open drv)
    (hfind : findName drv .mutex param.name = none) (hp : p ≠ 0) :
    Ends .mutex (ioDevctl lim drv (some p) (.create .mutex param))
      (insertEntry .mutex (if param.value ≠ 0 then semInit lim param.value.toUInt32 else some 0)
        drv param.name p) (.ok (some p)) := by
  have hreply : Reply.ofHandle p = .ok (some p) := if_neg hp
  exact hreply ▸ (registryCreate_new lim (fun value : Int32 =>
    if value ≠ 0 then semInit lim value.toUInt32 else some 0) p h hfind).map _

theorem eventCreate_new (lim : Limits) {param : IpcCreate} (h : Open drv)
    (hfind : findName drv .event param.name = none) (hp : p ≠ 0) :
    Ends .event (ioDevctl lim drv (some p) (.create .event param))
      (insertEntry .event (semInit lim 1) drv param.name p) (.ok (some p)) := by
  have hreply : Reply.ofHandle p = .ok (some p) := if_neg hp
  exact hreply ▸ (registryCreate_new lim (fun _ => semInit lim 1) p h hfind).map _

/-- An event is not the mutex that the reset looks for. -/
theorem eventReset_refused (lim : Limits) (malloc : Option Ptr) (h : Open drv)
    (hexist : handleExists .event drv p) :
    Ends .event (ioDevctl lim drv malloc (.eventReset ⟨p⟩)) drv (.error (-EINVAL)) := by
  have hreset : Ends .event (ipcEventReset lim drv ⟨p⟩) drv (-EINVAL) := by
    simp only [ipcEventReset, objectUnlock, if_neg hexist.1]
    obtain ⟨sem, hup, heq⟩ := handleCheck_eq lim .event h Kind.mutex.id p (fun drv exist => _)
    have hkind : Kind.event.id ≠ Kind.mutex.id := by decide
    rw [heq]
    refine ⟨sem, hup, ?_⟩
    simp [hexist.2, hkind]
  exact hreset.map _

end Handlers

/-- The manager receives, and the entry at `p` is an object of the kind with `n` units. -/
structure HasUnits (s : Server) (k : Kind) (p : Ptr) (n : Nat) : Prop where
  receiving : s.status = .receiving
  isOpen : Open s.drv
  exist : handleExists k s.drv p
  sema : (s.drv.mem p).sema = some n

section Units

variable {lim : Limits} {failed : Int → Int} {errno fd : Int} {s t : Server} {k : Kind} {p : Ptr}
  {n : Nat} {timeout : Int32} {clock : Clock}

theorem hasUnits_left {drv : Driver} (left : t.Left k drv) (hopen : Open drv)
    (exist : handleExists k drv p) (sema : (drv.mem p).sema = some n) : HasUnits t k p n := by
  obtain ⟨receiving, sem, hup, hdrv⟩ := left
  exact ⟨receiving, hdrv ▸ hopen.setLock hup, hdrv ▸ exist, hdrv ▸ sema⟩

/-- A create that finds the name nowhere. -/
theorem hasUnits_create (failed : Int → Int) (errno : Int) (hfd : 0 < fd)
    (receiving : s.status = .receiving) (isOpen : Open s.drv) {param : IpcCreate}
    (free : s.drv.Free p) {sema : Sem} (hsema : sema = some n)
    (made : Ends k (ioDevctl lim s.drv (some p) (.create k param))
      (insertEntry k sema s.drv param.name p) (.ok (some p))) :
    ∃ t, createObject lim failed errno fd s k param (some p) = some (t, p) ∧
      HasUnits t k p n := by
  obtain ⟨t, left, hcall⟩ :=
    Server.call_ends errno receiving (fun q hq => Option.some.inj hq ▸ free) made
  refine ⟨t, ?_, hasUnits_left left (isOpen.of_lock_eq rfl) ⟨free.1, ?_⟩ ?_⟩
  · rw [createObject, if_neg (ipcDriverHandle_open hfd), hcall]
    rfl
  · simp [insertEntry, newEntry]
  · simpa [insertEntry, newEntry] using hsema

theorem hasUnits_unlock (lim : Limits) (failed : Int → Int) (errno : Int) (hfd : 0 < fd)
    (hk : k ≠ .shm) (h : HasUnits s k p n) :
    ∃ t, requestObject lim failed errno fd s (.unlock k ⟨p⟩) = some (t, IPC_OK) ∧
      HasUnits t k p (if n < lim.semValueMax then n + 1 else n) := by
  obtain ⟨t, left, hcall⟩ := Server.call_ends errno h.receiving (by simp)
    (unlock_ends lim none hk h.isOpen h.exist)
  refine ⟨t, ?_, hasUnits_left left (h.isOpen.of_lock_eq rfl) (h.exist.write rfl) ?_⟩
  · rw [requestObject, if_neg (ipcDriverHandle_open hfd), hcall]
    rfl
  · simp [h.sema, semPost]

theorem hasUnits_reset (lim : Limits) (failed : Int → Int) (errno : Int) (hfd : 0 < fd)
    (h : HasUnits s .event p n) :
    ∃ r, requestObject lim failed errno fd s (.eventReset ⟨p⟩) = some r ∧
      HasUnits r.1 .event p n := by
  obtain ⟨t, left, hcall⟩ := Server.call_ends errno h.receiving (by simp)
    (eventReset_refused lim none h.isOpen h.exist)
  rw [requestObject, if_neg (ipcDriverHandle_open hfd), hcall]
  exact ⟨_, rfl, hasUnits_left left h.isOpen h.exist h.sema⟩

/-- What the library makes of a capture or a wait that fails. -/
def refusedLock (failed : Int → Int) : Int := if failed (-1) < 0 then -1 else IPC_OK

/-- The deadline is an instant, or the library looks at it only where it waits. -/
def Clock.Suits (lim : Limits) (clock : Clock) (timeout : Int32) : Prop :=
  lim.readsDeadline = true → clock.InSecond timeout

/-- The message of a lock with a time limit, of a mutex or an event. -/
theorem call_lock (lim : Limits) (errno : Int) (hk : k ≠ .shm) (hsem : k ≠ .sem)
    (limited : ¬ timeout < 0) (short : timeout.toInt ≤ 2147) (suits : clock.Suits lim timeout)
    (h : HasUnits s k p n) :
    ∃ t, s.call lim errno (.lock k ⟨p, timeout⟩ clock) none =
        some (t, if n = 0 then .error (-1) else .ok none) ∧ HasUnits t k p (n - 1) := by
  have hfailed : ∀ e, Reply.ofError (lockFailed k e) = .error (-1) := by
    intro e
    cases k with
    | sem => exact absurd rfl hsem
    | mutex | event | shm => rfl
  rw [Server.call, Server.next_request h.receiving (by simp), ioDevctl_lock_eq lim s.drv none hk]
  have outcome := objectLock_outcome (k := k) lim h.isOpen (lockFailed k) ⟨p, timeout⟩ clock
  generalize objectLock lim k (lockFailed k) s.drv ⟨p, timeout⟩ clock = r at outcome
  cases outcome with
  | refused sem hopen hnot => exact absurd h.exist hnot
  | took sem m hopen _ hm =>
    cases Option.some.inj (h.sema.symm.trans hm)
    exact ⟨_, rfl, rfl, hopen.of_lock_eq rfl, h.exist.write rfl,
      congrArg Entry.sema (Driver.write_mem_self s.drv p _)⟩
  | waits sem hopen finds =>
    cases Option.some.inj (h.sema.symm.trans finds.2)
    refine ⟨⟨s.drv.setLock k sem, .receiving, some (.error (-1))⟩, ?_, rfl, hopen, h.exist, h.sema⟩
    simp [Server.after, Server.next, Result.map, limited, hfailed]
  | unheeded sem hopen _ hnone => cases h.sema.symm.trans hnone
  | failed sem hopen _ _ _ hinvalid =>
    obtain rfl : n = 0 := by
      rcases hinvalid with hnone | ⟨hcarry, hreads | hzero⟩
      · cases h.sema.symm.trans hnone
      · exact absurd (suits hreads) hcarry
      · exact Option.some.inj (h.sema.symm.trans hzero)
    refine ⟨⟨s.drv.setLock k sem, .receiving, some (.error (-1))⟩, ?_, rfl, hopen, h.exist, h.sema⟩
    simp [Server.after, Result.map, hfailed]
  | overflow ho => exact absurd ho.2 (Int.not_lt.mpr short)

theorem hasUnits_lock (lim : Limits) (failed : Int → Int) (errno : Int) (hfd : 0 < fd)
    (hk : k ≠ .shm) (hsem : k ≠ .sem) (limited : ¬ timeout < 0) (short : timeout.toInt ≤ 2147)
    (suits : clock.Suits lim timeout) (h : HasUnits s k p n) :
    ∃ t, requestObject lim failed errno fd s (.lock k ⟨p, timeout⟩ clock) =
        some (t, if n = 0 then refusedLock failed else IPC_OK) ∧ HasUnits t k p (n - 1) := by
  obtain ⟨t, hcall, hunits⟩ := call_lock lim errno hk hsem limited short suits h
  refine ⟨t, ?_, hunits⟩
  rw [requestObject, if_neg (ipcDriverHandle_open hfd), hcall]
  cases n <;> rfl

end Units

end Gipcy.Qnx
