import Gipcy.Linux.Insys

/-! The create and unlock calls of the insys library. The request structures are
local variables of the calls, so they are copied both ways. -/
namespace Gipcy.Linux

/-- The text shared by the create calls: the handle, or `NULL`. -/
def createObject (open' : Driver → IpcCreate → Bool → Bool → Option Ptr → OpenResult)
    (ipcDriverFd : Int) (drv : Driver) (param : IpcCreate) (kzalloc : Option Ptr) :
    Driver × Ptr :=
  if ipcDriverHandle ipcDriverFd < 0 then (drv, 0)
  else
    let r := open' drv param true true kzalloc
    (r.drv, if (sysIoctl r.error).1 < 0 then 0 else r.handle.getD 0)

/-- `snprintf(ipc_param.name, sizeof(ipc_param.name), "%s", name)`. -/
def paramName {m : Nat} (name : CStr m) : CStr 128 := name.snprintf 128 nameSize_pos

/-- The value is not passed on. -/
def ipcCreateSemaphore (ipcDriverFd : Int) (drv : Driver) {m : Nat} (name : CStr m)
    (_value : Int32) : Option Ptr → Driver × Ptr :=
  createObject ioctlSemOpen ipcDriverFd drv ⟨paramName name, 1, 0, 0⟩

def ipcCreateMutex (ipcDriverFd : Int) (gettid : Int32) (drv : Driver) {m : Nat} (name : CStr m)
    (value : Int32) : Option Ptr → Driver × Ptr :=
  createObject ioctlMutexOpen ipcDriverFd drv
    ⟨paramName name, if value ≠ 0 then 1 else 0, 0, gettid⟩

def ipcCreateEvent (ipcDriverFd : Int) (drv : Driver) {m : Nat} (name : CStr m)
    (manual value : Int32) : Option Ptr → Driver × Ptr :=
  createObject ioctlEventOpen ipcDriverFd drv
    ⟨paramName name, if value ≠ 0 then 0 else 1, if manual ≠ 0 then 1 else 0, 0⟩

def sharedMemoryOpen (ipcDriverFd : Int) (drv : Driver) {m : Nat} (name : CStr m)
    (size : Int32) : Option Ptr → Driver × Ptr :=
  createObject ioctlShmOpen ipcDriverFd drv ⟨paramName name, size, 0, 0⟩

/-- The text shared by the unlock, set and reset calls. -/
def unlockObject {P : Type} (unlock : Driver → P → Bool → Driver × Int) (ipcDriverFd : Int)
    (drv : Driver) (param : P) : Driver × Int :=
  if ipcDriverHandle ipcDriverFd < 0 then (drv, -1)
  else
    let r := unlock drv param true
    (r.1, if (sysIoctl r.2).1 < 0 then -1 else IPC_OK)

def ipcUnlockSemaphore (ipcDriverFd : Int) (drv : Driver) (handle : Ptr) : Driver × Int :=
  unlockObject ioctlSemUnlock ipcDriverFd drv ⟨handle, 0⟩

def ipcReleaseMutex (ipcDriverFd : Int) (gettid : Int32) (drv : Driver) (handle : Ptr) :
    Driver × Int :=
  unlockObject ioctlMutexUnlock ipcDriverFd drv ⟨handle, gettid⟩

def ipcSetEvent (ipcDriverFd : Int) (drv : Driver) (handle : Ptr) : Driver × Int :=
  unlockObject ioctlEventUnlock ipcDriverFd drv ⟨handle, 0⟩

def ipcResetEvent (ipcDriverFd : Int) (drv : Driver) (handle : Ptr) : Driver × Int :=
  unlockObject ioctlEventReset ipcDriverFd drv ⟨handle⟩

section Open

variable {fd : Int} {drv : Driver}

theorem ipcDriverHandle_open (hfd : 0 < fd) : ¬ ipcDriverHandle fd < 0 :=
  ipcDriverHandle_neg_iff.not.mpr (not_not.mpr hfd)

/-- A create call on an open driver is the create of the registry. -/
theorem createObject_eq (hfd : 0 < fd) (k : Kind) (param : IpcCreate) (kzalloc : Option Ptr) :
    createObject (ioctlOpenOf k) fd drv param kzalloc =
      registryCreate k (fill k) drv param kzalloc := by
  have hne : (registryCreate k (fill k) drv param kzalloc).2 ≠ 0 := by
    unfold registryCreate
    split
    · exact userHandle_ne_zero _
    · split <;> exact userHandle_ne_zero _
  rw [createObject, if_neg (ipcDriverHandle_open hfd), ioctlOpenOf_eq]
  simp only [ioctlOpen, Bool.not_true, Bool.false_eq_true, ↓reduceIte, hne, sysIoctl_zero]
  rfl

/-- An unlock call on an open driver whose driver function answers 0. -/
theorem unlockObject_ok {P : Type} {unlock : Driver → P → Driver × Int} (hfd : 0 < fd)
    {param : P} {after : Driver} (h : unlock drv param = (after, 0)) :
    unlockObject (ioctlUnlock unlock) fd drv param = (after, IPC_OK) := by
  rw [unlockObject, if_neg (ipcDriverHandle_open hfd)]
  simp only [ioctlUnlock, Bool.not_true, Bool.false_eq_true, ↓reduceIte, h, sysIoctl_zero]
  rfl

end Open

/-! A new driver, for examples. -/

theorem unregistered_probe (k : Kind) (name : CStr 128) :
    ¬ Registered (ipcProbe fun _ => Entry.zero) k name := by
  rintro ⟨p, hp, -⟩
  cases hp

theorem free_probe : (ipcProbe fun _ => Entry.zero).Free 4096 := by decide

end Gipcy.Linux
