import Gipcy.Lib.PosixSemaphore
import Gipcy.Linux.Types

/-! The data of the QNX resource manager: the request structures of its
`ipcioctl.h`, and the registered entries and the driver instance of `ipcdrv.h`.
Names, kinds and magic numbers are those of the Linux driver. -/
namespace Gipcy.Qnx

open PosixSemaphore
open Linux (CStr Ptr Kind)

abbrev EBUSY : Int := 16
abbrev EINVAL : Int := 22

structure IpcCreate where
  name : CStr 128
  value : Int32
  flag : Int32
deriving DecidableEq

structure IpcLock where
  handle : Ptr
  timeout : Int32
deriving DecidableEq

structure IpcUnlock where
  handle : Ptr
deriving DecidableEq

structure IpcReset where
  handle : Ptr
deriving DecidableEq

structure IpcClose where
  handle : Ptr
deriving DecidableEq

/-- `struct ipcsem_t`, `ipcmutex_t`, `ipcevent_t` and `ipcshm_t` in one record;
`atomic_t` is `unsigned` here. Where the others end with their `id`, an event has
its `event_flag`, and `event_id` lies behind it. -/
structure Entry where
  name : CStr 128
  handle : Ptr
  ownerCount : UInt32
  lockCount : UInt32
  sema : Sem
  id : UInt32
  eventId : UInt32
deriving DecidableEq

/-- The magic number that a function of a kind reads at a handle. -/
def Entry.idOf (e : Entry) (k : Kind) : UInt32 := if k = .event then e.eventId else e.id

/-- What `memset` leaves. -/
def Entry.zero : Entry where
  name := CStr.empty
  handle := 0
  ownerCount := 0
  lockCount := 0
  sema := none
  id := 0
  eventId := 0

/-- `sem->sem_id = SEM_ID`; no event function writes `event_flag`. -/
def Entry.setId (e : Entry) (k : Kind) : Entry :=
  { e with
    id := if k = .event then e.id else k.id
    eventId := if k = .event then k.id else e.eventId }

namespace Entry

variable (e : Entry) (k : Kind)

@[simp] theorem setId_name : (e.setId k).name = e.name := rfl

@[simp] theorem setId_handle : (e.setId k).handle = e.handle := rfl

@[simp] theorem setId_ownerCount : (e.setId k).ownerCount = e.ownerCount := rfl

@[simp] theorem setId_lockCount : (e.setId k).lockCount = e.lockCount := rfl

@[simp] theorem setId_sema : (e.setId k).sema = e.sema := rfl

@[simp] theorem setId_idOf : (e.setId k).idOf k = k.id := by
  by_cases hk : k = .event <;> simp [setId, idOf, hk]

end Entry

/-- `mList k` is `m_sem_list`, `m_mutex_list`, `m_event_list` or `m_shm_list`,
and `lock k` the semaphore that guards it. -/
structure Driver where
  mem : Ptr → Entry
  mList : Kind → List Ptr
  lock : Kind → Sem

namespace Driver

def write (drv : Driver) (p : Ptr) (e : Entry) : Driver :=
  { drv with mem := Function.update drv.mem p e }

def setList (drv : Driver) (k : Kind) (ps : List Ptr) : Driver :=
  { drv with mList := Function.update drv.mList k ps }

def setLock (drv : Driver) (k : Kind) (sem : Sem) : Driver :=
  { drv with lock := Function.update drv.lock k sem }

@[simp] theorem write_mem_self (drv : Driver) (p : Ptr) (e : Entry) :
    (drv.write p e).mem p = e := by
  simp [write]

theorem write_mem_ne (drv : Driver) {p q : Ptr} (e : Entry) (h : q ≠ p) :
    (drv.write p e).mem q = drv.mem q := by
  simp [write, h]

@[simp] theorem write_mList (drv : Driver) (p : Ptr) (e : Entry) :
    (drv.write p e).mList = drv.mList := rfl

@[simp] theorem setList_mem (drv : Driver) (k : Kind) (ps : List Ptr) :
    (drv.setList k ps).mem = drv.mem := rfl

@[simp] theorem setList_mList_self (drv : Driver) (k : Kind) (ps : List Ptr) :
    (drv.setList k ps).mList k = ps := by
  simp [setList]

@[simp] theorem write_lock (drv : Driver) (p : Ptr) (e : Entry) :
    (drv.write p e).lock = drv.lock := rfl

@[simp] theorem setList_lock (drv : Driver) (k : Kind) (ps : List Ptr) :
    (drv.setList k ps).lock = drv.lock := rfl

@[simp] theorem setLock_mem (drv : Driver) (k : Kind) (sem : Sem) :
    (drv.setLock k sem).mem = drv.mem := rfl

@[simp] theorem setLock_mList (drv : Driver) (k : Kind) (sem : Sem) :
    (drv.setLock k sem).mList = drv.mList := rfl

@[simp] theorem setLock_lock_self (drv : Driver) (k : Kind) (sem : Sem) :
    (drv.setLock k sem).lock k = sem := by
  simp [setLock]

@[simp] theorem setLock_setLock (drv : Driver) (k : Kind) (sem sem' : Sem) :
    (drv.setLock k sem).setLock k sem' = drv.setLock k sem' := by
  simp [setLock]

theorem setLock_lock_ne (drv : Driver) {k l : Kind} (sem : Sem) (h : l ≠ k) :
    (drv.setLock k sem).lock l = drv.lock l := by
  simp [setLock, h]

/-- Memory that the allocator can give out. -/
def Free (drv : Driver) (p : Ptr) : Prop := p ≠ 0 ∧ ∀ k, p ∉ drv.mList k

instance (drv : Driver) (p : Ptr) : Decidable (drv.Free p) :=
  decidable_of_iff (p ≠ 0 ∧ p ∉ drv.mList .sem ∧ p ∉ drv.mList .mutex ∧ p ∉ drv.mList .event ∧
    p ∉ drv.mList .shm)
    ⟨fun h => ⟨h.1, fun k => by cases k <;> simp [h]⟩,
      fun h => ⟨h.1, h.2 .sem, h.2 .mutex, h.2 .event, h.2 .shm⟩⟩

end Driver

end Gipcy.Qnx
