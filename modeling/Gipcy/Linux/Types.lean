import Mathlib.Logic.Function.Basic
import Mathlib.Tactic.Common

/-! The data of the Linux ipc driver: error numbers, C strings, the request
structures of `ipcioctl.h`, and the registered entries and the driver instance
of `ipcmodule.h`. -/
namespace Gipcy.Linux

abbrev EFAULT : Int := 14
abbrev EBUSY : Int := 16
abbrev EEXIST : Int := 17
abbrev EINVAL : Int := 22
abbrev ETIME : Int := 62
abbrev ETIMEDOUT : Int := 110

/-- A NUL-terminated string in an array of `size` characters. -/
structure CStr (size : Nat) where
  chars : List UInt8
  noNul : 0 ∉ chars
  fits : chars.length < size
deriving DecidableEq, Repr

/-- `snprintf(dst, sizeof(dst), "%s", src)`. -/
def CStr.snprintf {m : Nat} (size : Nat) (pos : 0 < size) (src : CStr m) : CStr size where
  chars := src.chars.take (size - 1)
  noNul := fun h => src.noNul (List.mem_of_mem_take h)
  fits := by
    rw [List.length_take]
    omega

@[simp] theorem CStr.snprintf_self {size : Nat} (pos : 0 < size) (src : CStr size) :
    src.snprintf size pos = src := by
  cases src with
  | mk chars noNul fits =>
    simp only [CStr.snprintf, CStr.mk.injEq]
    exact List.take_of_length_le (by omega)

/-- The name field of an entry is a `char[128]`. -/
theorem nameSize_pos : 0 < 128 := by decide

def CStr.empty : CStr 128 := ⟨[], by simp, by decide⟩

/-- The name "x". -/
def CStr.x : CStr 128 := ⟨[120], by decide, by decide⟩

/-- The name "y". -/
def CStr.y : CStr 128 := ⟨[121], by decide, by decide⟩

/-- Addresses of kernel memory, `0` for `NULL`. -/
abbrev Ptr := Nat

inductive Kind where
  | sem
  | mutex
  | event
  | shm
deriving DecidableEq, Repr

/-- `SEM_ID`, `MUTEX_ID`, `EVENT_ID`, `SHM_ID`. -/
def Kind.id : Kind → UInt32
  | .sem => 0x11223344
  | .mutex => 0x22334455
  | .event => 0x33445566
  | .shm => 0x44556677

theorem Kind.id_injective {k l : Kind} (h : k.id = l.id) : k = l := by
  cases k <;> cases l <;> first | rfl | exact absurd h (by decide)

/-- `offsetof(struct ipcsem_t, sem_handle)`: the list links, the name and the
file pointer come first. The other three structures begin in the same way. -/
def handleOffset : Nat := 16 + 128 + 8

/-- `&sem->sem_handle`, which is what a create returns. -/
def userHandle (p : Ptr) : Ptr := p + handleOffset

/-- `container_of(handle, struct ipcsem_t, sem_handle)`. Handles are values that a create
returned; a number below the offset is none. -/
def containerOf (handle : Ptr) : Ptr := handle - handleOffset

@[simp] theorem containerOf_userHandle (p : Ptr) : containerOf (userHandle p) = p := by
  simp [containerOf, userHandle]

theorem userHandle_ne_zero (p : Ptr) : userHandle p ≠ 0 := by
  simp [userHandle, handleOffset]

theorem userHandle_injective {p q : Ptr} (h : userHandle p = userHandle q) : p = q := by
  rw [← containerOf_userHandle p, h, containerOf_userHandle]

/-- A handle inside an entry that exists is the handle of that entry. -/
theorem userHandle_containerOf {handle : Ptr} (h : containerOf handle ≠ 0) :
    userHandle (containerOf handle) = handle :=
  Nat.sub_add_cancel (Nat.le_of_lt (Nat.lt_of_sub_ne_zero h))

structure IpcCreate where
  name : CStr 128
  value : Int32
  flag : Int32
  lockerid : Int32
deriving DecidableEq

structure IpcLock where
  handle : Ptr
  timeout : Int32
  lockerid : Int32
deriving DecidableEq

structure IpcUnlock where
  handle : Ptr
  lockerid : Int32
deriving DecidableEq

structure IpcReset where
  handle : Ptr
deriving DecidableEq

structure IpcClose where
  handle : Ptr
deriving DecidableEq

/-- `struct ipcsem_t`, `ipcmutex_t`, `ipcevent_t` and `ipcshm_t` in one record:
the fields the driver reads or writes under their common names. `sema` is the
count of the kernel semaphore (`sem`, `mutex`, `event`), `lockerid` is the
mutex's `m_lockerid`. -/
structure Entry where
  name : CStr 128
  handle : Ptr
  ownerCount : Int
  lockCount : Int
  lockerid : Int32
  sema : Int
  id : UInt32
deriving DecidableEq

/-- What `kzalloc` returns. -/
def Entry.zero : Entry where
  name := CStr.empty
  handle := 0
  ownerCount := 0
  lockCount := 0
  lockerid := 0
  sema := 0
  id := 0

/-- `sema_init`, whose argument is the `unsigned int` count of the semaphore. -/
def semaInit (value : Int32) : Int := value.toUInt32.toNat

theorem semaInit_of_nonneg {value : Int32} (h : 0 ≤ value) : semaInit value = value.toInt := by
  have hv : 0 ≤ value.toInt := Int32.le_iff_toInt_le.mp h
  rw [semaInit, Int32.toNat_toUInt32_of_le h, ← Int32.toNat_toInt]
  exact Int.toNat_of_nonneg hv

/-- Memory is read through `mem` whether or not it is registered: what a freed
or a never allocated address holds is arbitrary. `mList k` is `m_sem_list`,
`m_mutex_list`, `m_event_list` or `m_shm_list`. -/
structure Driver where
  mem : Ptr → Entry
  mList : Kind → List Ptr
  mUsage : Int

namespace Driver

/-- Assign to the fields of the entry at `p`. -/
def write (drv : Driver) (p : Ptr) (e : Entry) : Driver :=
  { drv with mem := Function.update drv.mem p e }

def setList (drv : Driver) (k : Kind) (ps : List Ptr) : Driver :=
  { drv with mList := Function.update drv.mList k ps }

@[simp] theorem write_mem_self (drv : Driver) (p : Ptr) (e : Entry) :
    (drv.write p e).mem p = e := by
  simp [write]

theorem write_mem_ne (drv : Driver) {p q : Ptr} (e : Entry) (h : q ≠ p) :
    (drv.write p e).mem q = drv.mem q := by
  simp [write, h]

@[simp] theorem write_mList (drv : Driver) (p : Ptr) (e : Entry) :
    (drv.write p e).mList = drv.mList := rfl

@[simp] theorem write_mUsage (drv : Driver) (p : Ptr) (e : Entry) :
    (drv.write p e).mUsage = drv.mUsage := rfl

@[simp] theorem setList_mem (drv : Driver) (k : Kind) (ps : List Ptr) :
    (drv.setList k ps).mem = drv.mem := rfl

@[simp] theorem setList_mList_self (drv : Driver) (k : Kind) (ps : List Ptr) :
    (drv.setList k ps).mList k = ps := by
  simp [setList]

theorem setList_mList_ne (drv : Driver) {k l : Kind} (ps : List Ptr) (h : l ≠ k) :
    (drv.setList k ps).mList l = drv.mList l := by
  simp [setList, h]

@[simp] theorem setList_mUsage (drv : Driver) (k : Kind) (ps : List Ptr) :
    (drv.setList k ps).mUsage = drv.mUsage := rfl

/-- The references that are held on the entry at `p`: its owner count while it
is listed, none before and after. -/
def refs (drv : Driver) (k : Kind) (p : Ptr) : Int :=
  if p ∈ drv.mList k then (drv.mem p).ownerCount else 0

theorem refs_of_mem {drv : Driver} {k : Kind} {p : Ptr} (h : p ∈ drv.mList k) :
    drv.refs k p = (drv.mem p).ownerCount := if_pos h

theorem refs_of_not_mem {drv : Driver} {k : Kind} {p : Ptr} (h : p ∉ drv.mList k) :
    drv.refs k p = 0 := if_neg h

end Driver

end Gipcy.Linux
