import Gipcy.Linux.Calls
import Gipcy.Linux.SharedMemory

/-! The functions of the insys `shmipc.cpp` as one process calls them, with its
descriptors: every step of a call may fail. -/
namespace Gipcy.Linux.SharedApi

/-- The system as a process sees it. `linked` is the directory of `shm_open`,
`sizes` the `st_size` of each object; the objects from `objects` on do not exist
yet. `fds` are the open descriptors of the process. -/
structure Process where
  drv : Driver
  linked : List UInt8 → Option Nat
  sizes : Nat → Int
  objects : Nat
  fds : Nat → Option Nat

/-- What the steps of a create or open meet: the two copies and the allocation
of the ioctl, `allocate_ipc_object`, the calls of the C library, and the copy of
the closing ioctl. `fd` is the descriptor that a `shm_open` returns. -/
structure Steps where
  copyFromUser : Bool
  copyToUser : Bool
  kzalloc : Option Ptr
  malloc : Bool
  shmOpenExcl : Bool
  shmOpen : Bool
  fstat : Bool
  ftruncate : Bool
  closeCopyFromUser : Bool
  fd : Nat

/-- The fields of `struct ipc_t`; of `ipc_data` only whether it is set. -/
structure IpcHandle where
  ipcName : List UInt8
  ipcType : IpcType
  ipcShm : Nat
  ipcData : Bool
  ipcSize : UInt64
  ipcUser : Ptr
deriving DecidableEq

/-- What a call leaves and returns; `*alreadyCreated` if it was written. -/
structure Return where
  process : Process
  handle : Option IpcHandle
  alreadyCreated : Option Bool

def PATH_MAX : Nat := 4096

/-- `snprintf(tmpName, PATH_MAX, "%s%s", IPC_SHM_PREFIX, pname)`. -/
def ipcName {m : Nat} (name : CStr m) : List UInt8 := (47 :: name.chars).take (PATH_MAX - 1)

def allocateIpcObject {m : Nat} (name : CStr m) : IpcHandle where
  ipcName := ipcName name
  ipcType := .sharedMem
  ipcShm := 0
  ipcData := false
  ipcSize := 0
  ipcUser := 0

/-- An `int` as a `size_t`. -/
def sizeT (size : Int32) : UInt64 := size.toInt64.toUInt64

inductive Opened where
  | fd (fd : Nat)
  | eexist
  | failed

section Calls

variable (ipcDriverFd : Int) (steps : Steps)

def sharedMemoryOpen {m : Nat} (p : Process) (name : CStr m) (size : Int32) :
    Process × Option Ptr :=
  if ipcDriverHandle ipcDriverFd < 0 then (p, none)
  else
    let r := ioctlShmOpen p.drv ⟨paramName name, size, 0, 0⟩ steps.copyFromUser steps.copyToUser
      steps.kzalloc
    ({ p with drv := r.drv }, if (sysIoctl r.error).1 < 0 then none else r.handle)

def sharedMemoryClose (copyFromUser : Bool) (p : Process) (handle : Ptr) : Process × Int :=
  if ipcDriverHandle ipcDriverFd < 0 then (p, -EINVAL)
  else
    let r := ioctlShmClose p.drv ⟨handle⟩ copyFromUser
    ({ p with drv := r.1 }, (sysIoctl r.2).1)

/-- `shm_open` with `O_CREAT | O_EXCL`. -/
def shmOpenExcl (p : Process) (name : List UInt8) : Process × Opened :=
  if !steps.shmOpenExcl then (p, .failed)
  else
    match p.linked name with
    | some _ => (p, .eexist)
    | none =>
      ({ p with
        linked := Function.update p.linked name (some p.objects)
        sizes := Function.update p.sizes p.objects 0
        objects := p.objects + 1
        fds := Function.update p.fds steps.fd (some p.objects) }, .fd steps.fd)

def shmOpen (p : Process) (name : List UInt8) : Process × Option Nat :=
  match steps.shmOpen, p.linked name with
  | true, some obj => ({ p with fds := Function.update p.fds steps.fd (some obj) }, some steps.fd)
  | _, _ => (p, none)

/-- `st_size`. -/
def fstat (p : Process) (fd : Nat) : Option Int :=
  if steps.fstat then (p.fds fd).map p.sizes else none

def ftruncate (p : Process) (fd : Nat) (size : Int32) : Option Process :=
  if steps.ftruncate ∧ 0 ≤ size then
    (p.fds fd).map fun obj => { p with sizes := Function.update p.sizes obj size.toInt }
  else none

/-- The text that the three functions share: the name is registered first, and
on `do_free_ipc_object` and `do_unregister_shm` the registration is taken back. -/
def registered {m : Nat} (name : CStr m) (size : Int32) (p : Process)
    (body : Process → Ptr → Return) : Return :=
  match sharedMemoryOpen ipcDriverFd steps p name size with
  | (p, none) => ⟨p, none, none⟩
  | (p, some ipcDrvHandle) =>
    let r := body p ipcDrvHandle
    match r.handle with
    | some h => { r with handle := some h }
    | none =>
      { r with
        process :=
          (sharedMemoryClose ipcDriverFd steps.closeCopyFromUser r.process ipcDrvHandle).1 }

/-- The `ftruncate` that ends a create. -/
def truncated (size : Int32) (p : Process) (h : IpcHandle) (failed already : Option Bool) :
    Return :=
  match ftruncate steps p h.ipcShm size with
  | none => ⟨p, none, failed⟩
  | some p => ⟨p, some { h with ipcSize := sizeT size }, already⟩

/-- The body of the two creates, which are the same but for `*alreadyCreated`. -/
def createBody {m : Nat} (name : CStr m) (size : Int32) (p : Process) (ipcDrvHandle : Ptr) :
    Return :=
  if !steps.malloc then ⟨p, none, none⟩
  else
    let h := { allocateIpcObject name with ipcUser := ipcDrvHandle }
    match shmOpenExcl steps p h.ipcName with
    | (p, .failed) => ⟨p, none, none⟩
    | (p, .eexist) =>
      match shmOpen steps p h.ipcName with
      | (p, none) => ⟨p, none, none⟩
      | (p, some fd) =>
        let h := { h with ipcShm := fd }
        match fstat steps p fd with
        | none => ⟨p, none, none⟩
        | some stSize =>
          if stSize > 0 then ⟨p, some { h with ipcSize := sizeT size }, some true⟩
          else truncated steps size p h none (some true)
    -- `*alreadyCreated` is written before the `ftruncate`.
    | (p, .fd fd) => truncated steps size p { h with ipcShm := fd } (some false) (some false)

def ipcCreateSharedMemory {m : Nat} (name : CStr m) (size : Int32) (p : Process) : Return :=
  { registered ipcDriverFd steps name size p (createBody steps name size) with
    alreadyCreated := none }

def ipcCreateSharedMemoryEx {m : Nat} (name : CStr m) (size : Int32) (p : Process) : Return :=
  registered ipcDriverFd steps name size p (createBody steps name size)

def openBody {m : Nat} (name : CStr m) (p : Process) (ipcDrvHandle : Ptr) : Return :=
  if !steps.malloc then ⟨p, none, none⟩
  else
    let h := { allocateIpcObject name with ipcUser := ipcDrvHandle }
    match shmOpen steps p h.ipcName with
    | (p, none) => ⟨p, none, none⟩
    | (p, some fd) =>
      let h := { h with ipcShm := fd }
      match fstat steps p fd with
      | none => ⟨p, none, none⟩
      | some stSize =>
        if stSize > 0 then ⟨p, some { h with ipcSize := UInt64.ofNat stSize.toNat }, none⟩
        else ⟨p, some h, none⟩

def ipcOpenSharedMemory {m : Nat} (name : CStr m) (p : Process) : Return :=
  registered ipcDriverFd steps name 0 p (openBody steps name)

/-- The three functions that return a handle. -/
def ipcShared {m : Nat} (name : CStr m) (p : Process) : ShmCall → Return
  | .create size => ipcCreateSharedMemory ipcDriverFd steps name size p
  | .createEx size => ipcCreateSharedMemoryEx ipcDriverFd steps name size p
  | .openExisting => ipcOpenSharedMemory ipcDriverFd steps name p

end Calls

/-- What a map or a delete does with the descriptor of the handle. -/
inductive FdUse where
  | mmap
  | close
deriving DecidableEq

/-- A handle, and what was done with its descriptor since it was returned. -/
structure Described where
  h : IpcHandle
  uses : List FdUse

/-- The result says whether it is a mapping; `mmap` may fail. -/
def ipcMapSharedMemory (mmap : Bool) (d : Described) : Described × Bool :=
  if d.h.ipcSize = 0 then (d, false)
  else
    -- The `close` follows before the result of `mmap` is looked at.
    let d := { d with uses := d.uses ++ [.mmap] ++ [.close] }
    if !mmap then (d, false)
    else ({ d with h := { d.h with ipcData := true } }, true)

def ipcUnmapSharedMemory (munmap : Bool) (d : Described) : Described × Int :=
  if !d.h.ipcData then (d, IPC_GENERAL_ERROR)
  else if !munmap then (d, IPC_GENERAL_ERROR)
  else ({ d with h := { d.h with ipcData := false, ipcSize := 0 } }, IPC_OK)

/-- What a delete meets. -/
structure DeleteSteps where
  munmap : Bool
  copyFromUser : Bool
  shmUnlink : Bool

def ipcDeleteSharedMemory (ipcDriverFd : Int) (steps : DeleteSteps) (p : Process) (d : Described) :
    Process × Described × Int :=
  if d.h.ipcType ≠ .sharedMem then (p, d, IPC_INVALID_HANDLE)
  else
    let d := if d.h.ipcData then (ipcUnmapSharedMemory steps.munmap d).1 else d
    let closed := sharedMemoryClose ipcDriverFd steps.copyFromUser p d.h.ipcUser
    if closed.2 < 0 then
      if closed.2 = -EBUSY then (closed.1, d, IPC_OK) else (closed.1, d, IPC_GENERAL_ERROR)
    else if steps.shmUnlink ∧ (closed.1.linked d.h.ipcName).isSome then
      ({ closed.1 with linked := Function.update closed.1.linked d.h.ipcName none }, d, IPC_OK)
    else (closed.1, d, IPC_GENERAL_ERROR)

/-- A handle that was just returned: it is not mapped, and its descriptor is open. -/
structure Fresh (p : Process) (h : IpcHandle) : Prop where
  ipcType : h.ipcType = .sharedMem
  ipcData : h.ipcData = false
  opened : (p.fds h.ipcShm).isSome

/-- The steps of the call up to its descriptor succeed. -/
def ObtainsFd (steps : Steps) (p : Process) (name : List UInt8) : ShmCall → Prop
  | .openExisting => steps.malloc = true ∧ steps.shmOpen = true ∧ (p.linked name).isSome
  | _ => steps.malloc = true ∧ steps.shmOpenExcl = true ∧
      (p.linked name = none ∨ steps.shmOpen = true)

instance (steps : Steps) (p : Process) (name : List UInt8) :
    (call : ShmCall) → Decidable (ObtainsFd steps p name call)
  | .openExisting | .create _ | .createEx _ => inferInstanceAs (Decidable (_ ∧ _ ∧ _))

/-- What the body of a call makes of the process: it has no descriptor and left
everything alone, or it has one, and what it returns is a handle with it. -/
inductive Outcome (steps : Steps) (p : Process) (opens : Prop) (r : Return) : Prop where
  | without : ¬ opens → r.process = p → r.handle = none → Outcome steps p opens r
  | descriptor : opens → r.process.drv = p.drv → (r.process.fds steps.fd).isSome →
      (∀ h, r.handle = some h → Fresh r.process h) → Outcome steps p opens r

section Handles

variable {steps : Steps} {m : Nat} {name : CStr m} {size : Int32} {p q : Process} {h : IpcHandle}

theorem ftruncate_some {fd : Nat} (hq : ftruncate steps p fd size = some q) :
    q.drv = p.drv ∧ q.fds = p.fds := by
  unfold ftruncate at hq
  split at hq
  · obtain ⟨obj, -, rfl⟩ := Option.map_eq_some_iff.mp hq
    exact ⟨rfl, rfl⟩
  · cases hq

/-- A handle with the descriptor of the call, not mapped. -/
def WithFd (fd : Nat) (h : IpcHandle) : Prop :=
  h.ipcType = .sharedMem ∧ h.ipcData = false ∧ h.ipcShm = fd

theorem truncated_outcome {opens : Prop} (hopens : opens) (drv : q.drv = p.drv)
    (opened : (q.fds steps.fd).isSome) (failed already : Option Bool)
    (withFd : WithFd steps.fd h) :
    Outcome steps p opens (truncated steps size q h failed already) := by
  obtain ⟨ipcType, ipcData, ipcShm⟩ := withFd
  unfold truncated
  cases htruncate : ftruncate steps q h.ipcShm size with
  | none => exact .descriptor hopens drv opened (by simp)
  | some t =>
    obtain ⟨hdrv, hfds⟩ := ftruncate_some htruncate
    have hopened : (t.fds steps.fd).isSome := hfds ▸ opened
    apply Outcome.descriptor hopens (hdrv.trans drv) hopened
    rintro _ ⟨⟩
    exact ⟨ipcType, ipcData, ipcShm ▸ hopened⟩

/-- A handle that is returned without a `ftruncate`. -/
theorem found_outcome {opens : Prop} (hopens : opens) (drv : q.drv = p.drv)
    (opened : (q.fds steps.fd).isSome) (already : Option Bool) (withFd : WithFd steps.fd h) :
    Outcome steps p opens ⟨q, some h, already⟩ := by
  obtain ⟨ipcType, ipcData, ipcShm⟩ := withFd
  apply Outcome.descriptor hopens drv opened
  rintro _ ⟨⟩
  exact ⟨ipcType, ipcData, ipcShm ▸ opened⟩

theorem shmOpen_cases (steps : Steps) (p : Process) (ipcName : List UInt8) :
    (¬ (steps.shmOpen = true ∧ (p.linked ipcName).isSome) ∧ shmOpen steps p ipcName = (p, none)) ∨
    ((steps.shmOpen = true ∧ (p.linked ipcName).isSome) ∧
      ∃ q, shmOpen steps p ipcName = (q, some steps.fd) ∧ q.drv = p.drv ∧
        (q.fds steps.fd).isSome) := by
  unfold shmOpen
  cases steps.shmOpen with
  | false => exact .inl ⟨by simp, rfl⟩
  | true =>
    cases p.linked ipcName with
    | none => exact .inl ⟨by simp, rfl⟩
    | some obj => exact .inr ⟨by simp, _, rfl, rfl, by simp⟩

theorem createBody_outcome (steps : Steps) (name : CStr m) (size : Int32) (p : Process)
    (user : Ptr) :
    Outcome steps p (ObtainsFd steps p (ipcName name) (.create size))
      (createBody steps name size p user) := by
  have hname : (allocateIpcObject name).ipcName = ipcName name := rfl
  unfold createBody
  cases hmalloc : steps.malloc with
  | false => exact .without (by simp [ObtainsFd, hmalloc]) rfl rfl
  | true =>
    simp only [Bool.not_true, Bool.false_eq_true, ↓reduceIte, hname]
    cases hexcl : steps.shmOpenExcl with
    | false =>
      have hfailed : shmOpenExcl steps p (ipcName name) = (p, .failed) := by
        simp [shmOpenExcl, hexcl]
      rw [hfailed]
      exact .without (by simp [ObtainsFd, hexcl]) rfl rfl
    | true =>
      cases hlinked : p.linked (ipcName name) with
      | none =>
        obtain ⟨q, hfd, hdrv, hopened⟩ : ∃ q, shmOpenExcl steps p (ipcName name) =
            (q, .fd steps.fd) ∧ q.drv = p.drv ∧ (q.fds steps.fd).isSome := by
          simp [shmOpenExcl, hexcl, hlinked]
        rw [hfd]
        exact truncated_outcome ⟨hmalloc, hexcl, .inl hlinked⟩ hdrv hopened _ _ ⟨rfl, rfl, rfl⟩
      | some obj =>
        have heexist : shmOpenExcl steps p (ipcName name) = (p, .eexist) := by
          simp [shmOpenExcl, hexcl, hlinked]
        rw [heexist]
        obtain ⟨hnot, hopen⟩ | ⟨⟨hyes, -⟩, q, hopen, hdrv, hopened⟩ :=
          shmOpen_cases steps p (ipcName name)
        · simp only [hopen]
          refine .without ?_ rfl rfl
          simpa [ObtainsFd, hmalloc, hexcl, hlinked] using hnot
        · have hopens : ObtainsFd steps p (ipcName name) (.create size) :=
            ⟨hmalloc, hexcl, .inr hyes⟩
          simp only [hopen]
          split
          · exact .descriptor hopens hdrv hopened (by simp)
          · split
            · exact found_outcome hopens hdrv hopened _ ⟨rfl, rfl, rfl⟩
            · exact truncated_outcome hopens hdrv hopened _ _ ⟨rfl, rfl, rfl⟩

theorem openBody_outcome (steps : Steps) (name : CStr m) (p : Process) (user : Ptr) :
    Outcome steps p (ObtainsFd steps p (ipcName name) .openExisting)
      (openBody steps name p user) := by
  have hname : (allocateIpcObject name).ipcName = ipcName name := rfl
  unfold openBody
  cases hmalloc : steps.malloc with
  | false => exact .without (by simp [ObtainsFd, hmalloc]) rfl rfl
  | true =>
    simp only [Bool.not_true, Bool.false_eq_true, ↓reduceIte, hname]
    obtain ⟨hnot, hopen⟩ | ⟨hyes, q, hopen, hdrv, hopened⟩ := shmOpen_cases steps p (ipcName name)
    · simp only [hopen]
      refine .without ?_ rfl rfl
      simpa [ObtainsFd, hmalloc] using hnot
    · have hopens : ObtainsFd steps p (ipcName name) .openExisting := ⟨hmalloc, hyes⟩
      simp only [hopen]
      split
      · exact .descriptor hopens hdrv hopened (by simp)
      · split
        · exact found_outcome hopens hdrv hopened _ ⟨rfl, rfl, rfl⟩
        · exact found_outcome hopens hdrv hopened _ ⟨rfl, rfl, rfl⟩

/-- The body of each call. -/
def bodyOf (steps : Steps) (name : CStr m) : ShmCall → Process → Ptr → Return
  | .create size | .createEx size => createBody steps name size
  | .openExisting => openBody steps name

theorem bodyOf_outcome (steps : Steps) (name : CStr m) (call : ShmCall) (p : Process)
    (user : Ptr) : Outcome steps p (ObtainsFd steps p (ipcName name) call)
      (bodyOf steps name call p user) := by
  cases call with
  | create size => exact createBody_outcome steps name size p user
  | createEx size => exact createBody_outcome steps name size p user
  | openExisting => exact openBody_outcome steps name p user

theorem ipcShared_process (ipcDriverFd : Int) (steps : Steps) (name : CStr m) (p : Process)
    (call : ShmCall) : (ipcShared ipcDriverFd steps name p call).process =
      (registered ipcDriverFd steps name call.size p (bodyOf steps name call)).process := by
  cases call <;> rfl

theorem ipcShared_handle (ipcDriverFd : Int) (steps : Steps) (name : CStr m) (p : Process)
    (call : ShmCall) : (ipcShared ipcDriverFd steps name p call).handle =
      (registered ipcDriverFd steps name call.size p (bodyOf steps name call)).handle := by
  cases call <;> rfl

/-- What the caller of any of the three functions can rely on. -/
theorem ipcShared_fresh {ipcDriverFd : Int} {call : ShmCall}
    (hreturn : (ipcShared ipcDriverFd steps name p call).handle = some h) :
    Fresh (ipcShared ipcDriverFd steps name p call).process h := by
  rw [ipcShared_handle] at hreturn
  rw [ipcShared_process]
  unfold registered at hreturn ⊢
  split at hreturn
  · cases hreturn
  · rename_i q user hopen
    have outcome := bodyOf_outcome steps name call q user
    simp only at hreturn ⊢
    generalize bodyOf steps name call q user = r at outcome hreturn
    cases hr : r.handle with
    | none => simp [hr] at hreturn
    | some k =>
      simp only [hr] at hreturn ⊢
      cases hreturn
      cases outcome with
      | without _ _ hnone => simp [hnone] at hr
      | descriptor _ _ _ hfresh => exact hfresh h hr

end Handles

/-! With copies that succeed, the driver sees what the calls without descriptors
make it see. -/

theorem sharedMemoryOpen_agrees {m : Nat} (ipcDriverFd : Int) {steps : Steps} (p : Process)
    (name : CStr m) (size : Int32) (copyFromUser : steps.copyFromUser = true)
    (copyToUser : steps.copyToUser = true) :
    (sharedMemoryOpen ipcDriverFd steps p name size).1.drv =
      (Gipcy.Linux.sharedMemoryOpen ipcDriverFd p.drv name size steps.kzalloc).1 := by
  unfold sharedMemoryOpen Gipcy.Linux.sharedMemoryOpen createObject
  rw [copyFromUser, copyToUser]
  split <;> rfl

theorem sharedMemoryClose_agrees (ipcDriverFd : Int) (p : Process) (handle : Ptr) :
    ((sharedMemoryClose ipcDriverFd true p handle).1.drv,
      (sharedMemoryClose ipcDriverFd true p handle).2) =
      Gipcy.Linux.sharedMemoryClose ipcDriverFd p.drv handle := by
  unfold sharedMemoryClose Gipcy.Linux.sharedMemoryClose
  split <;> rfl

/-! A new process, and steps that succeed, for examples. -/

def newProcess : Process where
  drv := ipcProbe fun _ => Entry.zero
  linked := fun _ => none
  sizes := fun _ => 0
  objects := 0
  fds := fun _ => none

def Steps.succeed : Steps := ⟨true, true, some 4096, true, true, true, true, true, true, 3⟩

end Gipcy.Linux.SharedApi
