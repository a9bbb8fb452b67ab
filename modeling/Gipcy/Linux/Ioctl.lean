import Gipcy.Linux.Device
import Gipcy.Linux.Requests

/-! The ioctl handlers of `ioctlrw.c`: a request structure is copied in, the
driver function runs, and an open copies the structure back. -/
namespace Gipcy.Linux

open CountingSemaphore Transition

/-- What an open ioctl does: the handle is there if it reached the caller. -/
structure OpenResult where
  drv : Driver
  error : Int
  handle : Option Ptr

/-- The text shared by the four open handlers. -/
def ioctlOpen (create : Driver → IpcCreate → Option Ptr → Driver × Ptr) (drv : Driver)
    (param : IpcCreate) (copyFromUser copyToUser : Bool) (kzalloc : Option Ptr) : OpenResult :=
  if !copyFromUser then ⟨drv, -EFAULT, none⟩
  else
    let made := create drv param kzalloc
    if made.2 = 0 then ⟨made.1, -EINVAL, none⟩
    else if !copyToUser then ⟨made.1, -EFAULT, none⟩
    else ⟨made.1, 0, some made.2⟩

def ioctlSemOpen := ioctlOpen ipcSemCreate
def ioctlMutexOpen := ioctlOpen ipcMutexCreate
def ioctlEventOpen := ioctlOpen ipcEventCreate
def ioctlShmOpen := ioctlOpen ipcShmOpen

/-- The four open requests of `ipc_device_ioctl`. -/
def ioctlOpenOf : Kind → Driver → IpcCreate → Bool → Bool → Option Ptr → OpenResult
  | .sem => ioctlSemOpen
  | .mutex => ioctlMutexOpen
  | .event => ioctlEventOpen
  | .shm => ioctlShmOpen

/-- `ioctl_sem_close`, `ioctl_event_close` and `ioctl_shm_close`. -/
def ioctlClose (close : Driver → IpcClose → Driver × Int) (drv : Driver) (param : IpcClose)
    (copyFromUser : Bool) : Driver × Int :=
  if !copyFromUser then (drv, -EFAULT) else close drv param

def ioctlSemClose := ioctlClose ipcSemClose
def ioctlEventClose := ioctlClose ipcEventClose
def ioctlShmClose := ioctlClose ipcShmClose

/-- `ioctl_mutex_close`, the only one of the four that hides `-EBUSY`. -/
def ioctlMutexClose (drv : Driver) (param : IpcClose) (copyFromUser : Bool) : Driver × Int :=
  if !copyFromUser then (drv, -EFAULT)
  else
    let closed := ipcMutexClose drv param
    if closed.2 < 0 ∧ closed.2 ≠ -EBUSY then closed else (closed.1, 0)

/-- The lock handlers return what the driver function returns. -/
def ioctlLock (k : Kind) (enter wake : Driver) (param : IpcLock) (copyFromUser : Bool)
    (how : WaitEnd) : Option Outcome :=
  if !copyFromUser then some (.same enter (-EFAULT)) else ipcLock k enter wake param how

def ioctlSemLock := ioctlLock .sem
def ioctlMutexLock := ioctlLock .mutex
def ioctlEventLock := ioctlLock .event

/-- The unlock handlers and `ioctl_event_reset`, in the same way. -/
def ioctlUnlock {P : Type} (unlock : Driver → P → Driver × Int) (drv : Driver) (param : P)
    (copyFromUser : Bool) : Driver × Int :=
  if !copyFromUser then (drv, -EFAULT) else unlock drv param

def ioctlSemUnlock := ioctlUnlock ipcSemUnlock
def ioctlMutexUnlock := ioctlUnlock ipcMutexUnlock
def ioctlEventUnlock := ioctlUnlock ipcEventUnlock
def ioctlEventReset := ioctlUnlock ipcEventReset

/-- An open that is all or nothing: it returns 0 and the handle of a registered
entry with one reference more, or an error, and then the registries are as they
were. -/
def OpenAtomic (k : Kind) (drv : Driver) (r : OpenResult) : Prop :=
  (r.error = 0 ∧ ∃ p, r.handle = some (userHandle p) ∧ p ∈ r.drv.mList k ∧
    r.drv.refs k p = drv.refs k p + 1 ∧
    ∀ l q, ¬ (l = k ∧ q = p) → r.drv.refs l q = drv.refs l q) ∨
  (r.error < 0 ∧ r.drv.mList = drv.mList ∧
    ∀ l, ∀ p ∈ drv.mList l, r.drv.mem p = drv.mem p)

def Registered (drv : Driver) (k : Kind) (name : CStr 128) : Prop :=
  ∃ p ∈ drv.mList k, (drv.mem p).name = name

theorem registered_iff {drv : Driver} {k : Kind} {name : CStr 128} :
    Registered drv k name ↔ (findName drv k name).isSome := by
  constructor
  · rintro ⟨p, hp, hname⟩
    cases h : findName drv k name with
    | none => exact absurd hname (findName_none h p hp)
    | some q => rfl
  · intro h
    obtain ⟨p, hp⟩ := Option.isSome_iff_exists.mp h
    exact ⟨p, findName_some hp⟩

theorem ioctlOpenOf_eq (k : Kind) : ioctlOpenOf k = ioctlOpen (registryCreate k (fill k)) := by
  cases k <;> rfl

section Open

variable {drv : Driver} {k : Kind} {param : IpcCreate}

/-- A registered name: the entry that has it gets one reference more. -/
theorem refs_found (wf : drv.WellFormed) {p : Ptr} (hp : p ∈ drv.mList k) :
    (countOwner drv p).refs k p = drv.refs k p + 1 ∧
      ∀ l q, ¬ (l = k ∧ q = p) → (countOwner drv p).refs l q = drv.refs l q := by
  constructor
  · rw [Driver.refs_of_mem (show p ∈ (countOwner drv p).mList k from hp), Driver.refs_of_mem hp]
    simp [countOwner]
  · intro l q hne
    by_cases hq : q ∈ drv.mList l
    · have he : q ≠ p := by
        rintro rfl
        exact hne ⟨wf.kind_unique hq hp, rfl⟩
      rw [Driver.refs_of_mem (show q ∈ (countOwner drv p).mList l from hq), Driver.refs_of_mem hq,
        countOwner, drv.write_mem_ne _ he]
    · rw [Driver.refs_of_not_mem (show q ∉ (countOwner drv p).mList l from hq),
        Driver.refs_of_not_mem hq]

/-- A new name: its entry is there with one reference. -/
theorem refs_new {p : Ptr} (free : drv.Free p) :
    (insertNew drv k param p).refs k p = drv.refs k p + 1 ∧
      ∀ l q, ¬ (l = k ∧ q = p) → (insertNew drv k param p).refs l q = drv.refs l q := by
  have hlisted : p ∈ (insertNew drv k param p).mList k := by simp [insertNew]
  constructor
  · rw [Driver.refs_of_mem hlisted, Driver.refs_of_not_mem (free.2 k)]
    simp [insertNew]
  · intro l q hne
    by_cases hq : q ∈ drv.mList l
    · have he : q ≠ p := fun e => free.2 l (e ▸ hq)
      have hq' : q ∈ (insertNew drv k param p).mList l := by
        by_cases hl : l = k
        · subst hl
          simp [insertNew, hq]
        · rw [insertNew, Driver.setList_mList_ne _ _ hl]
          exact hq
      rw [Driver.refs_of_mem hq', Driver.refs_of_mem hq, insertNew, Driver.setList_mem,
        drv.write_mem_ne _ he]
    · have hq' : q ∉ (insertNew drv k param p).mList l := fun h =>
        (mem_insertNew h).elim hq hne
      rw [Driver.refs_of_not_mem hq', Driver.refs_of_not_mem hq]

end Open

theorem openAtomic_error {drv after : Driver} {k : Kind} {handle : Option Ptr} :
    OpenAtomic k drv ⟨after, -EFAULT, handle⟩ ↔
      after.mList = drv.mList ∧ ∀ l, ∀ p ∈ drv.mList l, after.mem p = drv.mem p := by
  have hneg : -EFAULT < 0 := by decide
  constructor
  · rintro (⟨h, -⟩ | ⟨-, h⟩)
    · exact absurd h (Int.ne_of_lt hneg)
    · exact h
  · intro h
    exact .inr ⟨hneg, h⟩

theorem openAtomic_ok {drv after : Driver} {k : Kind} {p : Ptr} :
    OpenAtomic k drv ⟨after, 0, some (userHandle p)⟩ ↔
      p ∈ after.mList k ∧ after.refs k p = drv.refs k p + 1 ∧
        ∀ l q, ¬ (l = k ∧ q = p) → after.refs l q = drv.refs l q := by
  constructor
  · rintro (⟨-, q, hq, h⟩ | ⟨h, -⟩)
    · obtain rfl := userHandle_injective (Option.some.inj hq)
      exact h
    · exact absurd h (Int.lt_irrefl 0)
  · intro h
    exact .inl ⟨rfl, p, rfl, h⟩

/-- An open is all or nothing when its structure is not copied in at all, and
otherwise when it can be copied back exactly if there is an entry to return. -/
theorem openAtomic_iff {drv : Driver} (wf : drv.WellFormed) (k : Kind) (param : IpcCreate)
    (copyFromUser copyToUser : Bool) {kzalloc : Option Ptr}
    (free : ∀ p, kzalloc = some p → drv.Free p) :
    OpenAtomic k drv (ioctlOpenOf k drv param copyFromUser copyToUser kzalloc) ↔
      (copyFromUser = false ∨
        (copyToUser = true ↔ (Registered drv k param.name ∨ kzalloc.isSome = true))) := by
  rw [ioctlOpenOf_eq, registered_iff]
  cases copyFromUser with
  | false =>
    refine iff_of_true ?_ (.inl rfl)
    exact openAtomic_error.mpr ⟨rfl, fun _ _ _ => rfl⟩
  | true =>
    cases hfind : findName drv k param.name with
    | some p =>
      have hp := (findName_some hfind).1
      simp only [ioctlOpen, registryCreate_found kzalloc hfind, userHandle_ne_zero]
      cases copyToUser with
      | true =>
        refine iff_of_true (openAtomic_ok.mpr ⟨hp, refs_found wf hp⟩) ?_
        simp
      | false =>
        -- The entry keeps a reference that nobody was told of.
        refine iff_of_false (fun h => ?_) (by simp)
        have := congrArg Entry.ownerCount ((openAtomic_error.mp h).2 k p hp)
        simp only [countOwner, Driver.write_mem_self] at this
        omega
    | none =>
      cases kzalloc with
      | some p =>
        simp only [ioctlOpen, registryCreate_new p hfind, userHandle_ne_zero]
        have hlisted : p ∈ (insertNew drv k param p).mList k := by simp [insertNew]
        cases copyToUser with
        | true =>
          refine iff_of_true (openAtomic_ok.mpr ⟨hlisted, refs_new (free p rfl)⟩) ?_
          simp
        | false =>
          refine iff_of_false (fun h => ?_) (by simp)
          rw [(openAtomic_error.mp h).1] at hlisted
          exact (free p rfl).2 k hlisted
      | none =>
        simp only [ioctlOpen, registryCreate_failed hfind, userHandle_ne_zero]
        cases copyToUser with
        | true =>
          -- The handle is the address of a field of `NULL`, which no list has.
          refine iff_of_false (fun h => ?_) (by simp)
          exact wf.notNull k (openAtomic_ok.mp h).1
        | false =>
          refine iff_of_true (openAtomic_error.mpr ⟨rfl, fun _ _ _ => rfl⟩) ?_
          simp

section Claims

variable {φ : Type*} [DecidableEq φ]

theorem open_atomic_iff {s : Device φ} (h : (Device.system φ).Reachable s) (k : Kind)
    (param : IpcCreate) (copyFromUser copyToUser : Bool) {kzalloc : Option Ptr}
    (free : ∀ p, kzalloc = some p → s.drv.Free p) :
    OpenAtomic k s.drv (ioctlOpenOf k s.drv param copyFromUser copyToUser kzalloc) ↔
      (copyFromUser = false ∨
        (copyToUser = true ↔ (Registered s.drv k param.name ∨ kzalloc.isSome = true))) :=
  openAtomic_iff (Device.sound_reachable h).wf k param copyFromUser copyToUser free

/-- On an open driver, a semaphore whose memory is there and whose structure is
copied both ways. -/
theorem open_atomic_iff_allocated :
    ∃ s : Device Unit, (Device.system Unit).Reachable s ∧
      OpenAtomic .sem s.drv (ioctlOpenOf .sem s.drv ⟨CStr.x, 1, 0, 0⟩ true true (some 4096)) := by
  refine exists_reachable_of_run ⟨ipcProbe fun _ => Entry.zero, [], [], []⟩ [.deviceOpen ()]
    (fun s => decide (s.drv.Free 4096)) ⟨_, rfl⟩ (by decide) fun s hs hp => ?_
  have free : s.drv.Free 4096 := of_decide_eq_true hp
  apply (open_atomic_iff hs .sem ⟨CStr.x, 1, 0, 0⟩ true true fun p hp => ?_).mpr
  · exact .inr (iff_of_true rfl (.inr rfl))
  · cases hp
    exact free

/-- The first open of a name on a driver that has no memory left answers 0. -/
theorem open_not_atomic :
    ¬ ∀ s : Device Unit, (Device.system Unit).Reachable s → ∀ k param kzalloc,
      (∀ p, kzalloc = some p → s.drv.Free p) → ∀ copyFromUser copyToUser,
        OpenAtomic k s.drv (ioctlOpenOf k s.drv param copyFromUser copyToUser kzalloc) := by
  intro h
  obtain ⟨s, hs, hempty⟩ : ∃ s : Device Unit, (Device.system Unit).Reachable s ∧
      s.drv.mList .sem = [] :=
    exists_reachable_of_run ⟨ipcProbe fun _ => Entry.zero, [], [], []⟩ [.deviceOpen ()]
      (fun s => decide (s.drv.mList .sem = [])) ⟨_, rfl⟩ (by decide) fun _ _ hp =>
        of_decide_eq_true hp
  have hatomic := h s hs .sem ⟨CStr.x, 1, 0, 0⟩ none (fun p hp => (by cases hp)) true true
  have hfind : findName s.drv .sem CStr.x = none := by simp [findName, hempty]
  have hmade : registryCreate .sem (fill .sem) s.drv ⟨CStr.x, 1, 0, 0⟩ none =
      (s.drv, userHandle 0) := registryCreate_failed hfind
  simp only [ioctlOpenOf_eq, ioctlOpen, hmade, userHandle_ne_zero] at hatomic
  have hlisted := (openAtomic_ok.mp hatomic).1
  rw [hempty] at hlisted
  cases hlisted

end Claims

end Gipcy.Linux
