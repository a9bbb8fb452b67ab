import Gipcy.Qnx.Registry

/-! What the manager does on the commands for an object, in states in which nobody
is inside a registry; then the creates and closes of semaphores. The value that the
lock of the registry is left with does not matter. -/
namespace Gipcy.Qnx

open PosixSemaphore
open Linux (CStr Ptr Kind nameSize_pos)

section Objects

variable {drv : Driver} {p : Ptr} {k : Kind} {timeout : Int32} {clock : Clock} {n : Nat}

/-- A lock finds a unit. -/
theorem objectLock_took (lim : Limits) (failed : Int → Int) (h : Open drv)
    (hexist : handleExists k drv p) (hsema : (drv.mem p).sema = some (n + 1))
    (takes : clock.Takes timeout) :
    Ends k (objectLock lim k failed drv ⟨p, timeout⟩ clock)
      (drv.write p { drv.mem p with sema := some n, lockCount := (drv.mem p).lockCount + 1 })
      0 := by
  have outcome := objectLock_outcome (k := k) lim h failed ⟨p, timeout⟩ clock
  generalize objectLock lim k failed drv ⟨p, timeout⟩ clock = r at outcome
  cases outcome with
  | refused sem hopen hnot => exact absurd hexist hnot
  | took sem m hopen _ hm =>
    cases Option.some.inj (hsema.symm.trans hm)
    refine ⟨sem, ?_, rfl⟩
    have hup := hopen k
    rwa [Driver.setLock_lock_self] at hup
  | waits sem hopen finds =>
    have hnone := finds.2
    simp [hsema] at hnone
  | unheeded sem hopen _ hnone => simp [hsema] at hnone
  | failed sem hopen _ limited _ hinvalid =>
    rcases hinvalid with hnone | ⟨hcarry, -⟩
    · simp [hsema] at hnone
    · exact absurd (takes limited).2 hcarry
  | overflow ho limited => exact absurd ho.2 (Int.not_lt.mpr (takes limited).1)

/-- A lock finds none. -/
theorem objectLock_waits (lim : Limits) (failed : Int → Int) (h : Open drv)
    (hexist : handleExists k drv p) (hsema : (drv.mem p).sema = some 0)
    (takes : clock.Takes timeout) :
    ∃ sem, Up sem ∧ objectLock lim k failed drv ⟨p, timeout⟩ clock =
      .waits (drv.setLock k sem) (.object k p (!decide (timeout < 0))) := by
  have outcome := objectLock_outcome (k := k) lim h failed ⟨p, timeout⟩ clock
  generalize objectLock lim k failed drv ⟨p, timeout⟩ clock = r at outcome
  cases outcome with
  | refused sem hopen hnot => exact absurd hexist hnot
  | took sem m hopen _ hm => simp [hsema] at hm
  | waits sem hopen =>
    refine ⟨sem, ?_, rfl⟩
    have hup := hopen k
    rwa [Driver.setLock_lock_self] at hup
  | unheeded sem hopen _ hnone => simp [hsema] at hnone
  | failed sem hopen _ limited _ hinvalid =>
    rcases hinvalid with hnone | ⟨hcarry, -⟩
    · simp [hsema] at hnone
    · exact absurd (takes limited).2 hcarry
  | overflow ho limited => exact absurd ho.2 (Int.not_lt.mpr (takes limited).1)

theorem objectUnlock_ends (lim : Limits) (h : Open drv) (hexist : handleExists k drv p) :
    Ends k (objectUnlock lim k k.id drv p)
      (drv.write p { drv.mem p with
        sema := semPost lim (drv.mem p).sema, lockCount := (drv.mem p).lockCount - 1 }) 0 := by
  simp only [objectUnlock, if_neg hexist.1]
  obtain ⟨sem, hup, heq⟩ := handleCheck_eq lim k h k.id p (fun drv exist => _)
  rw [heq]
  refine ⟨sem, hup, ?_⟩
  simp [hexist.1, hexist.2]

theorem lock_took (lim : Limits) (malloc : Option Ptr) (hk : k ≠ .shm) (h : Open drv)
    (hexist : handleExists k drv p) (hsema : (drv.mem p).sema = some (n + 1))
    (takes : clock.Takes timeout) :
    Ends k (ioDevctl lim drv malloc (.lock k ⟨p, timeout⟩ clock))
      (drv.write p { drv.mem p with sema := some n, lockCount := (drv.mem p).lockCount + 1 })
      (.ok none) := by
  rw [ioDevctl_lock_eq lim drv malloc hk]
  exact (objectLock_took lim (lockFailed k) h hexist hsema takes).map _

theorem lock_waits (lim : Limits) (malloc : Option Ptr) (hk : k ≠ .shm) (h : Open drv)
    (hexist : handleExists k drv p) (hsema : (drv.mem p).sema = some 0)
    (takes : clock.Takes timeout) :
    ∃ sem, Up sem ∧ ioDevctl lim drv malloc (.lock k ⟨p, timeout⟩ clock) =
      .waits (drv.setLock k sem) (.object k p (!decide (timeout < 0))) := by
  obtain ⟨sem, hup, heq⟩ := objectLock_waits lim (lockFailed k) h hexist hsema takes
  exact ⟨sem, hup, by rw [ioDevctl_lock_eq lim drv malloc hk, heq, Result.map]⟩

theorem unlock_ends (lim : Limits) (malloc : Option Ptr) (hk : k ≠ .shm) (h : Open drv)
    (hexist : handleExists k drv p) :
    Ends k (ioDevctl lim drv malloc (.unlock k ⟨p⟩))
      (drv.write p { drv.mem p with
        sema := semPost lim (drv.mem p).sema, lockCount := (drv.mem p).lockCount - 1 })
      (.ok none) := by
  have hunlock := (objectUnlock_ends lim h hexist).map Reply.ofError
  cases k with
  | shm => exact absurd rfl hk
  | sem | mutex | event => exact hunlock

end Objects

/-- A new semaphore, listed and with its first owner. -/
def insertSem (lim : Limits) (drv : Driver) (param : IpcCreate) (p : Ptr) : Driver :=
  insertEntry .sem (semInit lim param.value.toUInt32) drv param.name p

section Handlers

variable {drv : Driver} {p : Ptr}

theorem ipcSemCreate_found (lim : Limits) (malloc : Option Ptr) (param : IpcCreate)
    (h : Open drv) (hfind : findName drv .sem param.name = some p) :
    Ends .sem (ipcSemCreate lim drv param malloc) (countOwner drv p) (drv.mem p).handle :=
  registryCreate_found lim _ malloc h hfind

theorem ipcSemCreate_new (lim : Limits) (p : Ptr) (param : IpcCreate) (h : Open drv)
    (hfind : findName drv .sem param.name = none) :
    Ends .sem (ipcSemCreate lim drv param (some p)) (insertSem lim drv param p) p :=
  registryCreate_new lim _ p h hfind

theorem semCreate_new (lim : Limits) {param : IpcCreate} (h : Open drv)
    (hfind : findName drv .sem param.name = none) (hp : p ≠ 0) :
    Ends .sem (ioDevctl lim drv (some p) (.create .sem param)) (insertSem lim drv param p)
      (.ok (some p)) := by
  have hreply : Reply.ofHandle p = .ok (some p) := if_neg hp
  exact hreply ▸ (ipcSemCreate_new lim p param h hfind).map _

theorem ipcSemClose_last (lim : Limits) (h : Open drv) (nodup : (drv.mList .sem).Nodup)
    (hp : p ∈ drv.mList .sem) (hexist : handleExists .sem drv p)
    (last : (drv.mem p).ownerCount = 1) :
    Ends .sem (ipcSemClose lim drv ⟨p⟩)
      ((drv.write p { drv.mem p with ownerCount := 0, sema := none }).setList .sem
        ((drv.mList .sem).erase p)) 0 :=
  closeOf_last lim h nodup hp hexist.1 (decide_eq_true hexist.2) last

theorem ipcSemClose_busy (lim : Limits) (h : Open drv) (nodup : (drv.mList .sem).Nodup)
    (hp : p ∈ drv.mList .sem) (hexist : handleExists .sem drv p)
    (more : (drv.mem p).ownerCount ≠ 1) :
    Ends .sem (ipcSemClose lim drv ⟨p⟩)
      (drv.write p { drv.mem p with ownerCount := (drv.mem p).ownerCount - 1 }) (-EBUSY) :=
  closeOf_busy lim h nodup hp hexist.1 (decide_eq_true hexist.2) more

end Handlers

end Gipcy.Qnx
