import Gipcy.Linux.MutexNesting
import Gipcy.Ports.Events

/-! The mutex calls of the five libraries. The mutex of Windows belongs to a thread, which
may capture it again. That of Linux belongs to a thread as well but counts no captures and
refuses no release, and those of the others are semaphores. -/
namespace Gipcy.Ports

open AnswerMachine
open Linux (CStr Ptr Kind ETIMEDOUT IPC_OK IPC_GENERAL_ERROR IPC_WAIT_TIMEOUT
  ipcDriverHandle_open)
open PosixSemaphore (Limits Sem)
open SystemVSemaphore (SemSet UndoSet)

inductive MutexCall where
  | capture (limit : Limit)
  | release
deriving DecidableEq

namespace MutexCall

/-- The limit of a capture is short. -/
def Short : MutexCall → Prop
  | capture limit => limit.Short
  | release => True

instance : (call : MutexCall) → Decidable call.Short
  | capture limit => inferInstanceAs (Decidable limit.Short)
  | release => isTrue trivial

end MutexCall

/-! The calls of any threads on one handle, with their answers. A capture that does not get
the mutex ends with its limit. -/

section Steps

variable {τ : Type*}

inductive WindowsMutexes {ν : Type*} [DecidableEq ν] [DecidableEq τ] (h : Windows.IpcObject ν) :
    Windows.Objects ν τ → τ × MutexCall → Windows.Objects ν τ → Option Int → Prop where
  | capture {s t limit taken r} : s.call t (.wait .mutex h taken) = some r →
      WindowsMutexes h s (t, .capture limit) r.1 (some r.2)
  | release {s t r} : s.call t (.release .mutex h) = some r →
      WindowsMutexes h s (t, .release) r.1 (some r.2)

/-- `gettid` is the number of each thread. -/
inductive LinuxMutexes (fd : Int) (gettid : τ → Int32) (handle : Ptr) :
    Linux.Driver → τ × MutexCall → Linux.Driver → Option Int → Prop where
  | capture {drv t limit how r} :
      Linux.ipcCaptureMutex fd (gettid t) drv drv handle limit.ms how = some r →
      LinuxMutexes fd gettid handle drv (t, .capture limit) r.after (some r.error)
  | release {drv t after answer} :
      Linux.ipcReleaseMutex fd (gettid t) drv handle = (after, answer) →
      LinuxMutexes fd gettid handle drv (t, .release) after (some answer)

/-- The threads' process is the only one that uses the set. -/
inductive SystemVMutexes (h : SystemV.IpcObject) :
    UndoSet → τ × MutexCall → UndoSet → Option Int → Prop where
  | capture {s t limit r} :
      SystemV.ipcCaptureMutex (SystemV.semtimedopUndo (semtimedopErrno limit.ms s.set)) (some h)
        limit.ms s = some r →
      SystemVMutexes h s (t, .capture limit) r.1 (some r.2)
  | release {s t r} : SystemV.ipcReleaseMutex (SystemV.semtimedopUndo none) (some h) s = some r →
      SystemVMutexes h s (t, .release) r.1 (some r.2)

abbrev EOVERFLOW : Int := 75

/-- `sem_post` fails at the bound. -/
def semPostErrno (lim : Limits) (sem : Sem) : Option Int :=
  if sem = some lim.semValueMax then some EOVERFLOW else none

inductive PosixMutexes (lim : Limits) (h : Posix.IpcObject Unit) :
    Sem → τ × MutexCall → Sem → Option Int → Prop where
  | capture {s t limit r} :
      Posix.ipcCaptureMutex (Posix.semWaitCall (semTimedwaitErrno limit.ms s)) (some h) limit.ms
        s = some r →
      PosixMutexes lim h s (t, .capture limit) r.1 (some r.2)
  | release {s t after answer} :
      Posix.ipcReleaseMutex (Posix.semPostCall lim (semPostErrno lim s)) (some h) s =
        (after, answer) →
      PosixMutexes lim h s (t, .release) after (some answer)

inductive QnxMutexes (lim : Limits) (failed : Int → Int) (fd : Int) (handle : Ptr) :
    Qnx.Server → τ × MutexCall → Qnx.Server → Option Int → Prop where
  | capture {s t limit clock errno r} : clock.Suits lim limit.ms →
      Qnx.ipcCaptureMutex lim failed errno fd s handle limit.ms clock = some r →
      QnxMutexes lim failed fd handle s (t, .capture limit) r.1 (some r.2)
  | release {s t errno r} : Qnx.ipcReleaseMutex lim failed errno fd s handle = some r →
      QnxMutexes lim failed fd handle s (t, .release) r.1 (some r.2)

end Steps

/-! What each library makes of its mutexes. -/

section Machines

variable {τ : Type*} [DecidableEq τ]

/-- The owner, with its captures after the first. -/
def windowsMutex : Machine (Option (τ × Nat)) (τ × MutexCall) Int
  | none, (t, .capture _) => (some (t, 0), some IPC_OK)
  | some (u, n), (t, .capture _) =>
    if u = t then (some (u, n + 1), some IPC_OK) else (some (u, n), some IPC_WAIT_TIMEOUT)
  | none, (_, .release) => (none, some IPC_GENERAL_ERROR)
  | some (u, n), (t, .release) =>
    if u = t then (if n = 0 then none else some (u, n - 1), some IPC_OK)
    else (some (u, n), some IPC_GENERAL_ERROR)

/-- The owner. -/
def linuxMutex : Machine (Option τ) (τ × MutexCall) Int
  | none, (t, .capture _) => (some t, some IPC_OK)
  | some u, (t, .capture _) => (some u, some (if u = t then IPC_OK else IPC_WAIT_TIMEOUT))
  | owner, (t, .release) => (if owner = some t then none else owner, some IPC_OK)

/-- The units; `refused` is the answer without one, and `full` that of a release with `max`. -/
def unitMutex (max : Nat) (refused full : Int) : Machine Nat (τ × MutexCall) Int
  | 0, (_, .capture _) => (0, some refused)
  | n + 1, (_, .capture _) => (n, some IPC_OK)
  | n, (_, .release) =>
    if n < max then (n + 1, some IPC_OK) else (n, some full)

end Machines

section Windows

variable {ν τ : Type*} [DecidableEq ν] [DecidableEq τ]

/-- The object of a mutex. -/
def mutexObject : Option (τ × Nat) → Windows.KernelObject τ
  | none => .mutex none 0 false
  | some (u, n) => .mutex (some u) (n + 1) false

/-- The handle is that of a mutex. -/
structure OnMutex (s : Windows.Objects ν τ) (h : Windows.IpcObject ν) (id : Nat)
    (owner : Option (τ × Nat)) : Prop where
  live : h ∈ s.live
  descr : h.ipcDescr = some id
  object : s.objects id = some (mutexObject owner)

variable {s : Windows.Objects ν τ} {h : Windows.IpcObject ν} {id : Nat} {owner : Option (τ × Nat)}

omit [DecidableEq ν] [DecidableEq τ] in
theorem OnMutex.object_eq (on : OnMutex s h id owner) : s.object h = some (mutexObject owner) := by
  simp [Windows.Objects.object, on.descr, on.object]

omit [DecidableEq ν] in
/-- Only the object changes, and what the proofs count. -/
theorem OnMutex.store (on : OnMutex s h id owner) (next : Option (τ × Nat))
    {o : Windows.KernelObject τ} (ho : o = mutexObject next) (t : τ) (n : Nat) :
    OnMutex ((s.set id o).count id t n) h id next :=
  ⟨on.live, on.descr, by simp [Windows.Objects.count, Windows.Objects.set, ho]⟩

/-- A capture gets the mutex or it does not. -/
theorem windows_captureMutex (on : OnMutex s h id owner) (t : τ) (limit : Limit) (taken : Bool)
    {r : Windows.Objects ν τ × Int} (hr : s.call t (.wait .mutex h taken) = some r) :
    some r.2 = (windowsMutex owner (t, .capture limit)).2 ∧
      OnMutex r.1 h id (windowsMutex owner (t, .capture limit)).1 := by
  simp only [Windows.Objects.call, on.live, on.descr, on.object_eq, if_true] at hr
  rcases owner with _ | ⟨u, n⟩
  · simp only [mutexObject, Windows.KernelObject.take] at hr
    cases taken <;> cases hr
    exact ⟨rfl, on.store (some (t, 0)) rfl _ _⟩
  · by_cases hu : u = t
    · simp only [mutexObject, Windows.KernelObject.take, hu, if_true] at hr
      cases taken <;> cases hr
      simp only [windowsMutex, hu, if_true]
      exact ⟨rfl, on.store (some (t, n + 1)) rfl _ _⟩
    · simp only [mutexObject, Windows.KernelObject.take, hu, if_false] at hr
      cases taken <;> cases hr
      simp only [windowsMutex, hu, if_false]
      exact ⟨rfl, on⟩

theorem exists_windows_captureMutex (on : OnMutex s h id owner) (t : τ) :
    ∃ taken r, s.call t (.wait .mutex h taken) = some r := by
  simp only [Windows.Objects.call, on.live, on.descr, on.object_eq, if_true]
  cases ((mutexObject owner).take t) with
  | none => exact ⟨false, _, rfl⟩
  | some r => exact ⟨true, _, rfl⟩

theorem windows_releaseMutex (on : OnMutex s h id owner) (t : τ) :
    ∃ r, s.call t (.release .mutex h) = some r ∧
      some r.2 = (windowsMutex owner (t, .release)).2 ∧
      OnMutex r.1 h id (windowsMutex owner (t, .release)).1 := by
  simp only [Windows.Objects.call, on.live, on.descr, on.object_eq, if_true]
  rcases owner with _ | ⟨u, n⟩
  · exact ⟨_, rfl, rfl, on⟩
  · by_cases hu : u = t
    · simp only [mutexObject, Windows.KernelObject.release, Windows.KernelObject.type, hu, if_true,
        windowsMutex]
      refine ⟨_, rfl, rfl, on.store _ ?_ _ _⟩
      cases n <;> simp [mutexObject]
    · simp only [mutexObject, Windows.KernelObject.release, hu, if_false, windowsMutex]
      exact ⟨_, rfl, rfl, on⟩

theorem windowsMutex_tracks (h : Windows.IpcObject ν) (id : Nat) :
    Tracks (WindowsMutexes h) (@windowsMutex τ _) (OnMutex · h id ·) fun _ => True where
  takes := by
    rintro s owner on ⟨t, _ | _⟩ -
    · obtain ⟨taken, r, hr⟩ := exists_windows_captureMutex on t
      exact ⟨_, _, .capture hr⟩
    · obtain ⟨r, hr, -⟩ := windows_releaseMutex on t
      exact ⟨_, _, .release hr⟩
  keeps := by
    intro s owner call s' answer on _ step
    cases step with
    | @capture t limit taken r hr => exact windows_captureMutex on t limit taken hr
    | @release t r hr =>
      obtain ⟨r', hr', hanswer, hnext⟩ := windows_releaseMutex on t
      cases hr'.symm.trans hr
      exact ⟨hanswer, hnext⟩

end Windows

section Linux

variable {τ : Type*} [DecidableEq τ] {fd : Int} {gettid : τ → Int32} {drv : Linux.Driver} {p : Ptr}
  {owner : Option τ}

/-- The entry at `p` is a mutex that has the given owner. -/
structure OwnedBy (gettid : τ → Int32) (drv : Linux.Driver) (p : Ptr) (owner : Option τ) :
    Prop where
  notNull : p ≠ 0
  id : (drv.mem p).id = Kind.mutex.id
  lockerid : (drv.mem p).lockerid = owner.elim 0 gettid
  sema : (drv.mem p).sema = if owner.isNone then 1 else 0

omit [DecidableEq τ] in
theorem OwnedBy.exists (owned : OwnedBy gettid drv p owner) :
    Linux.handleExists .mutex drv (Linux.userHandle p) = true := by
  simp [Linux.handleExists, Linux.userHandle_ne_zero, owned.notNull, owned.id]

omit [DecidableEq τ] in
theorem OwnedBy.lockerid_eq_iff (inj : Function.Injective gettid) (nonzero : ∀ t, gettid t ≠ 0)
    (owned : OwnedBy gettid drv p owner) (t : τ) :
    (drv.mem p).lockerid = gettid t ↔ owner = some t := by
  rw [owned.lockerid]
  cases owner with
  | none => exact iff_of_false (fun h => nonzero t h.symm) (fun h => by cases h)
  | some u => exact inj.eq_iff.trans Option.some_inj.symm

/-- The function of the driver on a capture with a limit. -/
theorem OwnedBy.lock (inj : Function.Injective gettid) (nonzero : ∀ t, gettid t ≠ 0)
    (owned : OwnedBy gettid drv p owner) (t : τ) (limit : Limit) {how : CountingSemaphore.WaitEnd}
    {r : Linux.Outcome}
    (hr : Linux.ipcMutexLock drv drv ⟨Linux.userHandle p, limit.ms, gettid t⟩ how = some r) :
    (linuxMutex owner (t, .capture limit)).2 = some (Linux.captureResult r.error) ∧
      OwnedBy gettid r.after p (linuxMutex owner (t, .capture limit)).1 := by
  have hlocker := owned.lockerid_eq_iff inj nonzero t
  simp only [Linux.ipcMutexLock, owned.exists, Linux.containerOf_userHandle, if_true, hlocker,
    if_neg limit.not_neg] at hr
  have hsema := owned.sema
  split at hr
  · rename_i howner
    cases hr
    subst howner
    simp only [linuxMutex, if_true]
    exact ⟨rfl, owned⟩
  · rename_i howner
    obtain ⟨e, he, rfl⟩ := Option.map_eq_some_iff.mp hr
    rcases Linux.Entry.down_timed he with ⟨rfl, hpos, rfl⟩ | ⟨rfl, hzero, rfl⟩
    · cases owner with
      | some u => simp [hsema] at hpos
      | none =>
        refine ⟨rfl, owned.notNull, ?_, ?_, ?_⟩ <;>
          simp [linuxMutex, Linux.Entry.incLock, owned.id, hsema]
    · cases owner with
      | none => simp [hsema] at hzero
      | some u =>
        have hne : u ≠ t := fun he => howner (congrArg some he)
        simp only [linuxMutex, if_neg hne]
        refine ⟨rfl, owned.notNull, ?_, ?_, ?_⟩ <;>
          simp [owned.id, owned.lockerid, hsema]

theorem linux_captureMutex (inj : Function.Injective gettid) (nonzero : ∀ t, gettid t ≠ 0)
    (hfd : 0 < fd) (owned : OwnedBy gettid drv p owner) (t : τ) (limit : Limit)
    {how : CountingSemaphore.WaitEnd} {r : Linux.Outcome}
    (hr : Linux.ipcCaptureMutex fd (gettid t) drv drv (Linux.userHandle p) limit.ms how = some r) :
    some r.error = (linuxMutex owner (t, .capture limit)).2 ∧
      OwnedBy gettid r.after p (linuxMutex owner (t, .capture limit)).1 := by
  rw [Linux.ipcCaptureMutex, if_neg (ipcDriverHandle_open hfd)] at hr
  obtain ⟨q, hq, rfl⟩ := Option.map_eq_some_iff.mp hr
  simp only [Linux.ioctlMutexLock, Linux.ioctlLock, Bool.not_true, Bool.false_eq_true, ↓reduceIte,
    Linux.ipcLock] at hq
  obtain ⟨hanswer, hafter⟩ := owned.lock inj nonzero t limit hq
  exact ⟨hanswer.symm, hafter⟩

omit [DecidableEq τ] in
/-- A capture with a limit always ends. -/
theorem exists_linux_captureMutex (hfd : 0 < fd) (owned : OwnedBy gettid drv p owner) (t : τ)
    (limit : Limit) : ∃ how r,
      Linux.ipcCaptureMutex fd (gettid t) drv drv (Linux.userHandle p) limit.ms how = some r := by
  have hsema := owned.sema
  refine ⟨if owner.isNone then .acquired else .timedOut, ?_⟩
  apply Option.isSome_iff_exists.mp
  rw [Linux.ipcCaptureMutex, if_neg (ipcDriverHandle_open hfd), Option.isSome_map]
  simp only [Linux.ioctlMutexLock, Linux.ioctlLock, Bool.not_true, Bool.false_eq_true, ↓reduceIte,
    Linux.ipcLock, Linux.ipcMutexLock, owned.exists, Linux.containerOf_userHandle]
  split
  · rfl
  · rw [if_neg limit.not_neg, Option.isSome_map, Linux.Entry.down, Option.isSome_map, hsema]
    cases owner <;> simp

theorem linux_releaseMutex (inj : Function.Injective gettid) (nonzero : ∀ t, gettid t ≠ 0)
    (hfd : 0 < fd) (owned : OwnedBy gettid drv p owner) (t : τ) :
    ∃ after, Linux.ipcReleaseMutex fd (gettid t) drv (Linux.userHandle p) = (after, IPC_OK) ∧
      OwnedBy gettid after p (linuxMutex owner (t, .release)).1 := by
  have hlocker := owned.lockerid_eq_iff inj nonzero t
  have hunlock : ∃ after, Linux.ipcMutexUnlock drv ⟨Linux.userHandle p, gettid t⟩ = (after, 0) ∧
      OwnedBy gettid after p (linuxMutex owner (t, .release)).1 := by
    simp only [Linux.ipcMutexUnlock, owned.exists, Linux.containerOf_userHandle, if_true, ne_eq,
      hlocker, linuxMutex]
    by_cases howner : owner = some t
    · rw [if_neg (not_not.mpr howner), if_pos howner]
      refine ⟨_, rfl, owned.notNull, ?_, ?_, ?_⟩ <;>
        simp [Linux.Entry.up, Linux.Entry.decLock, CountingSemaphore.post, owned.id, owned.sema,
          howner]
    · rw [if_pos howner, if_neg howner]
      exact ⟨drv, rfl, owned⟩
  obtain ⟨after, heq, hafter⟩ := hunlock
  exact ⟨after, Linux.unlockObject_ok hfd heq, hafter⟩

theorem linuxMutex_tracks (inj : Function.Injective gettid) (nonzero : ∀ t, gettid t ≠ 0)
    (hfd : 0 < fd) (p : Ptr) :
    Tracks (LinuxMutexes fd gettid (Linux.userHandle p)) linuxMutex
      (OwnedBy gettid · p ·) fun _ => True where
  takes := by
    rintro drv owner owned ⟨t, limit | _⟩ -
    · obtain ⟨how, r, hr⟩ := exists_linux_captureMutex hfd owned t limit
      exact ⟨_, _, .capture hr⟩
    · obtain ⟨after, hafter, -⟩ := linux_releaseMutex inj nonzero hfd owned t
      exact ⟨_, _, .release hafter⟩
  keeps := by
    intro drv owner call after answer owned _ step
    cases step with
    | @capture t limit how r hr => exact linux_captureMutex inj nonzero hfd owned t limit hr
    | @release t _ _ hr =>
      obtain ⟨after', hafter, hnext⟩ := linux_releaseMutex inj nonzero hfd owned t
      cases hafter.symm.trans hr
      exact ⟨by cases owner <;> rfl, hnext⟩

end Linux

section SystemV

open SystemV (semtimedop)

theorem onUnits_capture (h : SystemV.IpcObject) {limit : Limit} (short : limit.Short)
    {s : UndoSet} {n : Nat} (on : OnUnits s n) :
    ∃ t, SystemV.ipcCaptureMutex (SystemV.semtimedopUndo (semtimedopErrno limit.ms s.set)) (some h)
        limit.ms s = some (t, if 0 < n then IPC_OK else IPC_WAIT_TIMEOUT) ∧ OnUnits t (n - 1) := by
  obtain ⟨total, set, htotal, rfl, bounded, hval⟩ := on
  have hset : (UndoSet.of total set).set = set := rfl
  have hlock : SystemV.lockObject (semtimedop (semtimedopErrno limit.ms set)) (some h) limit.ms
      set = _ :=
    systemV_lock limit.limited short.systemV bounded fun _ => rfl
  have same := SystemV.lockUndo_of h htotal (semtimedopErrno limit.ms set) limit.ms set
  obtain ⟨low, high⟩ := bounded
  by_cases hunit : 0 < n
  · rw [if_pos (by omega : 0 < set.semval)] at hlock
    rw [hset, if_pos hunit]
    exact onUnits_same htotal same hlock ⟨by dsimp only; omega, by dsimp only; omega⟩
      (by dsimp only; omega)
  · rw [if_neg (by omega : ¬ 0 < set.semval)] at hlock
    rw [hset, if_neg hunit]
    exact onUnits_same htotal same hlock ⟨low, high⟩ (by omega)

theorem systemVMutex_tracks (τ : Type*) (h : SystemV.IpcObject) :
    Tracks (SystemVMutexes h) (@unitMutex τ 32767 IPC_WAIT_TIMEOUT IPC_GENERAL_ERROR) OnUnits
      (fun call => call.2.Short) where
  takes := by
    rintro s n on ⟨t, limit | _⟩ short
    · obtain ⟨after, hafter, -⟩ := onUnits_capture h short on
      exact ⟨_, _, .capture hafter⟩
    · obtain ⟨after, hafter, -⟩ := onUnits_unlock h on
      exact ⟨_, _, .release hafter⟩
  keeps := by
    rintro s n call after answer on short step
    cases step with
    | @capture t limit r hr =>
      obtain ⟨after, hafter, hunits⟩ := onUnits_capture h short on
      cases hafter.symm.trans hr
      cases n <;> exact ⟨rfl, hunits⟩
    | @release t r hr =>
      obtain ⟨after, hafter, hunits⟩ := onUnits_unlock h on
      cases hafter.symm.trans hr
      by_cases hroom : n < 32767
      · have hbelow : (n : Int) < SystemVSemaphore.SEMVMX := Int.ofNat_lt.mpr hroom
        simp only [unitMutex, if_pos hroom, if_pos hbelow] at hunits ⊢
        exact ⟨trivial, hunits⟩
      · have hbelow : ¬ (n : Int) < SystemVSemaphore.SEMVMX := fun h => hroom (Int.ofNat_lt.mp h)
        simp only [unitMutex, if_neg hroom, if_neg hbelow] at hunits ⊢
        exact ⟨trivial, hunits⟩

end SystemV

section Posix

variable {lim : Limits}

theorem posix_releaseMutex (lim : Limits) (h : Posix.IpcObject Unit) (n : Nat)
    (bound : n ≤ lim.semValueMax) :
    Posix.ipcReleaseMutex (Posix.semPostCall lim (semPostErrno lim (some n))) (some h) (some n) =
      if n < lim.semValueMax then (some (n + 1), IPC_OK) else (some n, IPC_GENERAL_ERROR) := by
  by_cases hroom : n < lim.semValueMax
  · have herrno : semPostErrno lim (some n) = none := if_neg fun h => by
      have := Option.some.inj h
      omega
    rw [herrno, if_pos hroom]
    simp [Posix.ipcReleaseMutex, Posix.unlockObject, Posix.semPostCall, PosixSemaphore.semPost,
      hroom]
  · have herrno : semPostErrno lim (some n) = some EOVERFLOW := if_pos (congrArg some (by omega))
    rw [herrno, if_neg hroom]
    rfl

theorem posixMutex_tracks (τ : Type*) (lim : Limits) (h : Posix.IpcObject Unit) :
    Tracks (PosixMutexes lim h)
      (@unitMutex τ lim.semValueMax IPC_WAIT_TIMEOUT IPC_GENERAL_ERROR)
      (fun sem n => sem = some n ∧ n ≤ lim.semValueMax) (fun call => call.2.Short) where
  takes := by
    rintro sem n ⟨rfl, bound⟩ ⟨t, limit | _⟩ short
    · exact ⟨_, _, .capture (posix_wait (Limit.Short.posix short) n)⟩
    · exact ⟨_, _, .release (posix_releaseMutex lim h n bound)⟩
  keeps := by
    rintro sem n call after answer ⟨rfl, bound⟩ short step
    cases step with
    | @capture t limit r hr =>
      cases (posix_wait (Limit.Short.posix short) n).symm.trans hr
      cases n with
      | zero => exact ⟨rfl, rfl, bound⟩
      | succ n => exact ⟨rfl, rfl, Nat.le_of_succ_le bound⟩
    | @release t _ _ hr =>
      rw [posix_releaseMutex lim h n bound] at hr
      by_cases hroom : n < lim.semValueMax
      · rw [if_pos hroom] at hr
        cases hr
        simp only [unitMutex, if_pos hroom]
        exact ⟨trivial, trivial, hroom⟩
      · rw [if_neg hroom] at hr
        cases hr
        simp only [unitMutex, if_neg hroom]
        exact ⟨trivial, trivial, bound⟩

end Posix

section Qnx

variable {lim : Limits} {failed : Int → Int} {fd : Int}

theorem qnxMutex_tracks (τ : Type*) (lim : Limits) (failed : Int → Int) (hfd : 0 < fd) (p : Ptr) :
    Tracks (QnxMutexes lim failed fd p)
      (@unitMutex τ lim.semValueMax (Qnx.refusedLock failed) IPC_OK)
      (Qnx.HasUnits · .mutex p ·) (fun call => call.2.Short) where
  takes := by
    rintro s n h ⟨t, limit | _⟩ short
    · obtain ⟨s', hs, -⟩ := Qnx.hasUnits_lock lim failed 0 hfd (by decide) (by decide)
        limit.not_neg short (zero_suits lim limit) h
      exact ⟨_, _, .capture (zero_suits lim limit) hs⟩
    · obtain ⟨s', hs, -⟩ := Qnx.hasUnits_unlock lim failed 0 hfd (by decide) h
      exact ⟨_, _, .release hs⟩
  keeps := by
    intro s n call after answer h short step
    cases step with
    | @capture t limit clock errno r suits hr =>
      obtain ⟨s', hs, hunits⟩ := Qnx.hasUnits_lock lim failed errno hfd (by decide) (by decide)
        limit.not_neg short suits h
      cases hs.symm.trans hr
      cases n <;> exact ⟨rfl, hunits⟩
    | @release t errno r hr =>
      obtain ⟨s', hs, hunits⟩ := Qnx.hasUnits_unlock lim failed errno hfd (by decide) h
      cases hs.symm.trans hr
      by_cases hroom : n < lim.semValueMax
      · simp only [unitMutex, if_pos hroom] at hunits ⊢
        exact ⟨trivial, hunits⟩
      · simp only [unitMutex, if_neg hroom] at hunits ⊢
        exact ⟨trivial, hunits⟩

end Qnx

end Gipcy.Ports
