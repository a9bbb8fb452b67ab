import Gipcy.Qnx.Registry

/-! The values of the four registry locks. The functions that read a list run
once more here, with a record of the lock at each place where they do. -/
namespace Gipcy.Qnx

open PosixSemaphore Transition
open Linux (CStr Ptr Kind nameSize_pos)

/-- A loop over a list or a change of it, and the value that its lock has then. -/
structure Touch where
  list : Kind
  lock : Sem
deriving DecidableEq

abbrev Traced (α : Type) := List Touch × Result α

/-- The list is read or changed, and `rest` follows. -/
def touch {α : Type} (k : Kind) (drv : Driver) (rest : Traced α) : Traced α :=
  (⟨k, drv.lock k⟩ :: rest.1, rest.2)

def semWaitLockTraced {α : Type} (k : Kind) (drv : Driver) (rest : Driver → Traced α) :
    Traced α :=
  match semWait (drv.lock k) with
  | .took sem => rest (drv.setLock k sem)
  | .blocks => ([], .waits drv (.registry k))
  | .invalid => rest drv

/-- `registryCreate`: the search and the `push_back`. -/
def registryCreateTraced (lim : Limits) (k : Kind) (init : Int32 → Sem) (drv : Driver)
    (param : IpcCreate) (malloc : Option Ptr) : Traced Ptr :=
  semWaitLockTraced k drv fun drv =>
    touch k drv <|
      match findName drv k param.name with
      | some p =>
        let drv := countOwner drv p
        ([], .done (semPostLock lim k drv) (drv.mem p).handle)
      | none =>
        match malloc with
        | none => ([], .undefined)
        | some p =>
          let e := { Entry.zero with
            name := param.name.snprintf 128 nameSize_pos
            handle := p
            sema := init param.value }.setId k
          let drv := drv.write p e
          touch k drv <|
            let drv := drv.setList k (drv.mList k ++ [p])
            let drv := countOwner drv p
            ([], .done (semPostLock lim k drv) (drv.mem p).handle)

/-- `closeBody`: the loop, in which the `erase` stands too. -/
def closeBodyTraced (lim : Limits) (k : Kind) (exist : Entry → Bool) (destroy : Entry → Entry)
    (handle : Ptr) (drv : Driver) : Traced Int :=
  if exist (drv.mem handle) then
    touch k drv <|
      let after := closeLoop handle destroy (drv.mList k) drv.mem (-EINVAL)
      ([], .done (semPostLock lim k ({ drv with mem := after.1 }.setList k after.2.1)) after.2.2)
  else ([], .done (semPostLock lim k drv) (-EINVAL))

def ipcSemCloseTraced (lim : Limits) (drv : Driver) (param : IpcClose) : Traced Int :=
  if param.handle = 0 then ([], .done drv (-EINVAL))
  else
    closeBodyTraced lim .sem (acceptsOf .sem) (destroyOf .sem) param.handle
      (semPostLock lim .sem drv)

def registryCloseTraced (lim : Limits) (k : Kind) (drv : Driver) (param : IpcClose) :
    Traced Int :=
  if param.handle = 0 then ([], .done drv (-EINVAL))
  else semWaitLockTraced k drv (closeBodyTraced lim k (acceptsOf k) (destroyOf k) param.handle)

def closeTraced (lim : Limits) : Kind → Driver → IpcClose → Traced Int
  | .sem => ipcSemCloseTraced lim
  | k => registryCloseTraced lim k

/-- What a request reads and changes; the other functions look at entries only. -/
def touches (lim : Limits) (drv : Driver) (malloc : Option Ptr) : Command → List Touch
  | .create k param => (registryCreateTraced lim k (initOf lim k) drv param malloc).1
  | .close k param => (closeTraced lim k drv param).1
  | _ => []

section Traced

variable (lim : Limits) (drv : Driver) (k : Kind)

theorem semWaitLockTraced_snd {α : Type} (rest : Driver → Traced α) :
    (semWaitLockTraced k drv rest).2 = semWaitLock k drv fun drv => (rest drv).2 := by
  unfold semWaitLockTraced semWaitLock
  cases semWait (drv.lock k) <;> rfl

/-- The record changes nothing. -/
theorem registryCreateTraced_snd (init : Int32 → Sem) (param : IpcCreate) (malloc : Option Ptr) :
    (registryCreateTraced lim k init drv param malloc).2 =
      registryCreate lim k init drv param malloc := by
  unfold registryCreateTraced registryCreate
  rw [semWaitLockTraced_snd]
  congr 1
  funext drv
  unfold touch
  cases findName drv k param.name with
  | some p => rfl
  | none => cases malloc <;> rfl

theorem closeBodyTraced_snd (exist : Entry → Bool) (destroy : Entry → Entry) (handle : Ptr) :
    (closeBodyTraced lim k exist destroy handle drv).2 =
      closeBody lim k exist destroy handle drv := by
  unfold closeBodyTraced closeBody
  split <;> rfl

theorem closeTraced_snd (param : IpcClose) :
    (closeTraced lim k drv param).2 = closeOf lim k drv param := by
  by_cases hnull : param.handle = 0
  · cases k <;>
      simp only [closeTraced, ipcSemCloseTraced, registryCloseTraced, closeOf, ipcSemClose,
        ipcMutexClose, ipcEventClose, ipcShmClose, registryClose, if_pos hnull]
  · cases k <;>
      simp only [closeTraced, ipcSemCloseTraced, registryCloseTraced, closeOf, ipcSemClose,
        ipcMutexClose, ipcEventClose, ipcShmClose, registryClose, if_neg hnull,
        semWaitLockTraced_snd, closeBodyTraced_snd] <;> rfl

end Traced

/-- Nobody is inside a registry, and exactly one can enter. -/
def Balanced (drv : Driver) : Prop := ∀ k, drv.lock k = some 1

/-- Every read and change of a list happens while its lock is 0. -/
def Inside (lim : Limits) (s : Server) {ι : Type*} (a : ι × Move) : Prop :=
  match a.2 with
  | .request command malloc => ∀ t ∈ touches lim s.drv malloc command, t.lock = some 0
  | _ => True

/-- Not a close of a semaphore, unless of the null handle. -/
def SparesSemClose {ι : Type*} (a : ι × Move) : Prop :=
  match a.2 with
  | .request (.close .sem param) _ => param.handle = 0
  | _ => True

section Steps

variable {lim : Limits} {drv : Driver} {k : Kind}

theorem semPost_zero (lim : Limits) : semPost lim (some 0) = some 1 := by
  have hlarge := lim.large
  simp only [semPost]
  rw [if_pos (by omega)]

namespace Balanced

theorem isOpen (h : Balanced drv) : Open drv := fun k => ⟨0, h k⟩

theorem of_lock_eq (h : Balanced drv) {drv' : Driver} (he : drv'.lock = drv.lock) :
    Balanced drv' := by
  unfold Balanced
  rw [he]
  exact h

/-- A `sem_post` after the `sem_wait`, whatever lies between. -/
theorem leave (h : Balanced drv) (lim : Limits) {drv' : Driver}
    (he : drv'.lock = (drv.setLock k (some 0)).lock) : Balanced (semPostLock lim k drv') := by
  intro l
  unfold semPostLock
  by_cases hl : l = k
  · subst hl
    rw [Driver.setLock_lock_self, he, Driver.setLock_lock_self, semPost_zero]
  · rw [drv'.setLock_lock_ne _ hl, he, drv.setLock_lock_ne _ hl]
    exact h l

theorem semWaitLockTraced {α : Type} (h : Balanced drv) (rest : Driver → Traced α) :
    Qnx.semWaitLockTraced k drv rest = rest (drv.setLock k (some 0)) := by
  simp only [Qnx.semWaitLockTraced, h k, semWait]

/-- The check of a handle leaves everything as it was. -/
theorem handleCheck {α : Type} (h : Balanced drv) (id : UInt32) (handle : Ptr)
    (rest : Driver → Bool → Result α) :
    Qnx.handleCheck lim k id drv handle rest =
      rest drv (handle ≠ 0 ∧ (drv.mem handle).idOf k = id) := by
  have hsame : drv.setLock k (some 1) = drv := by
    rw [Driver.setLock, ← h k, Function.update_eq_self]
  unfold Qnx.handleCheck semWaitLock
  simp only [h k, semWait, semPostLock, Driver.setLock_lock_self, semPost_zero,
    Driver.setLock_setLock, Driver.setLock_mem, hsame]
  rfl

theorem registryCreate (h : Balanced drv) (init : Int32 → Sem) (param : IpcCreate)
    (malloc : Option Ptr) :
    (∀ t ∈ (registryCreateTraced lim k init drv param malloc).1, t.lock = some 0) ∧
      (Qnx.registryCreate lim k init drv param malloc).All Balanced := by
  rw [← registryCreateTraced_snd, registryCreateTraced, h.semWaitLockTraced]
  have hzero : (drv.setLock k (some 0)).lock k = some 0 := Driver.setLock_lock_self _ _ _
  cases findName (drv.setLock k (some 0)) k param.name with
  | some p =>
    constructor
    · simp [touch]
    · exact h.leave lim rfl
  | none =>
    cases malloc with
    | none => exact ⟨by simp [touch], trivial⟩
    | some p =>
      constructor
      · simp [touch]
      · exact h.leave lim rfl

theorem registryClose (h : Balanced drv) (param : IpcClose) :
    (∀ t ∈ (registryCloseTraced lim k drv param).1, t.lock = some 0) ∧
      (registryCloseTraced lim k drv param).2.All Balanced := by
  unfold registryCloseTraced
  split
  · exact ⟨by simp, h⟩
  · rw [h.semWaitLockTraced, closeBodyTraced]
    split
    · exact ⟨by simp [touch], h.leave lim rfl⟩
    · exact ⟨by simp, h.leave lim rfl⟩

theorem objectLock (h : Balanced drv) (failed : Int → Int) (param : IpcLock) (clock : Clock) :
    (Qnx.objectLock lim k failed drv param clock).All Balanced := by
  unfold Qnx.objectLock
  rw [h.handleCheck]
  have ended : ∀ timed : Bool, ∀ invalid : Result Int, invalid.All Balanced → ∀ wait,
      (lockEnd k drv param.handle timed invalid wait).All Balanced := by
    rintro timed invalid hinvalid (sem | _ | _)
    · exact h.of_lock_eq rfl
    · exact h
    · exact hinvalid
  split
  · exact h
  · split
    · split
      · refine ended _ _ ?_ _
        exact h.of_lock_eq rfl
      · split
        · trivial
        · refine ended _ _ ?_ _
          exact h
    · exact h

theorem objectUnlock (h : Balanced drv) (id : UInt32) (handle : Ptr) :
    (Qnx.objectUnlock lim k id drv handle).All Balanced := by
  unfold Qnx.objectUnlock
  rw [h.handleCheck]
  split
  · exact h
  · split
    · exact h.of_lock_eq rfl
    · exact h

end Balanced

/-- Two posts and no wait: the lock is left at 3. -/
theorem ipcSemClose_lock (lim : Limits) (h : Balanced drv) {param : IpcClose}
    (hnull : param.handle ≠ 0) :
    ∃ drv' error, ipcSemClose lim drv param = .done drv' error ∧ drv'.lock .sem = some 3 := by
  have hlarge := lim.large
  have hthree : semPost lim (semPost lim (some 1)) = some 3 := by
    have hone : 1 < lim.semValueMax := by omega
    have htwo : 2 < lim.semValueMax := by omega
    simp [semPost, hone, htwo]
  unfold ipcSemClose closeBody
  rw [if_neg hnull]
  split
  · exact ⟨_, _, rfl, by simp [semPostLock, h .sem, hthree]⟩
  · exact ⟨_, _, rfl, by simp [semPostLock, h .sem, hthree]⟩

theorem Balanced.ioDevctl {ι : Type*} (h : Balanced drv) (malloc : Option Ptr) {c : ι}
    {command : Command} (spares : SparesSemClose (c, .request command malloc)) :
    (∀ t ∈ touches lim drv malloc command, t.lock = some 0) ∧
      (Qnx.ioDevctl lim drv malloc command).All Balanced := by
  cases command with
  | create k param =>
    rw [ioDevctl_create_eq, createOf_eq]
    exact ⟨(h.registryCreate _ param malloc).1, (h.registryCreate _ param malloc).2.map _⟩
  | close k param =>
    rw [ioDevctl_close_eq, ← closeTraced_snd]
    cases k with
    | sem =>
      have hnull : param.handle = 0 := spares
      simp only [touches, closeTraced, ipcSemCloseTraced, if_pos hnull]
      exact ⟨by simp, h⟩
    | mutex | event | shm =>
      exact ⟨(h.registryClose param).1, (h.registryClose param).2.map _⟩
  | lock k param clock =>
    refine ⟨by simp [touches], ?_⟩
    cases k with
    | shm => exact h
    | _ => exact (h.objectLock _ param clock).map _
  | unlock k param =>
    refine ⟨by simp [touches], ?_⟩
    cases k with
    | shm => exact h
    | _ => exact (h.objectUnlock _ _).map _
  | eventReset param => exact ⟨by simp [touches], (h.objectUnlock _ _).map _⟩
  | unknown => exact ⟨by simp [touches], h⟩

namespace Server

variable {ι : Type*} {s t : Server} {a : ι × Move}

theorem balanced_after {r : Result Reply} (h : Balanced s.drv) (hr : r.All Balanced) :
    Balanced (s.after r).drv := by
  cases r with
  | done drv reply => exact hr
  | waits drv on => exact hr
  | undefined => exact h

/-- One step from a balanced state: the locks are used as they should be, and
are balanced again, exactly when the step closes no semaphore. -/
theorem balanced_iff_spares (h : Balanced s.drv) (hs : next lim s a = some t) :
    Inside lim s a ∧ Balanced t.drv ↔ SparesSemClose a := by
  obtain ⟨c, move⟩ := a
  cases move with
  | request command malloc =>
    obtain ⟨-, hs⟩ := Option.ite_none_right_eq_some.mp hs
    cases Option.some.inj hs
    constructor
    · rintro ⟨-, balanced⟩
      unfold SparesSemClose
      split
      · rename_i param malloc' heq
        cases heq
        by_contra hnull
        obtain ⟨drv', error, heq, hthree⟩ := ipcSemClose_lock lim h hnull
        have hone := balanced .sem
        rw [Qnx.ioDevctl, heq] at hone
        exact absurd (hthree.symm.trans hone) (by decide)
      · trivial
    · intro spares
      obtain ⟨inside, hall⟩ := h.ioDevctl malloc spares
      exact ⟨inside, balanced_after h hall⟩
  | expire errno =>
    simp only [next] at hs
    split at hs <;> cases hs
    exact iff_of_true ⟨trivial, h⟩ trivial
  | scribble p e =>
    obtain ⟨-, hs⟩ := Option.ite_none_right_eq_some.mp hs
    cases hs
    exact iff_of_true ⟨trivial, h.of_lock_eq rfl⟩ trivial

theorem balanced_createInstance (lim : Limits) (mem : Ptr → Entry) :
    Balanced (createInstance lim mem) := by
  intro k
  have hlarge := lim.large
  have hone : (1 : UInt32).toNat ≤ lim.semValueMax := by
    rw [show (1 : UInt32).toNat = 1 from rfl]
    omega
  simp only [createInstance, semInit, if_pos hone]
  rfl

end Server

end Steps

open Server

section Claims

/-- A run of a new manager uses each lock as it should and leaves it at 1 after
every step exactly when no step closes a semaphore. -/
theorem locks_balanced_iff (lim : Limits) {ι : Type*} (mem : Ptr → Entry)
    (labels : List (ι × Move)) (t : Server) :
    (((system lim ι).guard fun s a => Inside lim s a).confine fun s => Balanced s.drv).Exec
        ⟨createInstance lim mem, .receiving, none⟩ labels t ↔
      ((system lim ι).guard fun _ a => SparesSemClose a).Exec
        ⟨createInstance lim mem, .receiving, none⟩ labels t := by
  have first : Balanced (⟨createInstance lim mem, .receiving, none⟩ : Server).drv :=
    balanced_createInstance lim mem
  exact System.exec_guard_confine_iff (fun s a t h step => balanced_iff_spares h step) first

/-- A semaphore is made and closed, and the lock of its list is 3 from then on. -/
theorem locks_not_balanced :
    ¬ ∀ (lim : Limits) (s : Server), (system lim Unit).Reachable s → Balanced s.drv := by
  intro h
  obtain ⟨s, hs, hthree⟩ : ∃ s, (system leastLimits Unit).Reachable s ∧
      s.drv.lock .sem = some 3 := by
    refine exists_reachable_of_run
      ⟨createInstance leastLimits fun _ => Entry.zero, .receiving, none⟩
      [((), .request (.create .sem ⟨CStr.x, 1, 0⟩) (some 4096)),
        ((), .request (.close .sem ⟨4096⟩) none)]
      (fun s => decide (s.drv.lock .sem = some 3)) ⟨_, rfl⟩
      (by decide +kernel) fun s _ hp => of_decide_eq_true hp
  exact absurd (hthree.symm.trans (h leastLimits s hs .sem)) (by decide)

end Claims

end Gipcy.Qnx
