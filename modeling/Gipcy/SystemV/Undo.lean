import Gipcy.SystemV.EventKinds

/-! The System V calls of one process, with the adjustment that `SEM_UNDO` makes the kernel
keep for it. The operations go as they do without it: a `SETVAL` clears the adjustment, and
from there on it follows the value. -/
namespace Gipcy.SystemV

open SystemVSemaphore SystemWait
open Linux (IPC_OK)

/-- `semtimedop` and `semop` of the process, on the one set. -/
def semtimedopUndo (failed : Option Int) : Semtimedop UndoSet := fun _ ops _ s =>
  match failed with
  | some errno => some (s, .error errno)
  | none =>
    match s.set.semop ops.semOp with
    | .sleeps => none
    | .range => some (s, .error ERANGE)
    | .done after =>
      if ops.semFlg = SEM_UNDO then
        match adjust s.semadj ops.semOp with
        | some semadj => some (⟨after, semadj⟩, .ok)
        | none => some (s, .error ERANGE)
      else some (⟨after, s.semadj⟩, .ok)

/-- `semctl` with `SETVAL` clears the adjustments. -/
def semctlSetValUndo (failed : Option Int) (val : Int) (s : UndoSet) : UndoSet × SysResult :=
  let r := semctlSetVal failed val s.set
  (⟨r.1, if r.2 = .ok then 0 else s.semadj⟩, r.2)

/-- The two operations of a wait, each with its own `errno`. -/
def waitOpsUndo (failed raise : Option Int) : Semtimedop UndoSet := fun id ops =>
  semtimedopUndo (if ops = unlockOps then raise else failed) id ops

/-- A call on the one state is the call on the other. -/
abbrev Same {σ σ' α : Type} (f : σ → σ') (r : Option (σ × α)) (r' : Option (σ' × α)) : Prop :=
  r' = r.map (Prod.map f id)

section Texts

variable {σ σ' : Type} {ops : Semtimedop σ} {ops' : Semtimedop σ'} {f : σ → σ'} {s : σ}
  (h : IpcObject)

theorem lockObject_same (timeout : Int32)
    (hops : ∀ wait, Same f (ops h.ipcSem lockOps wait s) (ops' h.ipcSem lockOps wait (f s))) :
    Same f (lockObject ops (some h) timeout s) (lockObject ops' (some h) timeout (f s)) := by
  unfold Same at hops
  unfold Same lockObject
  by_cases ht : timeout > 0 <;> simp [ht, hops, Option.map_map, Function.comp_def]

theorem unlockObject_same (hops : Same f (ops h.ipcSem unlockOps .unlimited s)
    (ops' h.ipcSem unlockOps .unlimited (f s))) :
    Same f (unlockObject ops (some h) s) (unlockObject ops' (some h) (f s)) := by
  unfold Same at hops
  unfold Same unlockObject
  simp [hops, Option.map_map, Function.comp_def]

theorem ipcWaitEvent_same (timeout : Int32)
    (hlock : ∀ wait, Same f (ops h.ipcSem lockOps wait s) (ops' h.ipcSem lockOps wait (f s)))
    (hunlock : ∀ r, lockObject ops (some h) timeout s = some r →
      Same f (ops h.ipcSem unlockOps .unlimited r.1)
        (ops' h.ipcSem unlockOps .unlimited (f r.1))) :
    Same f (ipcWaitEvent ops (some h) timeout s) (ipcWaitEvent ops' (some h) timeout (f s)) := by
  have hsame := lockObject_same h timeout hlock
  unfold Same at hsame
  unfold Same ipcWaitEvent
  rw [hsame]
  cases hr : lockObject ops (some h) timeout s with
  | none => rfl
  | some r =>
    have hraise := hunlock r hr
    unfold Same at hraise
    by_cases hpost : r.2 = IPC_OK ∧ h.ipcSize = 0
    · simp [hpost, hraise, Option.map_map, Function.comp_def]
    · simp [hpost]

end Texts

section Process

variable {total : Int} {set : SemSet}

/-- One operation of the process. -/
theorem semtimedopUndo_of (htotal : total = 0 ∨ total = 1) (set : SemSet) (failed : Option Int)
    (id : Int) {ops : SemBuf} (hflag : ops.semFlg = SEM_UNDO) (wait : Wait) :
    Same (UndoSet.of total) (semtimedop failed id ops wait set)
      (semtimedopUndo failed id ops wait (.of total set)) := by
  cases failed with
  | some errno => rfl
  | none =>
    have hset : (UndoSet.of total set).set = set := rfl
    simp only [Same, semtimedop, semtimedopUndo, hset, if_pos hflag]
    cases hop : set.semop ops.semOp with
    | done after =>
      rw [adjust_of htotal hop]
      rfl
    | sleeps => rfl
    | range => rfl

variable (h : IpcObject) (htotal : total = 0 ∨ total = 1) (failed : Option Int)
include htotal

theorem lockUndo_of (timeout : Int32) (set : SemSet) :
    Same (UndoSet.of total) (lockObject (semtimedop failed) (some h) timeout set)
      (lockObject (semtimedopUndo failed) (some h) timeout (.of total set)) :=
  lockObject_same h timeout fun wait => semtimedopUndo_of htotal set failed _ rfl wait

theorem unlockUndo_of (set : SemSet) :
    Same (UndoSet.of total) (unlockObject (semtimedop failed) (some h) set)
      (unlockObject (semtimedopUndo failed) (some h) (.of total set)) :=
  unlockObject_same h (semtimedopUndo_of htotal set failed _ rfl _)

theorem waitUndo_of (raise : Option Int) (timeout : Int32) (set : SemSet) :
    Same (UndoSet.of total) (ipcWaitEvent (waitOps failed raise) (some h) timeout set)
      (ipcWaitEvent (waitOpsUndo failed raise) (some h) timeout (.of total set)) :=
  ipcWaitEvent_same h timeout (fun wait => semtimedopUndo_of htotal set _ _ rfl wait)
    fun r _ => semtimedopUndo_of htotal r.1 _ _ rfl _

end Process

/-- A value that was just set is all that there is to it. -/
theorem semctlSetValUndo_of {total val : Int} (hval : 0 ≤ val ∧ val ≤ SEMVMX) (set : SemSet) :
    semctlSetValUndo none val (.of total set) = (.of val { set with semval := val }, .ok) := by
  simp [semctlSetValUndo, semctlSetVal, SemSet.setVal, UndoSet.of, hval]

/-- What `semget` makes, with no adjustment yet. -/
def newSet : UndoSet := .of 0 SemSet.new

end Gipcy.SystemV
