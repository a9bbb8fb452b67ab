import Gipcy.Lib.Transition
import Gipcy.SystemV.Calls

/-! The two kinds of event of the System V library, in the calls of one process on
a new event, one after the other. -/
namespace Gipcy.SystemV

open SystemVSemaphore SystemWait Transition
open Linux (IPC_OK IPC_GENERAL_ERROR IPC_INVALID_HANDLE)

/-- `semctl` with `SETVAL` on the one set; with an `errno` it fails. -/
def semctlSetVal (failed : Option Int) (val : Int) (set : SemSet) : SemSet × SysResult :=
  match failed with
  | some errno => (set, .error errno)
  | none =>
    match set.setVal val with
    | some after => (after, .ok)
    | none => (set, .error ERANGE)

section Texts

variable {σ : Type} (setVal : Int → σ → σ × SysResult) (semtimedop : Semtimedop σ)

/-- `IPC_createEvent` where its `semget` made the set `id`: the handle, or `NULL`. -/
def createEvent (id : Int) (manual value : Bool) (s : σ) : Option (σ × Option IpcObject) :=
  let h : IpcObject := ⟨.event, id, if manual then 1 else 0⟩
  -- The set with the identifier 0 is not initialised.
  if id > 0 then
    let given := setVal 1 s
    if given.2 ≠ .ok then some (given.1, none)
    else if !value then
      (semtimedop id lockOps .unlimited given.1).map fun r =>
        (r.1, if r.2 = .ok then some h else none)
    else some (given.1, some h)
  else some (s, some h)

/-- `IPC_createMutex` in the same way; its value is not looked at. -/
def createMutex (id : Int) (_value : Bool) (s : σ) : σ × Option IpcObject :=
  let h : IpcObject := ⟨.mutex, id, 0⟩
  if id > 0 then
    let given := setVal 1 s
    (given.1, if given.2 = .ok then some h else none)
  else (s, some h)

/-- `IPC_resetEvent`. -/
def resetEvent (handle : Option IpcObject) (s : σ) : σ × Int :=
  match handle with
  | none => (s, IPC_INVALID_HANDLE)
  | some _ =>
    let r := setVal 0 s
    (r.1, if r.2 = .ok then IPC_OK else IPC_GENERAL_ERROR)

end Texts

def ipcCreateEvent (setVal lower : Option Int) :=
  createEvent (semctlSetVal setVal) (semtimedop lower)

def ipcResetEvent (failed : Option Int) := resetEvent (semctlSetVal failed)

/-- The two operations of a wait, each with its own `errno`. -/
def waitOps (failed raise : Option Int) : Semtimedop SemSet := fun id ops =>
  semtimedop (if ops = unlockOps then raise else failed) id ops

/-- A call, with the `errno` of its system calls. -/
inductive EventCall where
  | set (failed : Option Int)
  | reset (failed : Option Int)
  | wait (timeout : Int32) (failed raise : Option Int)

/-- An event, and what the last wait that returned `IPC_OK` met, if no set or reset
followed: the set before it, and the `errno` of its second operation. -/
structure Event where
  set : SemSet
  waited : Option (SemSet × Option Int)
deriving DecidableEq

/-- A call that does not block. -/
def Event.next (h : IpcObject) (s : Event) : EventCall → Option Event
  | .set failed => (ipcSetEvent (semtimedop failed) (some h) s.set).map fun r => ⟨r.1, none⟩
  | .reset failed => some ⟨(ipcResetEvent failed (some h) s.set).1, none⟩
  | .wait timeout failed raise =>
    (ipcWaitEvent (waitOps failed raise) (some h) timeout s.set).map fun r =>
      ⟨r.1, if r.2 = IPC_OK then some (s.set, raise) else s.waited⟩

/-- A wait would block. -/
def Event.Blocks (s : Event) : Prop := s.set.semop lockOps.semOp = .sleeps

/-- The units that the second operation of a wait puts back. -/
def IpcObject.raised (h : IpcObject) (raise : Option Int) : Int :=
  if h.ipcSize = 0 ∧ raise = none then 1 else 0

def Bounded (set : SemSet) : Prop := 0 ≤ set.semval ∧ set.semval ≤ SEMVMX

/-- What holds between the calls. -/
structure Event.Sound (h : IpcObject) (s : Event) : Prop where
  bounded : Bounded s.set
  waited : ∀ before raise, s.waited = some (before, raise) →
    1 ≤ before.semval ∧ s.set.semval = before.semval - 1 + h.raised raise

section Calls

variable {h : IpcObject} {set t : SemSet} {failed raise : Option Int}

theorem Bounded.semtimedop (bounded : Bounded set) {id : Int} {ops : SemBuf} {wait : Wait}
    {result : SysResult} (hcall : semtimedop failed id ops wait set = some (t, result)) :
    Bounded t := by
  rcases semtimedop_eq_some hcall with ⟨-, hdone⟩ | ⟨-, rfl⟩
  · obtain ⟨low, high, rfl⟩ := SemSet.semop_eq_done_iff.mp hdone
    exact ⟨low, high⟩
  · exact bounded

theorem Bounded.semctlSetVal (bounded : Bounded set) (failed : Option Int) (val : Int) :
    Bounded (semctlSetVal failed val set).1 := by
  unfold SystemV.semctlSetVal SemSet.setVal
  cases failed with
  | some errno => exact bounded
  | none =>
    by_cases hval : 0 ≤ val ∧ val ≤ SEMVMX
    · simp [hval, Bounded]
    · simpa [hval] using bounded

theorem lock_semtimedop {id : Int} {wait : Wait} {result : SysResult}
    (hcall : waitOps failed raise id lockOps wait set = some (t, result)) :
    result = .ok ∧ 1 ≤ set.semval ∧ t = { set with semval := set.semval - 1 } ∨
      result ≠ .ok ∧ t = set := by
  refine (semtimedop_eq_some hcall).imp_left fun ⟨hresult, hdone⟩ => ?_
  obtain ⟨low, -, rfl⟩ := SemSet.semop_eq_done_iff.mp hdone
  refine ⟨hresult, ?_, rfl⟩
  simp only [lockOps] at low
  omega

/-- The second operation, which finds a unit less than there was. -/
theorem raise_semtimedop {id : Int} {wait : Wait} {result : SysResult} (low : 0 ≤ set.semval)
    (high : set.semval < SEMVMX)
    (hcall : waitOps failed raise id unlockOps wait set = some (t, result)) :
    t.semval = set.semval + if raise = none then 1 else 0 := by
  have hops : waitOps failed raise id unlockOps wait set =
      semtimedop raise id unlockOps wait set := by
    simp [waitOps]
  rw [hops] at hcall
  cases raise with
  | some errno =>
    cases hcall
    simp
  | none =>
    have hdone : set.semop unlockOps.semOp = .done { set with semval := set.semval + 1 } :=
      SemSet.semop_eq_done_iff.mpr ⟨by simp only [unlockOps]; omega, by
        simp only [unlockOps]; omega, rfl⟩
    simp only [semtimedop, hdone, Option.some.injEq, Prod.mk.injEq] at hcall
    simp [← hcall.1]

/-- A wait that succeeds takes a unit, and it puts one back on an event that
resets itself. -/
theorem ipcWaitEvent_cases (bounded : Bounded set) {timeout : Int32} {result : Int}
    (hcall : ipcWaitEvent (waitOps failed raise) (some h) timeout set = some (t, result)) :
    result = IPC_OK ∧ 1 ≤ set.semval ∧ t.semval = set.semval - 1 + h.raised raise ∨
      result ≠ IPC_OK ∧ t = set := by
  obtain ⟨r, hlock, hrest⟩ := Option.bind_eq_some_iff.mp hcall
  obtain ⟨locked, hlocked, hok⟩ := exists_semtimedop_of_lockObject hlock
  dsimp only at hrest
  rcases lock_semtimedop hlocked with ⟨hresult, hunit, hset⟩ | ⟨hresult, hset⟩
  · left
    have htook : r.2 = IPC_OK := hok.mpr hresult
    by_cases hsize : h.ipcSize = 0
    · rw [if_pos ⟨htook, hsize⟩, Option.map_eq_some_iff] at hrest
      obtain ⟨⟨u, raised⟩, hraise, heq⟩ := hrest
      cases heq
      have hsum := raise_semtimedop (by rw [hset]; dsimp only; omega)
        (by rw [hset]; dsimp only; have := bounded.2; omega) hraise
      refine ⟨rfl, hunit, ?_⟩
      simp only [hset] at hsum
      simp [IpcObject.raised, hsize, hsum]
    · rw [if_neg fun both => hsize both.2] at hrest
      cases hrest
      refine ⟨htook, hunit, ?_⟩
      have hval : t.semval = set.semval - 1 := congrArg SemSet.semval hset
      simp [IpcObject.raised, hsize, hval]
  · right
    have hno : r.2 ≠ IPC_OK := fun he => hresult (hok.mp he)
    rw [if_neg fun both => hno both.1] at hrest
    cases hrest
    exact ⟨hno, hset⟩

end Calls

section Runs

variable {h : IpcObject} {s t : Event} {set : SemSet}

/-- A new event has one unit or none. -/
theorem bounded_ipcCreateEvent {setVal lower : Option Int} {id : Int} {manual value : Bool}
    {handle : Option IpcObject}
    (hnew : ipcCreateEvent setVal lower id manual value SemSet.new = some (set, handle)) :
    Bounded set := by
  have fresh : Bounded SemSet.new := ⟨by decide, by decide⟩
  have given := fresh.semctlSetVal setVal 1
  unfold ipcCreateEvent createEvent at hnew
  by_cases hid : id > 0
  · simp only [hid, ↓reduceIte] at hnew
    split at hnew
    · cases hnew
      exact given
    · split at hnew
      · obtain ⟨r, hcall, heq⟩ := Option.map_eq_some_iff.mp hnew
        cases heq
        exact given.semtimedop hcall
      · cases hnew
        exact given
  · rw [if_neg hid] at hnew
    cases hnew
    exact fresh

theorem ipcSize_ipcCreateEvent {setVal lower : Option Int} {id : Int} {manual value : Bool}
    (hnew : ipcCreateEvent setVal lower id manual value SemSet.new = some (set, some h)) :
    h.ipcSize = if manual then 1 else 0 := by
  unfold ipcCreateEvent createEvent at hnew
  by_cases hid : id > 0
  · simp only [hid, ↓reduceIte] at hnew
    split at hnew
    · cases hnew
    · split at hnew
      · obtain ⟨r, -, heq⟩ := Option.map_eq_some_iff.mp hnew
        split at heq <;> cases heq
        rfl
      · cases hnew
        rfl
  · rw [if_neg hid] at hnew
    cases hnew
    rfl

theorem Event.Sound.next (sound : s.Sound h) {call : EventCall}
    (step : s.next h call = some t) : t.Sound h := by
  cases call with
  | set failed =>
    obtain ⟨r, hcall, rfl⟩ := Option.map_eq_some_iff.mp step
    obtain ⟨result, hpost, -⟩ := exists_semtimedop_of_unlockObject hcall
    exact ⟨sound.bounded.semtimedop hpost, by rintro _ _ ⟨⟩⟩
  | reset failed =>
    cases step
    exact ⟨sound.bounded.semctlSetVal failed 0, by rintro _ _ ⟨⟩⟩
  | wait timeout failed raise =>
    obtain ⟨⟨after, result⟩, hcall, rfl⟩ := Option.map_eq_some_iff.mp step
    have low := sound.bounded.1
    have high := sound.bounded.2
    rcases ipcWaitEvent_cases sound.bounded hcall with ⟨hok, hunit, hsum⟩ | ⟨hno, rfl⟩
    · have hraised : 0 ≤ h.raised raise ∧ h.raised raise ≤ 1 := by
        unfold IpcObject.raised
        split <;> decide
      refine ⟨⟨by dsimp only; omega, by dsimp only; omega⟩, ?_⟩
      intro before raise' hwaited
      rw [if_pos hok] at hwaited
      cases hwaited
      exact ⟨hunit, hsum⟩
    · refine ⟨sound.bounded, ?_⟩
      intro before raise' hwaited
      rw [if_neg hno] at hwaited
      exact sound.waited before raise' hwaited

theorem Event.Sound.run (sound : s.Sound h) {calls : List EventCall}
    (hrun : run (Event.next h) s calls = some t) : t.Sound h := by
  have exec : (System.ofNext (fun _ => True) (Event.next h)).Exec s calls t :=
    exec_ofNext_iff.mpr hrun
  exact exec.preserves (fun _ _ _ hsound hstep => hsound.next hstep) sound

/-- Another wait blocks when no unit is left. -/
theorem Event.Sound.blocks_iff (sound : s.Sound h) : s.Blocks ↔ s.set.semval = 0 := by
  have low := sound.bounded.1
  have high := sound.bounded.2
  unfold Event.Blocks SemSet.semop lockOps
  dsimp only
  constructor
  · intro hblocks
    by_contra hne
    rw [if_neg (by omega), if_pos (by omega)] at hblocks
    cases hblocks
  · intro hzero
    rw [if_pos (by omega)]

end Runs

section Claims

/-- After a wait that succeeded, with no set or reset since, another one blocks just
for an event that resets itself, iff the event is manual and the wait left a unit,
or it resets itself, the wait took the last unit and could not put it back. -/
theorem event_kinds_iff (setVal lower : Option Int) (id : Int) (manual value : Bool)
    (set : SemSet) (h : IpcObject)
    (hnew : ipcCreateEvent setVal lower id manual value SemSet.new = some (set, some h))
    (calls : List EventCall) (s : Event) (hrun : run (Event.next h) ⟨set, none⟩ calls = some s)
    (before : SemSet) (raise : Option Int) (hwaited : s.waited = some (before, raise)) :
    (s.Blocks ↔ manual = false) ↔
      if manual then 2 ≤ before.semval else before.semval = 1 ∧ raise ≠ none := by
  have start : (Event.mk set none).Sound h :=
    ⟨bounded_ipcCreateEvent hnew, by rintro _ _ ⟨⟩⟩
  have sound := start.run hrun
  obtain ⟨hunit, hsum⟩ := sound.waited before raise hwaited
  rw [sound.blocks_iff, hsum]
  unfold IpcObject.raised
  rw [ipcSize_ipcCreateEvent hnew]
  cases manual with
  | true =>
    simp only [Bool.true_eq_false, iff_false, ↓reduceIte, one_ne_zero, false_and,
      Int.add_zero]
    omega
  | false =>
    simp only [iff_true, Bool.false_eq_true, ↓reduceIte, true_and]
    by_cases hraise : raise = none
    · simp only [hraise, ↓reduceIte, not_true_eq_false, ne_eq, and_false, iff_false]
      omega
    · simp only [hraise, ↓reduceIte, not_false_eq_true, ne_eq, and_true]
      omega

/-- A manual event that was set twice. -/
theorem event_kinds_manual : ∃ s before,
    run (Event.next ⟨.event, 1, 1⟩) ⟨⟨0, 0, 0⟩, none⟩
      [.set none, .set none, .wait (-1) none none] = some s ∧
    s.waited = some (before, none) ∧ (s.Blocks ↔ true = false) :=
  ⟨⟨⟨1, 0, 0⟩, some (⟨2, 0, 0⟩, none)⟩, ⟨2, 0, 0⟩, by decide +kernel, rfl,
    (event_kinds_iff none none 1 true false ⟨0, 0, 0⟩ ⟨.event, 1, 1⟩ (by decide +kernel)
      [.set none, .set none, .wait (-1) none none] _ (by decide +kernel) _ _ rfl).mpr (by decide)⟩

/-- An event that resets itself and was made signalled: every wait succeeds. -/
theorem event_kinds_swapped : ¬ ∀ (setVal lower : Option Int) (id : Int) (manual value : Bool)
    (set : SemSet) (h : IpcObject),
    ipcCreateEvent setVal lower id manual value SemSet.new = some (set, some h) →
    ∀ (calls : List EventCall) (s : Event), run (Event.next h) ⟨set, none⟩ calls = some s →
    s.waited.isSome → (s.Blocks ↔ manual = false) := by
  intro kinds
  have still := kinds none none 1 false true ⟨1, 0, 0⟩ ⟨.event, 1, 0⟩ (by decide +kernel)
    [.wait (-1) none none] ⟨⟨1, 0, 0⟩, some (⟨1, 0, 0⟩, none)⟩ (by decide +kernel) rfl
  exact absurd (still.mpr rfl) (by unfold Event.Blocks; decide)

end Claims

end Gipcy.SystemV
