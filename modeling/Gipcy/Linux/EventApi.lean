import Gipcy.Linux.Calls

/-! The event calls of the insys library against the event that their interface
describes. The driver reads neither the initial value nor the reset flag of a
new event: it emulates every event by a semaphore that starts at 1. -/
namespace Gipcy.Linux

open CountingSemaphore

inductive EventCall where
  | set
  | wait
deriving DecidableEq

/-- Calls on one handle, one after the other, with the answers of the waits. A
wait has the timeout 0. -/
inductive EventRun (fd : Int) (handle : Ptr) : Driver → List EventCall → List Int → Prop where
  | nil (drv) : EventRun fd handle drv [] []
  | set {drv calls answers} : EventRun fd handle (ipcSetEvent fd drv handle).1 calls answers →
      EventRun fd handle drv (.set :: calls) answers
  | wait {drv how r calls answers} : ipcWaitEvent fd drv drv handle 0 how = some r →
      EventRun fd handle r.after calls answers →
      EventRun fd handle drv (.wait :: calls) (r.error :: answers)

/-- The answers of the event of the interface, from its state on. -/
def eventAnswers (manual : Bool) : Bool → List EventCall → List Int
  | _, [] => []
  | _, .set :: calls => eventAnswers manual true calls
  | true, .wait :: calls => IPC_OK :: eventAnswers manual manual calls
  | false, .wait :: calls => IPC_WAIT_TIMEOUT :: eventAnswers manual false calls

/-- The entry at `p` is an event in the given state. -/
structure Signalled (drv : Driver) (p : Ptr) (signalled : Bool) : Prop where
  notNull : p ≠ 0
  id : (drv.mem p).id = Kind.event.id
  sema : (drv.mem p).sema = if signalled then 1 else 0
  lockCount : (drv.mem p).lockCount = if signalled then 0 else 1

section Calls

variable {fd : Int} {drv : Driver} {p : Ptr} {signalled : Bool}

theorem Signalled.exists (h : Signalled drv p signalled) :
    handleExists .event drv (userHandle p) = true := by
  simp [handleExists, userHandle_ne_zero, h.notNull, h.id]

theorem signalled_create (hfd : 0 < fd) {m : Nat} {name : CStr m}
    (new : ¬ Registered drv .event (paramName name)) {fresh : Ptr} (free : drv.Free fresh)
    (manual value : Int32) :
    ∃ after, ipcCreateEvent fd drv name manual value (some fresh) = (after, userHandle fresh) ∧
      Signalled after fresh true := by
  have hfind : findName drv .event (paramName name) = none := by
    rw [registered_iff] at new
    exact Option.not_isSome_iff_eq_none.mp new
  have hmade : ipcCreateEvent fd drv name manual value (some fresh) = _ :=
    createObject_eq hfd .event _ _
  rw [registryCreate_new fresh hfind] at hmade
  refine ⟨_, hmade, free.1, ?_, ?_, ?_⟩ <;> simp [insertNew, fill, eventFill, Entry.zero]

/-- Only the entry of the event itself matters. -/
theorem Signalled.of_mem {after : Driver} (h : Signalled drv p signalled)
    (same : after.mem p = drv.mem p) : Signalled after p signalled :=
  ⟨h.notNull, same ▸ h.id, same ▸ h.sema, same ▸ h.lockCount⟩

theorem Signalled.raise (h : Signalled drv p signalled) :
    ∃ after, eventRaise drv (userHandle p) = (after, 0) ∧ Signalled after p true := by
  have hsema := h.sema
  have hcount := h.lockCount
  simp only [eventRaise, h.exists, containerOf_userHandle, hcount, if_true]
  cases signalled with
  | true => exact ⟨drv, rfl, h⟩
  | false =>
    refine ⟨_, rfl, h.notNull, ?_, ?_, ?_⟩ <;> simp_all [Entry.up, Entry.decLock, post, h.id]

/-- A wait on an event, with the two ways in which it can end. -/
theorem Signalled.lock (h : Signalled drv p signalled) {timeout lockerid : Int32} {how : WaitEnd}
    {r : Outcome} (hr : ipcEventLock drv drv ⟨userHandle p, timeout, lockerid⟩ how = some r) :
    r.error = (if signalled then 0 else -ETIMEDOUT) ∧ Signalled r.after p false := by
  have hsema := h.sema
  have hcount := h.lockCount
  have took : 0 < (drv.mem p).sema → signalled = true ∧ Signalled (drv.write p
      ({ drv.mem p with sema := (drv.mem p).sema - 1 } : Entry).incLock) p false := by
    intro hpos
    cases signalled with
    | false => simp_all
    | true =>
      refine ⟨rfl, h.notNull, ?_, ?_, ?_⟩ <;> simp_all [Entry.incLock, h.id]
  simp only [ipcEventLock, h.exists, containerOf_userHandle, if_true] at hr
  split at hr
  · obtain ⟨e, he, rfl⟩ := Option.map_eq_some_iff.mp hr
    obtain ⟨rfl, hpos, rfl⟩ := Entry.down_unlimited he
    obtain ⟨rfl, hafter⟩ := took hpos
    exact ⟨rfl, hafter⟩
  · obtain ⟨e, he, rfl⟩ := Option.map_eq_some_iff.mp hr
    rcases Entry.down_timed he with ⟨rfl, hpos, rfl⟩ | ⟨rfl, hzero, rfl⟩
    · obtain ⟨rfl, hafter⟩ := took hpos
      exact ⟨rfl, hafter⟩
    · cases signalled with
      | true => simp_all
      | false =>
        refine ⟨rfl, h.of_mem ?_⟩
        simp

theorem signalled_set (hfd : 0 < fd) (h : Signalled drv p signalled) :
    Signalled (ipcSetEvent fd drv (userHandle p)).1 p true := by
  obtain ⟨after, hraise, hraised⟩ := h.raise
  have hunlock : ipcEventUnlock drv ⟨userHandle p, 0⟩ = (after, 0) := by
    rw [ipcEventUnlock, hraise]
  rw [ipcSetEvent, ioctlEventUnlock, unlockObject_ok hfd hunlock]
  exact hraised

/-- A wait finds the event as it is and leaves it without a signal. -/
theorem signalled_wait (hfd : 0 < fd) (h : Signalled drv p signalled) {how : WaitEnd}
    {r : Outcome} (hr : ipcWaitEvent fd drv drv (userHandle p) 0 how = some r) :
    r.error = (if signalled then IPC_OK else IPC_WAIT_TIMEOUT) ∧ Signalled r.after p false := by
  rw [ipcWaitEvent, if_neg (ipcDriverHandle_open hfd)] at hr
  obtain ⟨q, hq, rfl⟩ := Option.map_eq_some_iff.mp hr
  simp only [ioctlEventLock, ioctlLock, Bool.not_true, Bool.false_eq_true, ↓reduceIte,
    ipcLock] at hq
  obtain ⟨herror, hafter⟩ := h.lock hq
  refine ⟨?_, hafter⟩
  simp only [herror]
  cases signalled <;> rfl

/-- A wait with the timeout 0 always ends. -/
theorem exists_wait (hfd : 0 < fd) (h : Signalled drv p signalled) :
    ∃ how r, ipcWaitEvent fd drv drv (userHandle p) 0 how = some r := by
  have hsema := h.sema
  refine ⟨if signalled then .acquired else .timedOut, ?_⟩
  apply Option.isSome_iff_exists.mp
  rw [ipcWaitEvent, if_neg (ipcDriverHandle_open hfd), Option.isSome_map]
  simp only [ioctlEventLock, ioctlLock, Bool.not_true, Bool.false_eq_true, ↓reduceIte, ipcLock,
    ipcEventLock, h.exists, containerOf_userHandle]
  rw [if_neg (by decide), Option.isSome_map, Entry.down, Option.isSome_map, hsema]
  cases signalled <;> simp

end Calls

/-- The calls answer as an auto-reset event does that starts with a signal. -/
theorem eventRun_iff {fd : Int} (hfd : 0 < fd) {p : Ptr} {drv : Driver} {signalled : Bool}
    (h : Signalled drv p signalled) (calls : List EventCall) (answers : List Int) :
    EventRun fd (userHandle p) drv calls answers ↔
      answers = eventAnswers false signalled calls := by
  induction calls generalizing drv signalled answers with
  | nil =>
    constructor
    · rintro ⟨⟩
      rfl
    · rintro rfl
      exact .nil drv
  | cons call calls ih =>
    cases call with
    | set =>
      have hset := ih (signalled_set hfd h) answers
      constructor
      · rintro (_ | hrun)
        exact hset.mp hrun
      · exact fun he => .set (hset.mpr he)
    | wait =>
      constructor
      · intro hrun
        cases hrun with
        | wait hr rest =>
          obtain ⟨herror, hafter⟩ := signalled_wait hfd h hr
          rw [(ih hafter _).mp rest, herror]
          cases signalled <;> rfl
      · rintro rfl
        obtain ⟨how, r, hr⟩ := exists_wait hfd h
        obtain ⟨herror, hafter⟩ := signalled_wait hfd h hr
        have rest := EventRun.wait hr ((ih hafter _).mpr rfl)
        rw [herror] at rest
        cases signalled <;> exact rest

/-! When an auto-reset event that starts with a signal answers as another one. -/

/-- No wait comes right after a wait. -/
def Spaced (calls : List EventCall) : Prop :=
  calls.IsChain fun call next => ¬ (call = .wait ∧ next = .wait)

theorem waitTimeout_ne : IPC_OK ≠ IPC_WAIT_TIMEOUT := waitTimeout_ne_ok.symm

theorem manual_answers (signalled : Bool) (calls : List EventCall) :
    eventAnswers false signalled calls = eventAnswers true true calls ↔
      ((signalled = false → calls.head? ≠ some .wait) ∧ Spaced calls) := by
  induction calls generalizing signalled with
  | nil => simp [eventAnswers, Spaced]
  | cons call calls ih =>
    have hchain : Spaced (call :: calls) ↔
        ((call = .wait → calls.head? ≠ some .wait) ∧ Spaced calls) := by
      cases calls with
      | nil => simp [Spaced]
      | cons next calls => simp [Spaced]
    rw [hchain]
    cases call with
    | set => simpa [eventAnswers] using ih true
    | wait =>
      cases signalled with
      | true => simpa [eventAnswers] using ih false
      | false => simp [eventAnswers, waitTimeout_ne.symm]

/-- One answer to a first wait tells the two initial states apart, and a first
set makes them the same. -/
theorem initial_answers (manual value : Bool) (calls : List EventCall) :
    eventAnswers false true calls = eventAnswers manual value calls ↔
      ((value = false → calls.head? ≠ some .wait) ∧
        eventAnswers false true calls = eventAnswers manual true calls) := by
  cases value with
  | true => simp
  | false =>
    cases calls with
    | nil => simp [eventAnswers]
    | cons call calls => cases call <;> simp [eventAnswers, waitTimeout_ne]

section Claims

variable {fd : Int} {drv : Driver} {m : Nat} {name : CStr m} {fresh : Ptr}

theorem newEvent_run (hfd : 0 < fd) (new : ¬ Registered drv .event (paramName name))
    (free : drv.Free fresh) (manual value : Int32) (calls : List EventCall)
    (answers : List Int) :
    let made := ipcCreateEvent fd drv name manual value (some fresh)
    EventRun fd made.2 made.1 calls answers ↔ answers = eventAnswers false true calls := by
  obtain ⟨after, hmade, hsignalled⟩ := signalled_create hfd new free manual value
  rw [hmade]
  exact eventRun_iff hfd hsignalled calls answers

/-- The waits of a new event answer as the interface says exactly when no wait
shows that the event started with a signal and resets itself. -/
theorem event_reference_iff (hfd : 0 < fd) (new : ¬ Registered drv .event (paramName name))
    (free : drv.Free fresh) (manual value : Int32) (calls : List EventCall) :
    let made := ipcCreateEvent fd drv name manual value (some fresh)
    (∃ answers, EventRun fd made.2 made.1 calls answers) ∧
    ((∀ answers, EventRun fd made.2 made.1 calls answers →
        answers = eventAnswers (manual ≠ 0) (value ≠ 0) calls) ↔
      ((value = 0 → calls.head? ≠ some .wait) ∧ (manual ≠ 0 → Spaced calls))) := by
  intro made
  have hrun := newEvent_run hfd new free manual value calls
  refine ⟨⟨_, (hrun _).mpr rfl⟩, ?_⟩
  simp only [made, hrun, forall_eq]
  rw [initial_answers]
  refine and_congr (by simp) ?_
  by_cases hmanual : manual = 0
  · simp [hmanual]
  · simpa [hmanual] using manual_answers true calls

/-- An auto-reset event that starts with a signal, set once more and waited for
twice. -/
theorem event_reference_auto :
    let made := ipcCreateEvent 3 (ipcProbe fun _ => Entry.zero) CStr.x 0 1 (some 4096)
    ∀ answers, EventRun 3 made.2 made.1 [.set, .wait, .wait] answers →
      answers = [IPC_OK, IPC_WAIT_TIMEOUT] :=
  (event_reference_iff (by decide) (unregistered_probe .event (paramName CStr.x)) free_probe 0 1
    [.set, .wait, .wait]).2.mpr ⟨by decide, fun h => absurd rfl h⟩

/-- The first wait for an event that was created without a signal succeeds. -/
theorem event_not_reference :
    ¬ ∀ (fd : Int) (drv : Driver) (m : Nat) (name : CStr m) (fresh : Ptr), 0 < fd →
      ¬ Registered drv .event (paramName name) → drv.Free fresh →
      ∀ (manual value : Int32) (calls : List EventCall),
        let made := ipcCreateEvent fd drv name manual value (some fresh)
        ∀ answers, EventRun fd made.2 made.1 calls answers →
          answers = eventAnswers (manual ≠ 0) (value ≠ 0) calls := by
  intro h
  have new := unregistered_probe .event (paramName CStr.x)
  have hrun := (newEvent_run (by decide : (0 : Int) < 3) new free_probe 0 0 [.wait] _).mpr rfl
  have := h 3 _ _ CStr.x 4096 (by decide) new free_probe 0 0 [.wait] _ hrun
  exact absurd this (by decide)

end Claims

end Gipcy.Linux
