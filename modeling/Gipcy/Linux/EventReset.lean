import Gipcy.Linux.EventApi
import Gipcy.Lib.Transition

/-! A reset of an event. The text of `ipc_event_reset` is that of
`ipc_event_unlock`: it raises an event without a signal and leaves one with a
signal alone. -/
namespace Gipcy.Linux

open CountingSemaphore Transition

/-- Whole calls on the events of the driver, one after the other. -/
inductive EventRequest where
  | create (param : IpcCreate) (kzalloc : Option Ptr)
  | wait (param : IpcLock) (how : WaitEnd)
  | set (param : IpcUnlock)
  | reset (param : IpcReset)

def EventRequest.next (drv : Driver) : EventRequest → Option Driver
  | .create param kzalloc => some (ipcEventCreate drv param kzalloc).1
  | .wait param how => (ipcEventLock drv drv param how).map Outcome.after
  | .set param => some (ipcEventUnlock drv param).1
  | .reset param => some (ipcEventReset drv param).1

/-- The allocator gives out memory that is not in use. -/
def EventRequest.Allocates (drv : Driver) : EventRequest → Prop
  | .create _ kzalloc => ∀ p, kzalloc = some p → drv.Free p
  | _ => True

/-- The runs of a freshly probed driver. -/
def eventRequests : System Driver EventRequest :=
  (System.ofNext (fun drv => ∃ mem, drv = ipcProbe mem) EventRequest.next).guard
    EventRequest.Allocates

/-- Every event is in one of its two states. -/
def EventsSignalled (drv : Driver) : Prop :=
  ∀ p ∈ drv.mList .event, ∃ signalled, Signalled drv p signalled

/-- After a reset that returns 0, a wait with the timeout 0 times out. -/
def ResetClears (drv : Driver) (p : Ptr) : Prop :=
  ∀ after, ipcEventReset drv ⟨userHandle p⟩ = (after, 0) → ∀ lockerid how r,
    ipcEventLock after after ⟨userHandle p, 0, lockerid⟩ how = some r → r.error = -ETIMEDOUT

section Requests

variable {drv : Driver} {p q : Ptr} {signalled : Bool}

/-- A request on some handle leaves every event but that one alone. -/
theorem EventsSignalled.of_handle (h : EventsSignalled drv) {after : Driver} (handle : Ptr)
    (listed : after.mList = drv.mList)
    (frame : ∀ q, q ≠ containerOf handle → after.mem q = drv.mem q)
    (own : ∀ p signalled, Signalled drv p signalled → handle = userHandle p →
      ∃ signalled, Signalled after p signalled) : EventsSignalled after := by
  intro p hp
  rw [listed] at hp
  obtain ⟨signalled, hs⟩ := h p hp
  by_cases heq : p = containerOf handle
  · refine own p signalled hs ?_
    rw [heq, userHandle_containerOf (heq ▸ hs.notNull)]
  · exact ⟨signalled, hs.of_mem (frame p heq)⟩

theorem eventRaise_frame (drv : Driver) (handle : Ptr) :
    (eventRaise drv handle).1.mList = drv.mList ∧
      ∀ q, q ≠ containerOf handle → (eventRaise drv handle).1.mem q = drv.mem q := by
  unfold eventRaise
  split
  · dsimp only
    split
    · exact ⟨rfl, fun q hq => drv.write_mem_ne _ hq⟩
    · exact ⟨rfl, fun q _ => rfl⟩
  · exact ⟨rfl, fun q _ => rfl⟩

theorem EventsSignalled.raise (h : EventsSignalled drv) (handle : Ptr) :
    EventsSignalled (eventRaise drv handle).1 := by
  obtain ⟨listed, frame⟩ := eventRaise_frame drv handle
  refine h.of_handle handle listed frame ?_
  rintro p signalled hs rfl
  obtain ⟨after, hraise, hraised⟩ := hs.raise
  rw [hraise]
  exact ⟨true, hraised⟩

theorem ipcEventLock_frame {param : IpcLock} {how : WaitEnd} {r : Outcome}
    (hr : ipcEventLock drv drv param how = some r) :
    r.after.mList = drv.mList ∧
      ∀ q, q ≠ containerOf param.handle → r.after.mem q = drv.mem q := by
  unfold ipcEventLock at hr
  split at hr
  · dsimp only at hr
    split at hr
    · obtain ⟨e, -, rfl⟩ := Option.map_eq_some_iff.mp hr
      exact ⟨rfl, fun q hq => drv.write_mem_ne _ hq⟩
    · obtain ⟨e, -, rfl⟩ := Option.map_eq_some_iff.mp hr
      split <;> exact ⟨rfl, fun q hq => drv.write_mem_ne _ hq⟩
  · cases hr
    exact ⟨rfl, fun q _ => rfl⟩

theorem EventsSignalled.lock (h : EventsSignalled drv) {param : IpcLock} {how : WaitEnd}
    {r : Outcome} (hr : ipcEventLock drv drv param how = some r) : EventsSignalled r.after := by
  obtain ⟨listed, frame⟩ := ipcEventLock_frame hr
  refine h.of_handle param.handle listed frame fun p signalled hs heq => ⟨false, ?_⟩
  obtain ⟨handle, timeout, lockerid⟩ := param
  cases heq
  exact (hs.lock hr).2

theorem EventsSignalled.countOwner (h : EventsSignalled drv) (q : Ptr) :
    EventsSignalled (countOwner drv q) := by
  intro p hp
  obtain ⟨signalled, hs⟩ := h p hp
  refine ⟨signalled, ?_⟩
  by_cases heq : p = q
  · subst heq
    exact ⟨hs.notNull, by simpa [Linux.countOwner] using hs.id,
      by simpa [Linux.countOwner] using hs.sema, by simpa [Linux.countOwner] using hs.lockCount⟩
  · exact hs.of_mem (drv.write_mem_ne _ heq)

/-- A new event begins with a signal. -/
theorem EventsSignalled.insertNew (h : EventsSignalled drv) (param : IpcCreate)
    (free : drv.Free q) : EventsSignalled (insertNew drv .event param q) := by
  intro p hp
  rcases mem_insertNew hp with hp | ⟨-, rfl⟩
  · obtain ⟨signalled, hs⟩ := h p hp
    have hne : p ≠ q := fun e => free.2 .event (e ▸ hp)
    exact ⟨signalled, hs.of_mem (by simp [Linux.insertNew, Driver.write_mem_ne _ _ hne])⟩
  · refine ⟨true, free.1, ?_, ?_, ?_⟩ <;>
      simp [Linux.insertNew, fill, eventFill, Entry.zero]

theorem EventsSignalled.create (h : EventsSignalled drv) (param : IpcCreate) {kzalloc : Option Ptr}
    (free : ∀ p, kzalloc = some p → drv.Free p) :
    EventsSignalled (ipcEventCreate drv param kzalloc).1 := by
  show EventsSignalled (registryCreate .event (fill .event) drv param kzalloc).1
  cases hfind : findName drv .event param.name with
  | some p =>
    rw [registryCreate_found _ hfind]
    exact h.countOwner p
  | none =>
    cases kzalloc with
    | none =>
      rw [registryCreate_failed hfind]
      exact h
    | some p =>
      rw [registryCreate_new p hfind]
      exact h.insertNew param (free p rfl)

theorem eventsSignalled_next {a : EventRequest} {after : Driver} (allocates : a.Allocates drv)
    (h : a.next drv = some after) (inv : EventsSignalled drv) : EventsSignalled after := by
  cases a with
  | create param kzalloc =>
    cases h
    exact inv.create param allocates
  | wait param how =>
    obtain ⟨r, hr, rfl⟩ := Option.map_eq_some_iff.mp h
    exact inv.lock hr
  | set param =>
    cases h
    exact inv.raise param.handle
  | reset param =>
    cases h
    exact inv.raise param.handle

theorem eventsSignalled_reachable (h : eventRequests.Reachable drv) : EventsSignalled drv := by
  apply h.invariant (I := EventsSignalled)
  · rintro _ ⟨mem, rfl⟩ p hp
    cases hp
  · rintro drv a after - inv ⟨allocates, step⟩
    exact eventsSignalled_next allocates step inv

/-- A new event of a new driver. -/
theorem exists_event_reachable : ∃ drv, eventRequests.Reachable drv ∧ 4096 ∈ drv.mList .event ∧
    Signalled drv 4096 true := by
  have fresh : eventRequests.Reachable (ipcProbe fun _ => Entry.zero) := .init ⟨_, rfl⟩
  have created : eventRequests.Reachable
      (ipcEventCreate (ipcProbe fun _ => Entry.zero) ⟨CStr.x, 0, 0, 0⟩ (some 4096)).1 := by
    have allocates : EventRequest.Allocates (ipcProbe fun _ => Entry.zero)
        (.create ⟨CStr.x, 0, 0, 0⟩ (some 4096)) := by
      rintro _ ⟨⟩
      exact free_probe
    exact fresh.step ⟨allocates, rfl⟩
  exact ⟨_, created, by decide, ⟨by decide, by decide, by decide, by decide⟩⟩

/-- A wait with the timeout 0 finds an event that was raised. -/
theorem Signalled.exists_lock (h : Signalled drv p true) (lockerid : Int32) :
    ∃ r, ipcEventLock drv drv ⟨userHandle p, 0, lockerid⟩ .acquired = some r := by
  have unit : 0 < (drv.mem p).sema := by simp [h.sema]
  simp only [ipcEventLock, h.exists, containerOf_userHandle, if_true]
  rw [if_neg (by decide), Entry.down, wait_of_pos unit]
  exact ⟨_, rfl⟩

end Requests

section Claims

/-- No reset clears an event, whatever requests came before it: it returns 0, and
the next wait with the timeout 0 takes the signal that it left or made. -/
theorem reset_never_clears {drv : Driver} (h : eventRequests.Reachable drv) {p : Ptr}
    (live : p ∈ drv.mList .event) : ¬ ResetClears drv p := by
  intro clears
  obtain ⟨signalled, hs⟩ := eventsSignalled_reachable h p live
  obtain ⟨after, hreset, hraised⟩ := hs.raise
  obtain ⟨r, hr⟩ := hraised.exists_lock 0
  have herror := (hraised.lock hr).1
  have htimeout := clears after hreset 0 .acquired r hr
  rw [herror] at htimeout
  exact absurd htimeout (by decide)

/-- An event that was just created. -/
theorem reset_never_clears_created : ∃ drv, eventRequests.Reachable drv ∧
    4096 ∈ drv.mList .event ∧ ¬ ResetClears drv 4096 := by
  obtain ⟨drv, h, live, -⟩ := exists_event_reachable
  exact ⟨drv, h, live, reset_never_clears h live⟩

/-- The signal of a new event is taken by a wait and made again by a reset. -/
theorem reset_not_clears : ¬ ∀ drv, eventRequests.Reachable drv → ∀ p ∈ drv.mList .event,
    ResetClears drv p := by
  intro h
  obtain ⟨drv, reachable, live, hs⟩ := exists_event_reachable
  obtain ⟨r, hr⟩ := hs.exists_lock 0
  have waited : eventRequests.Reachable r.after := by
    have allocates : EventRequest.Allocates drv (.wait ⟨userHandle 4096, 0, 0⟩ .acquired) := trivial
    have step : EventRequest.next drv (.wait ⟨userHandle 4096, 0, 0⟩ .acquired) = some r.after := by
      simp only [EventRequest.next, hr, Option.map_some]
    exact reachable.step ⟨allocates, step⟩
  have taken : Signalled r.after 4096 false := (hs.lock hr).2
  have live' : 4096 ∈ r.after.mList .event := (ipcEventLock_frame hr).1 ▸ live
  obtain ⟨after, hreset, hraised⟩ := taken.raise
  obtain ⟨q, hq⟩ := hraised.exists_lock 0
  have herror := (hraised.lock hq).1
  have htimeout := h r.after waited 4096 live' after hreset 0 .acquired q hq
  rw [herror] at htimeout
  exact absurd htimeout (by decide)

end Claims

end Gipcy.Linux
