import Gipcy.Linux.Insys
import Gipcy.Linux.MutexSafety

/-! Captures of a mutex by the thread that has it. The driver answers them at once
and does not count them, so the first release gives the mutex up. -/
namespace Gipcy.Linux

open CountingSemaphore Transition Clients

/-- What `IPC_captureMutex` makes of the result of its request. -/
def captureResult (error : Int) : Int :=
  if (sysIoctl error).1 < 0 then IPC_WAIT_TIMEOUT else IPC_OK

theorem captureResult_ok_iff {error : Int} : captureResult error = IPC_OK ↔ 0 ≤ error := by
  by_cases h : error < 0
  · simp [captureResult, sysIoctl, h, waitTimeout_ne_ok]
  · simp [captureResult, sysIoctl, h, Int.not_lt.mp h]

def Point.ofLock : Point → Bool
  | .lockTest | .lockDown | .lockInc | .lockSet => true
  | _ => false

namespace Shared

variable {ι : Type*} [DecidableEq ι] {tid : ι → Int32} {s : Shared ι}

/-- The next access of a thread is the last one of its capture, which returns the
result. -/
def CaptureReturns (s : Shared ι) (c : ι) (how : WaitEnd) (result : Int) : Prop :=
  ∃ call e error, s.calls c = some call ∧ call.point.ofLock = true ∧
    access call how s.entry = some (e, .ret error) ∧ captureResult error = result

/-- The captures of a thread that returned `IPC_OK`, less its releases since it
first had the mutex. -/
def nesting (c : ι) : List (ι × Event) → Nat
  | [] => 0
  | (d, .granted) :: log => nesting c log + if d = c then 1 else 0
  | (d, .released) :: log => nesting c log - if d = c then 1 else 0
  | (_, .took) :: log | (_, .raised _) :: log => nesting c log

namespace Exclusive

variable {c d : ι} {call : Call}

theorem owns_of_inside (hc : inside c s.log = true) : owns (s.stand c) = true := by
  simp [owns, stand, hc]

variable [Fintype ι]

/-- A thread inside the mutex is at the first access of its call, if it is in one,
and the mutex has its id. -/
theorem inside_cases (inv : Exclusive tid s) (hc : inside c s.log = true)
    (hcall : s.calls c = some call) :
    call.kind = .mutex ∧ s.entry.lockerid = call.lockerid ∧
      (call.point = .lockTest ∨ call.point = .unlockTest) := by
  obtain ⟨hk, hl, -⟩ := inv.fits c call hcall
  refine ⟨hk, ?_, inv.calm c hc call hcall⟩
  rw [hl]
  exact (inv.name c).mpr (.inl hc)

/-- A capture returns `IPC_OK` to the thread that has the mutex, or to the one
that has just taken it. -/
theorem captureReturns_owns (inv : Exclusive tid s) {how : WaitEnd}
    (h : CaptureReturns s d how IPC_OK) : owns (s.stand d) = true := by
  obtain ⟨call, e, error, hcall, hlock, ha, hok⟩ := h
  obtain ⟨hk, hl, -⟩ := inv.fits d call hcall
  have herror := captureResult_ok_iff.mp hok
  generalize hnx : Next.ret error = nx at ha
  cases access_effect ha with
  | alreadyOwner hp _ howner =>
    rcases (inv.name d).mp (howner.trans hl) with hd | ⟨other, hother, hclear⟩
    · exact owns_of_inside hd
    · cases hcall.symm.trans hother
      rw [hp] at hclear
      cases hclear
  | stored hp => simp [owns, stand, hcall, hp, Point.owning]
  | expired _ _ _ _ hneg =>
    cases hnx
    omega
  | counted _ hkind => exact absurd hk hkind
  | notOwner hp | notLocked hp | uncounted hp =>
    rw [hp] at hlock
    cases hlock
  | otherOwner | took | broken | countedMutex | owner | locked | cleared | raised => cases hnx

theorem sema_zero (inv : Exclusive tid s) (hc : inside c s.log = true) : s.entry.sema = 0 := by
  have hle : unitOf (s.stand c) ≤ tally unitOf s.stand := le_tally (fun _ => unitOf_nonneg _) c
  rw [unitOf_of_owns (owns_of_inside hc)] at hle
  have := inv.unit
  have := inv.sema
  omega

/-- The four accesses of the first release. -/
theorem release_frees (inv : Exclusive tid s) (hc : inside c s.log = true)
    (hcall : s.calls c = some call) (hpoint : call.point = .unlockTest) (how : WaitEnd) :
    ∃ t, run (Shared.next .mutex tid) s (List.replicate 4 (c, .access how)) = some t ∧
      t.calls c = none ∧ t.entry.sema = 1 ∧ t.entry.lockerid = 0 ∧ inside c t.log = false := by
  obtain ⟨hk, hl, -⟩ := inv.inside_cases hc hcall
  have hsema := inv.sema_zero hc
  obtain ⟨kind, op, timeout, lockerid, point⟩ := call
  simp only at hk hl hpoint
  subst hk hpoint
  refine ⟨⟨{ s.entry with lockerid := 0, sema := 1, lockCount := s.entry.lockCount - 1 },
    Function.update s.calls c none, (c, .raised op) :: (c, .released) :: s.log⟩,
    ?_, ?_, rfl, rfl, ?_⟩
  · simp [run, List.replicate, Shared.next, hcall, Linux.access, mutexAccess, hl, Call.advance,
      events, Entry.up, Entry.decLock, post, hsema]
  · simp
  · simp [inside]

end Exclusive

end Shared

open Shared

/-- Whatever the number of its captures, a thread that has not called release
since is the only one whose captures return `IPC_OK`; its own return at once and
change nothing, and its first release gives the mutex up. -/
theorem mutex_kept_until_release {ι : Type*} [Fintype ι] [DecidableEq ι] {tid : ι → Int32}
    (inj : Function.Injective tid) (nonzero : ∀ c, tid c ≠ 0) {param : IpcCreate} {creator : ι}
    (hcreator : param.value ≠ 0 → param.lockerid = tid creator) (p : Ptr) {s : Shared ι}
    (h : ((Shared.system .mutex tid (mutexFill param p) (created param creator)).guard
      NoSignal).Reachable s) {c : ι} (hc : inside c s.log = true) :
    (∀ d how, d ≠ c → ¬ CaptureReturns s d how IPC_OK) ∧
    (∀ call how, s.calls c = some call → call.point.ofLock = true →
      access call how s.entry = some (s.entry, .ret 0) ∧ captureResult 0 = IPC_OK) ∧
    ∀ call how, s.calls c = some call → call.point.ofLock = false →
      ∃ t, run (next .mutex tid) s (List.replicate 4 (c, .access how)) = some t ∧
        t.calls c = none ∧ t.entry.sema = 1 ∧ t.entry.lockerid = 0 ∧ inside c t.log = false := by
  have inv := exclusive_reachable inj nonzero hcreator p h
  refine ⟨fun d how hd hreturns => ?_, fun call how hcall hlock => ?_,
    fun call how hcall hlock => ?_⟩
  · exact hd (inv.sole (inv.captureReturns_owns hreturns) (Exclusive.owns_of_inside hc))
  · obtain ⟨hk, hl, hpoint⟩ := inv.inside_cases hc hcall
    have htest : call.point = .lockTest := hpoint.resolve_right fun hp => by
      rw [hp] at hlock
      cases hlock
    exact ⟨by simp [access, hk, htest, mutexAccess, hl], rfl⟩
  · obtain ⟨-, -, hpoint⟩ := inv.inside_cases hc hcall
    have htest : call.point = .unlockTest := hpoint.resolve_left fun hp => by
      rw [hp] at hlock
      cases hlock
    exact inv.release_frees hc hcall htest how

/-- The mutex of the examples, which nobody has. -/
def unlocked : IpcCreate := ⟨CStr.x, 0, 0, 0⟩

def captureTwice {ι : Type*} (c : ι) : List (ι × Act) :=
  (c, .request .lock 0) :: List.replicate 4 (c, .access .acquired) ++
    [(c, .request .lock 0), (c, .access .acquired)]

/-- Thread 0 has captured the mutex twice when thread 1 asks for it. -/
theorem mutex_kept_captured_twice :
    ∃ s : Shared (Fin 2),
      ((Shared.system .mutex twoThreads (mutexFill unlocked 4096) (created unlocked 0)).guard
        NoSignal).Reachable s ∧
      nesting 0 s.log = 2 ∧ ∀ how, ¬ CaptureReturns s 1 how IPC_OK := by
  refine exists_guarded_of_run _ (captureTwice 0 ++ [(1, .request .lock 0)])
    (fun s => decide (nesting 0 s.log = 2 ∧ inside 0 s.log = true)) rfl (by decide)
    fun s hs hp => ?_
  obtain ⟨hn, hc⟩ := of_decide_eq_true hp
  exact ⟨hn, fun how => (mutex_kept_until_release twoThreads_injective twoThreads_ne_zero
    (fun h => absurd rfl h) 4096 hs hc).1 1 how (by decide)⟩

/-- Thread 0 has captured the mutex twice and released it once when thread 1 gets
it. -/
theorem nested_capture_not_counted :
    ¬ ∀ s : Shared (Fin 2),
      ((Shared.system .mutex twoThreads (mutexFill unlocked 4096) (created unlocked 0)).guard
        NoSignal).Reachable s →
      ∀ c d how, 0 < nesting c s.log → d ≠ c → ¬ CaptureReturns s d how IPC_OK := by
  intro h
  obtain ⟨s, hs, hn, hcall⟩ : ∃ s : Shared (Fin 2),
      ((Shared.system .mutex twoThreads (mutexFill unlocked 4096) (created unlocked 0)).guard
        NoSignal).Reachable s ∧
      nesting 0 s.log = 1 ∧ s.calls 1 = some ⟨.mutex, .lock, 0, 2, .lockSet⟩ := by
    refine exists_guarded_of_run _
      (captureTwice 0 ++ (0, .request .unlock 0) :: List.replicate 4 (0, .access .acquired) ++
        (1, .request .lock 0) :: List.replicate 3 (1, .access .acquired))
      (fun s => decide (nesting 0 s.log = 1 ∧ s.calls 1 = some ⟨.mutex, .lock, 0, 2, .lockSet⟩)) rfl
      (by decide +kernel) fun s _ hp => of_decide_eq_true hp
  exact h s hs 0 1 .acquired (by omega) (by decide) ⟨_, _, 0, hcall, rfl, rfl, rfl⟩

end Gipcy.Linux
