import Gipcy.Lib.Transition
import Gipcy.Posix.Calls
import Mathlib.Logic.Function.Basic

/-! `IPC_resetEvent` of the POSIX library, alone and between the calls of other
clients. The library for QNX has the same text. -/
namespace Gipcy.Posix

open PosixSemaphore Transition
open Linux (EINVAL IPC_OK IPC_GENERAL_ERROR IPC_INVALID_HANDLE)

def ipcResetEvent {σ Sem : Type} (semGetvalue : Sem → σ → Except Int Int)
    (semWait : Sem → SystemWait.Wait → σ → Option (σ × SysResult))
    (handle : Option (IpcObject Sem)) (s : σ) : Option (σ × Int) :=
  match handle with
  | none => some (s, IPC_INVALID_HANDLE)
  | some h =>
    match semGetvalue h.ipcSem s with
    | .error _ => some (s, IPC_GENERAL_ERROR)
    | .ok value =>
      if value > 0 then
        (semWait h.ipcSem .unlimited s).map fun r =>
          (r.1, if r.2 = .ok then IPC_OK else IPC_GENERAL_ERROR)
      else some (s, IPC_OK)

/-- `sem_getvalue` on the one semaphore. -/
def semGetvalueCall (failed : Option Int) (_ : Unit) (sem : Sem) : Except Int Int :=
  match failed, sem with
  | some errno, _ => .error errno
  | none, none => .error EINVAL
  | none, some n => .ok n

/-- An event with its clients; those in `resetting` are between the `sem_getvalue`
and the `sem_wait` of a reset. -/
structure Event (ι : Type*) where
  sem : Sem
  resetting : ι → Bool

/-- A system call of a client, with its `errno`. The last two are those of a reset. -/
inductive EventAct where
  | set (failed : Option Int)
  | wait (timeout : Int32) (failed : Option Int)
  | getvalue (failed : Option Int)
  | semWait (failed : Option Int)

namespace Event

variable {ι : Type*}

/-- The units of the semaphore. -/
def units (s : Event ι) : Nat := s.sem.getD 0

/-- No reset would block at its `sem_wait`. -/
def Proceeds (s : Event ι) : Prop := ∀ c, s.resetting c = true → semWait s.sem ≠ .blocks

/-- A client takes the last unit only when no other one is in a reset. -/
def LeavesUnit (s : Event ι) : ι × EventAct → Prop
  | (c, .wait _ none) | (c, .semWait none) => ∀ d, d ≠ c → s.resetting d = true → 2 ≤ s.units
  | _ => True

variable [DecidableEq ι]

def reset (s : Event ι) (c : ι) (resetting : Bool) : Event ι :=
  { s with resetting := Function.update s.resetting c resetting }

/-- A system call that does not block. -/
def next (lim : Limits) (h : IpcObject Unit) (s : Event ι) : ι × EventAct → Option (Event ι)
  | (c, act) =>
    match s.resetting c, act with
    | false, .set failed =>
      some { s with sem := (ipcSetEvent (semPostCall lim failed) (some h) s.sem).1 }
    | false, .wait timeout failed =>
      (ipcWaitEvent (semWaitCall failed) (some h) timeout s.sem).map fun r => { s with sem := r.1 }
    | false, .getvalue failed =>
      match semGetvalueCall failed h.ipcSem s.sem with
      | .error _ => some s
      | .ok value => if value > 0 then some (s.reset c true) else some s
    | true, .semWait failed =>
      (semWaitCall failed h.ipcSem .unlimited s.sem).map fun r =>
        { s with sem := r.1 }.reset c false
    | _, _ => none

/-- Any number of clients, none in a reset yet, on an event that exists. -/
def system (lim : Limits) (h : IpcObject Unit) (ι : Type*) [DecidableEq ι] :
    System (Event ι) (ι × EventAct) :=
  .ofNext (fun s => s.sem.isSome ∧ ∀ c, s.resetting c = false) (next lim h)

end Event

section Calls

/-- A reset that returns `IPC_OK` took one unit, if there was one. -/
theorem units_ipcResetEvent {h : IpcObject Unit} {getFailed failed : Option Int} {n : Nat}
    {after : Sem}
    (hcall : ipcResetEvent (semGetvalueCall getFailed) (semWaitCall failed) (some h) (some n) =
      some (after, IPC_OK)) : after = some (n - 1) := by
  unfold ipcResetEvent at hcall
  cases getFailed with
  | some errno =>
    simp only [semGetvalueCall, Option.some.injEq, Prod.mk.injEq] at hcall
    exact absurd hcall.2 (by decide)
  | none =>
    simp only [semGetvalueCall] at hcall
    split at hcall
    · obtain ⟨⟨t, result⟩, hwait, heq⟩ := Option.map_eq_some_iff.mp hcall
      obtain ⟨rfl, hanswer⟩ := Prod.mk.inj heq
      rcases semWaitCall_cases hwait with ⟨-, -, k, hn, rfl⟩ | ⟨-, hresult, -⟩
      · cases hn
        rfl
      · rw [if_neg hresult] at hanswer
        exact absurd hanswer (by decide)
    · cases hcall
      have hzero : n = 0 := by omega
      rw [hzero]

end Calls

namespace Event

section Steps

variable {ι : Type*} {lim : Limits} {h : IpcObject Unit} {s t : Event ι} {c : ι} {n : Nat}

theorem proceeds_iff : s.Proceeds ↔ ∀ c, s.resetting c = true → s.sem ≠ some 0 := by
  simp only [Proceeds, ne_eq, semWait_eq_blocks_iff]

/-- With as many units as before and the same resets. -/
theorem Proceeds.of_le (proceeds : s.Proceeds) {m : Nat} (hs : s.sem = some n) (hle : n ≤ m)
    (ht : t.sem = some m) (fewer : ∀ d, t.resetting d = true → s.resetting d = true) :
    t.Proceeds := by
  rw [proceeds_iff] at proceeds ⊢
  intro d hd hzero
  have hpos := proceeds d (fewer d hd)
  rw [ht] at hzero
  rw [hs] at hpos
  cases hzero
  exact hpos (congrArg some (Nat.le_zero.mp hle))

/-- A unit is taken: the other resets need another one. -/
theorem proceeds_took_iff (hs : s.sem = some (n + 1)) (ht : t.sem = some n)
    (others : ∀ d, t.resetting d = true ↔ d ≠ c ∧ s.resetting d = true) :
    t.Proceeds ↔ ∀ d, d ≠ c → s.resetting d = true → 2 ≤ s.units := by
  have hunits : s.units = n + 1 := by simp [units, hs]
  rw [proceeds_iff, hunits, ht]
  constructor
  · intro proceeds d hne hd
    have hn : n ≠ 0 := fun e => proceeds d ((others d).mpr ⟨hne, hd⟩) (congrArg some e)
    omega
  · intro leaves d hd hzero
    obtain ⟨hne, hs⟩ := (others d).mp hd
    have := leaves d hne hs
    cases hzero
    omega

variable [DecidableEq ι]

theorem resetting_reset (s : Event ι) (c : ι) (resetting : Bool) (d : ι) :
    (s.reset c resetting).resetting d = if d = c then resetting else s.resetting d := by
  simp only [reset, Function.update_apply]

/-- What a system call does on a semaphore with `n` units. -/
inductive Moves (s t : Event ι) (n : Nat) (a : ι × EventAct) : Prop where
  | kept {m} : n ≤ m → t.sem = some m → (∀ d, t.resetting d = true → s.resetting d = true) →
      s.LeavesUnit a → Moves s t n a
  | begins : 0 < n → t.sem = some n → s.LeavesUnit a → Moves s t n a
  | took {k} : n = k + 1 → t.sem = some k →
      (∀ d, t.resetting d = true ↔ d ≠ a.1 ∧ s.resetting d = true) →
      (s.LeavesUnit a ↔ ∀ d, d ≠ a.1 → s.resetting d = true → 2 ≤ s.units) → Moves s t n a

omit [DecidableEq ι] in
/-- A `sem_wait` that returns has taken a unit, or failed and left the event alone. -/
theorem Moves.of_semWait {a : ι × EventAct} {failed : Option Int} {wait : SystemWait.Wait}
    {result : SysResult} (hs : s.sem = some n)
    (hwait : semWaitCall failed () wait s.sem = some (t.sem, result))
    (others : ∀ d, t.resetting d = true ↔ d ≠ a.1 ∧ s.resetting d = true)
    (leaves : s.LeavesUnit a ↔
      (failed = none → ∀ d, d ≠ a.1 → s.resetting d = true → 2 ≤ s.units)) : Moves s t n a := by
  rcases semWaitCall_cases hwait with ⟨hnone, -, k, hn, hk⟩ | ⟨hfailed, -, hsame⟩
  · cases hs.symm.trans hn
    exact .took rfl hk others (leaves.trans (forall_prop_of_true hnone))
  · exact .kept (le_refl n) (hsame.trans hs) (fun d hd => ((others d).mp hd).2)
      (leaves.mpr fun hnone => absurd hnone hfailed)

theorem next_moves {act : EventAct} (hs : s.sem = some n)
    (step : next lim h s (c, act) = some t) : Moves s t n (c, act) := by
  cases hc : s.resetting c with
  | false =>
    have others : ∀ d, s.resetting d = true ↔ d ≠ c ∧ s.resetting d = true := by
      intro d
      refine ⟨fun hd => ⟨?_, hd⟩, And.right⟩
      rintro rfl
      rw [hc] at hd
      cases hd
    cases act with
    | set failed =>
      simp only [next, hc, Option.some.injEq] at step
      obtain ⟨m, hle, -, hm⟩ := unlockObject_semPostCall lim failed h n
      subst step
      exact .kept hle (by rw [← hm, hs]; rfl) (fun _ hd => hd) trivial
    | wait timeout failed =>
      simp only [next, hc, Option.map_eq_some_iff] at step
      obtain ⟨r, hcall, rfl⟩ := step
      obtain ⟨result, hwait, -⟩ := exists_semWait_of_lockObject hcall
      refine .of_semWait hs hwait others ?_
      cases failed <;> simp [LeavesUnit]
    | getvalue failed =>
      simp only [next, hc] at step
      split at step
      · cases step
        exact .kept (le_refl n) hs (fun _ hd => hd) trivial
      · rename_i value hvalue
        split at step
        · cases step
          refine .begins ?_ hs trivial
          cases failed <;> simp [semGetvalueCall, hs] at hvalue
          omega
        · cases step
          exact .kept (le_refl n) hs (fun _ hd => hd) trivial
    | semWait failed => simp [next, hc] at step
  | true =>
    cases act with
    | semWait failed =>
      simp only [next, hc, Option.map_eq_some_iff] at step
      obtain ⟨⟨after, result⟩, hwait, rfl⟩ := step
      have others : ∀ d, ({ s with sem := after }.reset c false).resetting d = true ↔
          d ≠ c ∧ s.resetting d = true := by
        intro d
        rw [resetting_reset]
        by_cases hd : d = c <;> simp [hd]
      refine .of_semWait hs hwait others ?_
      cases failed <;> simp [LeavesUnit]
    | set failed => simp [next, hc] at step
    | wait timeout failed => simp [next, hc] at step
    | getvalue failed => simp [next, hc] at step

omit [DecidableEq ι] in
theorem Moves.isSome {a : ι × EventAct} (moves : Moves s t n a) : t.sem.isSome := by
  cases moves with
  | kept _ ht => simp [ht]
  | begins _ ht => simp [ht]
  | took _ ht => simp [ht]

omit [DecidableEq ι] in
theorem Moves.proceeds_iff {a : ι × EventAct} (moves : Moves s t n a) (hs : s.sem = some n)
    (proceeds : s.Proceeds) : t.Proceeds ↔ s.LeavesUnit a := by
  cases moves with
  | kept hle ht fewer leaves => exact iff_of_true (proceeds.of_le hs hle ht fewer) leaves
  | begins hpos ht leaves =>
    refine iff_of_true ?_ leaves
    rw [Event.proceeds_iff, ht]
    rintro d - hzero
    cases hzero
    omega
  | took hn ht others leaves =>
    subst hn
    rw [leaves]
    exact proceeds_took_iff hs ht others

/-- A whole reset is the system calls of one client without those of others. -/
theorem ipcResetEvent_run {getFailed waitFailed : Option Int} {r : Sem × Int}
    (hc : s.resetting c = false)
    (hcall : ipcResetEvent (semGetvalueCall getFailed) (semWaitCall waitFailed) (some h) s.sem =
      some r) :
    ∃ labels, (∀ a ∈ labels, a.1 = c) ∧ run (next lim h) s labels = some { s with sem := r.1 } := by
  have alone : run (next lim h) s [(c, .getvalue getFailed)] =
      next lim h s (c, .getvalue getFailed) := by
    simp [run_cons]
  dsimp only [ipcResetEvent] at hcall
  split at hcall
  · rename_i errno hvalue
    cases hcall
    refine ⟨[(c, .getvalue getFailed)], by simp, ?_⟩
    rw [alone]
    simp only [next, hc, hvalue]
  · rename_i value hvalue
    split at hcall
    · rename_i hpos
      obtain ⟨⟨after, result⟩, hwait, rfl⟩ := Option.map_eq_some_iff.mp hcall
      refine ⟨[(c, .getvalue getFailed), (c, .semWait waitFailed)], by simp, ?_⟩
      have hfirst : next lim h s (c, .getvalue getFailed) = some (s.reset c true) := by
        simp only [next, hc, hvalue, if_pos hpos]
      have hsecond : next lim h (s.reset c true) (c, .semWait waitFailed) =
          some { s with sem := after } := by
        have hbetween : (s.reset c true).resetting c = true := by simp [resetting_reset]
        have hback : Function.update (Function.update s.resetting c true) c false =
            s.resetting := by
          rw [Function.update_idem, ← hc, Function.update_eq_self]
        simp only [next, hbetween]
        rw [show (s.reset c true).sem = s.sem from rfl, hwait]
        simp only [reset, Option.map_some, hback]
      rw [run_cons, hfirst, Option.bind_some, run_cons, hsecond]
      rfl
    · rename_i hpos
      cases hcall
      refine ⟨[(c, .getvalue getFailed)], by simp, ?_⟩
      rw [alone]
      simp only [next, hc, hvalue, if_neg hpos]

theorem valid_reachable (reachable : (system lim h ι).Reachable s) : s.sem.isSome := by
  apply reachable.invariant (I := fun s => s.sem.isSome)
  · exact fun s first => first.1
  · rintro s ⟨c, act⟩ t - hs step
    obtain ⟨n, hn⟩ := Option.isSome_iff_exists.mp hs
    exact (next_moves hn step).isSome

end Steps

end Event

section Claims

/-- The semaphores of the examples. -/
def someLimits : Limits := ⟨32767, le_refl _, true⟩

variable {ι : Type*} [DecidableEq ι]

/-- A reset alone leaves no unit iff there was at most one; and the executions in
which no reset would block are those in which a client takes the last unit only
while no other one is in a reset. -/
theorem event_reset_iff (lim : Limits) (h : IpcObject Unit) :
    (∀ s, (Event.system lim h ι).Reachable s → ∀ getFailed waitFailed after,
      ipcResetEvent (semGetvalueCall getFailed) (semWaitCall waitFailed) (some h) s.sem =
        some (after, IPC_OK) → (after = some 0 ↔ s.units ≤ 1)) ∧
    ∀ s labels t, (Event.system lim h ι).init s →
      (((Event.system lim h ι).confine Event.Proceeds).Exec s labels t ↔
        ((Event.system lim h ι).guard Event.LeavesUnit).Exec s labels t) := by
  constructor
  · intro s reachable getFailed waitFailed after hcall
    obtain ⟨n, hn⟩ := Option.isSome_iff_exists.mp (Event.valid_reachable reachable)
    have hunits : s.units = n := by simp [Event.units, hn]
    rw [hn] at hcall
    rw [units_ipcResetEvent hcall, hunits, Option.some.injEq]
    omega
  · rintro s labels t ⟨hs, idle⟩
    refine System.exec_confine_iff (I := fun s => s.sem.isSome) ?_ ?_ hs ?_
    · rintro s ⟨c, act⟩ t hs step
      obtain ⟨n, hn⟩ := Option.isSome_iff_exists.mp hs
      exact (Event.next_moves hn step).isSome
    · rintro s ⟨c, act⟩ t hs proceeds step
      obtain ⟨n, hn⟩ := Option.isSome_iff_exists.mp hs
      exact (Event.next_moves hn step).proceeds_iff hn proceeds
    · intro c hc
      rw [idle c] at hc
      cases hc

/-- The event of two clients after their system calls. -/
theorem reachable_of_calls (n : Nat) (labels : List (Fin 2 × EventAct)) {t : Event (Fin 2)}
    (hrun : run (Event.next someLimits ⟨.event, ()⟩) ⟨some n, fun _ => false⟩ labels = some t) :
    (Event.system someLimits ⟨.event, ()⟩ (Fin 2)).Reachable t :=
  reachable_of_run ⟨rfl, fun _ => rfl⟩ hrun

/-- An event that was set once. -/
theorem event_reset_once : ∃ s, (Event.system someLimits ⟨.event, ()⟩ (Fin 2)).Reachable s ∧
    s.units = 1 ∧ ∀ after, ipcResetEvent (semGetvalueCall none) (semWaitCall none)
      (some ⟨.event, ()⟩) s.sem = some (after, IPC_OK) → after = some 0 := by
  have reachable : (Event.system someLimits ⟨.event, ()⟩ (Fin 2)).Reachable
      ⟨some 1, fun _ => false⟩ :=
    reachable_of_calls 0 [(0, .set none)] rfl
  exact ⟨_, reachable, rfl, fun after hcall =>
    ((event_reset_iff someLimits ⟨.event, ()⟩).1 _ reachable none none after hcall).mpr
      (le_refl _)⟩

/-- After two sets a reset leaves a unit; and between the two system calls of a
reset another client takes the unit. -/
theorem event_not_reset :
    (¬ ∀ (lim : Limits) (h : IpcObject Unit) (s : Event (Fin 2)),
      (Event.system lim h (Fin 2)).Reachable s → ∀ getFailed waitFailed after,
      ipcResetEvent (semGetvalueCall getFailed) (semWaitCall waitFailed) (some h) s.sem =
        some (after, IPC_OK) → after = some 0) ∧
    ¬ ∀ (lim : Limits) (h : IpcObject Unit) (s : Event (Fin 2)),
      (Event.system lim h (Fin 2)).Reachable s → s.Proceeds := by
  constructor
  · intro resets
    have reachable : (Event.system someLimits ⟨.event, ()⟩ (Fin 2)).Reachable
        ⟨some 2, fun _ => false⟩ :=
      reachable_of_calls 0 [(0, .set none), (0, .set none)] rfl
    have left : some 1 = some 0 := resets _ _ _ reachable none none (some 1) rfl
    cases left
  · intro proceeds
    have reachable : (Event.system someLimits ⟨.event, ()⟩ (Fin 2)).Reachable
        ⟨some 0, Function.update (fun _ => false) 0 true⟩ :=
      reachable_of_calls 1 [(0, .getvalue none), (1, .wait 0 none)] rfl
    exact proceeds _ _ _ reachable 0 rfl rfl

end Claims

end Gipcy.Posix
