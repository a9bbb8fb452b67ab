import Gipcy.Lib.AnswerMachine
import Gipcy.Linux.EventApi
import Gipcy.Posix.EventReset
import Gipcy.Qnx.Objects
import Gipcy.SystemV.Undo
import Gipcy.Windows.Objects

/-! The event calls of the five libraries against the event that their interface describes,
which is that of Windows. The others make semaphores of their events, each in a way of its
own. -/
namespace Gipcy.Ports

open AnswerMachine
open Linux (CStr Ptr Kind Signalled EINVAL ETIMEDOUT IPC_OK IPC_GENERAL_ERROR
  IPC_WAIT_TIMEOUT ipcDriverHandle_open)
open PosixSemaphore (Limits Sem)
open SystemVSemaphore (SemSet UndoSet)
open SystemWait (Wait nanosPerSec)

/-- The time limit of a wait. -/
structure Limit where
  ms : Int32
  limited : 0 < ms
deriving DecidableEq

theorem Limit.not_neg (limit : Limit) : ¬ limit.ms < 0 :=
  Int32.not_lt.mpr (Int32.le_of_lt limit.limited)

/-- A limit whose nanoseconds fit an `int`. -/
def Limit.Short (limit : Limit) : Prop := limit.ms.toInt ≤ 2147

instance (limit : Limit) : Decidable limit.Short := inferInstanceAs (Decidable (_ ≤ _))

inductive EventCall where
  | set
  | reset
  | wait (limit : Limit)
deriving DecidableEq

namespace EventCall

def waits : EventCall → Bool
  | wait _ => true
  | _ => false

/-- The limit of a wait is short. -/
def Short : EventCall → Prop
  | wait limit => limit.Short
  | _ => True

instance : (call : EventCall) → Decidable call.Short
  | wait limit => inferInstanceAs (Decidable limit.Short)
  | set | reset => isTrue trivial

end EventCall

/-- The event of the interface; the state is whether it is signalled. -/
def apiEvent (manual : Bool) : Machine Bool EventCall Int
  | _, .set => (true, none)
  | _, .reset => (false, none)
  | true, .wait _ => (manual, some IPC_OK)
  | false, .wait _ => (false, some IPC_WAIT_TIMEOUT)

/-- An `int` argument of a create. -/
def flag (b : Bool) : Int32 := if b then 1 else 0

/-! The calls of one thread on one handle, with the answers of the waits. The limit of a wait
passes where the event is not signalled. -/

section Steps

inductive LinuxEvents (fd : Int) (handle : Ptr) :
    Linux.Driver → EventCall → Linux.Driver → Option Int → Prop where
  | set (drv) : LinuxEvents fd handle drv .set (Linux.ipcSetEvent fd drv handle).1 none
  | reset (drv) : LinuxEvents fd handle drv .reset (Linux.ipcResetEvent fd drv handle).1 none
  | wait {drv limit how r} : Linux.ipcWaitEvent fd drv drv handle limit.ms how = some r →
      LinuxEvents fd handle drv (.wait limit) r.after (some r.error)

inductive WindowsEvents {ν τ : Type*} [DecidableEq ν] [DecidableEq τ] (t : τ)
    (h : Windows.IpcObject ν) :
    Windows.Objects ν τ → EventCall → Windows.Objects ν τ → Option Int → Prop where
  | set {s r} : s.call t (.release .event h) = some r → WindowsEvents t h s .set r.1 none
  | reset {s r} : s.call t (.reset h) = some r → WindowsEvents t h s .reset r.1 none
  | wait {s limit taken r} : s.call t (.wait .event h taken) = some r →
      WindowsEvents t h s (.wait limit) r.1 (some r.2)

/-- A limit that is neither a duration nor an instant. -/
def improper : Wait → Bool
  | .relative ts | .absolute ts => !decide (0 ≤ ts.tvNsec ∧ ts.tvNsec < nanosPerSec)
  | .unlimited | .jiffies _ => false

/-- The short limits of System V and of POSIX are proper. -/
theorem Limit.Short.systemV {limit : Limit} (short : limit.Short) :
    improper (SystemV.lockWait limit.ms) = false := by
  have limited := limit.limited
  have hpos : 0 < limit.ms.toInt := Int32.lt_iff_toInt_lt.mp limited
  have hnsec : 0 ≤ limit.ms.toInt ∧ limit.ms.toInt < nanosPerSec := by
    unfold Limit.Short at short
    simp only [nanosPerSec]
    omega
  simp [SystemV.lockWait, limited, improper, hnsec]

theorem Limit.Short.posix {limit : Limit} (short : limit.Short) :
    improper (Posix.lockWait limit.ms) = false := by
  have hpos : 0 < limit.ms.toInt := Int32.lt_iff_toInt_lt.mp limit.limited
  unfold Limit.Short at short
  have hvalue : Int.bmod (limit.ms.toInt * 10000) (2 ^ 32) = limit.ms.toInt * 10000 :=
    Int.bmod_eq_of_le (by omega) (by omega)
  have hmul : (limit.ms * 10000).toInt = limit.ms.toInt * 10000 :=
    (Int32.toInt_mul limit.ms 10000).trans hvalue
  have hnsec : 0 ≤ (limit.ms * 10000).toInt ∧ (limit.ms * 10000).toInt < nanosPerSec := by
    rw [hmul, nanosPerSec]
    omega
  rw [Posix.lockWait, if_pos limit.limited, improper, decide_eq_true hnsec]
  rfl

/-- The `errno` of the `semtimedop` of a wait: its limit is refused, or it passes. -/
def semtimedopErrno (timeout : Int32) (set : SemSet) : Option Int :=
  if improper (SystemV.lockWait timeout) then some EINVAL
  else if set.semop SystemV.lockOps.semOp = .sleeps then some SystemV.EAGAIN
  else none

/-- The thread's process is the only one that uses the set. -/
inductive SystemVEvents (h : SystemV.IpcObject) :
    UndoSet → EventCall → UndoSet → Option Int → Prop where
  | set {s r} : SystemV.ipcSetEvent (SystemV.semtimedopUndo none) (some h) s = some r →
      SystemVEvents h s .set r.1 none
  | reset (s) : SystemVEvents h s .reset
      (SystemV.resetEvent (SystemV.semctlSetValUndo none) (some h) s).1 none
  | wait {s limit r} : SystemV.ipcWaitEvent
        (SystemV.waitOpsUndo (semtimedopErrno limit.ms s.set) none) (some h) limit.ms s = some r →
      SystemVEvents h s (.wait limit) r.1 (some r.2)

def semTimedwaitErrno (timeout : Int32) (sem : Sem) : Option Int :=
  if improper (Posix.lockWait timeout) then some EINVAL
  else if PosixSemaphore.semWait sem = .blocks then some ETIMEDOUT
  else none

inductive PosixEvents (lim : Limits) (h : Posix.IpcObject Unit) :
    Sem → EventCall → Sem → Option Int → Prop where
  | set (s) : PosixEvents lim h s .set
      (Posix.ipcSetEvent (Posix.semPostCall lim none) (some h) s).1 none
  | reset {s r} : Posix.ipcResetEvent (Posix.semGetvalueCall none) (Posix.semWaitCall none)
        (some h) s = some r →
      PosixEvents lim h s .reset r.1 none
  | wait {s limit r} : Posix.ipcWaitEvent (Posix.semWaitCall (semTimedwaitErrno limit.ms s))
        (some h) limit.ms s = some r →
      PosixEvents lim h s (.wait limit) r.1 (some r.2)

/-- The clock suits the limit of every wait: a deadline that would need a carry is not looked
at. -/
inductive QnxEvents (lim : Limits) (failed : Int → Int) (fd : Int) (handle : Ptr) :
    Qnx.Server → EventCall → Qnx.Server → Option Int → Prop where
  | set {s errno r} : Qnx.ipcSetEvent lim failed errno fd s handle = some r →
      QnxEvents lim failed fd handle s .set r.1 none
  | reset {s errno r} : Qnx.ipcResetEvent lim failed errno fd s handle = some r →
      QnxEvents lim failed fd handle s .reset r.1 none
  | wait {s limit clock errno r} : clock.Suits lim limit.ms →
      Qnx.ipcWaitEvent lim failed errno fd s handle limit.ms clock = some r →
      QnxEvents lim failed fd handle s (.wait limit) r.1 (some r.2)

end Steps

/-! What each library makes of its events. -/

/-- Raised from the start, a reset raises it as well, and every wait resets it. -/
def linuxEvent : Machine Bool EventCall Int
  | _, .set => (true, none)
  | _, .reset => (true, none)
  | true, .wait _ => (false, some IPC_OK)
  | false, .wait _ => (false, some IPC_WAIT_TIMEOUT)

/-- A wait gives the unit back on an event that resets itself, and keeps it on the other. -/
def systemVEvent (manual : Bool) : Machine Nat EventCall Int
  | n, .set => (if n < SystemVSemaphore.SEMVMX then n + 1 else n, none)
  | _, .reset => (0, none)
  | n, .wait _ =>
    if 0 < n then (if manual then n - 1 else n, some IPC_OK) else (n, some IPC_WAIT_TIMEOUT)

/-- A semaphore; a reset takes one unit. -/
def posixEvent (lim : Limits) : Machine Nat EventCall Int
  | n, .set => (if n < lim.semValueMax then n + 1 else n, none)
  | n, .reset => (n - 1, none)
  | n + 1, .wait _ => (n, some IPC_OK)
  | 0, .wait _ => (0, some IPC_WAIT_TIMEOUT)

/-- A semaphore, which no reset changes; `refused` is the answer of a wait that fails. -/
def qnxEvent (lim : Limits) (refused : Int) : Machine Nat EventCall Int
  | n, .set => (if n < lim.semValueMax then n + 1 else n, none)
  | n, .reset => (n, none)
  | n + 1, .wait _ => (n, some IPC_OK)
  | 0, .wait _ => (0, some refused)

section Linux

variable {fd : Int} {drv : Linux.Driver} {p : Ptr} {signalled : Bool} {timeout : Int32}

theorem signalled_waitFor (hfd : 0 < fd) (h : Signalled drv p signalled)
    {how : CountingSemaphore.WaitEnd} {r : Linux.Outcome}
    (hr : Linux.ipcWaitEvent fd drv drv (Linux.userHandle p) timeout how = some r) :
    r.error = (if signalled then IPC_OK else IPC_WAIT_TIMEOUT) ∧ Signalled r.after p false := by
  rw [Linux.ipcWaitEvent, if_neg (ipcDriverHandle_open hfd)] at hr
  obtain ⟨q, hq, rfl⟩ := Option.map_eq_some_iff.mp hr
  simp only [Linux.ioctlEventLock, Linux.ioctlLock, Bool.not_true, Bool.false_eq_true, ↓reduceIte,
    Linux.ipcLock] at hq
  obtain ⟨herror, hafter⟩ := h.lock hq
  refine ⟨?_, hafter⟩
  simp only [herror]
  cases signalled <;> rfl

/-- A wait with a time limit always ends. -/
theorem exists_waitFor (hfd : 0 < fd) (h : Signalled drv p signalled) (limited : ¬ timeout < 0) :
    ∃ how r, Linux.ipcWaitEvent fd drv drv (Linux.userHandle p) timeout how = some r := by
  have hsema := h.sema
  refine ⟨if signalled then .acquired else .timedOut, ?_⟩
  apply Option.isSome_iff_exists.mp
  rw [Linux.ipcWaitEvent, if_neg (ipcDriverHandle_open hfd), Option.isSome_map]
  simp only [Linux.ioctlEventLock, Linux.ioctlLock, Bool.not_true, Bool.false_eq_true, ↓reduceIte,
    Linux.ipcLock, Linux.ipcEventLock, h.exists, Linux.containerOf_userHandle]
  rw [if_neg limited, Option.isSome_map, Linux.Entry.down, Option.isSome_map, hsema]
  cases signalled <;> simp

theorem signalled_reset (hfd : 0 < fd) (h : Signalled drv p signalled) :
    Signalled (Linux.ipcResetEvent fd drv (Linux.userHandle p)).1 p true := by
  obtain ⟨after, hraise, hraised⟩ := h.raise
  have hreset : Linux.ipcEventReset drv ⟨Linux.userHandle p⟩ = (after, 0) := by
    rw [Linux.ipcEventReset, hraise]
  rw [Linux.ipcResetEvent, Linux.ioctlEventReset, Linux.unlockObject_ok hfd hreset]
  exact hraised

theorem linux_tracks (hfd : 0 < fd) :
    Tracks (LinuxEvents fd (Linux.userHandle p)) linuxEvent (Signalled · p ·) fun _ => True where
  takes := by
    intro drv signalled h call _
    cases call with
    | set => exact ⟨_, _, .set drv⟩
    | reset => exact ⟨_, _, .reset drv⟩
    | wait limit =>
      obtain ⟨how, r, hr⟩ := exists_waitFor hfd h limit.not_neg
      exact ⟨_, _, .wait hr⟩
  keeps := by
    intro drv signalled call t answer h _ step
    cases step with
    | set => exact ⟨rfl, Linux.signalled_set hfd h⟩
    | reset => exact ⟨rfl, signalled_reset hfd h⟩
    | wait hr =>
      obtain ⟨herror, hafter⟩ := signalled_waitFor hfd h hr
      rw [herror]
      cases signalled <;> exact ⟨rfl, hafter⟩

end Linux

section Windows

variable {ν τ : Type*} [DecidableEq ν] [DecidableEq τ] {s : Windows.Objects ν τ} {t : τ}
  {h : Windows.IpcObject ν} {id : Nat} {manual signalled : Bool}

/-- The handle is that of an event. -/
structure Designates (s : Windows.Objects ν τ) (h : Windows.IpcObject ν) (id : Nat)
    (manual signalled : Bool) : Prop where
  live : h ∈ s.live
  descr : h.ipcDescr = some id
  object : s.objects id = some (.event manual signalled)

omit [DecidableEq ν] [DecidableEq τ] in
theorem Designates.object_eq (d : Designates s h id manual signalled) :
    s.object h = some (.event manual signalled) := by
  simp [Windows.Objects.object, d.descr, d.object]

theorem windows_tracks (t : τ) (h : Windows.IpcObject ν) (id : Nat) (manual : Bool) :
    Tracks (WindowsEvents t h) (apiEvent manual) (Designates · h id manual ·)
      fun _ => True where
  takes := by
    intro s signalled d call _
    have hobject := d.object_eq
    cases call with
    | set =>
      have hgoes : (s.call t (.release .event h)).isSome := by
        simp [Windows.Objects.call, d.live, d.descr, hobject, Windows.KernelObject.release,
          Windows.KernelObject.type]
      obtain ⟨r, hr⟩ := Option.isSome_iff_exists.mp hgoes
      exact ⟨_, _, .set hr⟩
    | reset =>
      have hgoes : (s.call t (.reset h)).isSome := by
        simp [Windows.Objects.call, d.live, d.descr, hobject, Windows.KernelObject.reset]
      obtain ⟨r, hr⟩ := Option.isSome_iff_exists.mp hgoes
      exact ⟨_, _, .reset hr⟩
    | wait limit =>
      have hgoes : (s.call t (.wait .event h signalled)).isSome := by
        simp only [Windows.Objects.call, d.live, d.descr, hobject, if_true]
        cases signalled <;> rfl
      obtain ⟨r, hr⟩ := Option.isSome_iff_exists.mp hgoes
      exact ⟨_, _, .wait hr⟩
  keeps := by
    intro s signalled call t' answer d _ step
    have hobject := d.object_eq
    cases step with
    | set hr =>
      simp only [Windows.Objects.call, d.live, d.descr, hobject, if_true] at hr
      cases hr
      exact ⟨rfl, d.live, d.descr, by simp [Windows.Objects.count, Windows.Objects.set, apiEvent]⟩
    | reset hr =>
      simp only [Windows.Objects.call, d.live, d.descr, hobject, if_true] at hr
      cases hr
      exact ⟨rfl, d.live, d.descr, by simp [Windows.Objects.set, apiEvent]⟩
    | @wait limit taken r hr =>
      simp only [Windows.Objects.call, d.live, d.descr, hobject, if_true] at hr
      cases signalled with
      | true =>
        cases taken <;> cases hr
        exact ⟨rfl, d.live, d.descr, by simp [Windows.Objects.count, Windows.Objects.set, apiEvent]⟩
      | false =>
        cases taken <;> cases hr
        exact ⟨rfl, d.live, d.descr, d.object⟩

end Windows

section SystemV

open SystemV (semtimedop waitOps lockOps unlockOps)

variable {h : SystemV.IpcObject} {manual : Bool} {timeout : Int32}

/-- A lock takes a unit, or its limit passes. -/
theorem systemV_lock {ops : SystemV.Semtimedop SemSet} (limited : 0 < timeout)
    (proper : improper (SystemV.lockWait timeout) = false) {set : SemSet}
    (bounded : SystemV.Bounded set)
    (hops : ∀ wait, ops h.ipcSem lockOps wait set =
      semtimedop (semtimedopErrno timeout set) h.ipcSem lockOps wait set) :
    SystemV.lockObject ops (some h) timeout set =
      some (if 0 < set.semval then ({ set with semval := set.semval - 1 }, IPC_OK)
        else (set, IPC_WAIT_TIMEOUT)) := by
  obtain ⟨low, high⟩ := bounded
  by_cases hunit : 0 < set.semval
  · have htook : set.semop lockOps.semOp = .done { set with semval := set.semval - 1 } :=
      SystemVSemaphore.SemSet.semop_eq_done_iff.mpr ⟨by simp only [lockOps]; omega,
        by simp only [lockOps]; omega, rfl⟩
    have hlimit : semtimedopErrno timeout set = none := by simp [semtimedopErrno, proper, htook]
    rw [if_pos hunit]
    simp [SystemV.lockObject, limited, hops, hlimit, semtimedop, htook, SystemV.timedResult]
  · have hsleeps : set.semop lockOps.semOp = .sleeps := by
      have hneg : set.semval + lockOps.semOp < 0 := by
        simp only [lockOps]
        omega
      exact if_pos hneg
    have hlimit : semtimedopErrno timeout set = some SystemV.EAGAIN := by
      simp [semtimedopErrno, proper, hsleeps]
    rw [if_neg hunit]
    simp [SystemV.lockObject, limited, hops, hlimit, semtimedop, SystemV.timedResult]

/-- An unlock adds a unit if there is room. -/
theorem systemV_unlock (h : SystemV.IpcObject) {set : SemSet} (bounded : SystemV.Bounded set) :
    SystemV.unlockObject (semtimedop none) (some h) set =
      some (if set.semval < SystemVSemaphore.SEMVMX then
          ({ set with semval := set.semval + 1 }, IPC_OK)
        else (set, IPC_GENERAL_ERROR)) := by
  obtain ⟨low, high⟩ := bounded
  by_cases hroom : set.semval < SystemVSemaphore.SEMVMX
  · have hdone : set.semop unlockOps.semOp = .done { set with semval := set.semval + 1 } :=
      SystemVSemaphore.SemSet.semop_eq_done_iff.mpr ⟨by simp only [unlockOps]; omega,
        by simp only [unlockOps]; omega, rfl⟩
    rw [if_pos hroom]
    simp [SystemV.unlockObject, semtimedop, hdone, SystemV.plainResult]
  · have hrange : set.semop unlockOps.semOp = .range := by
      unfold SystemVSemaphore.SemSet.semop
      rw [if_neg (by simp only [unlockOps]; omega), if_neg (by simp only [unlockOps]; omega)]
    rw [if_neg hroom]
    simp [SystemV.unlockObject, semtimedop, hrange, SystemV.plainResult]

/-- A wait takes a unit, and gives it back on an event that resets itself. -/
theorem systemV_wait (hsize : h.ipcSize = if manual then 1 else 0) (limited : 0 < timeout)
    (proper : improper (SystemV.lockWait timeout) = false) {set : SemSet}
    (bounded : SystemV.Bounded set) :
    SystemV.ipcWaitEvent (waitOps (semtimedopErrno timeout set) none) (some h) timeout set =
      some (if 0 < set.semval then
          ({ set with semval := if manual then set.semval - 1 else set.semval }, IPC_OK)
        else (set, IPC_WAIT_TIMEOUT)) := by
  have hops : lockOps ≠ unlockOps := by decide
  have hlock : SystemV.lockObject (waitOps (semtimedopErrno timeout set) none) (some h) timeout
      set = _ :=
    systemV_lock limited proper bounded fun wait => by rw [waitOps, if_neg hops]
  obtain ⟨low, high⟩ := bounded
  rw [SystemV.ipcWaitEvent, hlock]
  by_cases hunit : 0 < set.semval
  · rw [if_pos hunit, if_pos hunit]
    cases manual with
    | true => simp [hsize]
    | false =>
      have hback : ({ set with semval := set.semval - 1 } : SemSet).semop unlockOps.semOp =
          .done set :=
        SystemVSemaphore.SemSet.semop_eq_done_iff.mpr ⟨by simp only [unlockOps]; omega,
          by simp only [unlockOps]; omega, by simp [unlockOps]⟩
      simp [hsize, waitOps, semtimedop, hback]
  · have hno : IPC_WAIT_TIMEOUT ≠ IPC_OK := by decide
    rw [if_neg hunit, if_neg hunit]
    simp [hno]

/-- The value of the set is a number of units, and the adjustment follows it. -/
def OnUnits (s : UndoSet) (n : Nat) : Prop :=
  ∃ total set, (total = 0 ∨ total = 1) ∧ s = .of total set ∧ SystemV.Bounded set ∧ set.semval = n

/-- What a call makes of the value holds with the adjustment as well. -/
theorem onUnits_same {total : Int} (htotal : total = 0 ∨ total = 1) {set : SemSet} {answer : Int}
    {r : Option (SemSet × Int)} {r' : Option (UndoSet × Int)}
    (same : SystemV.Same (UndoSet.of total) r r') (hr : r = some (set, answer)) {n : Nat}
    (bounded : SystemV.Bounded set) (hval : set.semval = n) :
    ∃ s, r' = some (s, answer) ∧ OnUnits s n := by
  subst hr
  exact ⟨_, same, total, set, htotal, rfl, bounded, hval⟩

theorem onUnits_unlock (h : SystemV.IpcObject) {s : UndoSet} {n : Nat} (on : OnUnits s n) :
    ∃ t, SystemV.unlockObject (SystemV.semtimedopUndo none) (some h) s =
        some (t, if n < SystemVSemaphore.SEMVMX then IPC_OK else IPC_GENERAL_ERROR) ∧
      OnUnits t (if n < SystemVSemaphore.SEMVMX then n + 1 else n) := by
  obtain ⟨total, set, htotal, rfl, bounded, hval⟩ := on
  have hset := systemV_unlock h bounded
  have same := SystemV.unlockUndo_of h htotal none set
  obtain ⟨low, high⟩ := bounded
  by_cases hroom : set.semval < SystemVSemaphore.SEMVMX
  · rw [if_pos hroom] at hset
    rw [if_pos (hval ▸ hroom), if_pos (hval ▸ hroom)]
    exact onUnits_same htotal same hset ⟨by dsimp only; omega, by dsimp only; omega⟩
      (by push_cast; omega)
  · rw [if_neg hroom] at hset
    rw [if_neg (hval ▸ hroom), if_neg (hval ▸ hroom)]
    exact onUnits_same htotal same hset ⟨low, high⟩ hval

theorem onUnits_reset (h : SystemV.IpcObject) {s : UndoSet} {n : Nat} (on : OnUnits s n) :
    OnUnits (SystemV.resetEvent (SystemV.semctlSetValUndo none) (some h) s).1 0 := by
  obtain ⟨total, set, -, rfl, -, -⟩ := on
  have hzero : (0 : Int) ≤ 0 ∧ 0 ≤ SystemVSemaphore.SEMVMX := by decide
  refine ⟨0, { set with semval := 0 }, .inl rfl, ?_, hzero, rfl⟩
  simp only [SystemV.resetEvent, SystemV.semctlSetValUndo_of hzero]

theorem onUnits_wait (hsize : h.ipcSize = if manual then 1 else 0) {limit : Limit}
    (short : limit.Short) {s : UndoSet} {n : Nat} (on : OnUnits s n) :
    ∃ t, SystemV.ipcWaitEvent (SystemV.waitOpsUndo (semtimedopErrno limit.ms s.set) none) (some h)
        limit.ms s = some (t, if 0 < n then IPC_OK else IPC_WAIT_TIMEOUT) ∧
      OnUnits t (if 0 < n then if manual then n - 1 else n else n) := by
  obtain ⟨total, set, htotal, rfl, bounded, hval⟩ := on
  have hset : (UndoSet.of total set).set = set := rfl
  have hwait := systemV_wait hsize limit.limited short.systemV bounded
  have same := SystemV.waitUndo_of h htotal (semtimedopErrno limit.ms set) none limit.ms set
  obtain ⟨low, high⟩ := bounded
  by_cases hunit : 0 < n
  · rw [if_pos (by omega : 0 < set.semval)] at hwait
    rw [hset, if_pos hunit, if_pos hunit]
    refine onUnits_same htotal same hwait ⟨?_, ?_⟩ ?_ <;> cases manual <;> simp <;> omega
  · rw [if_neg (by omega : ¬ 0 < set.semval)] at hwait
    rw [hset, if_neg hunit, if_neg hunit]
    exact onUnits_same htotal same hwait ⟨low, high⟩ hval

theorem systemV_tracks (hsize : h.ipcSize = if manual then 1 else 0) :
    Tracks (SystemVEvents h) (systemVEvent manual) OnUnits EventCall.Short where
  takes := by
    rintro s n on call short
    cases call with
    | set =>
      obtain ⟨t, ht, -⟩ := onUnits_unlock h on
      exact ⟨_, _, .set ht⟩
    | reset => exact ⟨_, _, .reset s⟩
    | wait limit =>
      obtain ⟨t, ht, -⟩ := onUnits_wait hsize short on
      exact ⟨_, _, .wait ht⟩
  keeps := by
    rintro s n call t' answer on short step
    cases step with
    | set hr =>
      obtain ⟨t, ht, hunits⟩ := onUnits_unlock h on
      cases ht.symm.trans hr
      simp only [systemVEvent]
      exact ⟨trivial, hunits⟩
    | reset => exact ⟨rfl, onUnits_reset h on⟩
    | @wait limit r hr =>
      obtain ⟨t, ht, hunits⟩ := onUnits_wait hsize short on
      cases ht.symm.trans hr
      by_cases hunit : 0 < n
      · rw [if_pos hunit] at hunits
        simp only [systemVEvent, if_pos hunit]
        exact ⟨trivial, hunits⟩
      · rw [if_neg hunit] at hunits
        simp only [systemVEvent, if_neg hunit]
        exact ⟨trivial, hunits⟩

end SystemV

section Posix

variable {lim : Limits} {h : Posix.IpcObject Unit} {timeout : Int32} {n : Nat}

theorem posix_wait (proper : improper (Posix.lockWait timeout) = false) (n : Nat) :
    Posix.ipcWaitEvent (Posix.semWaitCall (semTimedwaitErrno timeout (some n))) (some h) timeout
      (some n) = some (some (n - 1), if n = 0 then IPC_WAIT_TIMEOUT else IPC_OK) := by
  cases n with
  | zero =>
    have herrno : semTimedwaitErrno timeout (some 0) = some ETIMEDOUT := by
      simp [semTimedwaitErrno, proper, PosixSemaphore.semWait]
    rw [herrno]
    rfl
  | succ n =>
    have herrno : semTimedwaitErrno timeout (some (n + 1)) = none := by
      simp [semTimedwaitErrno, proper, PosixSemaphore.semWait]
    rw [herrno]
    rfl

theorem posix_reset (n : Nat) :
    ∃ result, Posix.ipcResetEvent (Posix.semGetvalueCall none) (Posix.semWaitCall none) (some h)
      (some n) = some (some (n - 1), result) := by
  cases n with
  | zero => exact ⟨_, rfl⟩
  | succ n =>
    exact ⟨_, by simp [Posix.ipcResetEvent, Posix.semGetvalueCall, Posix.semWaitCall,
      PosixSemaphore.semWait]; rfl⟩

theorem posix_tracks :
    Tracks (PosixEvents lim h) (posixEvent lim) (fun sem n => sem = some n)
      EventCall.Short where
  takes := by
    rintro sem n rfl call short
    cases call with
    | set => exact ⟨_, _, .set _⟩
    | reset =>
      obtain ⟨result, hreset⟩ := posix_reset n
      exact ⟨_, _, .reset hreset⟩
    | wait limit => exact ⟨_, _, .wait (posix_wait (Limit.Short.posix short) n)⟩
  keeps := by
    rintro sem n call t answer rfl short step
    cases step with
    | set => exact ⟨rfl, rfl⟩
    | reset hr =>
      obtain ⟨result, hreset⟩ := posix_reset n
      cases hreset.symm.trans hr
      exact ⟨rfl, rfl⟩
    | @wait limit r hr =>
      cases (posix_wait (Limit.Short.posix short) n).symm.trans hr
      cases n <;> exact ⟨rfl, rfl⟩

end Posix

section Qnx

variable {lim : Limits} {failed : Int → Int} {fd : Int} {p : Ptr}

/-- There is a clock for every limit. -/
theorem zero_suits (lim : Limits) (limit : Limit) : Qnx.Clock.zero.Suits lim limit.ms := by
  intro _
  have hrest := Int.emod_lt_of_pos limit.ms.toInt (by decide : (0 : Int) < 1000)
  simp only [Qnx.Clock.InSecond, Qnx.Clock.zero, SystemWait.nanosPerMsec, nanosPerSec]
  rw [show (0 : Int64).toInt = 0 by decide]
  omega

theorem qnx_tracks (hfd : 0 < fd) :
    Tracks (QnxEvents lim failed fd p) (qnxEvent lim (Qnx.refusedLock failed))
      (Qnx.HasUnits · .event p ·) EventCall.Short where
  takes := by
    intro s n h call short
    cases call with
    | set =>
      obtain ⟨t, ht, -⟩ := Qnx.hasUnits_unlock lim failed 0 hfd (by decide) h
      exact ⟨_, _, .set ht⟩
    | reset =>
      obtain ⟨r, hr, -⟩ := Qnx.hasUnits_reset lim failed 0 hfd h
      exact ⟨_, _, .reset hr⟩
    | wait limit =>
      obtain ⟨t, ht, -⟩ := Qnx.hasUnits_lock lim failed 0 hfd (by decide) (by decide)
        limit.not_neg short (zero_suits lim limit) h
      exact ⟨_, _, .wait (zero_suits lim limit) ht⟩
  keeps := by
    intro s n call t answer h short step
    cases step with
    | @set errno r hr =>
      obtain ⟨t, ht, hunits⟩ := Qnx.hasUnits_unlock lim failed errno hfd (by decide) h
      cases ht.symm.trans hr
      exact ⟨rfl, hunits⟩
    | @reset errno r hr =>
      obtain ⟨r', hr', hunits⟩ := Qnx.hasUnits_reset lim failed errno hfd h
      cases hr'.symm.trans hr
      exact ⟨rfl, hunits⟩
    | @wait limit clock errno r suits hr =>
      obtain ⟨t, ht, hunits⟩ := Qnx.hasUnits_lock lim failed errno hfd (by decide) (by decide)
        limit.not_neg short suits h
      cases ht.symm.trans hr
      cases n <;> exact ⟨rfl, hunits⟩

end Qnx

end Gipcy.Ports
