import Gipcy.Lib.Transition
import Gipcy.Qnx.Handlers

/-! The dispatch loop of `resmgr.cpp`: one thread takes one request after the
other, and while the handler of a request waits no other is received. -/
namespace Gipcy.Qnx

open PosixSemaphore Transition
open Linux (CStr Ptr Kind)

/-- The commands of `io_devctl`, with the structure that each one carries, and for
a lock the reading of the clock that its handler will get. -/
inductive Command where
  | create (k : Kind) (param : IpcCreate)
  | lock (k : Kind) (param : IpcLock) (clock : Clock)
  | unlock (k : Kind) (param : IpcUnlock)
  | close (k : Kind) (param : IpcClose)
  | eventReset (param : IpcReset)
  | unknown
deriving DecidableEq

/-- An error, or the `_RESMGR_PTR` answer with the handle of a create. -/
inductive Reply where
  | error (error : Int)
  | ok (handle : Option Ptr)
deriving DecidableEq

def Reply.ofHandle (handle : Ptr) : Reply :=
  if handle = 0 then .error (-EINVAL) else .ok (some handle)

def Reply.ofError (error : Int) : Reply := if error < 0 then .error error else .ok none

def ioDevctl (lim : Limits) (drv : Driver) (malloc : Option Ptr) : Command → Result Reply
  | .create .sem param => (ipcSemCreate lim drv param malloc).map .ofHandle
  | .create .mutex param => (ipcMutexCreate lim drv param malloc).map .ofHandle
  | .create .event param => (ipcEventCreate lim drv param malloc).map .ofHandle
  | .create .shm param => (ipcShmOpen lim drv param malloc).map .ofHandle
  | .lock .sem param clock => (ipcSemLock lim drv param clock).map .ofError
  | .lock .mutex param clock => (ipcMutexLock lim drv param clock).map .ofError
  | .lock .event param clock => (ipcEventLock lim drv param clock).map .ofError
  | .unlock .sem param => (ipcSemUnlock lim drv param).map .ofError
  | .unlock .mutex param => (ipcMutexUnlock lim drv param).map .ofError
  | .unlock .event param => (ipcEventUnlock lim drv param).map .ofError
  | .close .sem param => (ipcSemClose lim drv param).map .ofError
  | .close .mutex param => (ipcMutexClose lim drv param).map .ofError
  | .close .event param => (ipcEventClose lim drv param).map .ofError
  | .close .shm param => (ipcShmClose lim drv param).map .ofError
  | .eventReset param => (ipcEventReset lim drv param).map .ofError
  -- There is no command to lock or unlock a shared memory.
  | .lock .shm _ _ | .unlock .shm _ | .unknown => .done drv (.error (-EINVAL))

/-- What the thread does: it is in `dispatch_block`, or in a handler that waits,
or nothing is known of it any more. -/
inductive Status where
  | receiving
  | waiting (on : Waiting)
  | undefined
deriving DecidableEq

/-- The manager, with its latest answer. -/
structure Server where
  drv : Driver
  status : Status
  reply : Option Reply

inductive Move where
  /-- A request of a client is received; `malloc` is what the allocator answers. -/
  | request (command : Command) (malloc : Option Ptr)
  /-- The deadline of a timed wait passes, `sem_timedwait` returns -1. -/
  | expire (errno : Int)
  /-- Something else writes to memory that no registry lists. -/
  | scribble (p : Ptr) (e : Entry)

/-- `create_instance`, in memory that holds anything. -/
def createInstance (lim : Limits) (mem : Ptr → Entry) : Driver where
  mem := mem
  mList := fun _ => []
  lock := fun _ => semInit lim 1

theorem Result.Returns.map {α β : Type} {r : Result α} (h : r.Returns) (f : α → β) :
    (r.map f).Returns := by
  obtain ⟨drv, value, rfl, hopen⟩ := h
  exact ⟨drv, f value, rfl, hopen⟩

section Devctl

variable {lim : Limits} {drv : Driver} {malloc : Option Ptr} {k : Kind}

theorem ioDevctl_create (h : Open drv) {param : IpcCreate}
    (memory : findName drv k param.name = none → malloc ≠ none) :
    (ioDevctl lim drv malloc (.create k param)).Returns := by
  cases k <;> exact (registryCreate_returns h memory).map _

theorem ioDevctl_create_undefined (h : Open drv) {param : IpcCreate}
    (hname : findName drv k param.name = none) :
    ioDevctl lim drv none (.create k param) = .undefined := by
  cases k <;>
    simp only [ioDevctl, ipcSemCreate, ipcMutexCreate, ipcEventCreate, ipcShmOpen,
      registryCreate_undefined h hname, Result.map]

theorem ioDevctl_lock_eq (lim : Limits) (drv : Driver) (malloc : Option Ptr) (hk : k ≠ .shm)
    (param : IpcLock) (clock : Clock) : ioDevctl lim drv malloc (.lock k param clock) =
      (objectLock lim k (lockFailed k) drv param clock).map .ofError := by
  cases k with
  | shm => exact absurd rfl hk
  | _ => rfl

theorem ioDevctl_unlock (lim : Limits) (malloc : Option Ptr) (h : Open drv) (hk : k ≠ .shm)
    (handle : Ptr) :
    ∃ drv', ioDevctl lim drv malloc (.unlock k ⟨handle⟩) =
        .done drv' (if handleExists k drv handle then .ok none else .error (-EINVAL)) ∧
      (handleExists k drv handle →
        (drv'.mem handle).sema = semPost lim (drv.mem handle).sema) := by
  obtain ⟨drv', heq, hpost⟩ := objectUnlock_eq lim k h handle
  refine ⟨drv', ?_, hpost⟩
  have hreply : Reply.ofError (if handleExists k drv handle then 0 else -EINVAL) =
      if handleExists k drv handle then .ok none else .error (-EINVAL) := by
    split <;> rfl
  rw [← hreply]
  cases k with
  | shm => exact absurd rfl hk
  | _ => simp only [ioDevctl, ipcSemUnlock, ipcMutexUnlock, ipcEventUnlock, heq, Result.map]

/-- The commands that never wait for an object. -/
theorem ioDevctl_returns (h : Open drv) {command : Command}
    (notCreate : ∀ k param, command ≠ .create k param)
    (notLock : ∀ k param clock, command ≠ .lock k param clock) :
    (ioDevctl lim drv malloc command).Returns := by
  cases command with
  | create k param => exact absurd rfl (notCreate k param)
  | lock k param clock => exact absurd rfl (notLock k param clock)
  | unlock k param =>
    cases k with
    | shm => exact ⟨_, _, rfl, h⟩
    | _ => exact (objectUnlock_returns h _ _).map _
  | close k param =>
    cases k with
    | sem => exact (ipcSemClose_returns h param).map _
    | mutex | event | shm => exact (registryClose_returns h _ _ param).map _
  | eventReset param => exact (objectUnlock_returns h _ _).map _
  | unknown => exact ⟨_, _, rfl, h⟩

end Devctl

namespace Server

/-- The thread after it ran a handler. -/
def after (s : Server) : Result Reply → Server
  | .done drv reply => ⟨drv, .receiving, some reply⟩
  | .waits drv on => { s with drv := drv, status := .waiting on }
  | .undefined => { s with status := .undefined }

variable {ι : Type*}

def next (lim : Limits) (s : Server) (a : ι × Move) : Option Server :=
  match a.2 with
  | .request command malloc =>
    if s.status = .receiving ∧ ∀ p, malloc = some p → s.drv.Free p then
      some (s.after (ioDevctl lim s.drv malloc command))
    else none
  | .expire errno =>
    match s.status with
    | .waiting (.object k _ true) => some ⟨s.drv, .receiving, some (.ofError (lockFailed k errno))⟩
    | _ => none
  | .scribble p e => if s.drv.Free p then some { s with drv := s.drv.write p e } else none

/-- The runs of a new manager under the requests of any set of clients. -/
def system (lim : Limits) (ι : Type*) : System Server (ι × Move) :=
  .ofNext (fun s => ∃ mem, s = ⟨createInstance lim mem, .receiving, none⟩) (next lim)

/-- The running handler waits, and only another request could end the wait. -/
def Stuck (s : Server) : Prop :=
  match s.status with
  | .waiting (.registry _) => True
  | .waiting (.object _ _ timed) => timed = false
  | _ => False

/-- A run in which no client makes a request. -/
def Undisturbed (labels : List (ι × Move)) : Prop :=
  ∀ a ∈ labels, ∃ errno, a.2 = .expire errno

/-- The manager is not stuck: any client that unlocks an object now is received,
after the wait of the running handler if there is one, and is answered. -/
structure Serves (lim : Limits) (ι : Type*) (s : Server) : Prop where
  notStuck : ¬ s.Stuck
  unlocks : ∀ (c : ι) k handle, k ≠ .shm → ∃ labels t u,
    (system lim ι).Exec s labels t ∧ Undisturbed labels ∧
      (system lim ι).step t (c, .request (.unlock k ⟨handle⟩) none) u ∧
      u.status = .receiving ∧
      u.reply = some (if handleExists k s.drv handle then .ok none else .error (-EINVAL)) ∧
      (handleExists k s.drv handle →
        (u.drv.mem handle).sema = semPost lim (s.drv.mem handle).sema)

/-- A create of a new name finds memory, a lock without a time limit finds a unit, and
the deadline of any other lock can be computed. -/
def Returns (s : Server) (a : ι × Move) : Prop :=
  match a.2 with
  | .request (.create k param) malloc => findName s.drv k param.name = none → malloc ≠ none
  | .request (.lock k param _) _ =>
    k ≠ .shm → ¬ Overflows k s.drv param ∧ (FindsNone k s.drv param → ¬ param.timeout < 0)
  | _ => True

/-- Every lock finds a unit, or has a deadline that is no instant. -/
def Prompt (s : Server) (a : ι × Move) : Prop :=
  match a.2 with
  | .request (.create k param) malloc => findName s.drv k param.name = none → malloc ≠ none
  | .request (.lock k param clock) _ =>
    k ≠ .shm → ¬ Overflows k s.drv param ∧
      (FindsNone k s.drv param → ¬ param.timeout < 0 ∧ ¬ clock.InSecond param.timeout)
  | _ => True

instance (s : Server) : (a : ι × Move) → Decidable (Returns s a)
  | (_, .request (.create k param) malloc) =>
    inferInstanceAs (Decidable (findName s.drv k param.name = none → malloc ≠ none))
  | (_, .request (.lock k param _) _) => inferInstanceAs (Decidable (k ≠ .shm →
      ¬ Overflows k s.drv param ∧ (FindsNone k s.drv param → ¬ param.timeout < 0)))
  | (_, .request (.unlock _ _) _) | (_, .request (.close _ _) _) | (_, .request (.eventReset _) _)
  | (_, .request .unknown _) | (_, .expire _) | (_, .scribble _ _) => isTrue trivial

variable {lim : Limits} {s t : Server} {a : ι × Move}

/-- The outcome of a request: it is answered, or its handler waits, or does what is
undefined. -/
inductive Outcome (s : Server) (t : Server) : Command → Option Ptr → Prop where
  | answered {command malloc} : t.status = .receiving →
      (∀ k param, command = .create k param → findName s.drv k param.name = none → malloc ≠ none) →
      (∀ k param clock, command = .lock k param clock → k ≠ .shm → ¬ Overflows k s.drv param ∧
        (FindsNone k s.drv param → ¬ param.timeout < 0 ∧ ¬ clock.InSecond param.timeout)) →
      Outcome s t command malloc
  | waits {k param clock malloc} : k ≠ .shm → FindsNone k s.drv param →
      (¬ param.timeout < 0 → param.timeout.toInt ≤ 2147 ∧ clock.InSecond param.timeout) →
      t.status = .waiting (.object k param.handle (!decide (param.timeout < 0))) →
      Outcome s t (.lock k param clock) malloc
  | noMemory {k param} : findName s.drv k param.name = none → t.status = .undefined →
      Outcome s t (.create k param) none
  | overflow {k param clock malloc} : k ≠ .shm → Overflows k s.drv param →
      t.status = .undefined → Outcome s t (.lock k param clock) malloc

theorem lock_outcome (h : Open s.drv) {k : Kind} (hk : k ≠ .shm) {param : IpcLock} {clock : Clock}
    {malloc : Option Ptr}
    (ht : t = s.after (ioDevctl lim s.drv malloc (.lock k param clock))) :
    Open t.drv ∧ Outcome s t (.lock k param clock) malloc := by
  rw [ioDevctl_lock_eq lim s.drv malloc hk] at ht
  have outcome := objectLock_outcome (k := k) lim h (lockFailed k) param clock
  generalize objectLock lim k (lockFailed k) s.drv param clock = r at ht outcome
  have low : param.timeout < 0 → ¬ 2147 < param.timeout.toInt := fun hneg => by
    rw [Int32.lt_iff_toInt_lt] at hneg
    exact Int.not_lt.mpr (Int.le_trans (Int.le_of_lt hneg) (by decide))
  subst ht
  cases outcome with
  | refused sem hopen hexist =>
    refine ⟨hopen, .answered rfl (by simp) ?_⟩
    rintro l param' clock' ⟨⟩ -
    exact ⟨fun ho => hexist ho.1, fun hf => absurd hf.1 hexist⟩
  | took sem n hopen hexist hsema hlimit =>
    refine ⟨hopen.of_lock_eq rfl, .answered rfl (by simp) ?_⟩
    rintro l param' clock' ⟨⟩ -
    refine ⟨fun ho => ?_, fun hf => by simp [FindsNone, hsema] at hf⟩
    by_cases hneg : param.timeout < 0
    · exact low hneg ho.2
    · exact Int.not_lt.mpr (hlimit hneg).1 ho.2
  | waits sem hopen hf hlimit =>
    exact ⟨hopen, .waits hk hf hlimit rfl⟩
  | unheeded sem hopen hexist hsema hneg =>
    refine ⟨hopen.of_lock_eq rfl, .answered rfl (by simp) ?_⟩
    rintro l param' clock' ⟨⟩ -
    exact ⟨fun ho => low hneg ho.2, fun hf => by simp [FindsNone, hsema] at hf⟩
  | failed sem hopen hexist hlimited hlow hinvalid =>
    refine ⟨hopen, .answered rfl (by simp) ?_⟩
    rintro l param' clock' ⟨⟩ -
    refine ⟨fun ho => absurd ho.2 (Int.not_lt.mpr hlow), fun hf => ⟨hlimited, ?_⟩⟩
    rcases hinvalid with hnone | hcarry
    · exact absurd (hf.2.symm.trans hnone) (by simp)
    · exact hcarry.1
  | overflow ho hlimited => exact ⟨h, .overflow hk ho rfl⟩

theorem after_outcome (h : Open s.drv) (command : Command) (malloc : Option Ptr)
    (ht : t = s.after (ioDevctl lim s.drv malloc command)) :
    Open t.drv ∧ Outcome s t command malloc := by
  have returned : (ioDevctl lim s.drv malloc command).Returns →
      Open t.drv ∧ t.status = .receiving := by
    rintro ⟨drv, reply, heq, hopen⟩
    rw [ht, heq]
    exact ⟨hopen, rfl⟩
  cases command with
  | create k param =>
    by_cases memory : findName s.drv k param.name = none → malloc ≠ none
    · obtain ⟨hopen, hstatus⟩ := returned (ioDevctl_create h memory)
      refine ⟨hopen, .answered hstatus ?_ (by simp)⟩
      rintro l param' ⟨⟩
      exact memory
    · obtain ⟨hname, hnull⟩ := Classical.not_imp.mp memory
      cases Classical.not_not.mp hnull
      rw [ioDevctl_create_undefined h hname] at ht
      subst ht
      exact ⟨h, .noMemory hname rfl⟩
  | lock k param clock =>
    by_cases hk : k = .shm
    · subst hk
      subst ht
      refine ⟨h, .answered rfl (by simp) ?_⟩
      rintro l param' clock' ⟨⟩ hk
      exact absurd rfl hk
    · exact lock_outcome h hk ht
  | unlock k param | close k param | eventReset param | unknown =>
    obtain ⟨hopen, hstatus⟩ := returned (ioDevctl_returns h (by simp) (by simp))
    exact ⟨hopen, .answered hstatus (by simp) (by simp)⟩

/-- A move: a request with its outcome, or one that leaves the thread as it is
or lets it go on. -/
theorem next_cases (h : Open s.drv) (hs : next lim s a = some t) :
    Open t.drv ∧
    ((∃ command malloc, a.2 = .request command malloc ∧ s.status = .receiving ∧
      Outcome s t command malloc) ∨
    ((∀ command malloc, a.2 ≠ .request command malloc) ∧
      (t.status = .receiving ∨ t.status = s.status))) := by
  obtain ⟨c, move⟩ := a
  cases move with
  | request command malloc =>
    obtain ⟨⟨hstatus, -⟩, hs⟩ := Option.ite_none_right_eq_some.mp hs
    obtain ⟨hopen, outcome⟩ := after_outcome h command malloc (Option.some.inj hs).symm
    exact ⟨hopen, .inl ⟨command, malloc, rfl, hstatus, outcome⟩⟩
  | expire errno =>
    simp only [next] at hs
    split at hs <;> cases hs
    exact ⟨h, .inr ⟨by simp, .inl rfl⟩⟩
  | scribble p e =>
    obtain ⟨-, hs⟩ := Option.ite_none_right_eq_some.mp hs
    cases hs
    exact ⟨h.of_lock_eq rfl, .inr ⟨by simp, .inr rfl⟩⟩

/-- The thread receives, or it will when a deadline passes. -/
def Alive (s : Server) : Prop :=
  s.status = .receiving ∨ ∃ k p, s.status = .waiting (.object k p true)

theorem serves_of_alive (h : Open s.drv) (alive : s.Alive) : Serves lim ι s := by
  constructor
  · rcases alive with hs | ⟨k, p, hs⟩ <;> simp [Stuck, hs]
  · intro c k handle hk
    obtain ⟨drv, heq, hpost⟩ := ioDevctl_unlock lim none h hk handle
    have receive : ∀ u : Server, u.drv = s.drv → u.status = .receiving →
        (system lim ι).step u (c, .request (.unlock k ⟨handle⟩) none)
          ⟨drv, .receiving, some (if handleExists k s.drv handle then .ok none
            else .error (-EINVAL))⟩ := by
      intro u hdrv hstatus
      show next lim u _ = _
      simp [next, hstatus, hdrv, heq, after]
    rcases alive with hs | ⟨l, p, hs⟩
    · exact ⟨[], s, _, .nil s, by simp [Undisturbed], receive s rfl hs, rfl, rfl, hpost⟩
    · -- The deadline passes first.
      have expire : (system lim ι).step s (c, .expire EINVAL)
          ⟨s.drv, .receiving, some (.ofError (lockFailed l EINVAL))⟩ := by
        show next lim s _ = _
        simp [next, hs]
      exact ⟨_, _, _, .single expire, by simp [Undisturbed], receive _ rfl rfl, rfl, rfl, hpost⟩

theorem alive_of_serves (c : ι) (h : Serves lim ι s) : s.Alive := by
  cases hs : s.status with
  | receiving => exact .inl hs
  | waiting on =>
    cases on with
    | registry k => exact absurd (by simp [Stuck, hs]) h.notStuck
    | object k p timed =>
      cases timed with
      | false => exact absurd (by simp [Stuck, hs]) h.notStuck
      | true => exact .inr ⟨k, p, hs⟩
  | undefined =>
    -- Nothing is known of the manager, so no unlock is surely received.
    obtain ⟨labels, t, u, exec, undisturbed, step, -⟩ := h.unlocks c .sem 0 (by decide)
    cases exec with
    | nil =>
      obtain ⟨⟨hstatus, -⟩, -⟩ := Option.ite_none_right_eq_some.mp step
      simp [hs] at hstatus
    | @cons _ a _ _ _ first _ =>
      obtain ⟨errno, ha⟩ := undisturbed a List.mem_cons_self
      have hnext : next lim s a = some _ := first
      simp [next, ha, hs] at hnext

theorem open_createInstance (lim : Limits) (mem : Ptr → Entry) : Open (createInstance lim mem) := by
  intro k
  have hlarge := lim.large
  have hone : (1 : UInt32).toNat ≤ lim.semValueMax := by
    rw [show (1 : UInt32).toNat = 1 from rfl]
    omega
  exact ⟨0, by simp only [createInstance, semInit, if_pos hone]; rfl⟩

/-- Between two requests, and while a handler waits for an object, nobody is
inside a registry. -/
theorem open_reachable (hs : (system lim ι).Reachable s) : Open s.drv := by
  apply hs.invariant (I := fun s => Open s.drv)
  · rintro s ⟨mem, rfl⟩
    exact open_createInstance lim mem
  · intro s a t _ h step
    exact (next_cases h step).1

theorem alive_iff_returns (h : Open s.drv) (alive : s.Alive) (hs : next lim s a = some t) :
    t.Alive ↔ Returns s a := by
  obtain ⟨-, ⟨command, malloc, ha, hstatus, outcome⟩ | ⟨hne, hstatus⟩⟩ := next_cases h hs
  · cases outcome with
    | answered ht memory finds =>
      refine iff_of_true (.inl ht) ?_
      cases command with
      | create k param => simpa only [Returns, ha] using memory k param rfl
      | lock k param clock =>
        simp only [Returns, ha]
        exact fun hk => (finds k param clock rfl hk).imp_right fun hnone hf => (hnone hf).1
      | unlock k param | close k param | eventReset param | unknown => simp only [Returns, ha]
    | @waits k param clock malloc hk hf hlimit ht =>
      -- A wait with a deadline ends by itself, the other one only by a request.
      simp only [Returns, ha, Alive, ht]
      by_cases htimeout : param.timeout < 0
      · simp [htimeout, hk, hf]
      · have hlow : ¬ Overflows k s.drv param := fun ho =>
          absurd ho.2 (Int.not_lt.mpr (hlimit htimeout).1)
        simp [htimeout, hk, hf, hlow]
    | noMemory hname ht => simp [Returns, ha, Alive, ht, hname]
    | overflow hk ho ht => simp [Returns, ha, Alive, ht, hk, ho]
  · refine iff_of_true ?_ ?_
    · rcases hstatus with hstatus | hstatus
      · exact .inl hstatus
      · exact alive.imp (fun h => hstatus.trans h) fun ⟨k, p, h⟩ => ⟨k, p, hstatus.trans h⟩
    · cases hmove : a.2 with
      | request command malloc => exact absurd hmove (hne command malloc)
      | expire errno | scribble p e => simp only [Returns, hmove]

theorem receiving_iff_prompt (h : Open s.drv) (receiving : s.status = .receiving)
    (hs : next lim s a = some t) : t.status = .receiving ↔ Prompt s a := by
  obtain ⟨-, ⟨command, malloc, ha, -, outcome⟩ | ⟨hne, hstatus⟩⟩ := next_cases h hs
  · cases outcome with
    | answered ht memory finds =>
      refine iff_of_true ht ?_
      cases command with
      | create k param => simpa only [Prompt, ha] using memory k param rfl
      | lock k param clock => simpa only [Prompt, ha] using finds k param clock rfl
      | unlock k param | close k param | eventReset param | unknown => simp only [Prompt, ha]
    | waits hk hf hlimit ht =>
      simp only [Prompt, ha, ht, reduceCtorEq, false_iff, Classical.not_imp]
      exact ⟨hk, fun hprompt => (hprompt.2 hf).2 (hlimit (hprompt.2 hf).1).2⟩
    | noMemory hname ht => simp [Prompt, ha, ht, hname]
    | overflow hk ho ht => simp [Prompt, ha, ht, hk, ho]
  · refine iff_of_true (hstatus.elim id fun h => h.trans receiving) ?_
    cases hmove : a.2 with
    | request command malloc => exact absurd hmove (hne command malloc)
    | expire errno | scribble p e => simp only [Prompt, hmove]

end Server

open Server

/-- A run leads through serving states alone exactly when every lock without a time limit
finds a unit and no deadline overflows, and through states without any wait exactly when
moreover every lock finds a unit or has a deadline that is refused. -/
theorem dispatcher_serves_iff (lim : Limits) {ι : Type*} {s t : Server}
    {labels : List (ι × Move)} (start : (system lim ι).init s) :
    (((system lim ι).confine (Serves lim ι)).Exec s labels t ↔
      ((system lim ι).guard Returns).Exec s labels t) ∧
    (((system lim ι).confine fun u => u.status = .receiving).Exec s labels t ↔
      ((system lim ι).guard Prompt).Exec s labels t) := by
  obtain ⟨mem, rfl⟩ := start
  have hopen : Open (⟨createInstance lim mem, .receiving, none⟩ : Server).drv :=
    open_createInstance lim mem
  have keep : ∀ (s : Server) (a : ι × Move) t, Open s.drv → (system lim ι).step s a t →
      Open t.drv := fun s a t h step => (next_cases h step).1
  constructor
  · refine System.exec_confine_iff (I := fun u => Open u.drv) keep ?_ hopen
      (serves_of_alive hopen (.inl rfl))
    intro s a t h serves step
    have alive := alive_of_serves a.1 serves
    refine Iff.trans ?_ (alive_iff_returns h alive step)
    exact ⟨alive_of_serves a.1, serves_of_alive (keep s a t h step)⟩
  · exact System.exec_confine_iff (I := fun u => Open u.drv) keep
      (fun s a t h receiving step => receiving_iff_prompt h receiving step) hopen rfl

/-- The least bound that the standard allows. -/
def leastLimits : Limits := ⟨32767, Nat.le_refl _, true⟩

/-- Two clients take an unlocked mutex one after the other. -/
theorem dispatcher_serves_in_turn :
    ∃ t, ((system leastLimits (Fin 2)).confine (Serves leastLimits (Fin 2))).Exec
      ⟨createInstance leastLimits fun _ => Entry.zero, .receiving, none⟩
      [(0, .request (.create .mutex ⟨CStr.x, 1, 0⟩) (some 4096)),
        (0, .request (.lock .mutex ⟨4096, -1⟩ .zero) none),
        (0, .request (.unlock .mutex ⟨4096⟩) none),
        (1, .request (.lock .mutex ⟨4096, -1⟩ .zero) none)] t := by
  obtain ⟨t, ht⟩ := Option.isSome_iff_exists.mp (show (run
    (fun s a => if Returns s a then next leastLimits s a else none)
    ⟨createInstance leastLimits fun _ => Entry.zero, .receiving, none⟩
      [((0 : Fin 2), .request (.create .mutex ⟨CStr.x, 1, 0⟩) (some 4096)),
        (0, .request (.lock .mutex ⟨4096, -1⟩ .zero) none),
        (0, .request (.unlock .mutex ⟨4096⟩) none),
        (1, .request (.lock .mutex ⟨4096, -1⟩ .zero) none)]).isSome = true by decide +kernel)
  exact ⟨t, (dispatcher_serves_iff leastLimits ⟨_, rfl⟩).1.mpr (exec_guarded_of_run ht)⟩

/-- Client 0 has the mutex when client 1 asks for it without a time limit. -/
theorem dispatcher_stuck :
    ¬ ∀ s, (system leastLimits (Fin 2)).Reachable s → Serves leastLimits (Fin 2) s := by
  intro h
  obtain ⟨s, hs, hstatus⟩ : ∃ s, (system leastLimits (Fin 2)).Reachable s ∧
      s.status = .waiting (.object .mutex 4096 false) := by
    refine exists_reachable_of_run
      ⟨createInstance leastLimits fun _ => Entry.zero, .receiving, none⟩
      [(0, .request (.create .mutex ⟨CStr.x, 1, 0⟩) (some 4096)),
        (0, .request (.lock .mutex ⟨4096, -1⟩ .zero) none),
        (1, .request (.lock .mutex ⟨4096, -1⟩ .zero) none)]
      (fun s => decide (s.status = .waiting (.object .mutex 4096 false))) ⟨_, rfl⟩
      (by decide +kernel) fun s _ hp => of_decide_eq_true hp
  exact (h s hs).notStuck (by simp [Stuck, hstatus])

end Gipcy.Qnx
