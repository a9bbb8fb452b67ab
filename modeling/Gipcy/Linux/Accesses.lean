import Gipcy.Lib.CountingSemaphore
import Gipcy.Linux.Types

/-! What a lock, unlock or reset request does to its entry after the handle
check: its reads and writes of the semaphore, the lock counter and `m_lockerid`
in program order, each one step. Every model of these requests, whether they
run alone or interleaved, takes its steps from the three tables below. -/
namespace Gipcy.Linux

open CountingSemaphore

inductive Op where
  | lock
  | unlock
  | reset
deriving DecidableEq, Repr

/-- The access a request makes next. -/
inductive Point where
  | lockTest
  | lockDown
  | lockInc
  | lockSet
  | unlockTest
  | unlockClear
  | unlockUp
  | unlockDec
deriving DecidableEq, Repr

inductive Next where
  | goto (point : Point)
  | ret (error : Int)
deriving DecidableEq, Repr

/-- `down`, `down_timeout` or `down_interruptible`, ended in the given way. -/
def Entry.down (e : Entry) (kind : WaitKind) (how : WaitEnd) : Option Entry :=
  (wait kind how e.sema).map fun count => { e with sema := count }

def Entry.up (e : Entry) : Entry := { e with sema := post e.sema }

def Entry.incLock (e : Entry) : Entry := { e with lockCount := e.lockCount + 1 }

def Entry.decLock (e : Entry) : Entry := { e with lockCount := e.lockCount - 1 }

/-- After a `down_timeout`: on success to the counter, else out with an error. -/
def afterTimed (error : Int) (how : WaitEnd) : Next :=
  if how = .acquired then .goto .lockInc else .ret error

/-- `ipc_sem_lock`, `ipc_sem_unlock`. -/
def semAccess (timeout : Int32) (how : WaitEnd) (e : Entry) : Point → Option (Entry × Next)
  | .lockDown =>
    if timeout < 0 then (e.down .unlimited how).map fun e => (e, .goto .lockInc)
    else (e.down .timed how).map fun e => (e, afterTimed (-ETIME) how)
  | .lockInc => some (e.incLock, .ret 0)
  | .unlockUp => some (e.up, .goto .unlockDec)
  | .unlockDec => some (e.decLock, .ret 0)
  | _ => none

/-- `ipc_mutex_lock`, `ipc_mutex_unlock`. -/
def mutexAccess (timeout lockerid : Int32) (how : WaitEnd) (e : Entry) :
    Point → Option (Entry × Next)
  | .lockTest => some (e, if e.lockerid = lockerid then .ret 0 else .goto .lockDown)
  | .lockDown =>
    -- The result of `down_interruptible` is dropped, a signal goes on to the counter.
    if timeout < 0 then (e.down .interruptible how).map fun e => (e, .goto .lockInc)
    else (e.down .timed how).map fun e => (e, afterTimed (-ETIME) how)
  | .lockInc => some (e.incLock, .goto .lockSet)
  | .lockSet => some ({ e with lockerid := lockerid }, .ret 0)
  | .unlockTest => some (e, if e.lockerid ≠ lockerid then .ret 0 else .goto .unlockClear)
  | .unlockClear => some ({ e with lockerid := 0 }, .goto .unlockUp)
  | .unlockUp => some (e.up, .goto .unlockDec)
  | .unlockDec => some (e.decLock, .ret 0)

/-- `ipc_event_lock`, and `ipc_event_unlock` and `ipc_event_reset`, whose texts
are the same. -/
def eventAccess (timeout : Int32) (how : WaitEnd) (e : Entry) : Point → Option (Entry × Next)
  | .lockDown =>
    if timeout < 0 then (e.down .unlimited how).map fun e => (e, .goto .lockInc)
    else (e.down .timed how).map fun e => (e, afterTimed (-ETIMEDOUT) how)
  | .lockInc => some (e.incLock, .ret 0)
  | .unlockTest => some (e, if e.lockCount ≠ 0 then .goto .unlockUp else .ret 0)
  | .unlockUp => some (e.up, .goto .unlockDec)
  | .unlockDec => some (e.decLock, .ret 0)
  | _ => none

/-- A lock, unlock or reset request past its handle check. -/
structure Call where
  kind : Kind
  op : Op
  timeout : Int32
  lockerid : Int32
  point : Point
deriving DecidableEq

/-- The first access of each operation that a kind has. -/
def firstPoint : Kind → Op → Option Point
  | .sem, .lock => some .lockDown
  | .sem, .unlock => some .unlockUp
  | .mutex, .lock => some .lockTest
  | .mutex, .unlock => some .unlockTest
  | .event, .lock => some .lockDown
  | .event, .unlock => some .unlockTest
  | .event, .reset => some .unlockTest
  | _, _ => none

def access (call : Call) (how : WaitEnd) (e : Entry) : Option (Entry × Next) :=
  match call.kind with
  | .sem => semAccess call.timeout how e call.point
  | .mutex => mutexAccess call.timeout call.lockerid how e call.point
  | .event => eventAccess call.timeout how e call.point
  | .shm => none

/-- The points that a request of a kind can be at. -/
def Kind.has : Kind → Point → Bool
  | .sem, .lockDown | .sem, .lockInc | .sem, .unlockUp | .sem, .unlockDec => true
  | .mutex, _ => true
  | .event, .lockDown | .event, .lockInc | .event, .unlockTest | .event, .unlockUp
  | .event, .unlockDec => true
  | _, _ => false

theorem firstPoint_has {k : Kind} {op : Op} {pt : Point} (h : firstPoint k op = some pt) :
    k.has pt = true := by
  cases k <;> cases op <;> cases h <;> rfl

/-- What one access does to the entry and where the request goes, case by case
over the three tables. -/
inductive Effect (call : Call) (how : WaitEnd) (e : Entry) : Entry → Next → Prop where
  | alreadyOwner : call.point = .lockTest → call.kind = .mutex → e.lockerid = call.lockerid →
      Effect call how e e (.ret 0)
  | otherOwner : call.point = .lockTest → call.kind = .mutex → e.lockerid ≠ call.lockerid →
      Effect call how e e (.goto .lockDown)
  | took : call.point = .lockDown → how = .acquired → 0 < e.sema →
      Effect call how e { e with sema := e.sema - 1 } (.goto .lockInc)
  | broken : call.point = .lockDown → how = .interrupted → call.kind = .mutex →
      call.timeout < 0 → e.sema ≤ 0 → Effect call how e e (.goto .lockInc)
  | expired {error} : call.point = .lockDown → how = .timedOut → ¬ call.timeout < 0 →
      e.sema ≤ 0 → error < 0 → Effect call how e e (.ret error)
  | counted : call.point = .lockInc → call.kind ≠ .mutex →
      Effect call how e e.incLock (.ret 0)
  | countedMutex : call.point = .lockInc → call.kind = .mutex →
      Effect call how e e.incLock (.goto .lockSet)
  | stored : call.point = .lockSet → call.kind = .mutex →
      Effect call how e { e with lockerid := call.lockerid } (.ret 0)
  | notOwner : call.point = .unlockTest → call.kind = .mutex → e.lockerid ≠ call.lockerid →
      Effect call how e e (.ret 0)
  | owner : call.point = .unlockTest → call.kind = .mutex → e.lockerid = call.lockerid →
      Effect call how e e (.goto .unlockClear)
  | notLocked : call.point = .unlockTest → call.kind = .event → e.lockCount = 0 →
      Effect call how e e (.ret 0)
  | locked : call.point = .unlockTest → call.kind = .event → e.lockCount ≠ 0 →
      Effect call how e e (.goto .unlockUp)
  | cleared : call.point = .unlockClear → call.kind = .mutex →
      Effect call how e { e with lockerid := 0 } (.goto .unlockUp)
  | raised : call.point = .unlockUp → Effect call how e e.up (.goto .unlockDec)
  | uncounted : call.point = .unlockDec → Effect call how e e.decLock (.ret 0)

theorem Entry.down_unlimited {e e' : Entry} {how : WaitEnd}
    (h : e.down .unlimited how = some e') :
    how = .acquired ∧ 0 < e.sema ∧ e' = { e with sema := e.sema - 1 } := by
  obtain ⟨count, hc, rfl⟩ := Option.map_eq_some_iff.mp h
  cases how <;> simp at hc
  exact ⟨rfl, hc.1, by rw [hc.2]⟩

theorem Entry.down_timed {e e' : Entry} {how : WaitEnd} (h : e.down .timed how = some e') :
    (how = .acquired ∧ 0 < e.sema ∧ e' = { e with sema := e.sema - 1 }) ∨
      (how = .timedOut ∧ e.sema ≤ 0 ∧ e' = e) := by
  obtain ⟨count, hc, rfl⟩ := Option.map_eq_some_iff.mp h
  cases how <;> simp at hc
  · exact .inl ⟨rfl, hc.1, by rw [hc.2]⟩
  · exact .inr ⟨rfl, hc.1, by rw [← hc.2]⟩

theorem Entry.down_interruptible {e e' : Entry} {how : WaitEnd}
    (h : e.down .interruptible how = some e') :
    (how = .acquired ∧ 0 < e.sema ∧ e' = { e with sema := e.sema - 1 }) ∨
      (how = .interrupted ∧ e.sema ≤ 0 ∧ e' = e) := by
  obtain ⟨count, hc, rfl⟩ := Option.map_eq_some_iff.mp h
  cases how <;> simp at hc
  · exact .inl ⟨rfl, hc.1, by rw [hc.2]⟩
  · exact .inr ⟨rfl, hc.1, by rw [← hc.2]⟩

section Tables

variable {call : Call} {how : WaitEnd} {e e' : Entry} {next : Next}

/-- A timed wait, which ends in the same way for the three kinds. -/
private theorem timed_effect {error : Int} (hp : call.point = .lockDown)
    (ht : ¬ call.timeout < 0) (he : error < 0)
    (h : (e.down .timed how).map (fun e => (e, afterTimed error how)) = some (e', next)) :
    Effect call how e e' next := by
  obtain ⟨d, hd, h⟩ := Option.map_eq_some_iff.mp h
  cases h
  rcases Entry.down_timed hd with ⟨rfl, hpos, rfl⟩ | ⟨rfl, hz, rfl⟩
  · exact .took hp rfl hpos
  · exact .expired hp rfl ht hz he

private theorem unlimited_effect (hp : call.point = .lockDown)
    (h : (e.down .unlimited how).map (fun e => (e, Next.goto .lockInc)) = some (e', next)) :
    Effect call how e e' next := by
  obtain ⟨d, hd, h⟩ := Option.map_eq_some_iff.mp h
  cases h
  obtain ⟨rfl, hpos, rfl⟩ := Entry.down_unlimited hd
  exact .took hp rfl hpos

theorem semAccess_effect (hk : call.kind = .sem)
    (h : semAccess call.timeout how e call.point = some (e', next)) :
    Effect call how e e' next := by
  have hm : call.kind ≠ .mutex := by simp [hk]
  cases hp : call.point <;> simp only [hp, semAccess] at h
  case lockDown =>
    split at h
    · exact unlimited_effect hp h
    · exact timed_effect hp ‹_› (by decide) h
  all_goals first | contradiction | cases h
  case lockInc => exact .counted hp hm
  case unlockUp => exact .raised hp
  case unlockDec => exact .uncounted hp

theorem eventAccess_effect (hk : call.kind = .event)
    (h : eventAccess call.timeout how e call.point = some (e', next)) :
    Effect call how e e' next := by
  have hm : call.kind ≠ .mutex := by simp [hk]
  cases hp : call.point <;> simp only [hp, eventAccess] at h
  case lockDown =>
    split at h
    · exact unlimited_effect hp h
    · exact timed_effect hp ‹_› (by decide) h
  all_goals first | contradiction | cases h
  case lockInc => exact .counted hp hm
  case unlockTest =>
    split
    · exact .locked hp hk ‹_›
    · exact .notLocked hp hk (not_not.mp ‹_›)
  case unlockUp => exact .raised hp
  case unlockDec => exact .uncounted hp

theorem mutexAccess_effect (hk : call.kind = .mutex)
    (h : mutexAccess call.timeout call.lockerid how e call.point = some (e', next)) :
    Effect call how e e' next := by
  cases hp : call.point <;> simp only [hp, mutexAccess] at h
  case lockDown =>
    split at h
    · rename_i ht
      obtain ⟨d, hd, h⟩ := Option.map_eq_some_iff.mp h
      cases h
      rcases Entry.down_interruptible hd with ⟨rfl, hpos, rfl⟩ | ⟨rfl, hz, rfl⟩
      · exact .took hp rfl hpos
      · exact .broken hp rfl hk ht hz
    · exact timed_effect hp ‹_› (by decide) h
  all_goals cases h
  case lockTest =>
    split
    · exact .alreadyOwner hp hk ‹_›
    · exact .otherOwner hp hk ‹_›
  case lockInc => exact .countedMutex hp hk
  case lockSet => exact .stored hp hk
  case unlockTest =>
    split
    · exact .notOwner hp hk ‹_›
    · exact .owner hp hk (not_not.mp ‹_›)
  case unlockClear => exact .cleared hp hk
  case unlockUp => exact .raised hp
  case unlockDec => exact .uncounted hp

theorem access_effect (h : access call how e = some (e', next)) : Effect call how e e' next := by
  cases hk : call.kind <;> simp only [access, hk] at h
  · exact semAccess_effect hk h
  · exact mutexAccess_effect hk h
  · exact eventAccess_effect hk h
  · contradiction

/-- No access touches what the registries rely on. -/
theorem Effect.registration (h : Effect call how e e' next) :
    e'.name = e.name ∧ e'.ownerCount = e.ownerCount ∧ e'.id = e.id := by
  cases h <;> exact ⟨rfl, rfl, rfl⟩

/-- The points follow each other within a kind. -/
theorem Effect.has {point : Point} (h : Effect call how e e' (.goto point))
    (hp : call.kind.has call.point = true) : call.kind.has point = true := by
  cases h <;> cases hk : call.kind <;> simp_all [Kind.has]

end Tables

end Gipcy.Linux
