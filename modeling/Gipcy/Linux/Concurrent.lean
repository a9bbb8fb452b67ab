import Gipcy.Lib.Transition
import Gipcy.Linux.Accesses
import Gipcy.Linux.Registry

/-! The fifteen requests of the driver in the steps in which they interleave:
the registry mutexes, the searches entry by entry, the statements on a new
entry, and the accesses after a handle check. -/
namespace Gipcy.Linux

open CountingSemaphore Transition

/-- The statements of a create function on its new entry, up to `list_add_tail`. -/
inductive NewStmt where
  | semaInit
  | name
  | handle
  | id
  | lockerid
  | ownerCount
  | down
  | setLockerid
  | incLock
deriving DecidableEq

def newStmts : Kind → IpcCreate → List NewStmt
  | .sem, _ => [.semaInit, .name, .handle, .id, .ownerCount]
  | .mutex, param =>
    [.handle, .id, .lockerid, .ownerCount, .semaInit, .name] ++
      if param.value ≠ 0 then [.down, .setLockerid, .incLock] else []
  | .event, _ => [.semaInit, .name, .handle, .id, .ownerCount]
  | .shm, _ => [.name, .handle, .id, .ownerCount]

/-- One of these statements; only `down_interruptible` can wait. -/
def NewStmt.run (k : Kind) (param : IpcCreate) (p : Ptr) (how : WaitEnd) (e : Entry) :
    NewStmt → Option Entry
  | .semaInit => some { e with sema := if k = .sem then Linux.semaInit param.value else 1 }
  | .name => some { e with name := param.name.snprintf 128 nameSize_pos }
  | .handle => some { e with handle := p }
  | .id => some { e with id := k.id }
  | .lockerid => some { e with lockerid := 0 }
  | .ownerCount => some { e with ownerCount := 0 }
  | .down => e.down .interruptible how
  | .setLockerid => some { e with lockerid := param.lockerid }
  | .incLock => some e.incLock

/-- Where a client is in its request; `Enter` and `Leave` are the `mutex_lock`
and the `mutex_unlock` of the registry. -/
inductive Pc where
  | idle
  | createEnter (k : Kind) (param : IpcCreate)
  | search (k : Kind) (param : IpcCreate) (rest : List Ptr)
  | allocate (k : Kind) (param : IpcCreate)
  | fresh (k : Kind) (param : IpcCreate) (p : Ptr) (todo : List NewStmt)
  | countOwner (k : Kind) (p : Ptr)
  | createLeave (k : Kind)
  | checkEnter (handle : Ptr) (call : Call)
  | check (handle : Ptr) (call : Call)
  | checkLeave (handle : Ptr) (call : Call) (exist : Bool)
  | access (p : Ptr) (call : Call)
  | closeEnter (k : Kind) (handle : Ptr)
  | closeCheck (k : Kind) (handle : Ptr)
  | scan (k : Kind) (p : Ptr) (rest : List Ptr)
  | listDel (k : Kind) (p : Ptr)
  | kfree (k : Kind) (p : Ptr)
  | closeLeave (k : Kind)
deriving DecidableEq

/-- The memory, the registry lists, the owner of each registry mutex, and where
each client is. -/
structure Concurrent (ι : Type*) where
  mem : Ptr → Entry
  mList : Kind → List Ptr
  locks : Kind → Option ι
  pcs : ι → Pc

inductive Move where
  | create (k : Kind) (param : IpcCreate)
  | request (k : Kind) (op : Op) (handle : Ptr) (timeout lockerid : Int32)
  | close (k : Kind) (handle : Ptr)
  /-- The next step; a wait ends in the given way, `kzalloc` answers so. -/
  | step (how : WaitEnd) (kzalloc : Option Ptr)
  /-- Someone else writes to memory that the driver does not use. -/
  | scribble (p : Ptr) (e : Entry)
deriving DecidableEq

/-- What one step of a client leaves behind. -/
structure Moved (ι : Type*) where
  mem : Ptr → Entry
  mList : Kind → List Ptr
  locks : Kind → Option ι
  pc : Pc

variable {ι : Type*}

namespace Concurrent

/-- The memory that a client has to itself. -/
def ownMemory : Pc → Option Ptr
  | .fresh _ _ p _ => some p
  | .kfree _ p => some p
  | _ => none

def InUse (s : Concurrent ι) (p : Ptr) : Prop :=
  p = 0 ∨ (∃ k, p ∈ s.mList k) ∨ ∃ c, ownMemory (s.pcs c) = some p

/-- Everything stays as it is but the point. -/
def moved (s : Concurrent ι) (pc : Pc) : Moved ι := ⟨s.mem, s.mList, s.locks, pc⟩

/-- `mutex_lock`, which waits while another client has the mutex. -/
def enter (s : Concurrent ι) (c : ι) (k : Kind) (pc : Pc) : Option (Moved ι) :=
  if s.locks k = none then
    some { s.moved pc with locks := Function.update s.locks k (some c) }
  else none

def leave (s : Concurrent ι) (k : Kind) (pc : Pc) : Moved ι :=
  { s.moved pc with locks := Function.update s.locks k none }

def write (s : Concurrent ι) (p : Ptr) (e : Entry) (pc : Pc) : Moved ι :=
  { s.moved pc with mem := Function.update s.mem p e }

@[simp] theorem moved_pc (s : Concurrent ι) (pc : Pc) : (s.moved pc).pc = pc := rfl

@[simp] theorem leave_pc (s : Concurrent ι) (k : Kind) (pc : Pc) : (s.leave k pc).pc = pc := rfl

@[simp] theorem leave_mList (s : Concurrent ι) (k : Kind) (pc : Pc) :
    (s.leave k pc).mList = s.mList := rfl

@[simp] theorem write_pc (s : Concurrent ι) (p : Ptr) (e : Entry) (pc : Pc) :
    (s.write p e pc).pc = pc := rfl

def afterAccess (p : Ptr) (call : Call) : Next → Pc
  | .goto point => .access p { call with point := point }
  | .ret _ => .idle

def step (s : Concurrent ι) (c : ι) (how : WaitEnd) (kzalloc : Option Ptr) : Pc → Option (Moved ι)
  | .idle => none
  | .createEnter k param => s.enter c k (.search k param (s.mList k))
  | .search k param [] => some (s.moved (.allocate k param))
  | .search k param (p :: rest) =>
    some (s.moved (if (s.mem p).name = param.name then .countOwner k p else .search k param rest))
  | .allocate k param =>
    match kzalloc with
    | none => some (s.moved (.createLeave k))
    | some p => some (s.write p Entry.zero (.fresh k param p (newStmts k param)))
  | .fresh k _ p [] =>
    some { s.moved (.countOwner k p) with
      mList := Function.update s.mList k (s.mList k ++ [p]) }
  | .fresh k param p (stmt :: todo) =>
    (stmt.run k param p how (s.mem p)).map fun e => s.write p e (.fresh k param p todo)
  | .countOwner k p =>
    some (s.write p { s.mem p with ownerCount := (s.mem p).ownerCount + 1 } (.createLeave k))
  | .createLeave k => some (s.leave k .idle)
  | .checkEnter handle call => s.enter c call.kind (.check handle call)
  | .check handle call =>
    let exist := containerOf handle ≠ 0 ∧ (s.mem (containerOf handle)).id = call.kind.id
    some (s.moved (.checkLeave handle call exist))
  | .checkLeave handle call exist =>
    some (s.leave call.kind (if exist then .access (containerOf handle) call else .idle))
  | .access p call =>
    (Linux.access call how (s.mem p)).map fun r =>
      s.write p r.1 (afterAccess p call r.2)
  | .closeEnter k handle => s.enter c k (.closeCheck k handle)
  | .closeCheck k handle =>
    if containerOf handle ≠ 0 ∧ (s.mem (containerOf handle)).id = k.id then
      some (s.moved (.scan k (containerOf handle) (s.mList k)))
    else some (s.moved (.closeLeave k))
  | .scan k _ [] => some (s.moved (.closeLeave k))
  | .scan k p (q :: rest) =>
    if q = p then
      let e := { s.mem p with ownerCount := (s.mem p).ownerCount - 1 }
      some (s.write p e (if e.ownerCount = 0 then .listDel k p else .scan k p rest))
    else some (s.moved (.scan k p rest))
  | .listDel k p =>
    some { s.moved (.kfree k p) with mList := Function.update s.mList k ((s.mList k).erase p) }
  | .kfree k _ => some (s.moved (.closeLeave k))
  | .closeLeave k => some (s.leave k .idle)

variable [DecidableEq ι]

def begin (s : Concurrent ι) (c : ι) (pc : Pc) : Option (Concurrent ι) :=
  if s.pcs c = .idle then some { s with pcs := Function.update s.pcs c pc } else none

def after (s : Concurrent ι) (c : ι) (m : Moved ι) : Concurrent ι :=
  ⟨m.mem, m.mList, m.locks, Function.update s.pcs c m.pc⟩

def next (s : Concurrent ι) (a : ι × Move) : Option (Concurrent ι) :=
  match a.2 with
  | .create k param => s.begin a.1 (.createEnter k param)
  | .request k op handle timeout lockerid =>
    -- The test for `NULL` comes before the mutex.
    if handle = 0 then s.begin a.1 .idle
    else (firstPoint k op).bind fun point =>
      s.begin a.1 (.checkEnter handle ⟨k, op, timeout, lockerid, point⟩)
  | .close k handle =>
    if handle = 0 then s.begin a.1 .idle else s.begin a.1 (.closeEnter k handle)
  | .step how kzalloc =>
    (s.step a.1 how kzalloc (s.pcs a.1)).map (s.after a.1)
  | .scribble p e => some { s with mem := Function.update s.mem p e }

/-- The allocator gives out, and others write to, memory that is not in use. -/
def Allocates (s : Concurrent ι) (a : ι × Move) : Prop :=
  match a.2 with
  | .step _ (some p) => ¬ s.InUse p
  | .scribble p _ => ¬ s.InUse p
  | _ => True

/-- The runs of a freshly probed driver. -/
def system (ι : Type*) [DecidableEq ι] : System (Concurrent ι) (ι × Move) :=
  (System.ofNext (fun s => s.mList = (fun _ => []) ∧ s.locks = (fun _ => none) ∧
    s.pcs = fun _ => .idle) next).guard Allocates

end Concurrent

/-- A create that is not disturbed leaves in its new entry what the registry
model says. -/
theorem newStmts_fill (k : Kind) (param : IpcCreate) (p : Ptr) :
    (newStmts k param).foldlM (fun e stmt => NewStmt.run k param p .acquired e stmt) Entry.zero =
      some (fill k param p) := by
  cases k with
  | mutex =>
    by_cases hv : param.value = 0 <;>
      simp [newStmts, hv, NewStmt.run, fill, mutexFill, mutexBlank, Entry.zero, Entry.down,
        Entry.incLock]
  | _ => simp [newStmts, NewStmt.run, fill, semFill, eventFill, shmFill, Entry.zero]

end Gipcy.Linux
