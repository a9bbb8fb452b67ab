import Gipcy.Linux.Insys
import Gipcy.Qnx.Semaphores

/-! The semaphore calls of the insys library over the resource manager, for a
client that nobody disturbs. -/
namespace Gipcy.Qnx

open PosixSemaphore
open Linux (CStr Ptr nameSize_pos IPC_OK ipcDriverHandle)

/-- A message to the manager: it is received, and a wait with a deadline ends
with the given `errno` before the manager answers. -/
def Server.call (lim : Limits) (errno : Int) (s : Server) (command : Command)
    (malloc : Option Ptr) : Option (Server × Reply) :=
  (next lim s ((), .request command malloc)).bind fun t =>
    if t.status = .receiving then t.reply.map (t, ·)
    else (next lim t ((), .expire errno)).bind fun u => u.reply.map (u, ·)

/-- The result of `devctl`; `failed` is what it makes of an answer that is an
error. -/
def devctl (failed : Int → Int) : Reply → Int
  | .error error => failed error
  | .ok _ => 0

/-- The handle in the structure that `devctl` copies back. -/
def Reply.handle : Reply → Ptr
  | .ok (some p) => p
  | _ => 0

/-- `snprintf(ipc_param.name, sizeof(ipc_param.name), "%s\n", name)`. -/
def paramName {m : Nat} (name : CStr m) : CStr 128 :=
  CStr.snprintf (m := m + 1) 128 nameSize_pos
    ⟨name.chars ++ [10], by simp [name.noNul], by simp [name.fits]⟩

section Calls

variable (lim : Limits) (failed : Int → Int) (errno ipcDriverFd : Int) (s : Server)

/-- The value is not passed on. -/
def ipcCreateSemaphore {m : Nat} (name : CStr m) (_value : Int32) (malloc : Option Ptr) :
    Option (Server × Ptr) :=
  if ipcDriverHandle ipcDriverFd < 0 then some (s, 0)
  else
    (s.call lim errno (.create .sem ⟨paramName name, 1, 0⟩) malloc).map fun r =>
      (r.1, if devctl failed r.2 < 0 then 0 else r.2.handle)

def ipcLockSemaphore (handle : Ptr) (timeout : Int32) (clock : Clock) : Option (Server × Int) :=
  if ipcDriverHandle ipcDriverFd < 0 then some (s, -1)
  else
    (s.call lim errno (.lock .sem ⟨handle, timeout⟩ clock) none).map fun r =>
      let res := devctl failed r.2
      (r.1, if res < 0 then res else IPC_OK)

def ipcUnlockSemaphore (handle : Ptr) : Option (Server × Int) :=
  if ipcDriverHandle ipcDriverFd < 0 then some (s, -1)
  else
    (s.call lim errno (.unlock .sem ⟨handle⟩) none).map fun r =>
      (r.1, if devctl failed r.2 < 0 then -1 else IPC_OK)

end Calls

section Answers

variable {lim : Limits} {s : Server} {command : Command} {malloc : Option Ptr}

theorem Server.next_request (receiving : s.status = .receiving)
    (free : ∀ p, malloc = some p → s.drv.Free p) :
    next lim s ((), .request command malloc) =
      some (s.after (ioDevctl lim s.drv malloc command)) :=
  if_pos ⟨receiving, free⟩

/-- The manager receives again, with the given driver up to the lock of the
registry. -/
structure Server.Left (t : Server) (k : Linux.Kind) (drv : Driver) : Prop where
  receiving : t.status = .receiving
  drv : ∃ sem, Up sem ∧ t.drv = drv.setLock k sem

/-- A message that the manager answers at once. -/
theorem Server.call_ends (errno : Int) (receiving : s.status = .receiving)
    (free : ∀ p, malloc = some p → s.drv.Free p) {k : Linux.Kind} {after : Driver} {reply : Reply}
    (hends : Ends k (ioDevctl lim s.drv malloc command) after reply) :
    ∃ t, Left t k after ∧ s.call lim errno command malloc = some (t, reply) := by
  obtain ⟨sem, hup, heq⟩ := hends
  refine ⟨⟨after.setLock k sem, .receiving, some reply⟩, ⟨rfl, sem, hup, rfl⟩, ?_⟩
  rw [Server.call, Server.next_request receiving free, heq]
  rfl

/-- A lock with a time limit that finds no unit: its failure is the answer. -/
theorem Server.call_waits (lim : Limits) (errno : Int) {k : Linux.Kind} (hk : k ≠ .shm)
    (receiving : s.status = .receiving) (h : Open s.drv) {p : Ptr} {timeout : Int32}
    {clock : Clock} (limited : ¬ timeout < 0) (takes : clock.Takes timeout)
    (hexist : handleExists k s.drv p) (hsema : (s.drv.mem p).sema = some 0) :
    ∃ t, Left t k s.drv ∧ s.call lim errno (.lock k ⟨p, timeout⟩ clock) none =
      some (t, .ofError (lockFailed k errno)) := by
  obtain ⟨sem, hup, heq⟩ := lock_waits lim none hk h hexist hsema takes
  refine ⟨⟨s.drv.setLock k sem, .receiving, some (.ofError (lockFailed k errno))⟩,
    ⟨rfl, sem, hup, rfl⟩, ?_⟩
  rw [Server.call, Server.next_request receiving (by simp), heq]
  simp [Server.after, Server.next, limited]

end Answers

end Gipcy.Qnx
