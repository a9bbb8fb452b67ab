import Gipcy.Posix.Calls
import Gipcy.Lib.Transition
import Mathlib.Logic.Function.Basic

/-! The create and delete calls of the POSIX library on one name, one system call a
step. A semaphore lives as long as a handle on it is open; a delete takes the name
from it, whoever else uses it. -/
namespace Gipcy.Posix

open Transition
open Linux (EEXIST Primitive)

/-- The system call that a process is before. -/
inductive Point where
  | idle
  /-- The first and the second `sem_open` of a create. -/
  | open1
  | open2
  | semClose
  | semUnlink
deriving DecidableEq

/-- `linked` is the semaphore that has the name, of `made` so far; `live` are the
semaphores in the handles that were returned and not given to a delete. -/
structure Name (ι : Type*) where
  linked : Option Nat
  made : Nat
  point : ι → Point
  live : List Nat

/-- A call begins, or the system call goes through; with an `errno` it fails. -/
inductive Act where
  | create
  | delete (sem : Nat)
  | sys (failed : Option Int)
deriving DecidableEq

namespace Name

variable {ι : Type*} [DecidableEq ι]

def goto (s : Name ι) (c : ι) (p : Point) : Name ι :=
  { s with point := Function.update s.point c p }

/-- The create returns a handle on the semaphore. -/
def ret (s : Name ι) (c : ι) (sem : Nat) : Name ι :=
  { s.goto c .idle with live := sem :: s.live }

/-- `sem_open` makes a semaphore, and the create returns. -/
def make (s : Name ι) (c : ι) : Name ι :=
  { s with linked := some s.made, made := s.made + 1 }.ret c s.made

/-- The first `sem_open`. For a semaphore its flags are `IPC_CREAT | IPC_EXCL`,
which are not those of `<fcntl.h>`: they neither create nor ask for a new one. -/
def open1 (k : Primitive) (s : Name ι) (c : ι) : Option Int → Option (Name ι)
  | none =>
    match k, s.linked with
    | .semaphore, some sem => some (s.ret c sem)
    | .semaphore, none => none
    | _, some _ => none
    | _, none => some (s.make c)
  | some errno =>
    if k = .event ∧ errno ≠ EEXIST then some (s.goto c .idle) else some (s.goto c .open2)

/-- The second, with `O_CREAT`. -/
def open2 (s : Name ι) (c : ι) : Option Int → Option (Name ι)
  | none =>
    match s.linked with
    | some sem => some (s.ret c sem)
    | none => some (s.make c)
  | some _ => some (s.goto c .idle)

def next (k : Primitive) (s : Name ι) : ι × Act → Option (Name ι)
  | (c, act) =>
    match s.point c, act with
    | .idle, .create => some (s.goto c .open1)
    | .open1, .sys failed => s.open1 k c failed
    | .open2, .sys failed => s.open2 c failed
    | .idle, .delete sem =>
      if sem ∈ s.live then some ({ s with live := s.live.erase sem }.goto c .semClose) else none
    | .semClose, .sys none => some (s.goto c .semUnlink)
    | .semUnlink, .sys none =>
      if s.linked = none then none else some ({ s with linked := none }.goto c .idle)
    -- The delete answers with an error, but the handle counts as deleted.
    | .semClose, .sys (some _) | .semUnlink, .sys (some _) => some (s.goto c .idle)
    | _, _ => none

/-- Any number of processes, none in a call yet, on a name without a semaphore. -/
def system (k : Primitive) (ι : Type*) [DecidableEq ι] : System (Name ι) (ι × Act) :=
  System.ofNext (fun s => s.linked = none ∧ (∀ c, s.point c = .idle) ∧ s.live = []) (next k)

omit [DecidableEq ι] in
/-- `sem_open` makes a semaphore only when no handle is live. -/
def MakesAlone (s : Name ι) : ι × Act → Prop
  | (c, .sys none) => s.point c = .open1 ∨ s.point c = .open2 → s.linked = none → s.live = []
  | _ => True

omit [DecidableEq ι] in
/-- The live handles are on one semaphore. -/
def Together (s : Name ι) : Prop := ∀ sem ∈ s.live, ∀ sem' ∈ s.live, sem = sem'

/-- The live handles are on one semaphore, and no other one has the name. -/
structure OneSemaphore (s : Name ι) : Prop where
  together : Together s
  named : ∀ sem, s.linked = some sem → ∀ sem' ∈ s.live, sem' = sem

section Steps

variable {k : Primitive} {s t : Name ι} {c : ι} {failed : Option Int}

theorem OneSemaphore.ret (h : OneSemaphore s) {sem : Nat} (hsem : s.linked = some sem) :
    OneSemaphore (s.ret c sem) := by
  have hlive : ∀ sem' ∈ (s.ret c sem).live, sem' = sem := by
    intro sem' hlive
    rcases List.mem_cons.mp hlive with rfl | hlive
    · rfl
    · exact h.named sem hsem sem' hlive
  refine ⟨fun a ha b hb => (hlive a ha).trans (hlive b hb).symm, fun sem' hsem' => ?_⟩
  cases hsem.symm.trans hsem'
  exact hlive

theorem OneSemaphore.make (alone : s.live = []) : OneSemaphore (s.make c) := by
  have hlive : ∀ sem ∈ (s.make c).live, sem = s.made := by
    intro sem hlive
    rcases List.mem_cons.mp hlive with rfl | hlive
    · rfl
    · exact absurd (alone ▸ hlive) List.not_mem_nil
  refine ⟨fun a ha b hb => (hlive a ha).trans (hlive b hb).symm, fun sem hsem => ?_⟩
  cases hsem
  exact hlive

theorem OneSemaphore.open1 (h : OneSemaphore s)
    (alone : failed = none → s.linked = none → s.live = [])
    (step : s.open1 k c failed = some t) : OneSemaphore t := by
  cases failed with
  | none =>
    dsimp only [Name.open1] at step
    split at step
    · rename_i hlinked
      cases step
      exact h.ret hlinked
    · cases step
    · cases step
    · rename_i hlinked
      cases step
      exact .make (alone rfl hlinked)
  | some errno =>
    dsimp only [Name.open1] at step
    split at step <;> cases step <;> exact ⟨h.together, h.named⟩

theorem OneSemaphore.open2 (h : OneSemaphore s)
    (alone : failed = none → s.linked = none → s.live = [])
    (step : s.open2 c failed = some t) : OneSemaphore t := by
  cases failed with
  | none =>
    dsimp only [Name.open2] at step
    split at step
    · rename_i hlinked
      cases step
      exact h.ret hlinked
    · rename_i hlinked
      cases step
      exact .make (alone rfl hlinked)
  | some errno =>
    cases step
    exact ⟨h.together, h.named⟩

theorem OneSemaphore.step (h : OneSemaphore s) {act : Act} (condition : MakesAlone s (c, act))
    (step : next k s (c, act) = some t) : OneSemaphore t := by
  dsimp only [next] at step
  split at step
  case h_1 => cases step; exact ⟨h.together, h.named⟩
  case h_2 hp => exact h.open1 (fun hnone => by subst hnone; exact condition (.inl hp)) step
  case h_3 hp => exact h.open2 (fun hnone => by subst hnone; exact condition (.inr hp)) step
  case h_4 =>
    split at step
    · cases step
      exact ⟨fun a ha b hb =>
          h.together a (List.mem_of_mem_erase ha) b (List.mem_of_mem_erase hb),
        fun sem hsem a ha => h.named sem hsem a (List.mem_of_mem_erase ha)⟩
    · cases step
  case h_5 => cases step; exact ⟨h.together, h.named⟩
  case h_6 =>
    split at step <;> cases step
    exact ⟨h.together, fun _ hsem => by cases hsem⟩
  case h_7 => cases step; exact ⟨h.together, h.named⟩
  case h_8 => cases step; exact ⟨h.together, h.named⟩
  case h_9 => cases step

theorem oneSemaphore_reachable (h : ((system k ι).guard MakesAlone).Reachable s) :
    OneSemaphore s := by
  apply h.invariant (I := OneSemaphore)
  · rintro s ⟨hlinked, -, hlive⟩
    refine ⟨?_, fun sem hsem => ?_⟩
    · rw [Together, hlive]
      nofun
    · rw [hlinked] at hsem
      cases hsem
  · rintro s ⟨c, act⟩ t - inv ⟨condition, step⟩
    exact inv.step condition step

end Steps

end Name

end Gipcy.Posix
