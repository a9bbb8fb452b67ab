import Gipcy.Linux.SharedApi

/-! The descriptor of a shared-memory handle under any number of maps and
unmaps and the delete at the end. -/
namespace Gipcy.Linux.SharedApi

/-- A call on the handle; the flag is whether `mmap` or `munmap` succeeds. -/
inductive HandleCall where
  | map (mmap : Bool)
  | unmap (munmap : Bool)
deriving DecidableEq

def Described.call (d : Described) : HandleCall → Described
  | .map mmap => (ipcMapSharedMemory mmap d).1
  | .unmap munmap => (ipcUnmapSharedMemory munmap d).1

def Described.run (d : Described) (calls : List HandleCall) : Described := calls.foldl .call d

/-- The descriptor was closed once, and not used afterwards. -/
def ClosedOnce (uses : List FdUse) : Prop := ∃ before, uses = before ++ [.close] ∧ .close ∉ before

/-- No map comes before the first unmap that succeeds. -/
def NoneMapped : List HandleCall → Bool
  | [] => true
  | .map _ :: _ => false
  | .unmap true :: _ => true
  | .unmap false :: rest => NoneMapped rest

/-- There is a map, and no other one follows it; after a map that succeeded,
only those before the next unmap that succeeds count. -/
def MapsOnce : List HandleCall → Bool
  | [] => false
  | .unmap _ :: rest => MapsOnce rest
  | .map true :: rest => NoneMapped rest
  | .map false :: rest => rest.all fun call => call matches .unmap _

/-- The maps that get as far as the descriptor. -/
def reaching : (sized mapped : Bool) → List HandleCall → Nat
  | _, _, [] => 0
  | true, mapped, .map mmap :: rest => reaching true (mapped || mmap) rest + 1
  | false, mapped, .map _ :: rest => reaching false mapped rest
  | _, true, .unmap true :: rest => reaching false false rest
  | sized, mapped, .unmap _ :: rest => reaching sized mapped rest

section Reaching

variable {sized mapped : Bool} {rest : List HandleCall}

@[simp] theorem reaching_nil : reaching sized mapped [] = 0 := by
  cases sized <;> cases mapped <;> rfl

@[simp] theorem reaching_map_sized (mmap : Bool) :
    reaching true mapped (.map mmap :: rest) = reaching true (mapped || mmap) rest + 1 := by
  cases mapped <;> rfl

@[simp] theorem reaching_map_empty (mmap : Bool) :
    reaching false mapped (.map mmap :: rest) = reaching false mapped rest := by
  cases mapped <;> rfl

@[simp] theorem reaching_unmap_mapped :
    reaching sized true (.unmap true :: rest) = reaching false false rest := by
  cases sized <;> rfl

@[simp] theorem reaching_unmap_unmapped (munmap : Bool) :
    reaching sized false (.unmap munmap :: rest) = reaching sized false rest := by
  cases sized <;> cases munmap <;> rfl

@[simp] theorem reaching_unmap_failed :
    reaching sized mapped (.unmap false :: rest) = reaching sized mapped rest := by
  cases sized <;> cases mapped <;> rfl

end Reaching

section Steps

/-- Each of them uses the descriptor twice. -/
def usesOf (n : Nat) : List FdUse := (List.replicate n [.mmap, .close]).flatten

theorem usesOf_succ (n : Nat) : usesOf (n + 1) = [.mmap, .close] ++ usesOf n := by
  simp [usesOf, List.replicate_succ]

theorem closedOnce_usesOf (n : Nat) : ClosedOnce (usesOf n) ↔ n = 1 := by
  constructor
  · rintro ⟨before, heq, hnot⟩
    match n with
    | 0 => simp [usesOf] at heq
    | 1 => rfl
    | n + 2 =>
      -- The second element is a close, and it is not the last.
      rw [usesOf_succ, usesOf_succ] at heq
      have hlen := congrArg List.length heq
      simp only [List.length_append, List.length_cons, List.length_nil] at hlen
      have hsecond : before[1]? = some .close := by
        have := congrArg (·[1]?) heq
        simpa [List.getElem?_append_left (show 1 < before.length by omega)] using this.symm
      exact absurd (List.mem_of_getElem? hsecond) hnot
  · rintro rfl
    exact ⟨[.mmap], rfl, by decide⟩

theorem run_cons (d : Described) (call : HandleCall) (calls : List HandleCall) :
    d.run (call :: calls) = (d.call call).run calls := rfl

theorem call_map_sized {d : Described} (sized : d.h.ipcSize ≠ 0) (mmap : Bool) :
    d.call (.map mmap) =
      ⟨{ d.h with ipcData := d.h.ipcData || mmap }, d.uses ++ [.mmap, .close]⟩ := by
  cases mmap <;> simp [Described.call, ipcMapSharedMemory, sized]

theorem call_map_empty {d : Described} (empty : d.h.ipcSize = 0) (mmap : Bool) :
    d.call (.map mmap) = d := by
  simp [Described.call, ipcMapSharedMemory, empty]

theorem call_unmap {d : Described} (munmap : Bool) :
    d.call (.unmap munmap) = if d.h.ipcData ∧ munmap then
      { d with h := { d.h with ipcData := false, ipcSize := 0 } } else d := by
  cases hdata : d.h.ipcData <;> cases munmap <;>
    simp [Described.call, ipcUnmapSharedMemory, hdata]

/-- A whole run adds the uses of the maps that get as far. -/
theorem run_uses (calls : List HandleCall) (d : Described) :
    (d.run calls).uses = d.uses ++ usesOf (reaching (d.h.ipcSize ≠ 0) d.h.ipcData calls) := by
  induction calls generalizing d with
  | nil => simp [Described.run, usesOf]
  | cons call rest ih =>
    rw [run_cons, ih]
    cases call with
    | map mmap =>
      by_cases sized : d.h.ipcSize = 0
      · rw [call_map_empty sized]
        simp [sized]
      · rw [call_map_sized sized]
        simp [sized, usesOf_succ]
    | unmap munmap =>
      rw [call_unmap]
      cases hdata : d.h.ipcData <;> cases munmap <;> by_cases sized : d.h.ipcSize = 0 <;>
        simp [hdata, sized]

/-- An empty handle never gets as far. -/
theorem reaching_empty (mapped : Bool) (calls : List HandleCall) :
    reaching false mapped calls = 0 := by
  induction calls generalizing mapped with
  | nil => exact reaching_nil
  | cons call rest ih =>
    cases call with
    | map mmap => simp [ih]
    | unmap munmap => cases mapped <;> cases munmap <;> simp [ih]

theorem reaching_mapped (calls : List HandleCall) :
    reaching true true calls = 0 ↔ NoneMapped calls = true := by
  induction calls with
  | nil => simp [NoneMapped]
  | cons call rest ih =>
    cases call with
    | map mmap => simp [NoneMapped]
    | unmap munmap =>
      cases munmap with
      | false => simpa [NoneMapped] using ih
      -- From here on the handle is empty.
      | true => simp [NoneMapped, reaching_empty]

theorem reaching_unmapped (calls : List HandleCall) :
    reaching true false calls = 0 ↔ (calls.all fun call => call matches .unmap _) = true := by
  induction calls with
  | nil => simp
  | cons call rest ih =>
    cases call with
    | map mmap => simp
    | unmap munmap => simpa using ih

theorem reaching_once (calls : List HandleCall) :
    reaching true false calls = 1 ↔ MapsOnce calls = true := by
  induction calls with
  | nil => simp [MapsOnce]
  | cons call rest ih =>
    cases call with
    | unmap munmap => simpa [MapsOnce] using ih
    | map mmap =>
      cases mmap with
      | true => simpa [MapsOnce] using reaching_mapped rest
      | false => simpa [MapsOnce] using reaching_unmapped rest

/-- The delete leaves the descriptor alone. -/
theorem ipcDeleteSharedMemory_uses (ipcDriverFd : Int) (steps : DeleteSteps) (p : Process)
    (d : Described) : (ipcDeleteSharedMemory ipcDriverFd steps p d).2.1.uses = d.uses := by
  have unmapped : (if d.h.ipcData then (ipcUnmapSharedMemory steps.munmap d).1 else d).uses =
      d.uses := by
    split
    · unfold ipcUnmapSharedMemory
      split
      · rfl
      · split <;> rfl
    · rfl
  unfold ipcDeleteSharedMemory
  split
  · rfl
  · dsimp only
    generalize (if d.h.ipcData then (ipcUnmapSharedMemory steps.munmap d).1 else d) = left
      at unmapped ⊢
    split
    · split <;> exact unmapped
    · split <;> exact unmapped

end Steps

section Claims

/-- The descriptor of a returned handle is closed exactly once by the end of the
delete, and not used after that, iff the handle is not empty and the calls reach
the descriptor with one map. -/
theorem descriptor_closed_once_iff {m : Nat} (ipcDriverFd : Int) (steps : Steps) (name : CStr m)
    (p : Process) (call : ShmCall) (h : IpcHandle)
    (hreturn : (ipcShared ipcDriverFd steps name p call).handle = some h)
    (calls : List HandleCall) (deleteSteps : DeleteSteps) (q : Process) :
    ClosedOnce (ipcDeleteSharedMemory ipcDriverFd deleteSteps q
      (Described.run ⟨h, []⟩ calls)).2.1.uses ↔ h.ipcSize ≠ 0 ∧ MapsOnce calls = true := by
  have hfresh := ipcShared_fresh hreturn
  rw [ipcDeleteSharedMemory_uses, run_uses, List.nil_append, closedOnce_usesOf, hfresh.ipcData]
  by_cases sized : h.ipcSize = 0
  · simp [sized, reaching_empty]
  · simp [sized, reaching_once]

/-- A handle of 8 bytes that is mapped once. -/
theorem descriptor_closed_mapped : ∃ h,
    (ipcShared 1 Steps.succeed CStr.x newProcess (.create 8)).handle = some h ∧
    ClosedOnce (ipcDeleteSharedMemory 1 ⟨true, true, true⟩ newProcess
      (Described.run ⟨h, []⟩ [.map true, .unmap true])).2.1.uses :=
  ⟨_, by decide +kernel, (descriptor_closed_once_iff 1 Steps.succeed CStr.x newProcess (.create 8)
    ⟨[47, 120], .sharedMem, 3, false, 8, userHandle 4096⟩ (by decide +kernel) _ _ _).mpr
      (by decide)⟩

/-- A second map uses the descriptor that the first one closed. -/
theorem descriptor_not_closed_once : ¬ ∀ (ipcDriverFd : Int) (steps : Steps) (m : Nat)
    (name : CStr m) (p : Process) (call : ShmCall) (h : IpcHandle),
    (ipcShared ipcDriverFd steps name p call).handle = some h →
    ∀ (calls : List HandleCall) (deleteSteps : DeleteSteps) (q : Process),
    ClosedOnce (ipcDeleteSharedMemory ipcDriverFd deleteSteps q
      (Described.run ⟨h, []⟩ calls)).2.1.uses := by
  intro closed
  have twice := closed 1 Steps.succeed 128 CStr.x newProcess (.create 8)
    ⟨[47, 120], .sharedMem, 3, false, 8, userHandle 4096⟩ (by decide +kernel)
    [.map true, .map true] ⟨true, true, true⟩ newProcess
  rw [ipcDeleteSharedMemory_uses, run_uses, List.nil_append, closedOnce_usesOf] at twice
  exact absurd twice (by decide)

end Claims

end Gipcy.Linux.SharedApi
