import Gipcy.Lib.Transition
import Gipcy.Linux.Insys
import Gipcy.Posix.SharedMemory
import Mathlib.Algebra.BigOperators.Group.Finset.Basic
import Mathlib.Algebra.BigOperators.Group.Multiset.Basic

/-! The same calls for shared memory, one after another, over the POSIX and the Windows
library. There the memory of a name belongs to the handles, here a delete takes the name. -/
namespace Gipcy.Ports

open CString (chars)
open Transition
open Linux (IPC_OK IPC_GENERAL_ERROR)
open Posix (MemName)

/-- A name that both systems take as it is: `shm_open` refuses the directories and a name
that is too long, and a backslash is a part of the name space of Windows. -/
def Portable (name : MemName) : Prop :=
  name.text ≠ [] ∧ name.text.length ≤ 253 ∧ '\\'.toUInt8 ∉ name.text ∧
    name.text ≠ chars ['.'] ∧ name.text ≠ chars ['.', '.']

instance (name : MemName) : Decidable (Portable name) := inferInstanceAs (Decidable (_ ∧ _))

/-- What a handle is of, its `ipc_size`, and whether `ipc_data` is set. -/
structure MemView where
  name : MemName
  obj : Nat
  size : Nat
  data : Bool
deriving DecidableEq

/-- A program calls on its variables for handles. -/
inductive MemCall (η : Type*) where
  /-- `IPC_createSharedMemory` and `IPC_createSharedMemoryEx`. -/
  | create (h : η) (name : MemName) (size : Nat)
  | map (h : η)
  | unmap (h : η)
  | delete (h : η)

inductive MemAnswer where
  | created (alreadyCreated : Bool)
  | mapped (ok : Bool)
  | code (res : Int)
deriving DecidableEq

/-- The memory by name, out of `made` so far, the handles in the variables, and what the
calls returned. -/
structure MemMachine (η : Type*) where
  names : MemName → Option Nat
  made : Nat
  handles : η → Option MemView
  answers : List MemAnswer

namespace MemMachine

variable {η : Type*} [DecidableEq η]

def reply (s : MemMachine η) (answer : MemAnswer) : MemMachine η :=
  { s with answers := s.answers ++ [answer] }

def put (s : MemMachine η) (h : η) (x : Option MemView) : MemMachine η :=
  { s with handles := Function.update s.handles h x }

def setName (s : MemMachine η) (name : MemName) (obj : Option Nat) : MemMachine η :=
  { s with names := Function.update s.names name obj }

/-- `shm_open` and `ftruncate`, or `CreateFileMapping`, in a system that has the memory
for it. -/
def create (s : MemMachine η) (h : η) (name : MemName) (size : Nat) : MemMachine η :=
  match s.names name with
  | some obj => (s.put h (some ⟨name, obj, size, false⟩)).reply (.created true)
  | none =>
    (({ s with made := s.made + 1 }.setName name (some s.made)).put h
      (some ⟨name, s.made, size, false⟩)).reply (.created false)

/-- The text shared by the two `IPC_unmapSharedMemory`; the POSIX one clears `ipc_size`. -/
def unmap (s : MemMachine η) (h : η) (x : MemView) (size : Nat) : MemMachine η :=
  if x.data then (s.put h (some { x with data := false, size := size })).reply (.code IPC_OK)
  else s.reply (.code IPC_GENERAL_ERROR)

def posixMap (s : MemMachine η) (h : η) (x : MemView) : MemMachine η :=
  if x.size = 0 then s.reply (.mapped false)
  else (s.put h (some { x with data := true })).reply (.mapped true)

/-- `shm_unlink` fails on a name that has no memory. -/
def posixDelete (s : MemMachine η) (h : η) (x : MemView) : MemMachine η :=
  if (s.names x.name).isSome then ((s.setName x.name none).put h none).reply (.code IPC_OK)
  else (s.put h none).reply (.code IPC_GENERAL_ERROR)

def windowsMap (s : MemMachine η) (h : η) (x : MemView) : MemMachine η :=
  (s.put h (some { x with data := true })).reply (.mapped true)

/-- `CloseHandle`: the name goes with the last handle. -/
def windowsDelete [Fintype η] (s : MemMachine η) (h : η) (x : MemView) : MemMachine η :=
  if ∃ h', h' ≠ h ∧ (s.handles h').any fun y => y.obj = x.obj then
    (s.put h none).reply (.code IPC_OK)
  else ((s.setName x.name none).put h none).reply (.code IPC_OK)

/-- A create is for a variable without a handle, a name of both systems and a size of at
least 1, another call for a variable with a handle. -/
def posixCall (s : MemMachine η) : MemCall η → Option (MemMachine η)
  | .create h name size =>
    if s.handles h = none ∧ Portable name ∧ 0 < size then some (s.create h name size) else none
  | .map h => (s.handles h).map fun x => s.posixMap h x
  | .unmap h => (s.handles h).map fun x => s.unmap h x 0
  | .delete h => (s.handles h).map fun x => s.posixDelete h x

def windowsCall [Fintype η] (s : MemMachine η) : MemCall η → Option (MemMachine η)
  | .create h name size =>
    if s.handles h = none ∧ Portable name ∧ 0 < size then some (s.create h name size) else none
  | .map h => (s.handles h).map fun x => s.windowsMap h x
  | .unmap h => (s.handles h).map fun x => s.unmap h x x.size
  | .delete h => (s.handles h).map fun x => s.windowsDelete h x

def fresh (η : Type*) : MemMachine η := ⟨fun _ => none, 0, fun _ => none, []⟩

/-- Two handles of the machine are on one memory. -/
def Share (s : MemMachine η) (h h' : η) : Prop :=
  ∃ x y, s.handles h = some x ∧ s.handles h' = some y ∧ x.obj = y.obj

/-- The handles of one name are on one memory. -/
def Joined (s : MemMachine η) : Prop :=
  ∀ h h' x y, s.handles h = some x → s.handles h' = some y → x.name = y.name → x.obj = y.obj

end MemMachine

/-- The same calls over the POSIX library on the left and the Windows library. -/
def bothMemories (η : Type*) [DecidableEq η] [Fintype η] :
    System (MemMachine η × MemMachine η) (MemCall η) :=
  .ofNext (fun s => s = (.fresh η, .fresh η)) fun s c =>
    (s.1.posixCall c).bind fun left => (s.2.windowsCall c).map fun right => (left, right)

/-- The calls have returned the same, and the same handles share memory. -/
def MemoriesAgree {η : Type*} (s : MemMachine η × MemMachine η) : Prop :=
  s.1.answers = s.2.answers ∧ ∀ h h', s.1.Share h h' ↔ s.2.Share h h'

/-- A create finds the handles of its name on the memory that has the name, a handle is not
mapped after it was unmapped, and a delete finds the name. -/
def MemCallAgrees {η : Type*} (s : MemMachine η × MemMachine η) : MemCall η → Prop
  | .create _ name _ => ∀ h x, s.1.handles h = some x → x.name = name →
    s.1.names name = some x.obj
  | .map h => ∀ x, s.1.handles h = some x → x.size ≠ 0
  | .unmap _ => True
  | .delete h => ∀ x, s.1.handles h = some x → s.1.names x.name ≠ none

namespace MemMachine

variable {η : Type*} [DecidableEq η] {s t : MemMachine η} {h : η}
  {x : MemView} {name : MemName} {size : Nat}

/-- Memory that has a name has a handle, and memory is of one name. -/
structure Sound (s : MemMachine η) : Prop where
  linked : ∀ name obj, s.names name = some obj →
    ∃ h x, s.handles h = some x ∧ x.name = name ∧ x.obj = obj
  made : ∀ h x, s.handles h = some x → x.obj < s.made
  once : ∀ h h' x y, s.handles h = some x → s.handles h' = some y → x.obj = y.obj →
    x.name = y.name

/-- A handle is on the memory that has its name. -/
def Named (s : MemMachine η) : Prop :=
  ∀ h x, s.handles h = some x → s.names x.name = some x.obj

omit [DecidableEq η] in
theorem fresh_sound : Sound (fresh η) := by
  constructor
  · intro name obj hname
    cases hname
  · intro h x hx
    cases hx
  · intro h h' x y hx
    cases hx

omit [DecidableEq η] in
theorem fresh_named : Named (fresh η) := by
  intro h x hx
  cases hx

omit [DecidableEq η] in
theorem Named.joined (named : Named s) : Joined s := by
  intro h h' x y hx hy hsame
  have hobj := named h x hx
  rw [hsame, named h' y hy] at hobj
  exact (Option.some.inj hobj).symm

/-! Calls that leave a handle on its memory. -/

/-- The machine has the same names, and the variables the same memory. -/
structure Stays (s t : MemMachine η) : Prop where
  names : t.names = s.names
  made : t.made = s.made
  handle : ∀ h x, t.handles h = some x →
    ∃ y, s.handles h = some y ∧ y.name = x.name ∧ y.obj = x.obj
  handle' : ∀ h x, s.handles h = some x →
    ∃ y, t.handles h = some y ∧ y.name = x.name ∧ y.obj = x.obj

section Stays

/-- The variable keeps its name and its memory. -/
theorem stays_put {y : MemView} (hx : s.handles h = some x) (name : y.name = x.name)
    (obj : y.obj = x.obj) (answer : MemAnswer) : Stays s ((s.put h (some y)).reply answer) := by
  have hself : Function.update s.handles h (some y) h = some y := Function.update_self ..
  have hother : ∀ h', h' ≠ h → Function.update s.handles h (some y) h' = s.handles h' :=
    fun h' hh => Function.update_of_ne hh _ _
  refine ⟨rfl, rfl, fun h' z hz => ?_, fun h' z hz => ?_⟩
  · by_cases hh : h' = h
    · subst hh
      cases hself.symm.trans hz
      exact ⟨x, hx, name.symm, obj.symm⟩
    · exact ⟨z, hother h' hh ▸ hz, rfl, rfl⟩
  · by_cases hh : h' = h
    · subst hh
      cases hx.symm.trans hz
      exact ⟨y, hself, name, obj⟩
    · exact ⟨z, (hother h' hh).trans hz, rfl, rfl⟩

omit [DecidableEq η] in
theorem stays_reply (answer : MemAnswer) : Stays s (s.reply answer) :=
  ⟨rfl, rfl, fun _ x hx => ⟨x, hx, rfl, rfl⟩, fun _ x hx => ⟨x, hx, rfl, rfl⟩⟩

theorem stays_posixMap (hx : s.handles h = some x) : Stays s (s.posixMap h x) := by
  unfold posixMap
  split
  · exact stays_reply _
  · exact stays_put hx (by rfl) (by rfl) _

theorem stays_unmap (hx : s.handles h = some x) (size : Nat) : Stays s (s.unmap h x size) := by
  unfold unmap
  split
  · exact stays_put hx (by rfl) (by rfl) _
  · exact stays_reply _

theorem stays_windowsMap (hx : s.handles h = some x) : Stays s (s.windowsMap h x) :=
  stays_put hx (by rfl) (by rfl) _

omit [DecidableEq η] in
theorem Sound.stays (sound : Sound s) (stays : Stays s t) : Sound t where
  linked := by
    intro name obj hname
    obtain ⟨h, x, hx, hxname, hxobj⟩ := sound.linked name obj (stays.names ▸ hname)
    obtain ⟨y, hy, hyname, hyobj⟩ := stays.handle' h x hx
    exact ⟨h, y, hy, hyname.trans hxname, hyobj.trans hxobj⟩
  made := by
    intro h x hx
    obtain ⟨y, hy, -, hobj⟩ := stays.handle h x hx
    rw [stays.made, ← hobj]
    exact sound.made h y hy
  once := by
    intro h h' x x' hx hx' hsame
    obtain ⟨y, hy, hname, hobj⟩ := stays.handle h x hx
    obtain ⟨y', hy', hname', hobj'⟩ := stays.handle h' x' hx'
    rw [← hname, ← hname']
    exact sound.once h h' y y' hy hy' (by rw [hobj, hobj', hsame])

omit [DecidableEq η] in
theorem Named.stays (named : Named s) (stays : Stays s t) : Named t := by
  intro h x hx
  obtain ⟨y, hy, hname, hobj⟩ := stays.handle h x hx
  rw [stays.names, ← hname, ← hobj]
  exact named h y hy

omit [DecidableEq η] in
theorem Joined.stays (joined : Joined s) (stays : Stays s t) : Joined t := by
  intro h h' x x' hx hx' hsame
  obtain ⟨y, hy, hname, hobj⟩ := stays.handle h x hx
  obtain ⟨y', hy', hname', hobj'⟩ := stays.handle h' x' hx'
  rw [← hobj, ← hobj']
  exact joined h h' y y' hy hy' (by rw [hname, hname', hsame])

end Stays

/-! A create. -/

section Create

/-- The memory that a create returns a handle of. -/
def target (s : MemMachine η) (name : MemName) : Nat := (s.names name).getD s.made

theorem create_names : (s.create h name size).names name = some (s.target name) := by
  unfold create target
  cases hname : s.names name with
  | none => exact Function.update_self ..
  | some obj => exact hname

theorem create_names_of_ne {other : MemName} (hne : other ≠ name) :
    (s.create h name size).names other = s.names other := by
  unfold create
  cases s.names name with
  | none => exact Function.update_of_ne hne _ _
  | some obj => rfl

theorem create_handles : (s.create h name size).handles =
    Function.update s.handles h (some ⟨name, s.target name, size, false⟩) := by
  unfold create target
  cases s.names name <;> rfl

theorem create_made : s.made ≤ (s.create h name size).made ∧
    (s.names name = none → s.made < (s.create h name size).made) := by
  unfold create
  cases s.names name with
  | none => exact ⟨Nat.le_succ _, fun _ => Nat.lt_succ_self _⟩
  | some obj => exact ⟨Nat.le_refl _, fun hnone => by cases hnone⟩

theorem create_answers : (s.create h name size).answers =
    s.answers ++ [.created (s.names name).isSome] := by
  unfold create
  cases s.names name <;> rfl

/-- A handle after a create is the new one or one from before. -/
theorem create_cases {h' : η} {y : MemView}
    (hy : (s.create h name size).handles h' = some y) :
    h' = h ∧ y = ⟨name, s.target name, size, false⟩ ∨ s.handles h' = some y := by
  rw [create_handles, Function.update_apply] at hy
  split at hy
  · exact .inl ⟨‹_›, (Option.some.inj hy).symm⟩
  · exact .inr hy

theorem create_keeps (free : s.handles h = none) {h' : η} {y : MemView}
    (hy : s.handles h' = some y) : (s.create h name size).handles h' = some y := by
  have hne : h' ≠ h := by
    rintro rfl
    rw [free] at hy
    cases hy
  rw [create_handles, Function.update_of_ne hne]
  exact hy

omit [DecidableEq η] in
/-- A handle on the target of a create is of that name. -/
theorem Sound.target (sound : Sound s) {h' : η} {y : MemView} (hy : s.handles h' = some y)
    (hobj : y.obj = s.target name) : y.name = name := by
  unfold MemMachine.target at hobj
  cases hname : s.names name with
  | none =>
    rw [hname] at hobj
    have hlt := sound.made h' y hy
    rw [hobj] at hlt
    exact absurd hlt (Nat.lt_irrefl _)
  | some obj =>
    rw [hname] at hobj
    obtain ⟨h'', z, hz, rfl, hzobj⟩ := sound.linked name obj hname
    exact sound.once h' h'' y z hy hz (hobj.trans hzobj.symm)

theorem Sound.create (sound : Sound s) (free : s.handles h = none) :
    Sound (s.create h name size) where
  linked := by
    intro name' obj hname
    by_cases hne : name' = name
    · subst hne
      rw [create_names] at hname
      cases hname
      exact ⟨h, _, by rw [create_handles, Function.update_self], rfl, rfl⟩
    · rw [create_names_of_ne hne] at hname
      obtain ⟨h', y, hy, hyname⟩ := sound.linked name' obj hname
      exact ⟨h', y, create_keeps free hy, hyname⟩
  made := by
    intro h' y hy
    rcases create_cases hy with ⟨-, rfl⟩ | hy
    · simp only [MemMachine.target]
      cases hname : s.names name with
      | none => exact create_made.2 hname
      | some obj =>
        obtain ⟨h'', z, hz, -, rfl⟩ := sound.linked name obj hname
        exact (sound.made h'' z hz).trans_le create_made.1
    · exact (sound.made h' y hy).trans_le create_made.1
  once := by
    intro h₁ h₂ y₁ y₂ hy₁ hy₂ hsame
    rcases create_cases hy₁ with ⟨-, rfl⟩ | hy₁ <;> rcases create_cases hy₂ with ⟨-, rfl⟩ | hy₂
    · rfl
    · exact (sound.target hy₂ hsame.symm).symm
    · exact sound.target hy₁ hsame
    · exact sound.once h₁ h₂ y₁ y₂ hy₁ hy₂ hsame

theorem Named.create (named : Named s) : Named (s.create h name size) := by
  intro h' y hy
  rcases create_cases hy with ⟨-, rfl⟩ | hy
  · exact create_names
  · have hwas := named h' y hy
    by_cases hne : y.name = name
    · rw [hne] at hwas ⊢
      rw [create_names, MemMachine.target, hwas, Option.getD_some]
    · rw [create_names_of_ne hne]
      exact hwas

/-- A create leaves the handles of the name together if they are on what it opens. -/
theorem joined_create_iff (sound : Sound s) (joined : Joined s) (free : s.handles h = none) :
    Joined (s.create h name size) ↔
      ∀ h' y, s.handles h' = some y → y.name = name → s.names name = some y.obj := by
  have hself : (s.create h name size).handles h = some ⟨name, s.target name, size, false⟩ := by
    rw [create_handles, Function.update_self]
  constructor
  · intro hjoined h' y hy hname
    have hobj : y.obj = s.target name := hjoined h' h y _ (create_keeps free hy) hself hname
    unfold MemMachine.target at hobj
    cases hlinked : s.names name with
    | none =>
      rw [hlinked] at hobj
      have hlt := sound.made h' y hy
      rw [hobj] at hlt
      exact absurd hlt (Nat.lt_irrefl _)
    | some obj =>
      rw [hlinked] at hobj
      rw [hobj, Option.getD_some]
  · intro hon h₁ h₂ y₁ y₂ hy₁ hy₂ hsame
    have htarget : ∀ h' y, s.handles h' = some y → y.name = name → y.obj = s.target name := by
      intro h' y hy hname
      rw [MemMachine.target, hon h' y hy hname, Option.getD_some]
    rcases create_cases hy₁ with ⟨-, rfl⟩ | hy₁ <;> rcases create_cases hy₂ with ⟨-, rfl⟩ | hy₂
    · rfl
    · exact (htarget h₂ y₂ hy₂ hsame.symm).symm
    · exact htarget h₁ y₁ hy₁ hsame
    · exact joined h₁ h₂ y₁ y₂ hy₁ hy₂ hsame

end Create

/-! A delete. -/

section Delete

/-- The variable is empty, and each name that has memory has it from another handle. -/
structure Removes (s t : MemMachine η) (h : η) : Prop where
  handles : t.handles = Function.update s.handles h none
  made : t.made = s.made
  names : ∀ name obj, t.names name = some obj → s.names name = some obj ∧
    ∃ h' y, h' ≠ h ∧ s.handles h' = some y ∧ y.name = name ∧ y.obj = obj

theorem Removes.was (removes : Removes s t h) {h' : η} {y : MemView}
    (hy : t.handles h' = some y) : h' ≠ h ∧ s.handles h' = some y := by
  rw [removes.handles, Function.update_apply] at hy
  split at hy
  · cases hy
  · exact ⟨‹_›, hy⟩

theorem Sound.removes (sound : Sound s) (removes : Removes s t h) : Sound t where
  linked := by
    intro name obj hname
    obtain ⟨-, h', y, hne, hy, hyname⟩ := removes.names name obj hname
    refine ⟨h', y, ?_, hyname⟩
    rw [removes.handles, Function.update_of_ne hne]
    exact hy
  made := by
    intro h' y hy
    rw [removes.made]
    exact sound.made h' y (removes.was hy).2
  once := fun h₁ h₂ y₁ y₂ hy₁ hy₂ =>
    sound.once h₁ h₂ y₁ y₂ (removes.was hy₁).2 (removes.was hy₂).2

theorem Joined.removes (joined : Joined s) (removes : Removes s t h) : Joined t :=
  fun h₁ h₂ y₁ y₂ hy₁ hy₂ => joined h₁ h₂ y₁ y₂ (removes.was hy₁).2 (removes.was hy₂).2

omit [DecidableEq η] in
/-- A name other than that of the variable has its memory from another variable. -/
theorem Sound.another (sound : Sound s) (hx : s.handles h = some x) {obj : Nat}
    (hname : s.names name = some obj) (hne : name ≠ x.name) :
    ∃ h' y, h' ≠ h ∧ s.handles h' = some y ∧ y.name = name ∧ y.obj = obj := by
  obtain ⟨h', y, hy, hyname, hyobj⟩ := sound.linked name obj hname
  refine ⟨h', y, ?_, hy, hyname, hyobj⟩
  rintro rfl
  cases hx.symm.trans hy
  exact hne hyname.symm

theorem removes_setName (sound : Sound s) (hx : s.handles h = some x) (answer : MemAnswer) :
    Removes s (((s.setName x.name none).put h none).reply answer) h := by
  refine ⟨rfl, rfl, fun name obj hname => ?_⟩
  have hname : Function.update s.names x.name none name = some obj := hname
  rw [Function.update_apply] at hname
  split at hname
  · cases hname
  · rename_i hne
    exact ⟨hname, sound.another hx hname hne⟩

theorem removes_posixDelete (sound : Sound s) (hx : s.handles h = some x) :
    Removes s (s.posixDelete h x) h := by
  unfold posixDelete
  split
  · exact removes_setName sound hx _
  · rename_i hnone
    refine ⟨rfl, rfl, fun name obj hname => ⟨hname, sound.another hx hname ?_⟩⟩
    rintro rfl
    rw [show s.names x.name = some obj from hname] at hnone
    exact hnone rfl

theorem removes_windowsDelete [Fintype η] (sound : Sound s) (hx : s.handles h = some x) :
    Removes s (s.windowsDelete h x) h := by
  unfold windowsDelete
  split
  · rename_i hother
    refine ⟨rfl, rfl, fun name obj hname => ⟨hname, ?_⟩⟩
    by_cases hne : name = x.name
    · obtain ⟨h', hh, hsome⟩ := hother
      obtain ⟨y, hy, hobj⟩ := (Option.any_eq_true _ _).mp hsome
      have hobj : y.obj = x.obj := of_decide_eq_true hobj
      have hyname := sound.once h' h y x hy hx hobj
      obtain ⟨h'', z, hz, hzname, hzobj⟩ := sound.linked name obj hname
      by_cases hh' : h'' = h
      · subst hh'
        cases hx.symm.trans hz
        exact ⟨h', y, hh, hy, hyname.trans hzname, hobj.trans hzobj⟩
      · exact ⟨h'', z, hh', hz, hzname, hzobj⟩
    · exact sound.another hx hname hne
  · exact removes_setName sound hx _

/-- The handles of a name keep it until the last of them is deleted. -/
theorem Named.windowsDelete [Fintype η] (named : Named s) (sound : Sound s)
    (hx : s.handles h = some x) : Named (s.windowsDelete h x) := by
  have removes := removes_windowsDelete sound hx
  intro h' y hy
  obtain ⟨hne, hy⟩ := removes.was hy
  have hname := named h' y hy
  unfold MemMachine.windowsDelete
  split
  · exact hname
  · rename_i hlast
    have hnames : y.name ≠ x.name := by
      intro hsame
      rw [hsame, named h x hx] at hname
      refine hlast ⟨h', hne, ?_⟩
      simp [hy, Option.some.inj hname]
    exact (Function.update_of_ne hnames _ _).trans hname

end Delete

end MemMachine

/-! The calls of the POSIX machine are runs of the system calls of one process. -/

section Runs

open Posix (MemHandle MemPoint MemAct Memory)
open Linux (EEXIST)

/-- The handle that a variable holds, with the era that the machine does not keep. -/
def MemView.handle (x : MemView) (era : Nat) : MemHandle := ⟨x.name, x.obj, x.size, x.data, era⟩

/-- What a variable has of the live handles. -/
def owned (x : Option MemView) (era : Nat) : Multiset MemHandle :=
  x.elim 0 fun x => {x.handle era}

variable {η ι : Type*} [Fintype η] [DecidableEq η] [DecidableEq ι]

/-- No call is under way, the memory that has a name has a size, and the live handles are
those in the variables. -/
structure Follows (m : Memory ι) (s : MemMachine η) (era : η → Nat) : Prop where
  names : m.linked = s.names
  made : m.made = s.made
  idle : ∀ c, m.point c = .idle
  sized : ∀ name obj, m.linked name = some obj → 0 < m.size obj
  live : (m.live : Multiset MemHandle) = ∑ h, owned (s.handles h) (era h)

variable {m : Memory ι} {s : MemMachine η} {era : η → Nat} {h : η} {x : MemView}

section Owned

omit [DecidableEq ι]

omit [DecidableEq η] in
theorem Follows.mem (follows : Follows m s era) (hx : s.handles h = some x) :
    x.handle (era h) ∈ m.live := by
  rw [← Multiset.mem_coe, follows.live, Multiset.mem_sum]
  exact ⟨h, Finset.mem_univ h, by simp [owned, hx]⟩

/-- What the other variables have. -/
theorem sum_owned (handles : η → Option MemView) (x : Option MemView) (h : η) (e : Nat) :
    ∑ h', owned (Function.update handles h x h') (Function.update era h e h') =
      owned x e + ∑ h' ∈ Finset.univ.erase h, owned (handles h') (era h') := by
  rw [← Finset.add_sum_erase _ _ (Finset.mem_univ h), Function.update_self, Function.update_self]
  congr 1
  refine Finset.sum_congr rfl fun h' hh => ?_
  have hne := Finset.ne_of_mem_erase hh
  rw [Function.update_of_ne hne, Function.update_of_ne hne]

theorem Follows.split (follows : Follows m s era) (h : η) :
    (m.live : Multiset MemHandle) = owned (s.handles h) (era h) +
      ∑ h' ∈ Finset.univ.erase h, owned (s.handles h') (era h') := by
  rw [follows.live, ← sum_owned, Function.update_eq_self, Function.update_eq_self]

/-- A handle that is made is one of a variable. -/
theorem Follows.live_cons (follows : Follows m s era) (free : s.handles h = none) (e : Nat) :
    ((x.handle e :: m.live : List MemHandle) : Multiset MemHandle) =
      ∑ h', owned (Function.update s.handles h (some x) h') (Function.update era h e h') := by
  rw [sum_owned, ← Multiset.cons_coe, follows.split h, free]
  exact congrArg (x.handle e ::ₘ ·) (zero_add _)

theorem Follows.live_erase (follows : Follows m s era) (hx : s.handles h = some x) :
    ((m.live.erase (x.handle (era h)) : List MemHandle) : Multiset MemHandle) =
      ∑ h' ∈ Finset.univ.erase h, owned (s.handles h') (era h') := by
  rw [← Multiset.coe_erase, follows.split h, hx]
  exact Multiset.erase_cons_head _ _

theorem Follows.live_put (follows : Follows m s era) (hx : s.handles h = some x)
    (y : Option MemView) :
    owned y (era h) + ((m.live.erase (x.handle (era h)) : List MemHandle) : Multiset MemHandle) =
      ∑ h', owned (Function.update s.handles h y h') (era h') := by
  rw [follows.live_erase hx, ← sum_owned, Function.update_eq_self]

end Owned

theorem idle_update {point : ι → MemPoint} {c : ι} (idle : ∀ d, d ≠ c → point d = .idle) (d : ι) :
    Function.update point c .idle d = .idle := by
  by_cases hd : d = c
  · rw [hd, Function.update_self]
  · rw [Function.update_of_ne hd]
    exact idle d hd

section Steps

variable {c : ι} {name : MemName} {size : Int} {shm time : Nat} {y : MemHandle}

theorem next_create (hp : m.point c = .idle) :
    (Memory.system ι).step m (c, .create name size) (m.goto c (.create name size)) := by
  change Memory.next m _ = some _
  unfold Memory.next
  dsimp only
  rw [hp]

theorem next_made (hp : m.point c = .create name size) (hname : m.linked name = none) :
    (Memory.system ι).step m (c, .sys none)
      ((m.make name).goto c (.ftruncate name size m.made (m.unlinks name))) := by
  change Memory.next m _ = some _
  unfold Memory.next
  dsimp only
  rw [hp]
  dsimp only
  rw [hname]

theorem next_exists (hp : m.point c = .create name size) (hname : m.linked name = some shm) :
    (Memory.system ι).step m (c, .sys (some EEXIST)) (m.goto c (.opens name size)) := by
  change Memory.next m _ = some _
  unfold Memory.next
  dsimp only
  rw [hp]
  dsimp only
  rw [hname]
  exact congrArg (fun p => some (m.goto c p)) (if_pos rfl)

theorem next_opened (hp : m.point c = .opens name size) (hname : m.linked name = some shm) :
    (Memory.system ι).step m (c, .sys none)
      (m.goto c (.fstat name size shm (m.unlinks name))) := by
  change Memory.next m _ = some _
  unfold Memory.next
  dsimp only
  rw [hp]
  dsimp only
  rw [hname]

theorem next_found (hp : m.point c = .fstat name size shm time) (hsize : 0 < m.size shm) :
    (Memory.system ι).step m (c, .sys none) (m.ret c ⟨name, shm, size, false, time⟩) := by
  change Memory.next m _ = some _
  unfold Memory.next
  dsimp only
  rw [hp]
  exact if_pos hsize

theorem next_sized (hp : m.point c = .ftruncate name size shm time) (hsize : 0 ≤ size) :
    (Memory.system ι).step m (c, .sys none)
      ((m.resize shm size).ret c ⟨name, shm, size, false, time⟩) := by
  change Memory.next m _ = some _
  unfold Memory.next
  dsimp only
  rw [hp]
  exact if_pos hsize

theorem next_map (hp : m.point c = .idle) (hy : y ∈ m.live) (hsize : 0 < y.size) :
    (Memory.system ι).step m (c, .map y true) (m.store y { y with data := true }) := by
  change Memory.next m _ = some _
  unfold Memory.next
  dsimp only
  rw [hp]
  exact (if_pos hy).trans (if_pos hsize)

theorem next_unmap (hp : m.point c = .idle) (hy : y ∈ m.live) (hdata : y.data = true) :
    (Memory.system ι).step m (c, .unmap y) (m.store y { y with data := false, size := 0 }) := by
  change Memory.next m _ = some _
  unfold Memory.next
  dsimp only
  rw [hp]
  exact (if_pos hy).trans (congrArg some (if_pos hdata))

theorem next_delete (hp : m.point c = .idle) (hy : y ∈ m.live) :
    (Memory.system ι).step m (c, .delete y)
      ({ m with live := m.live.erase y }.goto c (.unlink y.name)) := by
  change Memory.next m _ = some _
  unfold Memory.next
  dsimp only
  rw [hp]
  exact if_pos hy

theorem next_unlinked (hp : m.point c = .unlink name) (hname : m.linked name = some shm) :
    (Memory.system ι).step m (c, .sys none) ((m.unlink name).goto c .idle) := by
  change Memory.next m _ = some _
  unfold Memory.next
  dsimp only
  rw [hp]
  dsimp only
  rw [hname]

theorem next_refused (hp : m.point c = .unlink name) (errno : Int) :
    (Memory.system ι).step m (c, .sys (some errno)) (m.goto c .idle) := by
  change Memory.next m _ = some _
  unfold Memory.next
  dsimp only
  rw [hp]
  dsimp only
  cases m.linked name <;> rfl

end Steps

/-- The steps of one process lead to a state that the machine after the call follows. -/
def Reaches (m : Memory ι) (t : MemMachine η) : Prop :=
  ∃ labels m' era, (Memory.system ι).Exec m labels m' ∧ Follows m' t era

theorem create_run (follows : Follows m s era) (c : ι) {name : MemName} {size : Nat}
    (free : s.handles h = none) (pos : 0 < size) : Reaches m (s.create h name size) := by
  have hpoint : ∀ (u : Memory ι) (p : MemPoint), (u.goto c p).point c = p :=
    fun u p => Function.update_self ..
  have hbegin : (Memory.system ι).step m (c, .create name size) (m.goto c (.create name size)) :=
    next_create (follows.idle c)
  cases hname : s.names name with
  | none =>
    have hlinked : m.linked name = none := (congrFun follows.names name).trans hname
    have hcreate : s.create h name size = (({ s with made := s.made + 1 }.setName name
        (some s.made)).put h (some ⟨name, s.made, size, false⟩)).reply (.created false) := by
      simp only [MemMachine.create, hname]
    rw [hcreate, ← follows.made]
    refine ⟨_, _, Function.update era h (m.unlinks name),
      .cons hbegin (.cons (next_made (hpoint _ _) hlinked)
        (.cons (next_sized (hpoint _ _) (Int.natCast_nonneg size)) (.nil _))),
      ?_, rfl, idle_update fun d hd => ?_, fun name' obj hobj => ?_,
      follows.live_cons (x := ⟨name, m.made, size, false⟩) free _⟩
    · exact congrArg (Function.update · name (some m.made)) follows.names
    · simp [Memory.goto, Memory.make, Memory.resize, Function.update_of_ne hd, follows.idle]
    · simp only [Memory.ret, Memory.resize, Memory.goto, Memory.make] at hobj ⊢
      by_cases hmade : obj = m.made
      · rw [hmade, Function.update_self]
        exact Int.natCast_pos.mpr pos
      · rw [Function.update_of_ne hmade, Function.update_of_ne hmade]
        rw [Function.update_apply] at hobj
        split at hobj
        · exact absurd (Option.some.inj hobj).symm hmade
        · exact follows.sized name' obj hobj
  | some obj =>
    have hlinked : m.linked name = some obj := (congrFun follows.names name).trans hname
    have hcreate : s.create h name size =
        (s.put h (some ⟨name, obj, size, false⟩)).reply (.created true) := by
      simp only [MemMachine.create, hname]
    rw [hcreate]
    refine ⟨_, _, Function.update era h (m.unlinks name),
      .cons hbegin (.cons (next_exists (hpoint _ _) hlinked)
        (.cons (next_opened (hpoint _ _) hlinked)
          (.cons (next_found (hpoint _ _) (follows.sized name obj hlinked)) (.nil _)))),
      follows.names, follows.made, idle_update fun d hd => ?_, follows.sized,
      follows.live_cons (x := ⟨name, obj, size, false⟩) free _⟩
    simp [Memory.goto, Function.update_of_ne hd, follows.idle]

/-- A call that writes the handle of a variable. -/
theorem store_run (follows : Follows m s era) {c : ι} {act : MemAct} {y : MemView}
    {answer : MemAnswer} (hx : s.handles h = some x)
    (step : (Memory.system ι).step m (c, act)
      (m.store (x.handle (era h)) (y.handle (era h)))) :
    Reaches m ((s.put h (some y)).reply answer) :=
  ⟨_, _, era, .single step, follows.names, follows.made, follows.idle, follows.sized,
    follows.live_put hx (some y)⟩

theorem posixMap_run (follows : Follows m s era) (c : ι) (hx : s.handles h = some x) :
    Reaches m (s.posixMap h x) := by
  unfold MemMachine.posixMap
  split
  · exact ⟨_, _, era, .nil _, follows.names, follows.made, follows.idle, follows.sized,
      follows.live⟩
  · rename_i hsize
    exact store_run follows hx (y := { x with data := true }) (next_map (follows.idle c)
      (follows.mem hx) (Int.natCast_pos.mpr (Nat.pos_of_ne_zero hsize)))

theorem unmap_run (follows : Follows m s era) (c : ι) (hx : s.handles h = some x) :
    Reaches m (s.unmap h x 0) := by
  unfold MemMachine.unmap
  split
  · rename_i hdata
    exact store_run follows hx (y := { x with data := false, size := 0 })
      (next_unmap (follows.idle c) (follows.mem hx) hdata)
  · exact ⟨_, _, era, .nil _, follows.names, follows.made, follows.idle, follows.sized,
      follows.live⟩

theorem posixDelete_run (follows : Follows m s era) (c : ι) (hx : s.handles h = some x) :
    Reaches m (s.posixDelete h x) := by
  obtain ⟨u, hu⟩ : ∃ u, u = { m with live := m.live.erase (x.handle (era h)) }.goto c
    (.unlink x.name) := ⟨_, rfl⟩
  have hbegin : (Memory.system ι).step m (c, .delete (x.handle (era h))) u :=
    hu ▸ next_delete (follows.idle c) (follows.mem hx)
  have hpoint : u.point c = .unlink x.name := hu ▸ Function.update_self ..
  have hnames : u.linked = s.names := hu ▸ follows.names
  have hmade : u.made = s.made := hu ▸ follows.made
  have hsized : ∀ name obj, u.linked name = some obj → 0 < u.size obj := hu ▸ follows.sized
  have hidle : ∀ d, d ≠ c → u.point d = .idle := by
    intro d hd
    rw [hu]
    exact (Function.update_of_ne hd _ _).trans (follows.idle d)
  have hlive : (u.live : Multiset MemHandle) =
      ∑ h', owned (Function.update s.handles h none h') (era h') := by
    rw [hu, ← follows.live_put hx none]
    exact (zero_add _).symm
  unfold MemMachine.posixDelete
  split
  · rename_i hsome
    obtain ⟨obj, hobj⟩ := Option.isSome_iff_exists.mp hsome
    refine ⟨_, _, era, .cons hbegin
      (.single (next_unlinked hpoint ((congrFun hnames x.name).trans hobj))),
      congrArg (fun names : MemName → Option Nat => Function.update names x.name none) hnames,
      hmade, idle_update hidle, fun name obj hobj => ?_, hlive⟩
    simp only [Memory.goto, Memory.unlink, Function.update_apply] at hobj
    split at hobj
    · cases hobj
    · exact hsized name obj hobj
  · exact ⟨_, _, era, .cons hbegin (.single (next_refused hpoint 2)), hnames, hmade,
      idle_update hidle, hsized, hlive⟩

theorem posixCall_run (follows : Follows m s era) (c : ι) {call : MemCall η} {t : MemMachine η}
    (h : s.posixCall call = some t) : Reaches m t := by
  cases call with
  | create h name size =>
    obtain ⟨⟨free, -, pos⟩, h⟩ := Option.ite_none_right_eq_some.mp h
    cases h
    exact create_run follows c free pos
  | map h =>
    obtain ⟨x, hx, rfl⟩ := Option.map_eq_some_iff.mp h
    exact posixMap_run follows c hx
  | unmap h =>
    obtain ⟨x, hx, rfl⟩ := Option.map_eq_some_iff.mp h
    exact unmap_run follows c hx
  | delete h =>
    obtain ⟨x, hx, rfl⟩ := Option.map_eq_some_iff.mp h
    exact posixDelete_run follows c hx

/-- A run of calls over the POSIX library is one of the system calls of a process `c`. -/
theorem posix_calls_run (c : ι) {calls : List (MemCall η)}
    (h : run MemMachine.posixCall (.fresh η) calls = some s) :
    ∃ m era, (Memory.system ι).Reachable m ∧ Follows m s era := by
  have keeps : ∀ (calls : List (MemCall η)) (m : Memory ι) (era : η → Nat) (u : MemMachine η),
      (Memory.system ι).Reachable m → Follows m u era →
      run MemMachine.posixCall u calls = some s →
      ∃ m era, (Memory.system ι).Reachable m ∧ Follows m s era := by
    intro calls
    induction calls with
    | nil =>
      intro m era u hm follows hrun
      cases hrun
      exact ⟨m, era, hm, follows⟩
    | cons call calls ih =>
      intro m era u hm follows hrun
      rw [run_cons] at hrun
      obtain ⟨v, hcall, hrun⟩ := Option.bind_eq_some_iff.mp hrun
      obtain ⟨labels, m', era', exec, follows'⟩ := posixCall_run follows c hcall
      exact ih m' era' v (exec.reachable hm) follows' hrun
  refine keeps calls ⟨fun _ => none, fun _ => 0, 0, fun _ => .idle, [], fun _ => 0, fun _ => none⟩
    (fun _ => 0) (.fresh η) (.init ⟨fun _ => rfl, fun _ => rfl, rfl, fun _ => rfl⟩) ?_ h
  refine ⟨rfl, rfl, fun _ => rfl, fun name obj hobj => ?_, ?_⟩
  · cases hobj
  · exact (Finset.sum_eq_zero fun _ _ => rfl).symm

/-- What the system calls keep, said of the calls: the handles on one memory have one name,
and the memory that has a name is that of the handles made since it was last unlinked. -/
theorem posix_calls_share {calls : List (MemCall η)}
    (h : run MemMachine.posixCall (.fresh η) calls = some s) :
    ∃ (era : η → Nat) (unlinks : MemName → Nat), ∀ v x, s.handles v = some x →
      (∀ w y, s.handles w = some y → (x.obj = y.obj ↔ x.name = y.name ∧ era v = era w)) ∧
      (s.names x.name = some x.obj ↔ era v = unlinks x.name) := by
  obtain ⟨m, era, hm, follows⟩ := posix_calls_run () h
  have traced := Memory.traced_reachable hm
  refine ⟨era, m.unlinks, fun v x hx => ⟨fun w y hy => ?_, ?_⟩⟩
  · exact traced.share_iff (follows.mem hx) (follows.mem hy)
  · rw [← follows.names]
    exact traced.linked_iff (follows.mem hx)

end Runs

section Both

open MemMachine

variable {η : Type*} [DecidableEq η] [Fintype η]

/-- The two machines have handles of the same names in the same variables, mapped alike. -/
def Alike (left right : MemMachine η) : Prop :=
  ∀ h, (left.handles h).map (fun x => (x.name, x.data)) =
    (right.handles h).map fun y => (y.name, y.data)

/-- What holds while the calls return the same. -/
structure BothSound (left right : MemMachine η) : Prop where
  posix : Sound left
  windows : Sound right
  named : Named right
  alike : Alike left right

variable {left right left' right' : MemMachine η} {h : η}

omit [DecidableEq η] [Fintype η] in
theorem Alike.handle (alike : Alike left right) {x : MemView} (hx : left.handles h = some x) :
    ∃ y, right.handles h = some y ∧ y.name = x.name ∧ y.data = x.data := by
  have hsame := alike h
  rw [hx, Option.map_some] at hsame
  obtain ⟨y, hy, hxy⟩ := Option.map_eq_some_iff.mp hsame.symm
  exact ⟨y, hy, (Prod.mk.inj hxy).1, (Prod.mk.inj hxy).2⟩

omit [DecidableEq η] [Fintype η] in
theorem Alike.symm (alike : Alike left right) : Alike right left := fun h => (alike h).symm

omit [Fintype η] in
theorem Alike.update (alike : Alike left right) {x y : Option MemView}
    (same : x.map (fun x => (x.name, x.data)) = y.map fun y => (y.name, y.data))
    (hleft : left'.handles = Function.update left.handles h x)
    (hright : right'.handles = Function.update right.handles h y) : Alike left' right' := by
  intro h'
  rw [hleft, hright, Function.update_apply, Function.update_apply]
  split
  · exact same
  · exact alike h'

omit [DecidableEq η] [Fintype η] in
/-- The handles share alike if the ones of a name are together on the left too. -/
theorem memoriesAgree_iff (sound : BothSound left right) :
    MemoriesAgree (left, right) ↔ left.answers = right.answers ∧ Joined left := by
  refine and_congr_right fun _ => ⟨fun share => ?_, fun joined h h' => ?_⟩
  · intro h h' x x' hx hx' hsame
    obtain ⟨y, hy, hname, -⟩ := sound.alike.handle hx
    obtain ⟨y', hy', hname', -⟩ := sound.alike.handle hx'
    have hobj := sound.named.joined h h' y y' hy hy' (by rw [hname, hname', hsame])
    obtain ⟨z, z', hz, hz', hshm⟩ := (share h h').mpr ⟨y, y', hy, hy', hobj⟩
    cases hx.symm.trans hz
    cases hx'.symm.trans hz'
    exact hshm
  · constructor
    · rintro ⟨x, x', hx, hx', hobj⟩
      obtain ⟨y, hy, hname, -⟩ := sound.alike.handle hx
      obtain ⟨y', hy', hname', -⟩ := sound.alike.handle hx'
      have hsame := sound.posix.once h h' x x' hx hx' hobj
      exact ⟨y, y', hy, hy', sound.named.joined h h' y y' hy hy' (by rw [hname, hname', hsame])⟩
    · rintro ⟨y, y', hy, hy', hobj⟩
      obtain ⟨x, hx, hname, -⟩ := sound.alike.symm.handle hy
      obtain ⟨x', hx', hname', -⟩ := sound.alike.symm.handle hy'
      have hsame := sound.windows.once h h' y y' hy hy' hobj
      exact ⟨x, x', hx, hx', joined h h' x x' hx hx' (by rw [hname, hname', hsame])⟩

/-- One call of both machines: what it keeps, and when they still agree after it. -/
structure CallSpec (left' right' : MemMachine η) (ok : Prop) : Prop where
  posix : Sound left'
  windows : Sound right'
  named : Named right'
  alike : left'.answers = right'.answers → Alike left' right'
  iff : left'.answers = right'.answers ∧ Joined left' ↔ ok

omit [Fintype η] in
theorem callSpec_create (sound : BothSound left right) (answers : left.answers = right.answers)
    (joined : Joined left) {name : MemName} {size : Nat} (free : left.handles h = none) :
    CallSpec (left.create h name size) (right.create h name size)
      (MemCallAgrees (left, right) (.create h name size)) := by
  have free' : right.handles h = none := by
    have hsame := sound.alike h
    rw [free] at hsame
    exact Option.map_eq_none_iff.mp hsame.symm
  have hjoined : Joined (left.create h name size) ↔ _ :=
    joined_create_iff sound.posix joined free
  refine ⟨sound.posix.create free, sound.windows.create free', sound.named.create,
    fun _ => sound.alike.update (by rfl) create_handles create_handles, ?_⟩
  rw [hjoined]
  refine and_iff_right_iff_imp.mpr fun hon => ?_
  rw [create_answers, create_answers, answers]
  -- A name that has memory has a handle, and both machines have the same handles.
  have hiff : (left.names name).isSome ↔ (right.names name).isSome := by
    constructor
    · intro hsome
      obtain ⟨obj, hobj⟩ := Option.isSome_iff_exists.mp hsome
      obtain ⟨h', x, hx, rfl, -⟩ := sound.posix.linked name obj hobj
      obtain ⟨y, hy, hname, -⟩ := sound.alike.handle hx
      rw [← hname, sound.named h' y hy]
      rfl
    · intro hsome
      obtain ⟨obj, hobj⟩ := Option.isSome_iff_exists.mp hsome
      obtain ⟨h', y, hy, rfl, -⟩ := sound.windows.linked name obj hobj
      obtain ⟨x, hx, hname, -⟩ := sound.alike.symm.handle hy
      rw [hon h' x hx hname]
      rfl
  rw [Bool.eq_iff_iff.mpr hiff]

omit [DecidableEq η] [Fintype η] in
/-- A call that leaves the handles where they are. -/
theorem callSpec_stays (sound : BothSound left right) (joined : Joined left)
    (stays : Stays left left') (stays' : Stays right right') {ok : Prop}
    (alike : left'.answers = right'.answers → Alike left' right')
    (iff : left'.answers = right'.answers ↔ ok) : CallSpec left' right' ok :=
  ⟨sound.posix.stays stays, sound.windows.stays stays', sound.named.stays stays', alike,
    (and_iff_left (joined.stays stays)).trans iff⟩

omit [Fintype η] in
theorem callSpec_map (sound : BothSound left right) (answers : left.answers = right.answers)
    (joined : Joined left) {x y : MemView} (hx : left.handles h = some x)
    (hy : right.handles h = some y) :
    CallSpec (left.posixMap h x) (right.windowsMap h y)
      (MemCallAgrees (left, right) (.map h)) := by
  obtain ⟨y', hy', hname, -⟩ := sound.alike.handle hx
  cases hy.symm.trans hy'
  have hok : MemCallAgrees (left, right) (.map h) ↔ x.size ≠ 0 :=
    ⟨fun hon => hon x hx, fun hsize z hz => by cases hx.symm.trans hz; exact hsize⟩
  rw [hok]
  refine callSpec_stays sound joined (stays_posixMap hx) (stays_windowsMap hy) (fun hsame => ?_) ?_
  all_goals unfold posixMap windowsMap at *
  · split at hsame
    · have hlast := List.append_inj_right' hsame rfl
      exact absurd hlast (by decide)
    · rename_i hsize
      rw [if_neg hsize]
      refine sound.alike.update ?_ rfl rfl
      simp only [Option.map_some, hname]
  · split
    · rename_i hsize
      refine iff_of_false (fun hsame => ?_) (fun hne => hne hsize)
      exact absurd (List.append_inj_right' hsame rfl) (by decide)
    · rename_i hsize
      exact iff_of_true (congrArg (· ++ _) answers) hsize

omit [Fintype η] in
theorem callSpec_unmap (sound : BothSound left right) (answers : left.answers = right.answers)
    (joined : Joined left) {x y : MemView} (hx : left.handles h = some x)
    (hy : right.handles h = some y) :
    CallSpec (left.unmap h x 0) (right.unmap h y y.size)
      (MemCallAgrees (left, right) (.unmap h)) := by
  obtain ⟨y', hy', hname, hdata⟩ := sound.alike.handle hx
  cases hy.symm.trans hy'
  refine callSpec_stays sound joined (stays_unmap hx _) (stays_unmap hy _) (fun _ => ?_)
    (iff_of_true ?_ trivial)
  all_goals unfold MemMachine.unmap
  all_goals rw [hdata]
  all_goals split
  · refine sound.alike.update ?_ rfl rfl
    simp only [Option.map_some, hname]
  · exact sound.alike
  · exact congrArg (· ++ _) answers
  · exact congrArg (· ++ _) answers

theorem callSpec_delete (sound : BothSound left right) (answers : left.answers = right.answers)
    (joined : Joined left) {x y : MemView} (hx : left.handles h = some x)
    (hy : right.handles h = some y) :
    CallSpec (left.posixDelete h x) (right.windowsDelete h y)
      (MemCallAgrees (left, right) (.delete h)) := by
  have hok : MemCallAgrees (left, right) (.delete h) ↔ (left.names x.name).isSome := by
    rw [Option.isSome_iff_ne_none]
    exact ⟨fun hon => hon x hx, fun hname z hz => by cases hx.symm.trans hz; exact hname⟩
  have removes := removes_posixDelete sound.posix hx
  have removes' := removes_windowsDelete sound.windows hy
  have hwindows : (right.windowsDelete h y).answers = right.answers ++ [.code IPC_OK] := by
    unfold windowsDelete
    split <;> rfl
  refine ⟨sound.posix.removes removes, sound.windows.removes removes',
    sound.named.windowsDelete sound.windows hy,
    fun _ => sound.alike.update rfl removes.handles removes'.handles, ?_⟩
  rw [hok, hwindows, and_iff_left (joined.removes removes), posixDelete]
  split
  · rename_i hname
    exact iff_of_true (congrArg (· ++ _) answers) hname
  · rename_i hname
    refine iff_of_false (fun hsame => ?_) hname
    exact absurd (List.append_inj_right' hsame rfl) (by decide)

theorem callSpec {c : MemCall η} (sound : BothSound left right)
    (answers : left.answers = right.answers) (joined : Joined left)
    (hleft : left.posixCall c = some left') (hright : right.windowsCall c = some right') :
    CallSpec left' right' (MemCallAgrees (left, right) c) := by
  cases c with
  | create h name size =>
    obtain ⟨⟨free, -⟩, hleft⟩ := Option.ite_none_right_eq_some.mp hleft
    obtain ⟨-, hright⟩ := Option.ite_none_right_eq_some.mp hright
    cases hleft
    cases hright
    exact callSpec_create sound answers joined free
  | map h =>
    obtain ⟨x, hx, rfl⟩ := Option.map_eq_some_iff.mp hleft
    obtain ⟨y, hy, rfl⟩ := Option.map_eq_some_iff.mp hright
    exact callSpec_map sound answers joined hx hy
  | unmap h =>
    obtain ⟨x, hx, rfl⟩ := Option.map_eq_some_iff.mp hleft
    obtain ⟨y, hy, rfl⟩ := Option.map_eq_some_iff.mp hright
    exact callSpec_unmap sound answers joined hx hy
  | delete h =>
    obtain ⟨x, hx, rfl⟩ := Option.map_eq_some_iff.mp hleft
    obtain ⟨y, hy, rfl⟩ := Option.map_eq_some_iff.mp hright
    exact callSpec_delete sound answers joined hx hy

end Both

section Claims

open MemMachine
open Posix.Memory (nameX)

variable {η : Type*} [DecidableEq η] [Fintype η]

/-- In a run of calls with names that both systems take and sizes of at least 1, in systems
with the memory for them, the POSIX and the Windows library return the same and let the
same handles share memory after every call exactly if each create finds the handles of its
name on the memory that has the name, no handle is mapped after it was unmapped, and each
delete finds the name. -/
theorem memories_agree_iff {t : MemMachine η × MemMachine η} {calls : List (MemCall η)} :
    ((bothMemories η).confine MemoriesAgree).Exec (fresh η, fresh η) calls t ↔
      ((bothMemories η).guard MemCallAgrees).Exec (fresh η, fresh η) calls t := by
  have spec : ∀ s c t, BothSound s.1 s.2 → MemoriesAgree s → (bothMemories η).step s c t →
      CallSpec t.1 t.2 (MemCallAgrees s c) := by
    rintro ⟨left, right⟩ c t sound good step
    obtain ⟨answers, joined⟩ := (memoriesAgree_iff sound).mp good
    obtain ⟨left', hleft, hmap⟩ := Option.bind_eq_some_iff.mp step
    obtain ⟨right', hright, rfl⟩ := Option.map_eq_some_iff.mp hmap
    exact callSpec sound answers joined hleft hright
  refine System.exec_confine_iff_of_good (I := fun s => BothSound s.1 s.2) ?_ ?_ ?_ ?_
  · intro s c t sound good step hgood
    have h := spec s c t sound good step
    exact ⟨h.posix, h.windows, h.named, h.alike hgood.1⟩
  · intro s c t sound good step
    have h := spec s c t sound good step
    rw [← h.iff]
    by_cases hsame : t.1.answers = t.2.answers
    · exact memoriesAgree_iff ⟨h.posix, h.windows, h.named, h.alike hsame⟩
    · exact iff_of_false (fun hgood => hsame hgood.1) fun hgood => hsame hgood.1
  · exact ⟨fresh_sound, fresh_sound, fresh_named, fun h => rfl⟩
  · exact ⟨rfl, fun h h' => Iff.rfl⟩

instance (s : MemMachine η × MemMachine η) : ∀ c, Decidable (MemCallAgrees s c)
  | .create _ name _ =>
    decidable_of_iff (∀ h, (s.1.handles h).all fun x => x.name ≠ name ∨ s.1.names name = some x.obj)
      (forall_congr' fun h => by cases hx : s.1.handles h <;> simp [or_iff_not_imp_left])
  | .map h =>
    decidable_of_iff ((s.1.handles h).all fun x => x.size ≠ 0)
      (by cases hx : s.1.handles h <;> simp [MemCallAgrees, hx])
  | .unmap _ => isTrue trivial
  | .delete h =>
    decidable_of_iff ((s.1.handles h).all fun x => s.1.names x.name ≠ none)
      (by cases hx : s.1.handles h <;> simp [MemCallAgrees, hx])

/-- A program that uses one handle of a name at a time. -/
theorem memories_agree_in_turn : ∃ t : MemMachine Bool × MemMachine Bool,
    ((bothMemories Bool).confine MemoriesAgree).Exec (fresh Bool, fresh Bool)
      [.create true nameX 8, .map true, .unmap true, .delete true, .create false nameX 8] t := by
  have hrun : (run (fun s c => if MemCallAgrees s c then
      (s.1.posixCall c).bind fun left => (s.2.windowsCall c).map fun right => (left, right)
      else none) (fresh Bool, fresh Bool)
      [.create true nameX 8, .map true, .unmap true, .delete true, .create false nameX 8]).isSome =
      true := by
    decide
  obtain ⟨t, ht⟩ := Option.isSome_iff_exists.mp hrun
  exact ⟨t, memories_agree_iff.mpr (exec_guarded_of_run ht)⟩

end Claims

end Gipcy.Ports
