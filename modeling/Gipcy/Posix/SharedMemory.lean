import Gipcy.Lib.CString
import Gipcy.Lib.Transition
import Gipcy.Linux.Types
import Mathlib.Logic.Function.Basic

/-! The shared memory of the POSIX library, one system call a step. A delete takes the
name from the memory, whoever else uses it, and no call closes a descriptor, so that
memory without a name stays. -/
namespace Gipcy.Posix

open CString (Str)
open Transition
open Linux (EEXIST)

/-- A name without a slash. `shm_open` drops the slashes in front of a name, so that with
them two names are one memory, and refuses a name with one inside. -/
structure MemName where
  text : Str
  plain : 0 ∉ text ∧ '/'.toUInt8 ∉ text
deriving DecidableEq

/-- A handle of shared memory: the name, what the descriptor is of, `ipc_size`, and whether
`ipc_data` is set. `era` is how often the name had been unlinked when `shm_open` found the
memory; only the proofs look at it. -/
structure MemHandle where
  name : MemName
  shm : Nat
  size : Int
  data : Bool
  era : Nat
deriving DecidableEq

/-- The system call that a process is before. -/
inductive MemPoint where
  | idle
  /-- `shm_open` with `O_CREAT | O_EXCL`. -/
  | create (name : MemName) (size : Int)
  /-- `shm_open` of memory that there is already. -/
  | opens (name : MemName) (size : Int)
  | fstat (name : MemName) (size : Int) (shm era : Nat)
  | ftruncate (name : MemName) (size : Int) (shm era : Nat)
  /-- The `shm_unlink` of a delete. -/
  | unlink (name : MemName)
deriving DecidableEq

namespace MemPoint

/-- The name and the size that a create was called with. -/
def request : MemPoint → Option (MemName × Int)
  | .create name size | .opens name size | .fstat name size _ _ | .ftruncate name size _ _ =>
    some (name, size)
  | _ => none

/-- What a create has opened, with its name and era. -/
def opened : MemPoint → Option (Nat × MemName × Nat)
  | .fstat name _ shm era | .ftruncate name _ shm era => some (shm, name, era)
  | _ => none

end MemPoint

/-- A call begins, or the system call goes through; with an `errno` it fails. -/
inductive MemAct where
  /-- `IPC_createSharedMemory` and `IPC_createSharedMemoryEx`. -/
  | create (name : MemName) (size : Int)
  | map (h : MemHandle) (ok : Bool)
  | unmap (h : MemHandle)
  | delete (h : MemHandle)
  | sys (failed : Option Int)
deriving DecidableEq

/-- The memory by name, the sizes of all that was made, what each process is doing, and the
handles returned and not given to a delete. `unlinks` and `origin` are the history: how
often a name was unlinked, and the name and the era that memory was made for. -/
structure Memory (ι : Type*) where
  linked : MemName → Option Nat
  size : Nat → Int
  made : Nat
  point : ι → MemPoint
  live : List MemHandle
  unlinks : MemName → Nat
  origin : Nat → Option (MemName × Nat)

namespace Memory

variable {ι : Type*} [DecidableEq ι]

def goto (s : Memory ι) (c : ι) (p : MemPoint) : Memory ι :=
  { s with point := Function.update s.point c p }

/-- The call returns a handle. -/
def ret (s : Memory ι) (c : ι) (h : MemHandle) : Memory ι :=
  { s.goto c .idle with live := h :: s.live }

/-- A handle is written. -/
def store (s : Memory ι) (h h' : MemHandle) : Memory ι :=
  { s with live := h' :: s.live.erase h }

/-- `shm_open` makes memory of the size 0. -/
def make (s : Memory ι) (name : MemName) : Memory ι :=
  { s with
    linked := Function.update s.linked name (some s.made)
    size := Function.update s.size s.made 0
    made := s.made + 1
    origin := Function.update s.origin s.made (some (name, s.unlinks name)) }

def resize (s : Memory ι) (shm : Nat) (size : Int) : Memory ι :=
  { s with size := Function.update s.size shm size }

def unlink (s : Memory ι) (name : MemName) : Memory ι :=
  { s with
    linked := Function.update s.linked name none
    unlinks := Function.update s.unlinks name (s.unlinks name + 1) }

def next (s : Memory ι) : ι × MemAct → Option (Memory ι)
  | (c, act) =>
    match s.point c, act with
    | .idle, .create name size => some (s.goto c (.create name size))
    | .create name size, .sys failed =>
      match s.linked name, failed with
      | none, none =>
        some ((s.make name).goto c (.ftruncate name size s.made (s.unlinks name)))
      | some _, none => none
      | _, some errno => some (s.goto c (if errno = EEXIST then .opens name size else .idle))
    | .opens name size, .sys failed =>
      match s.linked name, failed with
      | some shm, none => some (s.goto c (.fstat name size shm (s.unlinks name)))
      | none, none => none
      | _, some _ => some (s.goto c .idle)
    | .fstat name size shm era, .sys failed =>
      if failed.isSome then some (s.goto c .idle)
      else if 0 < s.size shm then some (s.ret c ⟨name, shm, size, false, era⟩)
      else some (s.goto c (.ftruncate name size shm era))
    | .ftruncate name size shm era, .sys failed =>
      if failed.isSome then some (s.goto c .idle)
      else if 0 ≤ size then some ((s.resize shm size).ret c ⟨name, shm, size, false, era⟩)
      else none
    | .idle, .map h ok =>
      if h ∈ s.live then
        -- The length is a `size_t`: there is no room for a negative one.
        if ok then if 0 < h.size then some (s.store h { h with data := true }) else none
        else some s
      else none
    | .idle, .unmap h =>
      if h ∈ s.live then
        some (if h.data then s.store h { h with data := false, size := 0 } else s)
      else none
    | .idle, .delete h =>
      if h ∈ s.live then
        some ({ s with live := s.live.erase h }.goto c (.unlink h.name))
      else none
    | .unlink name, .sys failed =>
      match s.linked name, failed with
      | some _, none => some ((s.unlink name).goto c .idle)
      | none, none => none
      | _, some _ => some (s.goto c .idle)
    | _, _ => none

/-- Any number of processes, none in a call yet, before the first memory. -/
def system (ι : Type*) [DecidableEq ι] : System (Memory ι) (ι × MemAct) :=
  .ofNext (fun s => (∀ name, s.linked name = none) ∧ (∀ c, s.point c = .idle) ∧ s.live = [] ∧
    ∀ shm, s.origin shm = none) next

/-- What a process does in a step. -/
inductive Does (s : Memory ι) (c : ι) : MemAct → Memory ι → Prop where
  | moves {act p} : (∀ o, p.opened = some o → (s.point c).opened = some o) →
      (∀ r, p.request = some r → (s.point c).request = some r ∨ act = .create r.1 r.2) →
      Does s c act (s.goto c p)
  | stays {act} : Does s c act s
  | made {act name size} : s.point c = .create name size → s.linked name = none →
      Does s c act ((s.make name).goto c (.ftruncate name size s.made (s.unlinks name)))
  | opened {act name size shm} : s.point c = .opens name size → s.linked name = some shm →
      Does s c act (s.goto c (.fstat name size shm (s.unlinks name)))
  | found {act name size shm era} : s.point c = .fstat name size shm era → 0 < s.size shm →
      Does s c act (s.ret c ⟨name, shm, size, false, era⟩)
  | sized {act name size shm era} : s.point c = .ftruncate name size shm era →
      Does s c act ((s.resize shm size).ret c ⟨name, shm, size, false, era⟩)
  | mapped {act h} : h ∈ s.live → 0 < h.size → Does s c act (s.store h { h with data := true })
  | unmapped {act h} : h ∈ s.live →
      Does s c act (s.store h { h with data := false, size := 0 })
  | deletes {act h} : h ∈ s.live → Does s c act
      ({ s with live := s.live.erase h }.goto c (.unlink h.name))
  | unlinked {act name} : Does s c act ((s.unlink name).goto c .idle)

section Steps

variable {s t : Memory ι} {c : ι}

theorem does_idle {act : MemAct} : Does s c act (s.goto c .idle) :=
  .moves (fun _ h => by cases h) fun _ h => by cases h

theorem next_does {act : MemAct} (h : next s (c, act) = some t) : Does s c act t := by
  dsimp only [next] at h
  split at h
  case h_1 hp =>
    cases h
    exact .moves (fun _ h => by cases h) fun r hr => .inr (by cases hr; rfl)
  case h_2 hp =>
    split at h <;> cases h
    · exact .made hp ‹_›
    · split
      · exact .moves (fun _ h => by cases h) fun r hr => .inl (by rw [hp]; exact hr)
      · exact does_idle
  case h_3 hp =>
    split at h <;> cases h
    · exact .opened hp ‹_›
    · exact does_idle
  case h_4 hp =>
    split at h
    · cases h
      exact does_idle
    · split at h <;> cases h
      · exact .found hp ‹_›
      · exact .moves (fun o ho => by rw [hp]; exact ho) fun r hr => .inl (by rw [hp]; exact hr)
  case h_5 hp =>
    split at h
    · cases h
      exact does_idle
    · split at h <;> cases h
      exact .sized hp
  case h_6 hp =>
    obtain ⟨hlive, h⟩ := Option.ite_none_right_eq_some.mp h
    split at h
    · obtain ⟨hpos, h⟩ := Option.ite_none_right_eq_some.mp h
      cases h
      exact .mapped hlive hpos
    · cases h
      exact .stays
  case h_7 hp =>
    obtain ⟨hlive, h⟩ := Option.ite_none_right_eq_some.mp h
    cases h
    split
    · exact .unmapped hlive
    · exact .stays
  case h_8 hp =>
    obtain ⟨hlive, h⟩ := Option.ite_none_right_eq_some.mp h
    cases h
    exact .deletes hlive
  case h_9 hp =>
    split at h <;> cases h
    · exact .unlinked
    · exact does_idle
  case h_10 => cases h

end Steps

/-- What was made for which name and era. Of a name the memory of the last era is the one
that has the name, and handles and calls know what they have opened. -/
structure Traced (s : Memory ι) : Prop where
  fresh : ∀ shm, s.made ≤ shm → s.origin shm = none
  once : ∀ shm shm' o, s.origin shm = some o → s.origin shm' = some o → shm = shm'
  linked : ∀ name shm, s.linked name = some shm → s.origin shm = some (name, s.unlinks name)
  past : ∀ shm name era, s.origin shm = some (name, era) →
    era ≤ s.unlinks name ∧ (era = s.unlinks name → s.linked name = some shm)
  handle : ∀ h ∈ s.live, s.origin h.shm = some (h.name, h.era)
  opened : ∀ c shm o, (s.point c).opened = some (shm, o) → s.origin shm = some o

namespace Traced

variable {s t : Memory ι} {c : ι}

theorem goto (h : Traced s) {p : MemPoint}
    (same : ∀ o, p.opened = some o → s.origin o.1 = some o.2) : Traced (s.goto c p) where
  fresh := h.fresh
  once := h.once
  linked := h.linked
  past := h.past
  handle := h.handle
  opened := by
    intro d shm o hd
    by_cases hdc : d = c
    · subst hdc
      simp only [Memory.goto, Function.update_self] at hd
      exact same (shm, o) hd
    · simp only [Memory.goto, Function.update_of_ne hdc] at hd
      exact h.opened d shm o hd

theorem idle (h : Traced s) : Traced (s.goto c .idle) := h.goto fun _ ho => by cases ho

omit [DecidableEq ι] in
theorem lives (h : Traced s) {live : List MemHandle}
    (known : ∀ x ∈ live, s.origin x.shm = some (x.name, x.era)) :
    Traced { s with live := live } where
  fresh := h.fresh
  once := h.once
  linked := h.linked
  past := h.past
  handle := known
  opened := h.opened

theorem ret (h : Traced s) {x : MemHandle} (hx : s.origin x.shm = some (x.name, x.era)) :
    Traced (s.ret c x) :=
  h.idle.lives (List.forall_mem_cons.mpr ⟨hx, h.handle⟩)

omit [DecidableEq ι] in
theorem store (h : Traced s) {x y : MemHandle} (hx : x ∈ s.live) (shm : y.shm = x.shm)
    (name : y.name = x.name) (era : y.era = x.era) : Traced (s.store x y) := by
  refine h.lives (List.forall_mem_cons.mpr ⟨?_, fun z hz => h.handle z (List.mem_of_mem_erase hz)⟩)
  rw [shm, name, era]
  exact h.handle x hx

omit [DecidableEq ι] in
theorem resize (h : Traced s) (shm : Nat) (size : Int) : Traced (s.resize shm size) :=
  ⟨h.fresh, h.once, h.linked, h.past, h.handle, h.opened⟩

omit [DecidableEq ι] in
theorem make (h : Traced s) {name : MemName} (new : s.linked name = none) :
    Traced (s.make name) := by
  have hnew : s.origin s.made = none := h.fresh _ (Nat.le_refl _)
  have hold : ∀ {shm o}, s.origin shm = some o → (s.make name).origin shm = some o := by
    intro shm o ho
    have hne : shm ≠ s.made := by
      rintro rfl
      rw [hnew] at ho
      cases ho
    exact (Function.update_of_ne hne _ _).trans ho
  have hcases : ∀ {shm o}, (s.make name).origin shm = some o →
      shm = s.made ∧ o = (name, s.unlinks name) ∨ s.origin shm = some o := by
    intro shm o ho
    simp only [Memory.make, Function.update_apply] at ho
    split at ho
    · exact .inl ⟨‹_›, (Option.some.inj ho).symm⟩
    · exact .inr ho
  -- The name had no memory of this era.
  have hera : ∀ shm, s.origin shm ≠ some (name, s.unlinks name) := by
    intro shm ho
    have hlinked := (h.past shm name _ ho).2 rfl
    rw [new] at hlinked
    cases hlinked
  constructor
  · intro shm hshm
    simp only [Memory.make] at hshm ⊢
    rw [Function.update_of_ne (by omega)]
    exact h.fresh shm (by omega)
  · intro shm shm' o ho ho'
    rcases hcases ho with ⟨hshm, rfl⟩ | ho <;> rcases hcases ho' with ⟨hshm', hsame⟩ | ho'
    · rw [hshm, hshm']
    · exact absurd ho' (hera shm')
    · exact absurd (hsame ▸ ho) (hera shm)
    · exact h.once shm shm' o ho ho'
  · intro name' shm hlinked
    by_cases hname : name' = name
    · subst hname
      simp only [Memory.make, Function.update_self, Option.some.injEq] at hlinked
      subst hlinked
      exact Function.update_self ..
    · simp only [Memory.make, Function.update_of_ne hname] at hlinked
      exact hold (h.linked name' shm hlinked)
  · intro shm name' era ho
    rcases hcases ho with ⟨rfl, hsame⟩ | hsome
    · cases hsame
      exact ⟨Nat.le_refl _, fun _ => Function.update_self ..⟩
    · obtain ⟨hle, hlinked⟩ := h.past shm name' era hsome
      refine ⟨hle, fun he => ?_⟩
      have hname : name' ≠ name := by
        rintro rfl
        exact hera shm (he ▸ hsome)
      exact (Function.update_of_ne hname _ _).trans (hlinked he)
  · exact fun x hx => hold (h.handle x hx)
  · exact fun c shm o ho => hold (h.opened c shm o ho)

omit [DecidableEq ι] in
theorem unlink (h : Traced s) (name : MemName) : Traced (s.unlink name) where
  fresh := h.fresh
  once := h.once
  linked := by
    intro name' shm hlinked
    by_cases hname : name' = name
    · subst hname
      simp [Memory.unlink] at hlinked
    · simp only [Memory.unlink, Function.update_of_ne hname] at hlinked ⊢
      exact h.linked name' shm hlinked
  past := by
    intro shm name' era ho
    obtain ⟨hle, hlinked⟩ := h.past shm name' era ho
    by_cases hname : name' = name
    · subst hname
      simp only [Memory.unlink, Function.update_self]
      exact ⟨by omega, fun he => by omega⟩
    · simp only [Memory.unlink, Function.update_of_ne hname]
      exact ⟨hle, hlinked⟩
  handle := h.handle
  opened := h.opened

theorem does (h : Traced s) {act : MemAct} (d : Does s c act t) : Traced t := by
  cases d with
  | moves hopened _ => exact h.goto fun o ho => h.opened c o.1 o.2 (hopened o ho)
  | stays => exact h
  | made hp hnone =>
    refine (h.make hnone).goto ?_
    rintro o ⟨⟩
    exact Function.update_self ..
  | opened hp hlinked =>
    refine h.goto ?_
    rintro o ⟨⟩
    exact h.linked _ _ hlinked
  | found hp _ => exact h.ret (h.opened c _ _ (by rw [hp]; rfl))
  | sized hp => exact (h.resize _ _).ret (h.opened c _ _ (by rw [hp]; rfl))
  | mapped hlive _ => exact h.store hlive rfl rfl rfl
  | unmapped hlive => exact h.store hlive rfl rfl rfl
  | deletes hlive =>
    refine (h.lives fun x hx => h.handle x (List.mem_of_mem_erase hx)).goto ?_
    exact fun o ho => by cases ho
  | unlinked => exact (h.unlink _).idle

omit [DecidableEq ι] in
/-- The memory of a handle tells its name and its era. -/
theorem share_iff (h : Traced s) {x y : MemHandle} (hx : x ∈ s.live) (hy : y ∈ s.live) :
    x.shm = y.shm ↔ x.name = y.name ∧ x.era = y.era := by
  have hx := h.handle x hx
  have hy := h.handle y hy
  refine ⟨fun hshm => ?_, fun ⟨hname, hera⟩ => ?_⟩
  · rw [← hshm, hx] at hy
    exact Prod.mk.inj (Option.some.inj hy)
  · rw [← hname, ← hera] at hy
    exact h.once _ _ _ hx hy

omit [DecidableEq ι] in
/-- The memory that has the name of a handle is its own if the name was not unlinked. -/
theorem linked_iff (h : Traced s) {x : MemHandle} (hx : x ∈ s.live) :
    s.linked x.name = some x.shm ↔ x.era = s.unlinks x.name := by
  refine ⟨fun hlinked => ?_, (h.past _ _ _ (h.handle x hx)).2⟩
  have hname := h.linked _ _ hlinked
  rw [h.handle x hx] at hname
  exact congrArg Prod.snd (Option.some.inj hname)

end Traced

theorem traced_reachable {s : Memory ι} (h : (system ι).Reachable s) : Traced s := by
  apply h.invariant (I := Traced)
  · rintro s ⟨hlinked, hpoint, hlive, horigin⟩
    refine ⟨fun shm _ => horigin shm, fun shm shm' o ho => ?_, fun name shm hname => ?_,
      fun shm name era ho => ?_, fun x hx => ?_, fun c shm o ho => ?_⟩
    · rw [horigin] at ho
      cases ho
    · rw [hlinked] at hname
      cases hname
    · rw [horigin] at ho
      cases ho
    · rw [hlive] at hx
      cases hx
    · rw [hpoint] at ho
      cases ho
  · rintro s ⟨c, act⟩ t _ inv step
    exact inv.does (next_does step)

/-- All processes ask for one size of a name. -/
def Agreed (size : MemName → Int) (_ : Memory ι) : ι × MemAct → Prop
  | (_, .create name n) => n = size name ∧ 0 < n
  | _ => True

instance (size : MemName → Int) (s : Memory ι) : ∀ a, Decidable (Agreed size s a)
  | (_, .create name n) => inferInstanceAs (Decidable (n = size name ∧ 0 < n))
  | (_, .map ..) | (_, .unmap _) | (_, .delete _) | (_, .sys _) => isTrue trivial

/-- Memory has no size yet or the one of its name, which it has for good when a handle
is there. -/
structure Fits (size : MemName → Int) (s : Memory ι) : Prop where
  pos : ∀ c name n, (s.point c).request = some (name, n) → n = size name ∧ 0 < n
  sized : ∀ shm name era, s.origin shm = some (name, era) →
    s.size shm = 0 ∨ s.size shm = size name
  handle : ∀ h ∈ s.live, 0 < size h.name ∧ s.size h.shm = size h.name ∧
    (h.size = size h.name ∨ h.data = false ∧ h.size = 0)

namespace Fits

variable {s t : Memory ι} {c : ι} {size : MemName → Int}

theorem goto (h : Fits size s) {p : MemPoint}
    (pos : ∀ name n, p.request = some (name, n) → n = size name ∧ 0 < n) :
    Fits size (s.goto c p) where
  pos := by
    intro d name n hd
    by_cases hdc : d = c
    · subst hdc
      simp only [Memory.goto, Function.update_self] at hd
      exact pos name n hd
    · simp only [Memory.goto, Function.update_of_ne hdc] at hd
      exact h.pos d name n hd
  sized := h.sized
  handle := h.handle

theorem idle (h : Fits size s) : Fits size (s.goto c .idle) := h.goto fun _ _ ho => by cases ho

omit [DecidableEq ι] in
theorem lives (h : Fits size s) {live : List MemHandle}
    (fit : ∀ x ∈ live, 0 < size x.name ∧ s.size x.shm = size x.name ∧
      (x.size = size x.name ∨ x.data = false ∧ x.size = 0)) : Fits size { s with live := live } :=
  ⟨h.pos, h.sized, fit⟩

theorem ret (h : Fits size s) {x : MemHandle} (pos : 0 < size x.name)
    (shm : s.size x.shm = size x.name) (own : x.size = size x.name) : Fits size (s.ret c x) :=
  h.idle.lives (List.forall_mem_cons.mpr ⟨⟨pos, shm, .inl own⟩, h.handle⟩)

omit [DecidableEq ι] in
theorem store (h : Fits size s) {x y : MemHandle} (hx : x ∈ s.live) (shm : y.shm = x.shm)
    (name : y.name = x.name) (own : y.size = size y.name ∨ y.data = false ∧ y.size = 0) :
    Fits size (s.store x y) := by
  obtain ⟨hpos, hsize, -⟩ := h.handle x hx
  refine h.lives (List.forall_mem_cons.mpr ⟨⟨?_, ?_, own⟩, fun z hz =>
    h.handle z (List.mem_of_mem_erase hz)⟩)
  · rw [name]
    exact hpos
  · rw [shm, name]
    exact hsize

omit [DecidableEq ι] in
/-- The memory of a handle is not the one that is made. -/
theorem make (h : Fits size s) (traced : Traced s) (name : MemName) : Fits size (s.make name) where
  pos := h.pos
  sized := by
    intro shm name' era ho
    by_cases hshm : shm = s.made
    · subst hshm
      exact .inl (Function.update_self ..)
    · simp only [Memory.make, Function.update_of_ne hshm] at ho ⊢
      exact h.sized shm name' era ho
  handle := by
    intro x hx
    have hshm : x.shm ≠ s.made := by
      intro he
      have horigin := traced.handle x hx
      rw [he, traced.fresh _ (Nat.le_refl _)] at horigin
      cases horigin
    simp only [Memory.make, Function.update_of_ne hshm]
    exact h.handle x hx

omit [DecidableEq ι] in
/-- Whoever comes to size the memory of a name gives it the same size. -/
theorem resize (h : Fits size s) (traced : Traced s) {shm era : Nat} {name : MemName}
    (origin : s.origin shm = some (name, era)) : Fits size (s.resize shm (size name)) where
  pos := h.pos
  sized := by
    intro shm' name' era' ho
    by_cases hshm : shm' = shm
    · subst hshm
      cases origin.symm.trans ho
      exact .inr (Function.update_self ..)
    · simp only [Memory.resize, Function.update_of_ne hshm]
      exact h.sized shm' name' era' ho
  handle := by
    intro x hx
    obtain ⟨hpos, hsize, hown⟩ := h.handle x hx
    refine ⟨hpos, ?_, hown⟩
    by_cases hshm : x.shm = shm
    · have hx := traced.handle x hx
      rw [hshm, origin] at hx
      cases hx
      rw [hshm]
      exact Function.update_self ..
    · simp only [Memory.resize, Function.update_of_ne hshm]
      exact hsize

theorem does (h : Fits size s) (traced : Traced s) {act : MemAct}
    (agreed : Agreed size s (c, act)) (d : Does s c act t) : Fits size t := by
  cases d with
  | moves _ hrequest =>
    refine h.goto fun name n hp => ?_
    rcases hrequest _ hp with hsame | rfl
    · exact h.pos c name n hsame
    · exact agreed
  | stays => exact h
  | made hp hnone =>
    refine (h.make traced _).goto ?_
    rintro name n ⟨⟩
    exact h.pos c _ _ (by rw [hp]; rfl)
  | opened hp hlinked =>
    refine h.goto ?_
    rintro name n ⟨⟩
    exact h.pos c _ _ (by rw [hp]; rfl)
  | @found name n shm era hp hpos =>
    obtain ⟨rfl, hn⟩ := h.pos c name n (by rw [hp]; rfl)
    have horigin := traced.opened c shm _ (by rw [hp]; rfl)
    have hsize := (h.sized shm name era horigin).resolve_left (by omega)
    exact h.ret hn hsize rfl
  | @sized name n shm era hp =>
    obtain ⟨rfl, hn⟩ := h.pos c name n (by rw [hp]; rfl)
    have horigin := traced.opened c shm _ (by rw [hp]; rfl)
    exact (h.resize traced horigin).ret hn (Function.update_self ..) rfl
  | mapped hlive hpos =>
    refine h.store hlive rfl rfl (.inl ?_)
    exact (h.handle _ hlive).2.2.resolve_right fun hzero => by omega
  | unmapped hlive => exact h.store hlive rfl rfl (.inr ⟨rfl, rfl⟩)
  | deletes hlive =>
    refine (h.lives fun x hx => h.handle x (List.mem_of_mem_erase hx)).goto ?_
    exact fun _ _ ho => by cases ho
  | @unlinked name =>
    have hunlink : Fits size (s.unlink name) := ⟨h.pos, h.sized, h.handle⟩
    exact hunlink.idle

/-- The size of the memory of a handle stays. -/
theorem keeps (h : Fits size s) (traced : Traced s) {x : MemHandle} (hx : x ∈ s.live)
    {act : MemAct} (d : Does s c act t) : t.size x.shm = s.size x.shm := by
  have horigin := traced.handle x hx
  cases d with
  | made hp hnone =>
    refine Function.update_of_ne (fun he => ?_) _ _
    rw [he, traced.fresh _ (Nat.le_refl _)] at horigin
    cases horigin
  | @sized name n shm era hp =>
    by_cases hshm : x.shm = shm
    · obtain ⟨rfl, -⟩ := h.pos c name n (by rw [hp]; rfl)
      have hopened := traced.opened c shm _ (by rw [hp]; rfl)
      rw [← hshm, horigin] at hopened
      cases hopened
      rw [(h.handle x hx).2.1]
      subst hshm
      exact Function.update_self ..
    · exact Function.update_of_ne hshm _ _
  | moves | stays | opened | found | mapped | unmapped | deletes | unlinked => rfl

end Fits

theorem fits_reachable {size : MemName → Int} {s : Memory ι}
    (h : ((system ι).guard (Agreed size)).Reachable s) : Traced s ∧ Fits size s := by
  apply h.invariant (I := fun s => Traced s ∧ Fits size s)
  · rintro s first
    refine ⟨traced_reachable (.init first), ?_⟩
    obtain ⟨-, hpoint, hlive, horigin⟩ := first
    refine ⟨fun c name n hc => ?_, fun shm name era ho => ?_, fun x hx => ?_⟩
    · rw [hpoint] at hc
      cases hc
    · rw [horigin] at ho
      cases ho
    · rw [hlive] at hx
      cases hx
  · rintro s ⟨c, act⟩ t _ ⟨traced, fits⟩ ⟨agreed, step⟩
    have d := next_does step
    exact ⟨traced.does d, fits.does traced agreed d⟩

section Claims

/-- In every run by any number of processes, whatever fails, two handles are on the same
memory exactly if they have one name and it was not unlinked between the calls that
opened it; they are on the memory that a create would find now if it was not unlinked
since; and of each name and each time between two unlinks there is one memory at most. -/
theorem handles_share_iff {s : Memory ι} (h : (system ι).Reachable s) :
    (∀ x ∈ s.live, ∀ y ∈ s.live, x.shm = y.shm ↔ x.name = y.name ∧ x.era = y.era) ∧
    (∀ x ∈ s.live, s.linked x.name = some x.shm ↔ x.era = s.unlinks x.name) ∧
    ∀ shm shm' o, s.origin shm = some o → s.origin shm' = some o → shm = shm' := by
  have inv := traced_reachable h
  exact ⟨fun x hx y hy => inv.share_iff hx hy, fun x hx => inv.linked_iff hx, inv.once⟩

/-- The name `x`. -/
def nameX : MemName := ⟨[120], by decide⟩

/-- The first process deletes the memory that the second has opened and makes another. -/
theorem handles_share_deleted : ∃ s, (system Bool).Reachable s ∧
    (∀ x ∈ s.live, x.name = nameX) ∧ ∃ x ∈ s.live, ∃ y ∈ s.live, x.shm ≠ y.shm := by
  refine exists_reachable_of_run
    ⟨fun _ => none, fun _ => 0, 0, fun _ => .idle, [], fun _ => 0, fun _ => none⟩
    [(false, .create nameX 8), (false, .sys none), (false, .sys none), (true, .create nameX 8),
      (true, .sys (some EEXIST)), (true, .sys none), (true, .sys none),
      (false, .delete ⟨nameX, 0, 8, false, 0⟩), (false, .sys none), (false, .create nameX 8),
      (false, .sys none), (false, .sys none)]
    (fun s => decide (s.live = [⟨nameX, 1, 8, false, 1⟩, ⟨nameX, 0, 8, false, 0⟩]))
    ⟨fun _ => rfl, fun _ => rfl, rfl, fun _ => rfl⟩ (by decide) fun s hs hp => ?_
  have hlive := of_decide_eq_true hp
  refine ⟨by simp [hlive], ⟨nameX, 1, 8, false, 1⟩, by simp [hlive], ⟨nameX, 0, 8, false, 0⟩,
    by simp [hlive], fun hshm => ?_⟩
  have hsame := ((handles_share_iff hs).1 _ (by simp [hlive]) _ (by simp [hlive])).mp hshm
  exact absurd hsame.2 (by decide)

/-- In every run in which the creates of a name ask for one size of at least 1, the memory
of every handle has that size for as long as there is the handle, whoever comes to size
it: no step resizes it, and what a handle has mapped ends where its memory ends. -/
theorem mappings_fit {size : MemName → Int} {s : Memory ι}
    (h : ((system ι).guard (Agreed size)).Reachable s) :
    ∀ x ∈ s.live, 0 < size x.name ∧ s.size x.shm = size x.name ∧
      (x.data = true → x.size = s.size x.shm) ∧
      ∀ a t, next s a = some t → t.size x.shm = s.size x.shm := by
  obtain ⟨traced, fits⟩ := fits_reachable h
  intro x hx
  obtain ⟨hpos, hsize, hown⟩ := fits.handle x hx
  refine ⟨hpos, hsize, fun hdata => ?_, ?_⟩
  · rcases hown with hown | ⟨hnone, -⟩
    · exact hown.trans hsize.symm
    · rw [hdata] at hnone
      cases hnone
  · rintro ⟨c, act⟩ t step
    exact fits.keeps traced hx (next_does step)

/-- The second process finds the memory of the first without a size. -/
theorem mappings_fit_raced : ∃ s : Memory Bool,
    ((system Bool).guard (Agreed fun _ => 8)).Reachable s ∧ s.live.length = 2 ∧
    ∀ x ∈ s.live, x.size = s.size x.shm := by
  refine exists_guarded_of_run
    ⟨fun _ => none, fun _ => 0, 0, fun _ => .idle, [], fun _ => 0, fun _ => none⟩
    [(false, .create nameX 8), (false, .sys none), (true, .create nameX 8),
      (true, .sys (some EEXIST)), (true, .sys none), (true, .sys none), (true, .sys none),
      (true, .map ⟨nameX, 0, 8, false, 0⟩ true), (false, .sys none),
      (false, .map ⟨nameX, 0, 8, false, 0⟩ true)]
    (fun s => decide (s.live.length = 2 ∧ ∀ x ∈ s.live, x.data = true))
    ⟨fun _ => rfl, fun _ => rfl, rfl, fun _ => rfl⟩ (by decide) fun s hs hp => ?_
  obtain ⟨hlength, hdata⟩ := of_decide_eq_true hp
  exact ⟨hlength, fun x hx => (mappings_fit hs x hx).2.2.1 (hdata x hx)⟩

end Claims

end Memory

end Gipcy.Posix
