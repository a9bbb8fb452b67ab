import Gipcy.Lib.Clients
import Gipcy.Lib.Transition
import Gipcy.Linux.Types

/-! The shared memory of the System V library, one system call a step. A delete
detaches its handle and removes the segment when it sees nobody attached; the
library keeps one address for each handle, however often it is mapped. -/
namespace Gipcy.SystemV

open Clients Transition
open Linux (EEXIST)

/-- A handle of shared memory: the name, the identifier, and whether `ipc_data` is set. -/
structure ShmHandle (ν : Type*) where
  name : ν
  shm : Int
  data : Bool
deriving DecidableEq

/-- A segment whose key is gone has been marked by `IPC_RMID` and lives until the last
detach. -/
structure Segment where
  key : Option Nat
  nattch : Nat
deriving DecidableEq

/-- The system call that a process is before. -/
inductive ShmPoint (ν : Type*) where
  | idle
  /-- The `open` of the key file, with the size for a create. -/
  | file (name : ν) (size : Option Int)
  | ftok (name : ν) (size : Option Int)
  /-- `shmget` with `IPC_CREAT | IPC_EXCL`. -/
  | get (name : ν) (size : Int) (key : Nat)
  /-- `shmget` without `IPC_CREAT`. -/
  | opens (name : ν) (key : Nat)
  /-- The `unlink` of an allocation that fails. -/
  | discard (name : ν)
  /-- The `shmdt` of a delete. -/
  | detach (name : ν) (id : Int)
  | stat (name : ν) (id : Int)
  | rmid (name : ν) (id : Int)
  /-- The `unlink` of a delete. -/
  | unlink (name : ν)
deriving DecidableEq

/-- The segment that a delete under way has still to remove. -/
def ShmPoint.doomed {ν : Type*} : ShmPoint ν → Option Int
  | .detach _ id | .stat _ id | .rmid _ id => some id
  | _ => none

/-- A call begins, or the system call goes through in the given way. -/
inductive ShmAct (ν : Type*) where
  /-- `IPC_createSharedMemory` and `IPC_createSharedMemoryEx`. -/
  | create (name : ν) (size : Int)
  | opens (name : ν)
  | map (h : ShmHandle ν) (ok : Bool)
  | unmap (h : ShmHandle ν)
  | delete (h : ShmHandle ν)
  /-- The key of the file that `open` has made, if it has made one. -/
  | file (made : Option Nat)
  | sys (ok : Bool)
  /-- The identifier, or -1, and `errno`. -/
  | shmget (id errno : Int)
deriving DecidableEq

/-- The key files, the segments by key and by identifier, what each process is doing,
the handles returned and not given to a delete. `lost` counts the attachments whose
address no handle has any more; only the proofs look at it. -/
structure Segments (ν ι : Type*) where
  file : ν → Option Nat
  ids : Nat → Option Int
  segs : Int → Option Segment
  point : ι → ShmPoint ν
  live : List (ShmHandle ν)
  lost : Int → Nat

namespace Segments

variable {ν ι : Type*}

def setSeg (s : Segments ν ι) (id : Int) (g : Option Segment) : Segments ν ι :=
  { s with segs := Function.update s.segs id g }

/-- `shmat`. -/
def attach (s : Segments ν ι) (id : Int) (g : Segment) : Segments ν ι :=
  s.setSeg id (some { g with nattch := g.nattch + 1 })

/-- `shmdt`: the last one frees a segment that is marked. -/
def detach (s : Segments ν ι) (id : Int) (g : Segment) : Segments ν ι :=
  s.setSeg id (if g.key = none ∧ g.nattch = 1 then none
    else some { g with nattch := g.nattch - 1 })

/-- `IPC_RMID`. -/
def rmid (s : Segments ν ι) (id : Int) (g : Segment) : Segments ν ι :=
  { s.setSeg id (if g.nattch = 0 then none else some { g with key := none }) with
    ids := match g.key with
      | some key => Function.update s.ids key none
      | none => s.ids }

/-- `shmget` with `IPC_CREAT | IPC_EXCL` makes a segment. -/
def make (s : Segments ν ι) (key : Nat) (id : Int) : Segments ν ι :=
  { s.setSeg id (some ⟨some key, 0⟩) with ids := Function.update s.ids key (some id) }

def lose (s : Segments ν ι) (id : Int) (n : Nat) : Segments ν ι :=
  { s with lost := Function.update s.lost id (s.lost id + n) }

/-- `shm_nattch`. -/
def nattch (s : Segments ν ι) (id : Int) : Int := (((s.segs id).map Segment.nattch).getD 0 : Nat)

section Nattch

variable {s : Segments ν ι} {id i : Int} {g : Segment}

theorem nattch_eq (h : s.segs id = some g) : s.nattch id = g.nattch := by
  simp [nattch, h]

theorem nattch_setSeg (o : Option Segment) : (s.setSeg id o).nattch i =
    if i = id then (((o.map Segment.nattch).getD 0 : Nat) : Int) else s.nattch i := by
  by_cases h : i = id
  · subst h
    simp [nattch, setSeg]
  · simp [nattch, setSeg, h]

theorem nattch_attach (h : s.segs id = some g) :
    (s.attach id g).nattch i = s.nattch i + if i = id then 1 else 0 := by
  rw [attach, nattch_setSeg]
  split
  · subst i
    simp [nattch_eq h]
  · simp

theorem nattch_detach (h : s.segs id = some g) (pos : 0 < g.nattch) :
    (s.detach id g).nattch i = s.nattch i - if i = id then 1 else 0 := by
  rw [detach, nattch_setSeg]
  split
  · subst i
    rw [nattch_eq h]
    split
    · rename_i hlast
      simp [hlast.2]
    · simp only [Option.map_some, Option.getD_some]
      omega
  · simp

theorem nattch_rmid (h : s.segs id = some g) : (s.rmid id g).nattch i = s.nattch i := by
  have heq : (s.rmid id g).nattch i =
      (s.setSeg id (if g.nattch = 0 then none else some { g with key := none })).nattch i := rfl
  rw [heq, nattch_setSeg]
  split
  · subst i
    rw [nattch_eq h]
    split
    · rename_i hzero
      simp [hzero]
    · rfl
  · rfl

theorem nattch_make {key : Nat} (h : s.segs id = none) :
    (s.make key id).nattch i = s.nattch i := by
  have heq : (s.make key id).nattch i = (s.setSeg id (some ⟨some key, 0⟩)).nattch i := rfl
  rw [heq, nattch_setSeg]
  split
  · subst i
    simp [nattch, h]
  · rfl

end Nattch

variable [DecidableEq ν] [DecidableEq ι]

def unlinkFile (s : Segments ν ι) (name : ν) (ok : Bool) : Segments ν ι :=
  { s with file := if ok then Function.update s.file name none else s.file }

def goto (s : Segments ν ι) (c : ι) (p : ShmPoint ν) : Segments ν ι :=
  { s with point := Function.update s.point c p }

/-- The call returns a handle. -/
def ret (s : Segments ν ι) (c : ι) (name : ν) (id : Int) : Segments ν ι :=
  { s.goto c .idle with live := ⟨name, id, false⟩ :: s.live }

/-- A handle is written. -/
def store (s : Segments ν ι) (h : ShmHandle ν) (data : Bool) : Segments ν ι :=
  { s with live := { h with data := data } :: s.live.erase h }

def next (s : Segments ν ι) : ι × ShmAct ν → Option (Segments ν ι)
  | (c, act) =>
    match s.point c, act with
    | .idle, .create name size => some (s.goto c (.file name (some size)))
    | .idle, .opens name => some (s.goto c (.file name none))
    | .file name size, .file made =>
      match s.file name, made with
      | none, some key =>
        some ({ s with file := Function.update s.file name (some key) }.goto c (.ftok name size))
      | some _, some _ => none
      -- `create_ipc_file` gives a positive number for an error, and 0 for `EEXIST`.
      | _, none => some (s.goto c (.ftok name size))
    | .ftok name size, .sys ok =>
      match s.file name, ok with
      | some key, true =>
        some (s.goto c (match size with
          | some size => .get name size key
          | none => .opens name key))
      | none, true => none
      | _, false => some (s.goto c (.discard name))
    | .get name size key, .shmget id errno =>
      if id = -1 then
        if errno = EEXIST then
          if s.ids key = none then none else some (s.goto c (.opens name key))
        else some (s.goto c .idle)
      else if 0 ≤ id ∧ 0 < size ∧ s.ids key = none ∧ s.segs id = none then
        some ((s.make key id).ret c name id)
      else none
    | .opens name key, .sys ok =>
      match s.ids key, ok with
      | some id, true => some (s.ret c name id)
      | none, true => none
      -- The object is not freed, and its file stays.
      | _, false => some (s.goto c .idle)
    | .discard name, .sys ok => some ((s.unlinkFile name ok).goto c .idle)
    | .idle, .map h ok =>
      if h ∈ s.live then
        match s.segs h.shm, ok with
        | some g, true =>
          some (((s.attach h.shm g).lose h.shm (if h.data then 1 else 0)).store h true)
        | none, true => none
        | _, false => some s
      else none
    | .idle, .unmap h =>
      if h ∈ s.live then
        if h.data then (s.segs h.shm).map fun g => (s.detach h.shm g).store h false
        else some s
      else none
    | .idle, .delete h =>
      if h ∈ s.live then
        some ({ s with live := s.live.erase h }.goto c
          (if h.data then .detach h.name h.shm else .stat h.name h.shm))
      else none
    | .detach name id, .sys true =>
      (s.segs id).map fun g => (s.detach id g).goto c (.stat name id)
    | .stat name id, .sys ok =>
      match s.segs id, ok with
      | some g, true => some (s.goto c (if g.nattch = 0 then .rmid name id else .idle))
      | none, true => none
      | _, false => some (s.goto c .idle)
    | .rmid name id, .sys ok =>
      match s.segs id, ok with
      | some g, true => some ((s.rmid id g).goto c (.unlink name))
      | none, true => none
      | _, false => some (s.goto c .idle)
    | .unlink name, .sys ok => some ((s.unlinkFile name ok).goto c .idle)
    | _, _ => none

/-- Any number of processes, none in a call yet, before the first segment. -/
def system (ν ι : Type*) [DecidableEq ν] [DecidableEq ι] :
    System (Segments ν ι) (ι × ShmAct ν) :=
  .ofNext (fun s => (∀ key, s.ids key = none) ∧ (∀ id, s.segs id = none) ∧
    (∀ c, s.point c = .idle) ∧ s.live = [] ∧ ∀ id, s.lost id = 0) next

/-- What a process does in a step. -/
inductive Does (s : Segments ν ι) (c : ι) : ShmAct ν → Segments ν ι → Prop where
  | moves {act p file} : (s.point c).doomed = none → p.doomed = none →
      Does s c act ({ s with file := file }.goto c p)
  | made {name size key id errno} : s.point c = .get name size key → s.ids key = none →
      s.segs id = none → Does s c (.shmget id errno) ((s.make key id).ret c name id)
  | opened {name key id} : s.point c = .opens name key → s.ids key = some id →
      Does s c (.sys true) (s.ret c name id)
  | mapped {h g} : s.point c = .idle → h ∈ s.live → s.segs h.shm = some g →
      Does s c (.map h true)
        (((s.attach h.shm g).lose h.shm (if h.data then 1 else 0)).store h true)
  | refused {act} : s.point c = .idle → Does s c act s
  | unmapped {h g} : s.point c = .idle → h ∈ s.live → h.data = true → s.segs h.shm = some g →
      Does s c (.unmap h) ((s.detach h.shm g).store h false)
  | deletes {h} : s.point c = .idle → h ∈ s.live →
      Does s c (.delete h) ({ s with live := s.live.erase h }.goto c
        (if h.data then .detach h.name h.shm else .stat h.name h.shm))
  | detached {name id g} : s.point c = .detach name id → s.segs id = some g →
      Does s c (.sys true) ((s.detach id g).goto c (.stat name id))
  | looked {name id g} : s.point c = .stat name id → s.segs id = some g →
      Does s c (.sys true) (s.goto c (if g.nattch = 0 then .rmid name id else .idle))
  | removed {name id g} : s.point c = .rmid name id → s.segs id = some g →
      Does s c (.sys true) ((s.rmid id g).goto c (.unlink name))
  | fails {name id} : s.point c = .stat name id ∨ s.point c = .rmid name id →
      Does s c (.sys false) (s.goto c .idle)

section Steps

variable {s t : Segments ν ι} {c : ι}

theorem does_file {name : ν} {size : Option Int} {made : Option Nat}
    (hp : s.point c = .file name size) (h : next s (c, .file made) = some t) :
    Does s c (.file made) t := by
  have hnone : (s.point c).doomed = none := by rw [hp]; rfl
  simp only [next, hp] at h
  split at h <;> cases h
  · exact .moves hnone rfl
  · exact .moves hnone rfl

theorem does_ftok {name : ν} {size : Option Int} {ok : Bool} (hp : s.point c = .ftok name size)
    (h : next s (c, .sys ok) = some t) : Does s c (.sys ok) t := by
  have hnone : (s.point c).doomed = none := by rw [hp]; rfl
  simp only [next, hp] at h
  split at h <;> cases h
  · refine .moves hnone ?_
    split <;> rfl
  · exact .moves hnone rfl

theorem does_get {name : ν} {size : Int} {key : Nat} {id errno : Int}
    (hp : s.point c = .get name size key) (h : next s (c, .shmget id errno) = some t) :
    Does s c (.shmget id errno) t := by
  have hnone : (s.point c).doomed = none := by rw [hp]; rfl
  simp only [next, hp] at h
  split at h
  · split at h
    · split at h <;> cases h
      exact .moves hnone rfl
    · cases h
      exact .moves hnone rfl
  · obtain ⟨⟨-, -, hids, hsegs⟩, h⟩ := Option.ite_none_right_eq_some.mp h
    cases h
    exact .made hp hids hsegs

theorem does_map {h : ShmHandle ν} {ok : Bool} (hp : s.point c = .idle)
    (step : next s (c, .map h ok) = some t) : Does s c (.map h ok) t := by
  simp only [next, hp] at step
  obtain ⟨hlive, step⟩ := Option.ite_none_right_eq_some.mp step
  split at step <;> cases step
  · rename_i g hg
    exact .mapped hp hlive hg
  · exact .refused hp

theorem does_unmap {h : ShmHandle ν} (hp : s.point c = .idle)
    (step : next s (c, .unmap h) = some t) : Does s c (.unmap h) t := by
  simp only [next, hp] at step
  obtain ⟨hlive, step⟩ := Option.ite_none_right_eq_some.mp step
  split at step
  · rename_i hdata
    obtain ⟨g, hg, rfl⟩ := Option.map_eq_some_iff.mp step
    exact .unmapped hp hlive hdata hg
  · cases step
    exact .refused hp

theorem next_does {act : ShmAct ν} (h : next s (c, act) = some t) : Does s c act t := by
  have step := h
  dsimp only [next] at h
  split at h
  case h_1 hp => cases h; exact .moves (by rw [hp]; rfl) rfl
  case h_2 hp => cases h; exact .moves (by rw [hp]; rfl) rfl
  case h_3 hp => exact does_file hp step
  case h_4 hp => exact does_ftok hp step
  case h_5 hp => exact does_get hp step
  case h_6 hp =>
    split at h <;> cases h
    · rename_i hids
      exact .opened hp hids
    · exact .moves (by rw [hp]; rfl) rfl
  case h_7 hp => cases h; exact .moves (by rw [hp]; rfl) rfl
  case h_8 hp => exact does_map hp step
  case h_9 hp => exact does_unmap hp step
  case h_10 hp =>
    obtain ⟨hlive, h⟩ := Option.ite_none_right_eq_some.mp h
    cases h
    exact .deletes hp hlive
  case h_11 hp =>
    obtain ⟨g, hg, rfl⟩ := Option.map_eq_some_iff.mp h
    exact .detached hp hg
  case h_12 hp =>
    split at h <;> cases h
    · rename_i g hg
      exact .looked hp hg
    · exact .fails (.inl hp)
  case h_13 hp =>
    split at h <;> cases h
    · rename_i g hg
      exact .removed hp hg
    · exact .fails (.inr hp)
  case h_14 hp => cases h; exact .moves (by rw [hp]; rfl) rfl
  case h_15 => cases h

end Steps

/-! The count of the attachments of a segment. -/

/-- The handle holds an attachment of the segment. -/
def mappedTo (id : Int) (h : ShmHandle ν) : Bool := h.data && h.shm = id

/-- The process is about to give up an attachment of the segment. -/
def detaching (id : Int) : ShmPoint ν → Int
  | .detach _ i => if i = id then 1 else 0
  | _ => 0

/-- The attachments that the processes can still end, and those that they cannot. -/
def attachments [Fintype ι] (s : Segments ν ι) (id : Int) : Int :=
  s.live.countP (mappedTo id) + tally (detaching id) s.point + s.lost id

section Counts

variable [Fintype ι] {s : Segments ν ι} {id i : Int} {c : ι} {name : ν}

omit [DecidableEq ν] in
theorem attachments_goto (p : ShmPoint ν) :
    (s.goto c p).attachments i = s.attachments i - detaching i (s.point c) + detaching i p := by
  unfold attachments goto
  dsimp only
  rw [tally_update]
  omega

omit [DecidableEq ν] in
theorem attachments_ret :
    (s.ret c name id).attachments i = s.attachments i - detaching i (s.point c) := by
  have hgoto := attachments_goto (s := s) (c := c) (i := i) .idle
  have hcons : (s.ret c name id).attachments i = (s.goto c .idle).attachments i := by
    simp [attachments, ret, goto, mappedTo]
  rw [hcons, hgoto]
  simp [detaching]

omit [DecidableEq ι] in
theorem attachments_erase {h : ShmHandle ν} (hlive : h ∈ s.live) :
    ({ s with live := s.live.erase h } : Segments ν ι).attachments i =
      s.attachments i - if mappedTo i h then 1 else 0 := by
  have hperm := (List.perm_cons_erase hlive).countP_eq (mappedTo i)
  rw [List.countP_cons] at hperm
  unfold attachments
  dsimp only
  rw [hperm]
  split <;> push_cast <;> omega

omit [DecidableEq ι] in
theorem attachments_store {h : ShmHandle ν} (hlive : h ∈ s.live) (data : Bool) :
    (s.store h data).attachments i =
      s.attachments i - (if mappedTo i h then 1 else 0) +
        if mappedTo i { h with data := data } then 1 else 0 := by
  rw [← attachments_erase hlive]
  unfold attachments store
  dsimp only
  rw [List.countP_cons]
  split <;> push_cast <;> omega

omit [DecidableEq ν] [DecidableEq ι] in
theorem attachments_lose (n : Nat) :
    (s.lose id n).attachments i = s.attachments i + if i = id then n else 0 := by
  unfold attachments lose
  dsimp only
  by_cases h : i = id
  · subst h
    simp
    omega
  · simp [h]

end Counts

end Segments

end Gipcy.SystemV
