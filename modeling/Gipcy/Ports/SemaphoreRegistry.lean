import Mathlib.Data.List.Find
import Gipcy.Linux.Requests
import Gipcy.Linux.Device
import Gipcy.Qnx.Semaphores

/-! The semaphore registries of the two drivers, side by side under the same
requests. -/
namespace Gipcy.Ports

open PosixSemaphore Transition CountingSemaphore
open Linux (CStr Ptr)

/-- The counters of an entry are 32 bits wide: two `atomic_t` and the
`unsigned int` of the semaphore. -/
def narrow (e : Linux.Entry) : Linux.Entry :=
  { e with
    ownerCount := e.ownerCount.bmod 4294967296
    lockCount := e.lockCount.bmod 4294967296
    sema := e.sema % 4294967296 }

def narrowAll (drv : Linux.Driver) : Linux.Driver := { drv with mem := fun p => narrow (drv.mem p) }

/-- A Linux handle, and the QNX handle that was made with it. -/
abbrev Handles := Ptr × Ptr

/-- The request goes to both drivers. A lock has the timeout 0; `fresh` is what
the two allocators would return, `clock` what the QNX function reads. -/
inductive SemRequest where
  | create (param : Linux.IpcCreate) (fresh : Ptr × Ptr)
  | lock (handles : Handles) (lockerid : Int32) (clock : Qnx.Clock)
  | unlock (handles : Handles) (lockerid : Int32)
  | close (handles : Handles)

/-- What the two drivers made of the latest request. -/
inductive Answers where
  | none
  | created (handles : Handles)
  | locked (linuxTook qnxTook : Bool)
  | error (linux qnx : Int)
  /-- The end of the QNX function is undefined, or it waits for ever. -/
  | silent
deriving DecidableEq

/-- The two drivers, with the handles of the entries that there are. -/
structure Drivers where
  linux : Linux.Driver
  qnx : Qnx.Driver
  made : List Handles
  answers : Answers

/-- A wait without time takes a unit or ends. -/
def linuxLock (drv : Linux.Driver) (handle : Ptr) (lockerid : Int32) : Option Linux.Outcome :=
  (Linux.ipcSemLock drv drv ⟨handle, 0, lockerid⟩ .acquired).or
    (Linux.ipcSemLock drv drv ⟨handle, 0, lockerid⟩ .timedOut)

/-- The function has returned, after its timed wait if it is in one. -/
def finish (errno : Int) : Qnx.Result Int → Option (Qnx.Driver × Int)
  | .done drv value => some (drv, value)
  | .waits drv (.object k _ true) => some (drv, Qnx.lockFailed k errno)
  | _ => none

def finishCreate : Qnx.Result Ptr → Option (Qnx.Driver × Ptr)
  | .done drv value => some (drv, value)
  | _ => none

/-- The handle of a listed entry. -/
def Live (drv : Linux.Driver) (handles : Handles) : Prop :=
  Linux.containerOf handles.1 ∈ drv.mList .sem

instance (drv : Linux.Driver) (handles : Handles) : Decidable (Live drv handles) :=
  inferInstanceAs (Decidable (_ ∈ _))

namespace Drivers

def silent (s : Drivers) : Drivers := { s with answers := .silent }

/-- The first create of an entry matches its handles. -/
def create (lim : Limits) (s : Drivers) (param : Linux.IpcCreate) (fresh : Ptr × Ptr) : Drivers :=
  let linux := Linux.ipcSemCreate s.linux param (some fresh.1)
  match finishCreate
    (Qnx.ipcSemCreate lim s.qnx ⟨param.name, param.value, param.flag⟩ (some fresh.2)) with
  | some qnx =>
    let handles := (linux.2, qnx.2)
    { linux := narrowAll linux.1
      qnx := qnx.1
      made := if Live s.linux handles then s.made else s.made ++ [handles]
      answers := .created handles }
  | none => s.silent

def lock (lim : Limits) (errno : Int) (s : Drivers) (handles : Handles) (lockerid : Int32)
    (clock : Qnx.Clock) : Drivers :=
  match linuxLock s.linux handles.1 lockerid,
    finish errno (Qnx.ipcSemLock lim s.qnx ⟨handles.2, 0⟩ clock) with
  | some linux, some qnx =>
    let p := Linux.containerOf handles.1
    { s with
      linux := narrowAll linux.after
      qnx := qnx.1
      answers := .locked (decide ((linux.after.mem p).sema = (s.linux.mem p).sema - 1))
        (decide (semWait (s.qnx.mem handles.2).sema = .took (qnx.1.mem handles.2).sema)) }
  | _, _ => s.silent

def unlock (lim : Limits) (errno : Int) (s : Drivers) (handles : Handles) (lockerid : Int32) :
    Drivers :=
  let linux := Linux.ipcSemUnlock s.linux ⟨handles.1, lockerid⟩
  match finish errno (Qnx.ipcSemUnlock lim s.qnx ⟨handles.2⟩) with
  | some qnx => { s with
      linux := narrowAll linux.1
      qnx := qnx.1
      answers := .error linux.2 qnx.2 }
  | none => s.silent

def close (lim : Limits) (errno : Int) (s : Drivers) (handles : Handles) : Drivers :=
  let linux := Linux.ipcSemClose s.linux ⟨handles.1⟩
  match finish errno (Qnx.ipcSemClose lim s.qnx ⟨handles.2⟩) with
  | some qnx =>
    { linux := narrowAll linux.1
      qnx := qnx.1
      made := s.made.filter fun handles => Live linux.1 handles
      answers := .error linux.2 qnx.2 }
  | none => s.silent

/-- Requests come one after another, with a value that is not negative and with
handles of entries that there are. -/
def next (lim : Limits) (errno : Int) (s : Drivers) : SemRequest → Option Drivers
  | .create param fresh =>
    if 0 ≤ param.value ∧ s.linux.Free fresh.1 ∧ s.qnx.Free fresh.2 then
      some (s.create lim param fresh)
    else none
  | .lock handles lockerid clock =>
    if handles ∈ s.made then some (s.lock lim errno handles lockerid clock) else none
  | .unlock handles lockerid =>
    if handles ∈ s.made then some (s.unlock lim errno handles lockerid) else none
  | .close handles => if handles ∈ s.made then some (s.close lim errno handles) else none

/-- The runs of two new drivers. -/
def system (lim : Limits) (errno : Int) : System Drivers SemRequest :=
  .ofNext (fun s => ∃ mem mem', s =
    ⟨Linux.ipcProbe mem, Qnx.createInstance lim mem', [], .none⟩) (next lim errno)

end Drivers

/-! What it is to be in step. -/

/-- Counters of 32 bits, with and without a sign. -/
def SameCount (linux : Int) (qnx : UInt32) : Prop := (qnx.toNat : Int) = linux % 4294967296

structure SameSem (e : Linux.Entry) (q : Qnx.Entry) : Prop where
  name : q.name = e.name
  ownerCount : SameCount e.ownerCount q.ownerCount
  sema : ∃ n : Nat, q.sema = some n ∧ e.sema = n
  lockCount : SameCount e.lockCount q.lockCount

/-- Handles of entries at the same place of the two lists. -/
def Correspond (s : Drivers) (handles : Handles) : Prop :=
  handles ∈ ((s.linux.mList .sem).map Linux.userHandle).zip (s.qnx.mList .sem)

def Agree (s : Drivers) : Answers → Prop
  | .none => True
  | .created handles => Correspond s handles
  | .locked linuxTook qnxTook => linuxTook = qnxTook
  | .error linux qnx => linux = qnx
  | .silent => False

structure InStep (s : Drivers) : Prop where
  entries : List.Forall₂ (fun p q => SameSem (s.linux.mem p) (s.qnx.mem q))
    (s.linux.mList .sem) (s.qnx.mList .sem)
  answers : Agree s s.answers

/-- A new semaphore has a value that `sem_init` accepts, and no unlock meets a
semaphore that `sem_post` leaves alone or whose Linux count starts again at 0. -/
def Within (lim : Limits) (s : Drivers) : SemRequest → Prop
  | .create param _ =>
    Linux.findName s.linux .sem param.name = none → param.value.toInt ≤ lim.semValueMax
  | .unlock handles _ =>
    (s.linux.mem (Linux.containerOf handles.1)).sema < min lim.semValueMax 4294967295
  | _ => True

/-- Two entries that were made together. -/
structure Matched (x : Ptr × Ptr) (e : Linux.Entry) (q : Qnx.Entry) : Prop where
  same : SameSem e q
  narrow : narrow e = e
  linuxNotNull : x.1 ≠ 0
  linuxId : e.id = Linux.Kind.sem.id
  qnxNotNull : x.2 ≠ 0
  qnxId : q.idOf .sem = Linux.Kind.sem.id
  qnxHandle : q.handle = x.2

/-- The registries list the entries that were made together, in that order. -/
structure Paired (s : Drivers) (ps : List (Ptr × Ptr)) : Prop where
  linux : s.linux.mList .sem = ps.map Prod.fst
  qnx : s.qnx.mList .sem = ps.map Prod.snd
  made : s.made = ps.map fun x => (Linux.userHandle x.1, x.2)
  linuxNodup : (ps.map Prod.fst).Nodup
  qnxNodup : (ps.map Prod.snd).Nodup
  matched : ∀ x ∈ ps, Matched x (s.linux.mem x.1) (s.qnx.mem x.2)
  unlocked : Qnx.Open s.qnx

section Narrow

theorem narrow_narrow (e : Linux.Entry) : narrow (narrow e) = narrow e := by
  simp [narrow]

theorem sameCount_bmod {n : Int} {m : UInt32} :
    SameCount (n.bmod 4294967296) m ↔ SameCount n m := by
  unfold SameCount
  rw [show (n.bmod 4294967296) % 4294967296 = n % 4294967296 from Int.bmod_emod]

theorem sameCount_zero : SameCount 0 0 := rfl

theorem sameCount_one : SameCount 1 1 := rfl

theorem SameCount.add_one {n : Int} {m : UInt32} (h : SameCount n m) :
    SameCount (n + 1) (m + 1) := by
  unfold SameCount at *
  rw [UInt32.toNat_add]
  simp
  omega

theorem SameCount.sub_one {n : Int} {m : UInt32} (h : SameCount n m) :
    SameCount (n - 1) (m - 1) := by
  unfold SameCount at *
  rw [UInt32.toNat_sub]
  simp
  omega

/-- Both close functions see the last owner in the same requests. -/
theorem SameCount.eq_one_iff {n : Int} {m : UInt32} (h : SameCount n m)
    (hn : n.bmod 4294967296 = n) : n = 1 ↔ m = 1 := by
  unfold SameCount at h
  rw [← UInt32.toNat_inj]
  have := Int.bmod_def n 4294967296
  simp
  omega

end Narrow

namespace Paired

variable {s : Drivers} {ps : List (Ptr × Ptr)} {x y : Ptr × Ptr}

theorem linux_mem (h : Paired s ps) (hx : x ∈ ps) : x.1 ∈ s.linux.mList .sem := by
  rw [h.linux]
  exact List.mem_map_of_mem hx

theorem qnx_mem (h : Paired s ps) (hx : x ∈ ps) : x.2 ∈ s.qnx.mList .sem := by
  rw [h.qnx]
  exact List.mem_map_of_mem hx

theorem eq_of_linux (h : Paired s ps) (hx : x ∈ ps) (hy : y ∈ ps) (heq : x.1 = y.1) : x = y :=
  List.inj_on_of_nodup_map h.linuxNodup hx hy heq

theorem eq_of_qnx (h : Paired s ps) (hx : x ∈ ps) (hy : y ∈ ps) (heq : x.2 = y.2) : x = y :=
  List.inj_on_of_nodup_map h.qnxNodup hx hy heq

/-- The two searches stop at the same place. -/
theorem find (h : Paired s ps) (name : CStr 128) : ∃ found : Option (Ptr × Ptr),
    Linux.findName s.linux .sem name = found.map Prod.fst ∧
    Qnx.findName s.qnx .sem name = found.map Prod.snd ∧ ∀ x, found = some x → x ∈ ps := by
  refine ⟨ps.find? fun x => decide ((s.linux.mem x.1).name = name), ?_, ?_, fun x hx =>
    List.mem_of_find?_eq_some hx⟩
  · rw [Linux.findName, h.linux, List.find?_map]
    rfl
  · rw [Qnx.findName, h.qnx, List.find?_map]
    congr 1
    apply List.find?_congr
    intro x hx
    simp only [Function.comp_apply, (h.matched x hx).same.name]

/-- The handles that a client may use. -/
theorem mem_made (h : Paired s ps) {handles : Handles} (hmade : handles ∈ s.made) :
    ∃ x ∈ ps, handles = (Linux.userHandle x.1, x.2) := by
  rw [h.made] at hmade
  obtain ⟨x, hx, rfl⟩ := List.mem_map.mp hmade
  exact ⟨x, hx, rfl⟩

theorem correspond (h : Paired s ps) (hx : x ∈ ps) :
    Correspond s (Linux.userHandle x.1, x.2) := by
  rw [Correspond, h.linux, h.qnx, List.map_map, List.zip_map']
  exact List.mem_map.mpr ⟨x, hx, rfl⟩

theorem entries (h : Paired s ps) :
    List.Forall₂ (fun p q => SameSem (s.linux.mem p) (s.qnx.mem q))
      (s.linux.mList .sem) (s.qnx.mList .sem) := by
  rw [h.linux, h.qnx, List.forall₂_map_left_iff, List.forall₂_map_right_iff,
    List.forall₂_same]
  exact fun x hx => (h.matched x hx).same

/-- Both drivers write to the entries of a pair. -/
theorem write (h : Paired s ps) (hx : x ∈ ps) {e : Linux.Entry} {q : Qnx.Entry} {sem : Sem}
    (hup : Up sem) (matched : Matched x (narrow e) q) (answers : Answers) :
    Paired ⟨narrowAll (s.linux.write x.1 e), (s.qnx.write x.2 q).setLock .sem sem, s.made,
      answers⟩ ps where
  linux := h.linux
  qnx := h.qnx
  made := h.made
  linuxNodup := h.linuxNodup
  qnxNodup := h.qnxNodup
  matched := by
    intro y hy
    by_cases hyx : y = x
    · subst hyx
      simpa [narrowAll] using matched
    · have hne₁ : y.1 ≠ x.1 := fun he => hyx (h.eq_of_linux hy hx he)
      have hne₂ : y.2 ≠ x.2 := fun he => hyx (h.eq_of_qnx hy hx he)
      have hy := h.matched y hy
      simpa [narrowAll, s.linux.write_mem_ne e hne₁, s.qnx.write_mem_ne q hne₂, hy.narrow] using hy
  unlocked := (h.unlocked.of_lock_eq (s.qnx.write_lock x.2 q)).setLock hup

/-- Both drivers list a new entry. -/
theorem insert (h : Paired s ps) {fresh : Ptr × Ptr} (free : s.linux.Free fresh.1)
    (free' : s.qnx.Free fresh.2) {e : Linux.Entry} {q : Qnx.Entry} {sem : Sem} (hup : Up sem)
    (matched : Matched fresh (narrow e) q) (answers : Answers) :
    Paired ⟨narrowAll ((s.linux.write fresh.1 e).setList .sem (s.linux.mList .sem ++ [fresh.1])),
      ((s.qnx.write fresh.2 q).setList .sem (s.qnx.mList .sem ++ [fresh.2])).setLock .sem sem,
      s.made ++ [(Linux.userHandle fresh.1, fresh.2)], answers⟩ (ps ++ [fresh]) where
  linux := by simp [narrowAll, h.linux]
  qnx := by simp [h.qnx]
  made := by simp [h.made]
  linuxNodup := by
    rw [List.map_append, ← h.linux]
    exact List.nodup_append.mpr ⟨h.linux ▸ h.linuxNodup, List.nodup_singleton _, fun p hp r hr he =>
      free.2 .sem (List.mem_singleton.mp hr ▸ he ▸ hp)⟩
  qnxNodup := by
    rw [List.map_append, ← h.qnx]
    exact List.nodup_append.mpr ⟨h.qnx ▸ h.qnxNodup, List.nodup_singleton _, fun p hp r hr he =>
      free'.2 .sem (List.mem_singleton.mp hr ▸ he ▸ hp)⟩
  matched := by
    intro y hy
    rcases List.mem_append.mp hy with hy | hy
    · have hne₁ : y.1 ≠ fresh.1 := fun he => free.2 .sem (he ▸ h.linux_mem hy)
      have hne₂ : y.2 ≠ fresh.2 := fun he => free'.2 .sem (he ▸ h.qnx_mem hy)
      have hy := h.matched y hy
      simpa [narrowAll, s.linux.write_mem_ne e hne₁, s.qnx.write_mem_ne q hne₂, hy.narrow] using hy
    · cases List.mem_singleton.mp hy
      simpa [narrowAll] using matched
  unlocked := (h.unlocked.of_lock_eq rfl).setLock hup

/-- The list of the first or of the second parts without those of `x`. -/
theorem erase_map {f : Ptr × Ptr → Ptr} (nodup : (ps.map f).Nodup)
    (inj : ∀ y ∈ ps, f y = f x → y = x) :
    (ps.map f).erase (f x) = (ps.filter fun y => y ≠ x).map f := by
  rw [nodup.erase_eq_filter, List.filter_map]
  congr 1
  apply List.filter_congr
  intro y hy
  have hiff : f y = f x ↔ y = x := ⟨inj y hy, fun he => he ▸ rfl⟩
  simp [bne, beq_eq_decide, hiff]

/-- Both drivers take the entries of a pair from their lists. -/
theorem erase (h : Paired s ps) (hx : x ∈ ps) (e : Linux.Entry) (q : Qnx.Entry) {sem : Sem}
    (hup : Up sem) (answers : Answers) :
    let linux := (s.linux.write x.1 e).setList .sem ((s.linux.mList .sem).erase x.1)
    Paired ⟨narrowAll linux,
      ((s.qnx.write x.2 q).setList .sem ((s.qnx.mList .sem).erase x.2)).setLock .sem sem,
      s.made.filter fun handles => Live linux handles, answers⟩
      (ps.filter fun y => y ≠ x) := by
  intro linux
  have hfirst := erase_map h.linuxNodup fun y hy => h.eq_of_linux hy hx
  have hsecond := erase_map h.qnxNodup fun y hy => h.eq_of_qnx hy hx
  have hlist : linux.mList .sem = (ps.filter fun y => y ≠ x).map Prod.fst := by
    rw [← hfirst, ← h.linux]
    exact Linux.Driver.setList_mList_self _ _ _
  constructor
  · exact hlist
  · rw [← hsecond, ← h.qnx]
    simp
  · -- A pair stays exactly if its Linux entry does.
    show s.made.filter _ = _
    rw [h.made, List.filter_map]
    congr 1
    apply List.filter_congr
    intro y hy
    have hiff : Live linux (Linux.userHandle y.1, y.2) ↔ y ≠ x := by
      rw [Live, Linux.containerOf_userHandle, hlist, List.mem_map]
      constructor
      · rintro ⟨z, hz, hzy⟩
        obtain ⟨hz, hzx⟩ := List.mem_filter.mp hz
        cases h.eq_of_linux hz hy hzy
        exact of_decide_eq_true hzx
      · exact fun hyx => ⟨y, List.mem_filter.mpr ⟨hy, decide_eq_true hyx⟩, rfl⟩
    simp [hiff]
  · rw [← hfirst]
    exact h.linuxNodup.erase _
  · rw [← hsecond]
    exact h.qnxNodup.erase _
  · intro y hy
    obtain ⟨hy, hyx⟩ := List.mem_filter.mp hy
    have hyx : y ≠ x := of_decide_eq_true hyx
    have hne₁ : y.1 ≠ x.1 := fun he => hyx (h.eq_of_linux hy hx he)
    have hne₂ : y.2 ≠ x.2 := fun he => hyx (h.eq_of_qnx hy hx he)
    have hy := h.matched y hy
    simpa [linux, narrowAll, s.linux.write_mem_ne e hne₁, s.qnx.write_mem_ne q hne₂, hy.narrow]
      using hy
  · exact (h.unlocked.of_lock_eq rfl).setLock hup

end Paired

/-! What both drivers do on one request. -/

theorem finish_ends (errno : Int) {k : Linux.Kind} {after : Qnx.Driver} {error : Int}
    {r : Qnx.Result Int} (h : Qnx.Ends k r after error) :
    ∃ sem, Up sem ∧ finish errno r = some (after.setLock k sem, error) := by
  obtain ⟨sem, hup, rfl⟩ := h
  exact ⟨sem, hup, rfl⟩

theorem finishCreate_ends {k : Linux.Kind} {after : Qnx.Driver} {handle : Ptr}
    {r : Qnx.Result Ptr} (h : Qnx.Ends k r after handle) :
    ∃ sem, Up sem ∧ finishCreate r = some (after.setLock k sem, handle) := by
  obtain ⟨sem, hup, rfl⟩ := h
  exact ⟨sem, hup, rfl⟩

section Requests

variable (lim : Limits) (errno : Int) {s : Drivers} {ps : List (Ptr × Ptr)} {x : Ptr × Ptr}
  {param : Linux.IpcCreate} (fresh : Ptr × Ptr)

theorem Matched.linuxExists {drv : Linux.Driver} {q : Qnx.Entry} (h : Matched x (drv.mem x.1) q) :
    Linux.handleExists .sem drv (Linux.userHandle x.1) = true := by
  simp [Linux.handleExists, Linux.userHandle_ne_zero, h.linuxNotNull, h.linuxId]

theorem Matched.qnxExists {e : Linux.Entry} {drv : Qnx.Driver} (h : Matched x e (drv.mem x.2)) :
    Qnx.handleExists .sem drv x.2 :=
  ⟨h.qnxNotNull, h.qnxId⟩

/-- A close whose handle is accepted, whatever the owner counts are. -/
theorem registryClose_eq {drv : Linux.Driver} {k : Linux.Kind} {p : Ptr} (notNull : p ≠ 0)
    (id : (drv.mem p).id = k.id) :
    Linux.registryClose k drv ⟨Linux.userHandle p⟩ =
      let after := Linux.closeLoop p (drv.mList k) drv.mem (-Linux.EINVAL)
      (({ drv with mem := after.1 } : Linux.Driver).setList k after.2.1, after.2.2) := by
  simp [Linux.registryClose, Linux.userHandle_ne_zero, notNull, id]

theorem create_found (h : Paired s ps) (hx : x ∈ ps)
    (hlinux : Linux.findName s.linux .sem param.name = some x.1)
    (hqnx : Qnx.findName s.qnx .sem param.name = some x.2) :
    ∃ sem, Up sem ∧ s.create lim param fresh =
      ⟨narrowAll (Linux.countOwner s.linux x.1), (Qnx.countOwner s.qnx x.2).setLock .sem sem,
        s.made, .created (Linux.userHandle x.1, x.2)⟩ := by
  obtain ⟨sem, hup, heq⟩ := finishCreate_ends
    (Qnx.ipcSemCreate_found lim (some fresh.2) ⟨param.name, param.value, param.flag⟩ h.unlocked
      hqnx)
  have hmade : Linux.ipcSemCreate s.linux param (some fresh.1) =
      (Linux.countOwner s.linux x.1, Linux.userHandle x.1) :=
    Linux.registryCreate_found (some fresh.1) hlinux
  have hlive : Live s.linux (Linux.userHandle x.1, x.2) := by
    rw [Live, Linux.containerOf_userHandle]
    exact h.linux_mem hx
  refine ⟨sem, hup, ?_⟩
  simp only [Drivers.create, hmade, heq, hlive, if_true, (h.matched x hx).qnxHandle]

theorem create_new (h : Paired s ps) (free : s.linux.Free fresh.1)
    (hlinux : Linux.findName s.linux .sem param.name = none)
    (hqnx : Qnx.findName s.qnx .sem param.name = none) :
    ∃ sem, Up sem ∧ s.create lim param fresh =
      ⟨narrowAll (Linux.insertNew s.linux .sem param fresh.1),
        (Qnx.insertSem lim s.qnx ⟨param.name, param.value, param.flag⟩ fresh.2).setLock .sem sem,
        s.made ++ [(Linux.userHandle fresh.1, fresh.2)],
        .created (Linux.userHandle fresh.1, fresh.2)⟩ := by
  obtain ⟨sem, hup, heq⟩ := finishCreate_ends
    (Qnx.ipcSemCreate_new lim fresh.2 ⟨param.name, param.value, param.flag⟩ h.unlocked hqnx)
  have hmade : Linux.ipcSemCreate s.linux param (some fresh.1) =
      (Linux.insertNew s.linux .sem param fresh.1, Linux.userHandle fresh.1) :=
    Linux.registryCreate_new fresh.1 hlinux
  have hnot : ¬ Live s.linux (Linux.userHandle fresh.1, fresh.2) := by
    rw [Live, Linux.containerOf_userHandle]
    exact free.2 .sem
  refine ⟨sem, hup, ?_⟩
  simp only [Drivers.create, hmade, heq, hnot, if_false]

/-- There is a unit in both drivers. -/
theorem lock_took (h : Paired s ps) (hx : x ∈ ps) {n : Nat}
    (hsema : (s.linux.mem x.1).sema = n + 1) (lockerid : Int32) (clock : Qnx.Clock) :
    ∃ sem, Up sem ∧ s.lock lim errno (Linux.userHandle x.1, x.2) lockerid clock =
      ⟨narrowAll (s.linux.write x.1 { s.linux.mem x.1 with
          sema := n, lockCount := (s.linux.mem x.1).lockCount + 1 }),
        (s.qnx.write x.2 { s.qnx.mem x.2 with
          sema := some n, lockCount := (s.qnx.mem x.2).lockCount + 1 }).setLock .sem sem,
        s.made, .locked true true⟩ := by
  have hm := h.matched x hx
  obtain ⟨m, hqsema, hm'⟩ := hm.same.sema
  have hmn : m = n + 1 := by omega
  subst hmn
  obtain ⟨sem, hup, heq⟩ := finish_ends errno
    (Qnx.objectLock_took lim (Qnx.lockFailed .sem) h.unlocked hm.qnxExists hqsema
      clock.takes_zero)
  have hlock : linuxLock s.linux (Linux.userHandle x.1) lockerid = some ⟨s.linux,
      s.linux.write x.1 { s.linux.mem x.1 with
        sema := n, lockCount := (s.linux.mem x.1).lockCount + 1 }, 0⟩ := by
    have hpos : 0 < (n : Int) + 1 := by omega
    simp [linuxLock, Linux.ipcSemLock, hm.linuxExists, Linux.Entry.down, hsema, hpos,
      Linux.Entry.incLock]
  refine ⟨sem, hup, ?_⟩
  simp [Drivers.lock, Qnx.ipcSemLock, hlock, heq, hsema, hqsema, semWait]

/-- There is none in either. -/
theorem lock_ended (h : Paired s ps) (hx : x ∈ ps) (hsema : (s.linux.mem x.1).sema = 0)
    (lockerid : Int32) (clock : Qnx.Clock) :
    ∃ sem, Up sem ∧ s.lock lim errno (Linux.userHandle x.1, x.2) lockerid clock =
      ⟨narrowAll s.linux, s.qnx.setLock .sem sem, s.made, .locked false false⟩ := by
  have hm := h.matched x hx
  obtain ⟨m, hqsema, hm'⟩ := hm.same.sema
  have hmn : m = 0 := by omega
  subst hmn
  obtain ⟨sem, hup, heq⟩ := Qnx.objectLock_waits lim (Qnx.lockFailed .sem) h.unlocked
    hm.qnxExists hqsema clock.takes_zero
  have hlock : linuxLock s.linux (Linux.userHandle x.1) lockerid =
      some ⟨s.linux, s.linux, -Linux.ETIME⟩ := by
    have hself : ({ s.linux.mem x.1 with sema := 0 } : Linux.Entry) = s.linux.mem x.1 := by
      rw [← hsema]
    have hwrite : s.linux.write x.1 { s.linux.mem x.1 with sema := 0 } = s.linux := by
      rw [hself, Linux.Driver.write_self]
    simp [linuxLock, Linux.ipcSemLock, hm.linuxExists, Linux.Entry.down, hsema, hwrite]
  refine ⟨sem, hup, ?_⟩
  simp [Drivers.lock, Qnx.ipcSemLock, hlock, heq, hsema, hqsema, semWait, finish]

theorem unlock_ends (h : Paired s ps) (hx : x ∈ ps) (lockerid : Int32) :
    ∃ sem, Up sem ∧ s.unlock lim errno (Linux.userHandle x.1, x.2) lockerid =
      ⟨narrowAll (s.linux.write x.1 (s.linux.mem x.1).up.decLock),
        (s.qnx.write x.2 { s.qnx.mem x.2 with
          sema := semPost lim (s.qnx.mem x.2).sema
          lockCount := (s.qnx.mem x.2).lockCount - 1 }).setLock .sem sem,
        s.made, .error 0 0⟩ := by
  have hm := h.matched x hx
  obtain ⟨sem, hup, heq⟩ := finish_ends errno
    (Qnx.objectUnlock_ends lim h.unlocked hm.qnxExists)
  refine ⟨sem, hup, ?_⟩
  simp [Drivers.unlock, Linux.ipcSemUnlock, Qnx.ipcSemUnlock, hm.linuxExists, heq]

theorem close_last (h : Paired s ps) (hx : x ∈ ps) (last : (s.linux.mem x.1).ownerCount = 1) :
    let linux := (s.linux.write x.1 { s.linux.mem x.1 with ownerCount := 0 }).setList .sem
      ((s.linux.mList .sem).erase x.1)
    ∃ sem, Up sem ∧ s.close lim errno (Linux.userHandle x.1, x.2) =
      ⟨narrowAll linux,
        ((s.qnx.write x.2 { s.qnx.mem x.2 with ownerCount := 0, sema := none }).setList .sem
          ((s.qnx.mList .sem).erase x.2)).setLock .sem sem,
        s.made.filter fun handles => Live linux handles, .error 0 0⟩ := by
  intro linux
  have hm := h.matched x hx
  have hcount := hm.same.ownerCount.eq_one_iff (congrArg Linux.Entry.ownerCount hm.narrow)
  obtain ⟨sem, hup, heq⟩ := finish_ends errno (Qnx.ipcSemClose_last lim h.unlocked
    (h.qnx ▸ h.qnxNodup) (h.qnx_mem hx) hm.qnxExists (hcount.mp last))
  have hclose : Linux.ipcSemClose s.linux ⟨Linux.userHandle x.1⟩ = (linux, 0) := by
    rw [Linux.ipcSemClose, registryClose_eq hm.linuxNotNull hm.linuxId,
      Linux.closeLoop_last _ (h.linux ▸ h.linuxNodup) (h.linux_mem hx) last]
    rfl
  refine ⟨sem, hup, ?_⟩
  simp only [Drivers.close, hclose, heq]

theorem close_busy (h : Paired s ps) (hx : x ∈ ps) (more : (s.linux.mem x.1).ownerCount ≠ 1) :
    ∃ sem, Up sem ∧ s.close lim errno (Linux.userHandle x.1, x.2) =
      ⟨narrowAll (s.linux.write x.1
          { s.linux.mem x.1 with ownerCount := (s.linux.mem x.1).ownerCount - 1 }),
        (s.qnx.write x.2
          { s.qnx.mem x.2 with ownerCount := (s.qnx.mem x.2).ownerCount - 1 }).setLock .sem sem,
        s.made, .error (-Linux.EBUSY) (-Linux.EBUSY)⟩ := by
  have hm := h.matched x hx
  have hcount := hm.same.ownerCount.eq_one_iff (congrArg Linux.Entry.ownerCount hm.narrow)
  obtain ⟨sem, hup, heq⟩ := finish_ends errno (Qnx.ipcSemClose_busy lim h.unlocked
    (h.qnx ▸ h.qnxNodup) (h.qnx_mem hx) hm.qnxExists (hcount.not.mp more))
  have hclose : Linux.ipcSemClose s.linux ⟨Linux.userHandle x.1⟩ = (s.linux.write x.1
      { s.linux.mem x.1 with ownerCount := (s.linux.mem x.1).ownerCount - 1 }, -Linux.EBUSY) := by
    rw [Linux.ipcSemClose, registryClose_eq hm.linuxNotNull hm.linuxId,
      Linux.closeLoop_busy _ (h.linux ▸ h.linuxNodup) (h.linux_mem hx) more]
    simp [Linux.Driver.setList, Linux.Driver.write]
  have hlive : s.made.filter (fun handles => Live (s.linux.write x.1
      { s.linux.mem x.1 with ownerCount := (s.linux.mem x.1).ownerCount - 1 }) handles) =
      s.made := by
    rw [List.filter_eq_self]
    intro handles hhandles
    obtain ⟨y, hy, rfl⟩ := h.mem_made hhandles
    rw [decide_eq_true_iff, Live, Linux.containerOf_userHandle]
    exact h.linux_mem hy
  refine ⟨sem, hup, ?_⟩
  simp only [Drivers.close, hclose, heq, hlive]

/-! Whether they stay in step. -/

theorem Paired.inStep {t : Drivers} {qs : List (Ptr × Ptr)} (h : Paired t qs)
    (answers : Agree t t.answers) : InStep t :=
  ⟨h.entries, answers⟩

/-- Entries at the same place of the two lists are alike. -/
theorem InStep.same {t : Drivers} (h : InStep t) (qs : List (Ptr × Ptr))
    (linux : t.linux.mList .sem = qs.map Prod.fst) (qnx : t.qnx.mList .sem = qs.map Prod.snd)
    (hx : x ∈ qs) : SameSem (t.linux.mem x.1) (t.qnx.mem x.2) := by
  have hentries := h.entries
  rw [linux, qnx, List.forall₂_map_left_iff, List.forall₂_map_right_iff,
    List.forall₂_same] at hentries
  exact hentries x hx

theorem sameSem_narrow {e : Linux.Entry} {q : Qnx.Entry} (name : q.name = e.name)
    (ownerCount : SameCount e.ownerCount q.ownerCount)
    (sema : ∃ n : Nat, q.sema = some n ∧ e.sema % 4294967296 = n)
    (lockCount : SameCount e.lockCount q.lockCount) : SameSem (narrow e) q :=
  ⟨name, sameCount_bmod.mpr ownerCount, sema, sameCount_bmod.mpr lockCount⟩

theorem Matched.of_same {e e' : Linux.Entry} {q q' : Qnx.Entry} (h : Matched x e q)
    (same : SameSem (Ports.narrow e') q') (linuxId : e'.id = e.id)
    (qnxId : q'.idOf .sem = q.idOf .sem) (qnxHandle : q'.handle = q.handle) :
    Matched x (Ports.narrow e') q' where
  same := same
  narrow := narrow_narrow e'
  linuxNotNull := h.linuxNotNull
  linuxId := linuxId.trans h.linuxId
  qnxNotNull := h.qnxNotNull
  qnxId := qnxId.trans h.qnxId
  qnxHandle := qnxHandle.trans h.qnxHandle

theorem Matched.sema_eq {e : Linux.Entry} {q : Qnx.Entry} (h : Matched x e q) :
    e.sema % 4294967296 = e.sema :=
  congrArg Linux.Entry.sema h.narrow

/-- A request keeps the drivers paired and in step if it is within the limits,
and out of step otherwise. -/
def Keeps (lim : Limits) (s : Drivers) (a : SemRequest) (t : Drivers) : Prop :=
  (Within lim s a → InStep t ∧ ∃ qs, Paired t qs) ∧ (InStep t → Within lim s a)

variable {lim} in
theorem Keeps.of_paired {t : Drivers} {a : SemRequest} {qs : List (Ptr × Ptr)}
    (within : Within lim s a) (paired : Paired t qs) (inStep : InStep t) : Keeps lim s a t :=
  ⟨fun _ => ⟨inStep, qs, paired⟩, fun _ => within⟩

/-- The create of a name that both registries have. -/
theorem keeps_create_found (h : Paired s ps) (hx : x ∈ ps)
    (hlinux : Linux.findName s.linux .sem param.name = some x.1)
    (hqnx : Qnx.findName s.qnx .sem param.name = some x.2) :
    Keeps lim s (.create param fresh) (s.create lim param fresh) := by
  have hm := h.matched x hx
  obtain ⟨sem, hup, heq⟩ := create_found lim fresh h hx hlinux hqnx
  have hsame : SameSem (narrow { s.linux.mem x.1 with
      ownerCount := (s.linux.mem x.1).ownerCount + 1 })
      { s.qnx.mem x.2 with ownerCount := (s.qnx.mem x.2).ownerCount + 1 } := by
    obtain ⟨n, hn, hsema⟩ := hm.same.sema
    exact sameSem_narrow hm.same.name hm.same.ownerCount.add_one
      ⟨n, hn, hm.sema_eq.trans hsema⟩ hm.same.lockCount
  have paired := h.write hx hup (hm.of_same hsame rfl rfl rfl)
    (.created (Linux.userHandle x.1, x.2))
  rw [heq]
  have within : Within lim s (.create param fresh) := by
    intro hnone
    rw [hlinux] at hnone
    cases hnone
  exact .of_paired within paired (paired.inStep (paired.correspond hx))

/-- A new semaphore is the same in both, if its value is one that QNX takes. -/
theorem sameSem_new (hfits : param.value.toUInt32.toNat ≤ lim.semValueMax) :
    SameSem (narrow { Linux.fill .sem param fresh.1 with ownerCount := 1 })
      { Qnx.Entry.zero with
        name := param.name
        handle := fresh.2
        ownerCount := 1
        sema := semInit lim param.value.toUInt32
        id := Linux.Kind.sem.id } := by
  have hsema : semInit lim param.value.toUInt32 = some param.value.toUInt32.toNat := if_pos hfits
  have hmod : Linux.semaInit param.value % 4294967296 = param.value.toUInt32.toNat :=
    Int.emod_eq_of_lt (Int.natCast_nonneg _) (by
      have := param.value.toUInt32.toNat_lt
      simp only [Linux.semaInit]
      omega)
  exact sameSem_narrow (by simp) sameCount_one ⟨_, hsema, hmod⟩ sameCount_zero

/-- The create of a name that neither registry has. -/
theorem keeps_create_new (h : Paired s ps) (nonneg : 0 ≤ param.value)
    (free : s.linux.Free fresh.1) (free' : s.qnx.Free fresh.2)
    (hlinux : Linux.findName s.linux .sem param.name = none)
    (hqnx : Qnx.findName s.qnx .sem param.name = none) :
    Keeps lim s (.create param fresh) (s.create lim param fresh) := by
  obtain ⟨sem, hup, heq⟩ := create_new lim fresh h free hlinux hqnx
  have hvalue := Linux.semaInit_of_nonneg nonneg
  have hnat : (param.value.toUInt32.toNat : Int) = param.value.toInt := hvalue
  have hlisted : fresh ∈ ps ++ [fresh] :=
    List.mem_append_right ps (List.mem_singleton_self fresh)
  rw [heq]
  constructor
  · intro within
    have hfits : param.value.toUInt32.toNat ≤ lim.semValueMax := by
      have := within hlinux
      omega
    have paired := h.insert free free' hup
      ⟨sameSem_new lim fresh hfits, narrow_narrow _, free.1, rfl, free'.1, rfl, rfl⟩
      (.created (Linux.userHandle fresh.1, fresh.2))
    exact ⟨paired.inStep (paired.correspond hlisted), _, paired⟩
  · intro inStep _
    have hsame := inStep.same (ps ++ [fresh])
      (by simp [narrowAll, Linux.insertNew, h.linux])
      (by simp [Qnx.insertSem, Qnx.insertEntry, h.qnx]) hlisted
    obtain ⟨n, hn, -⟩ := hsame.sema
    simp only [Qnx.Driver.setLock_mem, Qnx.insertSem, Qnx.insertEntry, Qnx.newEntry,
      Qnx.Driver.setList_mem, Qnx.Driver.write_mem_self, Qnx.Entry.setId_sema, semInit] at hn
    have hfits := (Option.ite_none_right_eq_some.mp hn).1
    omega

theorem keeps_create (h : Paired s ps) (nonneg : 0 ≤ param.value) (free : s.linux.Free fresh.1)
    (free' : s.qnx.Free fresh.2) :
    Keeps lim s (.create param fresh) (s.create lim param fresh) := by
  obtain ⟨found, hlinux, hqnx, hmem⟩ := h.find param.name
  cases found with
  | some x => exact keeps_create_found lim fresh h (hmem x rfl) hlinux hqnx
  | none => exact keeps_create_new lim fresh h nonneg free free' hlinux hqnx

theorem keeps_lock (h : Paired s ps) (hx : x ∈ ps) (lockerid : Int32) (clock : Qnx.Clock) :
    Keeps lim s (.lock (Linux.userHandle x.1, x.2) lockerid clock)
      (s.lock lim errno (Linux.userHandle x.1, x.2) lockerid clock) := by
  have hm := h.matched x hx
  obtain ⟨n, hn, hsema⟩ := hm.same.sema
  have hmod := hm.sema_eq
  cases n with
  | zero =>
    obtain ⟨sem, hup, heq⟩ := lock_ended lim errno h hx hsema lockerid clock
    have paired := h.write hx hup (hm.narrow.symm ▸ hm) (.locked false false)
    rw [Linux.Driver.write_self, Qnx.Driver.write_self] at paired
    rw [heq]
    exact .of_paired trivial paired (paired.inStep rfl)
  | succ n =>
    obtain ⟨sem, hup, heq⟩ := lock_took lim errno h hx hsema lockerid clock
    have hfits : (n : Int) % 4294967296 = n := by omega
    have hsame : SameSem (narrow { s.linux.mem x.1 with
          sema := n, lockCount := (s.linux.mem x.1).lockCount + 1 })
        { s.qnx.mem x.2 with sema := some n, lockCount := (s.qnx.mem x.2).lockCount + 1 } :=
      sameSem_narrow hm.same.name hm.same.ownerCount ⟨n, rfl, hfits⟩ hm.same.lockCount.add_one
    have paired := h.write hx hup (hm.of_same hsame rfl rfl rfl) (.locked true true)
    rw [heq]
    exact .of_paired trivial paired (paired.inStep rfl)

theorem keeps_unlock (h : Paired s ps) (hx : x ∈ ps) (lockerid : Int32) :
    Keeps lim s (.unlock (Linux.userHandle x.1, x.2) lockerid)
      (s.unlock lim errno (Linux.userHandle x.1, x.2) lockerid) := by
  have hm := h.matched x hx
  obtain ⟨n, hn, hsema⟩ := hm.same.sema
  have hmod := hm.sema_eq
  obtain ⟨sem, hup, heq⟩ := unlock_ends lim errno h hx lockerid
  have hwithin : Within lim s (.unlock (Linux.userHandle x.1, x.2) lockerid) ↔
      n < lim.semValueMax ∧ n < 4294967295 := by
    rw [Within, Linux.containerOf_userHandle, hsema]
    omega
  have hpost : semPost lim (s.qnx.mem x.2).sema =
      some (if n < lim.semValueMax then n + 1 else n) := by
    rw [hn, semPost]
  rw [heq]
  constructor
  · intro within
    obtain ⟨hmax, hwide⟩ := hwithin.mp within
    have hsame : SameSem (narrow (s.linux.mem x.1).up.decLock)
        { s.qnx.mem x.2 with
          sema := semPost lim (s.qnx.mem x.2).sema
          lockCount := (s.qnx.mem x.2).lockCount - 1 } := by
      refine sameSem_narrow hm.same.name hm.same.ownerCount ⟨n + 1, ?_, ?_⟩
        hm.same.lockCount.sub_one
      · rw [hpost, if_pos hmax]
      · simp only [Linux.Entry.decLock, Linux.Entry.up, post]
        omega
    have paired := h.write hx hup (hm.of_same hsame rfl rfl rfl) (.error 0 0)
    exact ⟨paired.inStep rfl, ps, paired⟩
  · intro inStep
    obtain ⟨m, hm₁, hm₂⟩ := (inStep.same ps h.linux h.qnx hx).sema
    simp only [Qnx.Driver.setLock_mem, Qnx.Driver.write_mem_self, hpost, Option.some.injEq] at hm₁
    simp only [narrowAll, Linux.Driver.write_mem_self, narrow, Linux.Entry.decLock,
      Linux.Entry.up, post] at hm₂
    rw [hwithin]
    split at hm₁ <;> omega

theorem keeps_close (h : Paired s ps) (hx : x ∈ ps) :
    Keeps lim s (.close (Linux.userHandle x.1, x.2))
      (s.close lim errno (Linux.userHandle x.1, x.2)) := by
  have hm := h.matched x hx
  obtain ⟨n, hn, hsema⟩ := hm.same.sema
  by_cases last : (s.linux.mem x.1).ownerCount = 1
  · obtain ⟨sem, hup, heq⟩ := close_last lim errno h hx last
    have paired := h.erase hx { s.linux.mem x.1 with ownerCount := 0 }
      { s.qnx.mem x.2 with ownerCount := 0, sema := none } hup (.error 0 0)
    rw [heq]
    exact .of_paired trivial paired (paired.inStep rfl)
  · obtain ⟨sem, hup, heq⟩ := close_busy lim errno h hx last
    have hsame : SameSem (narrow { s.linux.mem x.1 with
          ownerCount := (s.linux.mem x.1).ownerCount - 1 })
        { s.qnx.mem x.2 with ownerCount := (s.qnx.mem x.2).ownerCount - 1 } :=
      sameSem_narrow hm.same.name hm.same.ownerCount.sub_one ⟨n, hn, hm.sema_eq.trans hsema⟩
        hm.same.lockCount
    have paired := h.write hx hup (hm.of_same hsame rfl rfl rfl)
      (.error (-Linux.EBUSY) (-Linux.EBUSY))
    rw [heq]
    exact .of_paired trivial paired (paired.inStep rfl)

end Requests

/-- One request, from a state in which the drivers are in step. -/
theorem next_keeps {lim : Limits} {errno : Int} {s t : Drivers} {ps : List (Ptr × Ptr)}
    {a : SemRequest} (h : Paired s ps) (hnext : s.next lim errno a = some t) : Keeps lim s a t := by
  cases a with
  | create param fresh =>
    obtain ⟨⟨nonneg, free, free'⟩, ht⟩ := Option.ite_none_right_eq_some.mp hnext
    obtain rfl := Option.some.inj ht
    exact keeps_create lim fresh h nonneg free free'
  | lock handles lockerid clock =>
    obtain ⟨hmade, ht⟩ := Option.ite_none_right_eq_some.mp hnext
    obtain ⟨x, hx, rfl⟩ := h.mem_made hmade
    obtain rfl := Option.some.inj ht
    exact keeps_lock lim errno h hx lockerid clock
  | unlock handles lockerid =>
    obtain ⟨hmade, ht⟩ := Option.ite_none_right_eq_some.mp hnext
    obtain ⟨x, hx, rfl⟩ := h.mem_made hmade
    obtain rfl := Option.some.inj ht
    exact keeps_unlock lim errno h hx lockerid
  | close handles =>
    obtain ⟨hmade, ht⟩ := Option.ite_none_right_eq_some.mp hnext
    obtain ⟨x, hx, rfl⟩ := h.mem_made hmade
    obtain rfl := Option.some.inj ht
    exact keeps_close lim errno h hx

/-- Nothing is listed at first. -/
theorem init_paired {lim : Limits} {errno : Int} {s : Drivers}
    (hs : (Drivers.system lim errno).init s) : Paired s [] := by
  obtain ⟨mem, mem', rfl⟩ := hs
  exact ⟨rfl, rfl, rfl, List.nodup_nil, List.nodup_nil, by simp,
    Qnx.Server.open_createInstance lim mem'⟩

/-- Two new drivers stay in step for as long as no semaphore is created with, or
raised to, a value that the one of the other port cannot have. -/
theorem semaphores_in_step_iff {lim : Limits} {errno : Int} {s t : Drivers}
    {labels : List SemRequest} (hs : (Drivers.system lim errno).init s) :
    InStep s ∧ (((Drivers.system lim errno).confine InStep).Exec s labels t ↔
      ((Drivers.system lim errno).guard (Within lim)).Exec s labels t) := by
  have paired := init_paired hs
  have inStep : InStep s := by
    obtain ⟨mem, mem', rfl⟩ := hs
    exact paired.inStep trivial
  refine ⟨inStep, System.exec_confine_iff_of_good (I := fun s => ∃ ps, Paired s ps)
    ?_ ?_ ⟨[], paired⟩ inStep⟩
  · rintro s a t ⟨ps, h⟩ _ step good
    have hkeeps := next_keeps h step
    exact (hkeeps.1 (hkeeps.2 good)).2
  · rintro s a t ⟨ps, h⟩ _ step
    have hkeeps := next_keeps h step
    exact ⟨hkeeps.2, fun within => (hkeeps.1 within).1⟩

instance (lim : Limits) (s : Drivers) : (a : SemRequest) → Decidable (Within lim s a)
  | .create param _ => inferInstanceAs (Decidable
    (Linux.findName s.linux .sem param.name = none → param.value.toInt ≤ lim.semValueMax))
  | .unlock handles _ => inferInstanceAs (Decidable
    ((s.linux.mem (Linux.containerOf handles.1)).sema < min lim.semValueMax 4294967295))
  | .lock _ _ _ | .close _ => isTrue trivial

/-- Two new drivers, where the smallest bound that is allowed holds. -/
def newDrivers : Drivers where
  linux := Linux.ipcProbe fun _ => .zero
  qnx := Qnx.createInstance Qnx.leastLimits fun _ => .zero
  made := []
  answers := .none

theorem newDrivers_init : (Drivers.system Qnx.leastLimits 260).init newDrivers := ⟨_, _, rfl⟩

/-- An unlock without a lock, a lock, and a close between two creates. -/
theorem semaphores_in_step_run : ∃ t,
    ((Drivers.system Qnx.leastLimits 260).confine InStep).Exec newDrivers
      [.create ⟨CStr.x, 0, 0, 0⟩ (4096, 4096), .unlock (Linux.userHandle 4096, 4096) 0,
        .lock (Linux.userHandle 4096, 4096) 0 .zero, .create ⟨CStr.empty, 7, 0, 0⟩ (8192, 12288),
        .close (Linux.userHandle 4096, 4096), .create ⟨CStr.x, 1, 0, 0⟩ (16384, 4096)] t := by
  obtain ⟨t, ht⟩ := Option.isSome_iff_exists.mp (show (run
    (fun s a => if Within Qnx.leastLimits s a then s.next Qnx.leastLimits 260 a else none)
    newDrivers
    [.create ⟨CStr.x, 0, 0, 0⟩ (4096, 4096), .unlock (Linux.userHandle 4096, 4096) 0,
      .lock (Linux.userHandle 4096, 4096) 0 .zero, .create ⟨CStr.empty, 7, 0, 0⟩ (8192, 12288),
      .close (Linux.userHandle 4096, 4096),
      .create ⟨CStr.x, 1, 0, 0⟩ (16384, 4096)]).isSome = true by decide +kernel)
  exact ⟨t, (semaphores_in_step_iff newDrivers_init).2.mpr (exec_guarded_of_run ht)⟩

/-- A semaphore that is full on QNX is unlocked. -/
theorem semaphores_out_of_step :
    ¬ ∀ (lim : Limits) (errno : Int) (s t : Drivers) (labels : List SemRequest),
      (Drivers.system lim errno).init s → (Drivers.system lim errno).Exec s labels t →
      InStep t := by
  intro h
  obtain ⟨t, ht, hp⟩ := (Option.any_eq_true _ _).mp (show
    (run (Drivers.next Qnx.leastLimits 260) newDrivers
      [.create ⟨CStr.x, 32767, 0, 0⟩ (4096, 4096),
        .unlock (Linux.userHandle 4096, 4096) 0]).any (fun t => decide
      (t.linux.mList .sem = [4096] ∧ t.qnx.mList .sem = [4096] ∧
        (t.linux.mem 4096).sema = 32768 ∧ (t.qnx.mem 4096).sema = some 32767)) = true by
      decide +kernel)
  obtain ⟨hlinux, hqnx, hup, hleft⟩ := of_decide_eq_true hp
  have inStep := h Qnx.leastLimits 260 newDrivers t _ newDrivers_init (exec_ofNext_iff.mpr ht)
  obtain ⟨n, hn, hsame⟩ := (inStep.same [(4096, 4096)] hlinux hqnx List.mem_cons_self).sema
  rw [hleft] at hn
  cases hn
  rw [hup] at hsame
  exact absurd hsame (by decide)

end Gipcy.Ports
