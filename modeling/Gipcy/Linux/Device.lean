import Gipcy.Lib.Transition
import Gipcy.Linux.Accesses
import Gipcy.Linux.Registry

/-! The driver under the requests of any number of open files. A critical section
of a registry is one step; a lock, unlock or reset request goes on access by
access after its handle check, on whatever then lies at that address. -/
namespace Gipcy.Linux

open CountingSemaphore Transition

/-- `ipc_device_open`. -/
def ipcDeviceOpen (drv : Driver) : Driver := { drv with mUsage := drv.mUsage + 1 }

/-- `ipc_device_close`. -/
def ipcDeviceClose (drv : Driver) : Driver :=
  let drv := { drv with mUsage := drv.mUsage - 1 }
  if drv.mUsage = 0 then
    let drv := (ipcSemCloseAll drv).1
    let drv := (ipcMutexCloseAll drv).1
    let drv := (ipcEventCloseAll drv).1
    (ipcShmCloseAll drv).1
  else drv

/-- `ipc_probe`: empty lists and no open file, in memory that holds anything. -/
def ipcProbe (mem : Ptr → Entry) : Driver where
  mem := mem
  mList := fun _ => []
  mUsage := 0

theorem ipcProbe_wellFormed (mem : Ptr → Entry) : (ipcProbe mem).WellFormed := by
  refine ⟨fun k => List.nodup_nil, ?_, ?_, ?_, fun k => List.not_mem_nil⟩ <;>
    intro k p hp <;> cases hp

/-- What a registry request did to an entry. -/
inductive Record where
  /-- A create returned the entry at `p`; `inserted` if it made it. -/
  | created (k : Kind) (p : Ptr) (inserted : Bool)
  /-- A close matched the entry at `p`. -/
  | closed (k : Kind) (p : Ptr)
deriving DecidableEq

/-- Since the entry at `p` was inserted, the creates that returned it less the
closes that matched it. The newest record comes first. -/
def balance (k : Kind) (p : Ptr) : List Record → Int
  | [] => 0
  | .created l q inserted :: log =>
    if l = k ∧ q = p then if inserted then 1 else balance k p log + 1 else balance k p log
  | .closed l q :: log => if l = k ∧ q = p then balance k p log - 1 else balance k p log

/-- The driver, its open files, the requests past their handle check, with the
file and the address of each, and the record of the registry requests. -/
structure Device (φ : Type*) where
  drv : Driver
  files : List φ
  calls : List (φ × Ptr × Call)
  log : List Record

inductive Request (φ : Type*) where
  | deviceOpen (file : φ)
  | deviceClose (file : φ)
  /-- An open ioctl; `fresh` is what the allocator would return. -/
  | create (file : φ) (k : Kind) (param : IpcCreate) (fresh : Ptr)
  | close (file : φ) (k : Kind) (param : IpcClose)
  /-- The handle check of a lock, unlock or reset ioctl. -/
  | start (file : φ) (k : Kind) (op : Op) (handle : Ptr) (timeout lockerid : Int32)
  /-- The next access of a request past its check. -/
  | access (i : Nat) (how : WaitEnd)
  /-- Someone else writes to memory that no registry lists. -/
  | scribble (p : Ptr) (e : Entry)

variable {φ : Type*} [DecidableEq φ]

instance (drv : Driver) (p : Ptr) : Decidable (drv.Free p) :=
  decidable_of_iff (p ≠ 0 ∧ p ∉ drv.mList .sem ∧ p ∉ drv.mList .mutex ∧ p ∉ drv.mList .event ∧
    p ∉ drv.mList .shm)
    ⟨fun h => ⟨h.1, fun k => by cases k <;> simp [h]⟩,
      fun h => ⟨h.1, h.2 .sem, h.2 .mutex, h.2 .event, h.2 .shm⟩⟩

namespace Device

/-- The record of a create: the entry that it returned. -/
def createRecord (drv : Driver) (k : Kind) (param : IpcCreate) (fresh : Ptr) : Record :=
  let p := containerOf (registryCreate k (fill k) drv param (some fresh)).2
  .created k p (p ∉ drv.mList k)

/-- The record of a close: the entry that it matched, if any. -/
def closeRecord (drv : Driver) (k : Kind) (param : IpcClose) : List Record :=
  if (registryClose k drv param).2 = -EINVAL then [] else [.closed k (containerOf param.handle)]

def next (s : Device φ) : Request φ → Option (Device φ)
  | .deviceOpen file =>
    if file ∈ s.files then none
    else some { s with drv := ipcDeviceOpen s.drv, files := file :: s.files }
  | .deviceClose file =>
    -- The kernel releases a file when no call is left in it.
    if file ∈ s.files ∧ ∀ c ∈ s.calls, c.1 ≠ file then
      some { s with drv := ipcDeviceClose s.drv, files := s.files.erase file }
    else none
  | .create file k param fresh =>
    if file ∈ s.files ∧ s.drv.Free fresh then
      some { s with
        drv := (registryCreate k (fill k) s.drv param (some fresh)).1
        log := createRecord s.drv k param fresh :: s.log }
    else none
  | .close file k param =>
    if file ∈ s.files then
      some { s with
        drv := (registryClose k s.drv param).1
        log := closeRecord s.drv k param ++ s.log }
    else none
  | .start file k op handle timeout lockerid =>
    if file ∈ s.files then
      (firstPoint k op).map fun point =>
        if handleExists k s.drv handle then
          { s with
            calls := s.calls ++ [(file, containerOf handle, ⟨k, op, timeout, lockerid, point⟩)] }
        else s
    else none
  | .access i how =>
    s.calls[i]?.bind fun (file, p, call) =>
      (access call how (s.drv.mem p)).map fun r =>
        { s with
          drv := s.drv.write p r.1
          calls := match r.2 with
            | .goto point => s.calls.set i (file, p, { call with point := point })
            | .ret _ => s.calls.eraseIdx i }
  | .scribble p e =>
    if s.drv.Free p then some { s with drv := s.drv.write p e } else none

/-- The runs of a freshly probed driver. -/
def system (φ : Type*) [DecidableEq φ] : System (Device φ) (Request φ) :=
  .ofNext (fun s => ∃ mem, s = ⟨ipcProbe mem, [], [], []⟩) next

/-- The owner counts are what the history says. -/
def Counted (drv : Driver) (log : List Record) : Prop :=
  ∀ k, ∀ p ∈ drv.mList k, (drv.mem p).ownerCount = balance k p log

section Counted

variable {drv : Driver} {log : List Record} {k : Kind}

theorem createRecord_found {param : IpcCreate} {p : Ptr} (fresh : Ptr)
    (h : findName drv k param.name = some p) :
    createRecord drv k param fresh = .created k p false := by
  simp [createRecord, registryCreate_found _ h, (findName_some h).1]

theorem createRecord_new {param : IpcCreate} {fresh : Ptr} (free : drv.Free fresh)
    (h : findName drv k param.name = none) :
    createRecord drv k param fresh = .created k fresh true := by
  simp [createRecord, registryCreate_new fresh h, free.2 k]

theorem closeRecord_unlisted {param : IpcClose} (h : containerOf param.handle ∉ drv.mList k) :
    closeRecord drv k param = [] := by
  rw [closeRecord, registryClose_unlisted (.inr h), if_pos rfl]

theorem closeRecord_listed (wf : drv.WellFormed) {param : IpcClose}
    (h : containerOf param.handle ∈ drv.mList k) :
    closeRecord drv k param = [.closed k (containerOf param.handle)] := by
  unfold closeRecord
  by_cases last : (drv.mem (containerOf param.handle)).ownerCount = 1
  · rw [registryClose_last wf _ h rfl last]
    rfl
  · rw [registryClose_busy wf _ h rfl last]
    rfl

theorem counted_create (wf : drv.WellFormed) (h : Counted drv log) (param : IpcCreate)
    {fresh : Ptr} (free : drv.Free fresh) :
    Counted (registryCreate k (fill k) drv param (some fresh)).1
      (createRecord drv k param fresh :: log) := by
  intro l q hq
  cases hfind : findName drv k param.name with
  | some p =>
    obtain ⟨hp, -⟩ := findName_some hfind
    rw [registryCreate_found _ hfind] at hq ⊢
    simp only [createRecord_found fresh hfind, balance]
    have hq : q ∈ drv.mList l := hq
    by_cases he : q = p
    · subst he
      have := h l q hq
      simp [wf.kind_unique hp hq, countOwner, this]
    · have hne : ¬ (k = l ∧ p = q) := fun e => he e.2.symm
      rw [if_neg hne, countOwner, drv.write_mem_ne _ he]
      exact h l q hq
  | none =>
    rw [registryCreate_new fresh hfind] at hq ⊢
    simp only [createRecord_new free hfind, balance]
    rcases mem_insertNew hq with hq | ⟨rfl, rfl⟩
    · have he : q ≠ fresh := fun e => free.2 l (e ▸ hq)
      have hne : ¬ (k = l ∧ fresh = q) := fun e => he e.2.symm
      rw [if_neg hne, insertNew, Driver.setList_mem, drv.write_mem_ne _ he]
      exact h l q hq
    · simp [insertNew]

theorem counted_close (wf : drv.WellFormed) (h : Counted drv log) (param : IpcClose) :
    Counted (registryClose k drv param).1 (closeRecord drv k param ++ log) := by
  intro l q hq
  by_cases hp : containerOf param.handle ∈ drv.mList k
  · simp only [closeRecord_listed wf hp, List.cons_append, List.nil_append, balance]
    by_cases last : (drv.mem (containerOf param.handle)).ownerCount = 1
    · rw [registryClose_last wf _ hp rfl last] at hq ⊢
      have hold := (wf.mem_erase hp _).mp hq
      have hne : ¬ (k = l ∧ containerOf param.handle = q) := fun e => hold.2 e.2.symm
      rw [if_neg hne, Driver.setList_mem, drv.write_mem_ne _ hold.2]
      exact h l q hold.1
    · rw [registryClose_busy wf _ hp rfl last] at hq ⊢
      have hq : q ∈ drv.mList l := hq
      by_cases he : q = containerOf param.handle
      · rw [he] at hq ⊢
        have := h l _ hq
        simp [wf.kind_unique hp hq, this]
      · have hne : ¬ (k = l ∧ containerOf param.handle = q) := fun e => he e.2.symm
        rw [if_neg hne, drv.write_mem_ne _ he]
        exact h l q hq
  · rw [registryClose_unlisted (.inr hp)] at hq ⊢
    rw [closeRecord_unlisted hp, List.nil_append]
    exact h l q hq

/-- Writes that leave the names, owner counts and magic numbers of the listed
entries alone. -/
theorem counted_write (h : Counted drv log) {p : Ptr} {e : Entry}
    (same : (∀ k, p ∉ drv.mList k) ∨ e.ownerCount = (drv.mem p).ownerCount) :
    Counted (drv.write p e) log := by
  intro l q hq
  by_cases he : q = p
  · subst he
    rw [drv.write_mem_self]
    rcases same with hnot | hsame
    · exact absurd hq (hnot l)
    · rw [hsame]
      exact h l q hq
  · rw [drv.write_mem_ne _ he]
    exact h l q hq

end Counted

theorem registryCreate_mUsage (drv : Driver) (k : Kind) (param : IpcCreate)
    (kzalloc : Option Ptr) :
    (registryCreate k (fill k) drv param kzalloc).1.mUsage = drv.mUsage := by
  unfold registryCreate
  split
  · rfl
  · split <;> rfl

theorem registryClose_mUsage (drv : Driver) (k : Kind) (param : IpcClose) :
    (registryClose k drv param).1.mUsage = drv.mUsage := by
  simp only [registryClose]
  split
  · rfl
  · split <;> rfl

theorem registryCloseAll_mList (drv : Driver) (k l : Kind) :
    (registryCloseAll k drv).1.mList l = if l = k then [] else drv.mList l := by
  by_cases h : l = k
  · subst h
    simp [registryCloseAll]
  · simp [registryCloseAll, h, drv.setList_mList_ne [] h]

theorem ipcDeviceClose_mUsage (drv : Driver) : (ipcDeviceClose drv).mUsage = drv.mUsage - 1 := by
  simp only [ipcDeviceClose]
  split <;> rfl

/-- The close of the last file empties the four registries, any other leaves
them as they are. -/
theorem ipcDeviceClose_mList (drv : Driver) (k : Kind) :
    (ipcDeviceClose drv).mList k = if drv.mUsage - 1 = 0 then [] else drv.mList k := by
  simp only [ipcDeviceClose]
  split
  · simp only [ipcSemCloseAll, ipcMutexCloseAll, ipcEventCloseAll, ipcShmCloseAll,
      registryCloseAll_mList]
    cases k <;> rfl
  · rfl

theorem ipcDeviceClose_mem (drv : Driver) : (ipcDeviceClose drv).mem = drv.mem := by
  simp only [ipcDeviceClose]
  split <;> rfl

theorem ipcDeviceClose_wellFormed {drv : Driver} (wf : drv.WellFormed) :
    (ipcDeviceClose drv).WellFormed := by
  apply wf.of_sublist
  · intro k
    rw [ipcDeviceClose_mList]
    split
    · exact List.nil_sublist _
    · exact List.Sublist.refl _
  · intro k p _
    rw [ipcDeviceClose_mem]
    exact ⟨rfl, rfl, rfl⟩

theorem counted_deviceClose {drv : Driver} {log : List Record} (h : Counted drv log) :
    Counted (ipcDeviceClose drv) log := by
  intro k p hp
  rw [ipcDeviceClose_mem]
  rw [ipcDeviceClose_mList] at hp
  split at hp
  · cases hp
  · exact h k p hp

/-- What holds between any two steps. -/
structure Sound (s : Device φ) : Prop where
  wf : s.drv.WellFormed
  counted : Counted s.drv s.log
  usage : s.drv.mUsage = s.files.length
  idle : s.files = [] → ∀ k, s.drv.mList k = []

namespace Sound

variable {s : Device φ}

theorem deviceClose (sound : Sound s) {file : φ} (h : file ∈ s.files) :
    Sound { s with drv := ipcDeviceClose s.drv, files := s.files.erase file } := by
  have hpos : 0 < s.files.length := List.length_pos_of_mem h
  have husage := sound.usage
  have hlen : (s.files.erase file).length = s.files.length - 1 := List.length_erase_of_mem h
  constructor
  · exact ipcDeviceClose_wellFormed sound.wf
  · exact counted_deviceClose sound.counted
  · simp only [ipcDeviceClose_mUsage]
    omega
  · intro hempty k
    simp only at hempty
    have : (s.files.erase file).length = 0 := by rw [hempty, List.length_nil]
    rw [ipcDeviceClose_mList, if_pos (by omega)]

omit [DecidableEq φ] in
theorem create (sound : Sound s) {file : φ} (h : file ∈ s.files) (k : Kind) (param : IpcCreate)
    {fresh : Ptr} (free : s.drv.Free fresh) :
    Sound { s with
      drv := (registryCreate k (fill k) s.drv param (some fresh)).1
      log := createRecord s.drv k param fresh :: s.log } := by
  constructor
  · apply sound.wf.registryCreate
    rintro p ⟨⟩
    exact free
  · exact counted_create sound.wf sound.counted param free
  · rw [registryCreate_mUsage]
    exact sound.usage
  · intro hempty
    exact absurd (hempty ▸ h) List.not_mem_nil

omit [DecidableEq φ] in
theorem close (sound : Sound s) {file : φ} (h : file ∈ s.files) (k : Kind) (param : IpcClose) :
    Sound { s with
      drv := (registryClose k s.drv param).1
      log := closeRecord s.drv k param ++ s.log } := by
  constructor
  · exact sound.wf.registryClose k param
  · exact counted_close sound.wf sound.counted param
  · rw [registryClose_mUsage]
    exact sound.usage
  · intro hempty
    exact absurd (hempty ▸ h) List.not_mem_nil

omit [DecidableEq φ] in
/-- An access, or a write to memory that no registry lists. -/
theorem write (sound : Sound s) {p : Ptr} {e : Entry} (calls : List (φ × Ptr × Call))
    (same : (∀ k, p ∉ s.drv.mList k) ∨ (e.name = (s.drv.mem p).name ∧
      e.ownerCount = (s.drv.mem p).ownerCount ∧ e.id = (s.drv.mem p).id)) :
    Sound { s with drv := s.drv.write p e, calls := calls } := by
  constructor
  · apply sound.wf.of_sublist
    · exact fun k => List.Sublist.refl _
    · intro k q hq
      by_cases he : q = p
      · subst he
        rw [s.drv.write_mem_self]
        exact same.resolve_left fun hnot => hnot k hq
      · rw [s.drv.write_mem_ne _ he]
        exact ⟨rfl, rfl, rfl⟩
  · exact counted_write sound.counted (same.imp_right fun h => h.2.1)
  · exact sound.usage
  · exact sound.idle

theorem next (sound : Sound s) {a : Request φ} {t : Device φ} (h : s.next a = some t) :
    Sound t := by
  cases a with
  | deviceOpen file =>
    simp only [Device.next] at h
    split at h
    · cases h
    · cases h
      refine ⟨⟨sound.wf.nodup, sound.wf.names, sound.wf.owned, sound.wf.ids, sound.wf.notNull⟩,
        sound.counted, ?_, fun hempty => (by cases hempty)⟩
      have := sound.usage
      simp only [ipcDeviceOpen, List.length_cons]
      omega
  | deviceClose file =>
    simp only [Device.next] at h
    obtain ⟨⟨hfile, -⟩, h⟩ := Option.ite_none_right_eq_some.mp h
    cases h
    exact sound.deviceClose hfile
  | create file k param fresh =>
    simp only [Device.next] at h
    obtain ⟨⟨hfile, free⟩, h⟩ := Option.ite_none_right_eq_some.mp h
    cases h
    exact sound.create hfile k param free
  | close file k param =>
    simp only [Device.next] at h
    obtain ⟨hfile, h⟩ := Option.ite_none_right_eq_some.mp h
    cases h
    exact sound.close hfile k param
  | start file k op handle timeout lockerid =>
    simp only [Device.next] at h
    obtain ⟨hfile, h⟩ := Option.ite_none_right_eq_some.mp h
    obtain ⟨point, -, h⟩ := Option.map_eq_some_iff.mp h
    split at h
    · cases h
      exact ⟨sound.wf, sound.counted, sound.usage, sound.idle⟩
    · cases h
      exact sound
  | access i how =>
    simp only [Device.next] at h
    obtain ⟨⟨file, p, call⟩, -, h⟩ := Option.bind_eq_some_iff.mp h
    obtain ⟨⟨e, nx⟩, ha, h⟩ := Option.map_eq_some_iff.mp h
    cases h
    exact sound.write _ (.inr (access_effect ha).registration)
  | scribble p e =>
    simp only [Device.next] at h
    obtain ⟨free, h⟩ := Option.ite_none_right_eq_some.mp h
    cases h
    exact sound.write s.calls (.inl free.2)

end Sound

theorem sound_reachable {s : Device φ} (h : (system φ).Reachable s) : Sound s := by
  apply h.invariant (I := Sound)
  · rintro s ⟨mem, rfl⟩
    refine ⟨ipcProbe_wellFormed mem, ?_, rfl, fun _ k => rfl⟩
    intro k p hp
    cases hp
  · intro s a t _ sound step
    exact sound.next step

end Device

/-- A close that matches an entry releases one reference, and takes the entry off
its list exactly when that was the last one. -/
theorem registryClose_releases {drv : Driver} (wf : drv.WellFormed) {k : Kind}
    {param : IpcClose} {p : Ptr} (hp : p ∈ drv.mList k) (hh : param.handle = userHandle p) :
    ((registryClose k drv param).1.mem p).ownerCount = (drv.mem p).ownerCount - 1 ∧
      (p ∉ (registryClose k drv param).1.mList k ↔ (drv.mem p).ownerCount - 1 = 0) ∧
      ∀ l q, ¬ (l = k ∧ q = p) →
        (q ∈ (registryClose k drv param).1.mList l ↔ q ∈ drv.mList l) := by
  have hc : containerOf param.handle = p := by rw [hh, containerOf_userHandle]
  by_cases last : (drv.mem p).ownerCount = 1
  · rw [registryClose_last wf _ hp hc last]
    refine ⟨by simp [last], ?_, fun l q hne => ?_⟩
    · rw [wf.mem_erase hp]
      simp [last]
    · rw [wf.mem_erase hp]
      refine ⟨fun hq => hq.1, fun hq => ⟨hq, ?_⟩⟩
      rintro rfl
      exact hne ⟨wf.kind_unique hq hp, rfl⟩
  · rw [registryClose_busy wf _ hp hc last]
    refine ⟨by simp, ?_, fun l q _ => Iff.rfl⟩
    simp only [Driver.write_mList, hp, not_true_eq_false, false_iff]
    omega

theorem registryClose_unknown {drv : Driver} (wf : drv.WellFormed) {k : Kind} {param : IpcClose}
    (h : ∀ p ∈ drv.mList k, param.handle ≠ userHandle p) :
    registryClose k drv param = (drv, -EINVAL) := by
  apply registryClose_unlisted
  refine .inr fun hp => h _ hp ?_
  exact (userHandle_containerOf fun e => wf.notNull k (e ▸ hp)).symm

/-- The four registries in every reachable state of the driver. -/
theorem registries_sound {φ : Type*} [DecidableEq φ] {s : Device φ}
    (h : (Device.system φ).Reachable s) :
    (∀ k, ((s.drv.mList k).map fun p => (s.drv.mem p).name).Nodup) ∧
    (∀ k, ∀ p ∈ s.drv.mList k,
      1 ≤ (s.drv.mem p).ownerCount ∧ (s.drv.mem p).ownerCount = balance k p s.log) ∧
    (∀ k param, ∀ p ∈ s.drv.mList k, param.handle = userHandle p →
      ((registryClose k s.drv param).1.mem p).ownerCount = (s.drv.mem p).ownerCount - 1 ∧
      (p ∉ (registryClose k s.drv param).1.mList k ↔ (s.drv.mem p).ownerCount - 1 = 0) ∧
      ∀ l q, ¬ (l = k ∧ q = p) →
        (q ∈ (registryClose k s.drv param).1.mList l ↔ q ∈ s.drv.mList l)) ∧
    (∀ k param, (∀ p ∈ s.drv.mList k, param.handle ≠ userHandle p) →
      registryClose k s.drv param = (s.drv, -EINVAL)) ∧
    s.drv.mUsage = s.files.length ∧
    (s.drv.mUsage = 0 → ∀ k, s.drv.mList k = []) := by
  have sound := Device.sound_reachable h
  refine ⟨fun k => ?_, fun k p hp => ⟨sound.wf.owned k p hp, sound.counted k p hp⟩,
    fun k param p hp hh => registryClose_releases sound.wf hp hh,
    fun k param hnot => registryClose_unknown sound.wf hnot, sound.usage, fun hzero => ?_⟩
  · exact (sound.wf.nodup k).map_on fun p hp q hq => sound.wf.names k p hp q hq
  · apply sound.idle
    have := sound.usage
    exact List.length_eq_zero_iff.mp (by omega)

/-- Two files open one mutex, one of them closes it. -/
theorem registries_sound_two_files :
    ∃ s : Device (Fin 2), (Device.system (Fin 2)).Reachable s ∧
      s.drv.mList .mutex = [4096] ∧
      (s.drv.mem 4096).ownerCount = balance .mutex 4096 s.log := by
  let param : IpcCreate := ⟨CStr.x, 1, 0, 7⟩
  refine exists_reachable_of_run ⟨ipcProbe fun _ => Entry.zero, [], [], []⟩
    [.deviceOpen 0, .deviceOpen 1, .create 0 .mutex param 4096, .create 1 .mutex param 8192,
      .close 0 .mutex ⟨userHandle 4096⟩]
    (fun s => decide (s.drv.mList .mutex = [4096])) ⟨_, rfl⟩ (by decide) fun s hs hp => ?_
  have hlist : s.drv.mList .mutex = [4096] := of_decide_eq_true hp
  exact ⟨hlist, ((registries_sound hs).2.1 .mutex 4096 (by simp [hlist])).2⟩

end Gipcy.Linux
