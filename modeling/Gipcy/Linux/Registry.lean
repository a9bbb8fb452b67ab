import Mathlib.Data.List.Nodup
import Mathlib.Data.Fintype.EquivFin
import Gipcy.Linux.Types

/-! The critical sections of the four registries: create or open by name, close
by handle, close all. The four source files repeat one text; what differs is the
list, the magic number and what a new entry holds. -/
namespace Gipcy.Linux

/-- `list_for_each_safe` with `strcmp(entry->sem_name, param->name) == 0`. -/
def findName (drv : Driver) (k : Kind) (name : CStr 128) : Option Ptr :=
  (drv.mList k).find? fun p => decide ((drv.mem p).name = name)

/-- `atomic_inc(&sem->sem_owner_count)`. -/
def countOwner (drv : Driver) (p : Ptr) : Driver :=
  drv.write p { drv.mem p with ownerCount := (drv.mem p).ownerCount + 1 }

/-- The text shared by the four create functions; `kzalloc` is what the
allocator answers and `fill` what a new entry holds when it joins the list. -/
def registryCreate (k : Kind) (fill : IpcCreate → Ptr → Entry) (drv : Driver)
    (param : IpcCreate) (kzalloc : Option Ptr) : Driver × Ptr :=
  match findName drv k param.name with
  | some p => (countOwner drv p, userHandle p)
  | none =>
    match kzalloc with
    -- `do_out` is shared with the success path: the address of a field of `NULL`.
    | none => (drv, userHandle 0)
    | some p =>
      let listed := (drv.write p (fill param p)).setList k (drv.mList k ++ [p])
      (countOwner listed p, userHandle p)

/-- The search of the four close functions. After a decrement that leaves other
owners the loop goes on, with `-EBUSY` as its result so far. -/
def closeLoop (handle : Ptr) : List Ptr → (Ptr → Entry) → Int →
    (Ptr → Entry) × List Ptr × Int
  | [], mem, error => (mem, [], error)
  | p :: rest, mem, error =>
    if p = handle then
      let e := { mem p with ownerCount := (mem p).ownerCount - 1 }
      if e.ownerCount = 0 then (Function.update mem p e, rest, 0)
      else
        let after := closeLoop handle rest (Function.update mem p e) (-EBUSY)
        (after.1, p :: after.2.1, after.2.2)
    else
      let after := closeLoop handle rest mem error
      (after.1, p :: after.2.1, after.2.2)

/-- The text shared by the four close functions. -/
def registryClose (k : Kind) (drv : Driver) (param : IpcClose) : Driver × Int :=
  if param.handle = 0 then (drv, -EINVAL)
  else
    let handle := containerOf param.handle
    if handle ≠ 0 ∧ (drv.mem handle).id = k.id then
      let after := closeLoop handle (drv.mList k) drv.mem (-EINVAL)
      ({ drv with mem := after.1 }.setList k after.2.1, after.2.2)
    else (drv, -EINVAL)

/-- The text shared by the four `close_all` functions: every entry is taken off
the list and freed, whether or not it has owners. -/
def registryCloseAll (k : Kind) (drv : Driver) : Driver × Int :=
  let usedCounter := (drv.mList k).countP fun p => (drv.mem p).ownerCount ≠ 0
  (drv.setList k [], if usedCounter ≠ 0 then -EBUSY else 0)

/-- The check of the lock, unlock and reset functions: the handle is not `NULL`
and what lies around it has the magic number of the kind. -/
def handleExists (k : Kind) (drv : Driver) (handle : Ptr) : Bool :=
  handle ≠ 0 && containerOf handle ≠ 0 && (drv.mem (containerOf handle)).id = k.id

def semFill (param : IpcCreate) (p : Ptr) : Entry :=
  { Entry.zero with
    sema := semaInit param.value
    name := param.name.snprintf 128 nameSize_pos
    handle := p
    id := Kind.sem.id
    ownerCount := 0 }

/-- A new mutex before `if(param->value)`. -/
def mutexBlank (param : IpcCreate) (p : Ptr) : Entry :=
  { Entry.zero with
    handle := p
    id := Kind.mutex.id
    lockerid := 0
    ownerCount := 0
    sema := 1
    name := param.name.snprintf 128 nameSize_pos }

def mutexFill (param : IpcCreate) (p : Ptr) : Entry :=
  let mutex := mutexBlank param p
  if param.value ≠ 0 then
    { mutex with
      sema := mutex.sema - 1
      lockerid := param.lockerid
      lockCount := mutex.lockCount + 1 }
  else mutex

def eventFill (param : IpcCreate) (p : Ptr) : Entry :=
  { Entry.zero with
    sema := 1
    name := param.name.snprintf 128 nameSize_pos
    handle := p
    id := Kind.event.id
    ownerCount := 0 }

def shmFill (param : IpcCreate) (p : Ptr) : Entry :=
  { Entry.zero with
    name := param.name.snprintf 128 nameSize_pos
    handle := p
    id := Kind.shm.id
    ownerCount := 0 }

/-- What each create function stores in a new entry. -/
def fill : Kind → IpcCreate → Ptr → Entry
  | .sem => semFill
  | .mutex => mutexFill
  | .event => eventFill
  | .shm => shmFill

def ipcSemCreate := registryCreate .sem semFill
def ipcMutexCreate := registryCreate .mutex mutexFill
def ipcEventCreate := registryCreate .event eventFill
def ipcShmOpen := registryCreate .shm shmFill

def ipcSemClose := registryClose .sem
def ipcMutexClose := registryClose .mutex
def ipcEventClose := registryClose .event
def ipcShmClose := registryClose .shm

def ipcSemCloseAll := registryCloseAll .sem
def ipcMutexCloseAll := registryCloseAll .mutex
def ipcEventCloseAll := registryCloseAll .event
def ipcShmCloseAll := registryCloseAll .shm

@[simp] theorem fill_name (k : Kind) (param : IpcCreate) (p : Ptr) :
    (fill k param p).name = param.name := by
  cases k <;> simp only [fill, semFill, mutexFill, mutexBlank, eventFill, shmFill,
    CStr.snprintf_self]
  split <;> rfl

@[simp] theorem fill_ownerCount (k : Kind) (param : IpcCreate) (p : Ptr) :
    (fill k param p).ownerCount = 0 := by
  cases k <;> simp only [fill, semFill, mutexFill, mutexBlank, eventFill, shmFill]
  split <;> rfl

@[simp] theorem fill_id (k : Kind) (param : IpcCreate) (p : Ptr) :
    (fill k param p).id = k.id := by
  cases k <;> simp only [fill, semFill, mutexFill, mutexBlank, eventFill, shmFill]
  split <;> rfl

/-! What the searches find. -/

theorem findName_some {drv : Driver} {k : Kind} {name : CStr 128} {p : Ptr}
    (h : findName drv k name = some p) : p ∈ drv.mList k ∧ (drv.mem p).name = name :=
  ⟨List.mem_of_find?_eq_some h, by simpa using List.find?_some h⟩

theorem findName_none {drv : Driver} {k : Kind} {name : CStr 128}
    (h : findName drv k name = none) : ∀ p ∈ drv.mList k, (drv.mem p).name ≠ name := by
  intro p hp
  simpa using List.find?_eq_none.mp h p hp

theorem closeLoop_of_not_mem {handle : Ptr} {ps : List Ptr} (mem : Ptr → Entry)
    (error : Int) (h : handle ∉ ps) : closeLoop handle ps mem error = (mem, ps, error) := by
  induction ps with
  | nil => rfl
  | cons p rest ih =>
    have hp : p ≠ handle := fun e => h (e ▸ List.mem_cons_self)
    have hrest : handle ∉ rest := fun m => h (List.mem_cons_of_mem _ m)
    simp only [closeLoop, hp, ih hrest, ↓reduceIte]

/-- The last owner: the entry leaves the list. -/
theorem closeLoop_last {handle : Ptr} {ps : List Ptr} {mem : Ptr → Entry} (error : Int)
    (nodup : ps.Nodup) (h : handle ∈ ps) (last : (mem handle).ownerCount = 1) :
    closeLoop handle ps mem error =
      (Function.update mem handle { mem handle with ownerCount := 0 }, ps.erase handle, 0) := by
  induction ps with
  | nil => cases h
  | cons p rest ih =>
    obtain ⟨hp, nodup⟩ := List.nodup_cons.mp nodup
    by_cases e : p = handle
    · subst e
      simp [closeLoop, last]
    · have hrest : handle ∈ rest := (List.mem_cons.mp h).resolve_left (Ne.symm e)
      have herase : (p :: rest).erase handle = p :: rest.erase handle := by
        rw [List.erase_cons_tail]
        simpa using e
      simp only [closeLoop, e, ih nodup hrest, herase, ↓reduceIte]

/-- Other owners remain: one reference less, and `-EBUSY`. -/
theorem closeLoop_busy {handle : Ptr} {ps : List Ptr} {mem : Ptr → Entry} (error : Int)
    (nodup : ps.Nodup) (h : handle ∈ ps) (more : (mem handle).ownerCount ≠ 1) :
    closeLoop handle ps mem error =
      (Function.update mem handle
        { mem handle with ownerCount := (mem handle).ownerCount - 1 }, ps, -EBUSY) := by
  induction ps with
  | nil => cases h
  | cons p rest ih =>
    obtain ⟨hp, nodup⟩ := List.nodup_cons.mp nodup
    by_cases e : p = handle
    · subst e
      have hn : (mem p).ownerCount - 1 ≠ 0 := by omega
      simp only [closeLoop, hn, ↓reduceIte, closeLoop_of_not_mem _ _ hp]
    · have hrest : handle ∈ rest := (List.mem_cons.mp h).resolve_left (Ne.symm e)
      simp only [closeLoop, e, ih nodup hrest, ↓reduceIte]

/-! The registry invariant. -/

/-- What holds of the registries between critical sections. -/
structure Driver.WellFormed (drv : Driver) : Prop where
  nodup : ∀ k, (drv.mList k).Nodup
  names : ∀ k, ∀ p ∈ drv.mList k, ∀ q ∈ drv.mList k,
    (drv.mem p).name = (drv.mem q).name → p = q
  owned : ∀ k, ∀ p ∈ drv.mList k, 1 ≤ (drv.mem p).ownerCount
  ids : ∀ k, ∀ p ∈ drv.mList k, (drv.mem p).id = k.id
  notNull : ∀ k, 0 ∉ drv.mList k

/-- An address the allocator may return. -/
def Driver.Free (drv : Driver) (p : Ptr) : Prop := p ≠ 0 ∧ ∀ k, p ∉ drv.mList k

/-- The lists are finite, so that memory is never used up. -/
theorem Driver.exists_free (drv : Driver) : ∃ p, drv.Free p := by
  let listed := drv.mList .sem ++ drv.mList .mutex ++ drv.mList .event ++ drv.mList .shm
  obtain ⟨p, hp⟩ := Infinite.exists_notMem_finset (0 :: listed).toFinset
  simp only [listed, List.mem_toFinset, List.mem_cons, List.mem_append, not_or] at hp
  exact ⟨p, hp.1, fun k => by cases k <;> simp [hp]⟩

namespace Driver.WellFormed

variable {drv : Driver}

/-- The magic numbers keep the four lists apart. -/
theorem kind_unique (wf : drv.WellFormed) {k l : Kind} {p : Ptr} (hk : p ∈ drv.mList k)
    (hl : p ∈ drv.mList l) : k = l :=
  Kind.id_injective ((wf.ids k p hk).symm.trans (wf.ids l p hl))

/-- Entries may leave the lists, and only the name, the owner count and the
magic number of those that stay matter. -/
theorem of_sublist (wf : drv.WellFormed) {drv' : Driver}
    (lists : ∀ k, List.Sublist (drv'.mList k) (drv.mList k))
    (same : ∀ k, ∀ p ∈ drv'.mList k, (drv'.mem p).name = (drv.mem p).name ∧
      (drv'.mem p).ownerCount = (drv.mem p).ownerCount ∧
      (drv'.mem p).id = (drv.mem p).id) : drv'.WellFormed where
  nodup := fun k => (wf.nodup k).sublist (lists k)
  names := by
    intro k p hp q hq h
    rw [(same k p hp).1, (same k q hq).1] at h
    exact wf.names k p ((lists k).subset hp) q ((lists k).subset hq) h
  owned := by
    intro k p hp
    rw [(same k p hp).2.1]
    exact wf.owned k p ((lists k).subset hp)
  ids := by
    intro k p hp
    rw [(same k p hp).2.2]
    exact wf.ids k p ((lists k).subset hp)
  notNull := fun k h => wf.notNull k ((lists k).subset h)

/-- Another owner, or one owner less while some remain. -/
theorem of_owners (wf : drv.WellFormed) {p : Ptr} {n : Int} (hn : 1 ≤ n) :
    (drv.write p { drv.mem p with ownerCount := n }).WellFormed where
  nodup := wf.nodup
  names := by
    intro k q hq r hr h
    have hname : ∀ q, ((drv.write p { drv.mem p with ownerCount := n }).mem q).name =
        (drv.mem q).name := by
      intro q
      by_cases e : q = p
      · subst e
        simp
      · rw [drv.write_mem_ne _ e]
    rw [hname, hname] at h
    exact wf.names k q hq r hr h
  owned := by
    intro k q hq
    by_cases e : q = p
    · subst e
      simpa using hn
    · rw [drv.write_mem_ne _ e]
      exact wf.owned k q hq
  ids := by
    intro k q hq
    by_cases e : q = p
    · subst e
      simpa using wf.ids k q hq
    · rw [drv.write_mem_ne _ e]
      exact wf.ids k q hq
  notNull := wf.notNull

/-- A new entry with one owner, at a free address, under a name of its own. -/
theorem of_insert (wf : drv.WellFormed) {k : Kind} {p : Ptr} {e : Entry} (free : drv.Free p)
    (name : ∀ q ∈ drv.mList k, (drv.mem q).name ≠ e.name) (id : e.id = k.id)
    (owner : e.ownerCount = 1) :
    ((drv.write p e).setList k (drv.mList k ++ [p])).WellFormed := by
  have hother : ∀ l, ∀ q ∈ drv.mList l, q ≠ p := fun l q hq eq => free.2 l (eq ▸ hq)
  -- A listed address is an old one of its list, or the new one of list `k`.
  have hcases : ∀ l q, q ∈ ((drv.write p e).setList k (drv.mList k ++ [p])).mList l →
      (q ∈ drv.mList l ∧ q ≠ p) ∨ (l = k ∧ q = p) := by
    intro l q hq
    by_cases hl : l = k
    · subst hl
      rw [setList_mList_self] at hq
      rcases List.mem_append.mp hq with hq | hq
      · exact .inl ⟨hq, hother l q hq⟩
      · exact .inr ⟨rfl, List.mem_singleton.mp hq⟩
    · rw [drv.write p e |>.setList_mList_ne _ hl] at hq
      exact .inl ⟨hq, hother l q hq⟩
  constructor
  · intro l
    by_cases hl : l = k
    · subst hl
      rw [setList_mList_self]
      exact List.nodup_append.mpr ⟨wf.nodup l, List.nodup_singleton p, fun q hq r hr =>
        List.mem_singleton.mp hr ▸ hother l q hq⟩
    · rw [setList_mList_ne _ _ hl]
      exact wf.nodup l
  · intro l q hq r hr h
    simp only [setList_mem] at h
    rcases hcases l q hq with ⟨hold, hqp⟩ | ⟨hk, hqp⟩ <;>
      rcases hcases l r hr with ⟨hold', hrp⟩ | ⟨hk', hrp⟩
    · rw [drv.write_mem_ne _ hqp, drv.write_mem_ne _ hrp] at h
      exact wf.names l q hold r hold' h
    · rw [hrp, drv.write_mem_ne _ hqp, write_mem_self] at h
      exact absurd h (name q (hk' ▸ hold))
    · rw [hqp, drv.write_mem_ne _ hrp, write_mem_self] at h
      exact absurd h.symm (name r (hk ▸ hold'))
    · rw [hqp, hrp]
  · intro l q hq
    simp only [setList_mem]
    rcases hcases l q hq with ⟨hq, hqp⟩ | ⟨_, rfl⟩
    · rw [drv.write_mem_ne _ hqp]
      exact wf.owned l q hq
    · rw [write_mem_self]
      omega
  · intro l q hq
    simp only [setList_mem]
    rcases hcases l q hq with ⟨hq, hqp⟩ | ⟨rfl, rfl⟩
    · rw [drv.write_mem_ne _ hqp]
      exact wf.ids l q hq
    · rw [write_mem_self, id]
  · intro l h0
    rcases hcases l 0 h0 with ⟨h0, _⟩ | ⟨_, rfl⟩
    · exact wf.notNull l h0
    · exact free.1 rfl

/-- An entry that leaves its list leaves nothing else. -/
theorem mem_erase (wf : drv.WellFormed) {k l : Kind} {p q : Ptr} (hp : p ∈ drv.mList k)
    (e : Entry) :
    q ∈ ((drv.write p e).setList k ((drv.mList k).erase p)).mList l ↔
      q ∈ drv.mList l ∧ q ≠ p := by
  by_cases hl : l = k
  · subst hl
    rw [setList_mList_self, (wf.nodup l).mem_erase_iff]
    exact and_comm
  · rw [setList_mList_ne _ _ hl, write_mList]
    exact ⟨fun hq => ⟨hq, fun he => hl (wf.kind_unique (he ▸ hq) hp)⟩, fun hq => hq.1⟩

/-- An entry leaves its list; what is then written to it does not matter. -/
theorem of_erase (wf : drv.WellFormed) {k : Kind} {p : Ptr} (hp : p ∈ drv.mList k)
    (e : Entry) : ((drv.write p e).setList k ((drv.mList k).erase p)).WellFormed := by
  apply wf.of_sublist
  · intro l
    by_cases hl : l = k
    · subst hl
      rw [setList_mList_self]
      exact List.erase_sublist
    · rw [setList_mList_ne _ _ hl]
      exact List.Sublist.refl _
  · intro l q hq
    have hqp : q ≠ p := ((wf.mem_erase hp e).mp hq).2
    simp only [setList_mem, drv.write_mem_ne _ hqp, and_self]

end Driver.WellFormed

/-! What the critical sections do, case by case. -/

/-- A new entry, listed and with its first owner. -/
def insertNew (drv : Driver) (k : Kind) (param : IpcCreate) (p : Ptr) : Driver :=
  (drv.write p { fill k param p with ownerCount := 1 }).setList k (drv.mList k ++ [p])

theorem mem_insertNew {drv : Driver} {k l : Kind} {param : IpcCreate} {p q : Ptr}
    (h : q ∈ (insertNew drv k param p).mList l) : q ∈ drv.mList l ∨ (l = k ∧ q = p) := by
  by_cases hl : l = k
  · subst hl
    simpa [insertNew] using h
  · rw [insertNew, Driver.setList_mList_ne _ _ hl] at h
    exact .inl h

theorem registryCreate_found {drv : Driver} {k : Kind} {param : IpcCreate} {p : Ptr}
    (kzalloc : Option Ptr) (h : findName drv k param.name = some p) :
    registryCreate k (fill k) drv param kzalloc = (countOwner drv p, userHandle p) := by
  simp only [registryCreate, h]

theorem registryCreate_new {drv : Driver} {k : Kind} {param : IpcCreate} (p : Ptr)
    (h : findName drv k param.name = none) :
    registryCreate k (fill k) drv param (some p) = (insertNew drv k param p, userHandle p) := by
  simp only [registryCreate, h, insertNew, countOwner, Driver.setList_mem,
    Driver.write_mem_self, fill_ownerCount]
  simp [Driver.write, Driver.setList]

theorem registryCreate_failed {drv : Driver} {k : Kind} {param : IpcCreate}
    (h : findName drv k param.name = none) :
    registryCreate k (fill k) drv param none = (drv, userHandle 0) := by
  simp only [registryCreate, h]

theorem registryClose_unlisted {drv : Driver} {k : Kind} {param : IpcClose}
    (h : param.handle = 0 ∨ containerOf param.handle ∉ drv.mList k) :
    registryClose k drv param = (drv, -EINVAL) := by
  unfold registryClose
  split
  · rfl
  · rename_i hn
    have hmem := h.resolve_left hn
    simp only [closeLoop_of_not_mem _ _ hmem, ite_eq_right_iff]
    intro _
    simp [Driver.setList]

section Close

variable {drv : Driver} {k : Kind} {p : Ptr}

theorem registryClose_last (wf : drv.WellFormed) (param : IpcClose) (h : p ∈ drv.mList k)
    (hp : containerOf param.handle = p) (last : (drv.mem p).ownerCount = 1) :
    registryClose k drv param =
      ((drv.write p { drv.mem p with ownerCount := 0 }).setList k ((drv.mList k).erase p), 0) := by
  subst hp
  have hn : containerOf param.handle ≠ 0 := fun e => wf.notNull k (e ▸ h)
  have hh : param.handle ≠ 0 := fun e => hn (by simp [e, containerOf])
  unfold registryClose
  rw [if_neg hh, if_pos ⟨hn, wf.ids k _ h⟩, closeLoop_last _ (wf.nodup k) h last]
  simp only [Driver.setList, Driver.write]

theorem registryClose_busy (wf : drv.WellFormed) (param : IpcClose) (h : p ∈ drv.mList k)
    (hp : containerOf param.handle = p) (more : (drv.mem p).ownerCount ≠ 1) :
    registryClose k drv param =
      (drv.write p { drv.mem p with ownerCount := (drv.mem p).ownerCount - 1 }, -EBUSY) := by
  subst hp
  have hn : containerOf param.handle ≠ 0 := fun e => wf.notNull k (e ▸ h)
  have hh : param.handle ≠ 0 := fun e => hn (by simp [e, containerOf])
  unfold registryClose
  rw [if_neg hh, if_pos ⟨hn, wf.ids k _ h⟩, closeLoop_busy _ (wf.nodup k) h more]
  simp [Driver.setList, Driver.write]

end Close

namespace Driver.WellFormed

variable {drv : Driver}

theorem countOwner (wf : drv.WellFormed) {k : Kind} {p : Ptr} (hp : p ∈ drv.mList k) :
    (countOwner drv p).WellFormed :=
  wf.of_owners (by have := wf.owned k p hp; omega)

theorem insertNew (wf : drv.WellFormed) {k : Kind} {param : IpcCreate} {p : Ptr}
    (free : drv.Free p) (new : findName drv k param.name = none) :
    (insertNew drv k param p).WellFormed :=
  wf.of_insert free (by simpa using findName_none new) (fill_id k param p) rfl

theorem registryCreate (wf : drv.WellFormed) {k : Kind} {param : IpcCreate}
    {kzalloc : Option Ptr} (free : ∀ p, kzalloc = some p → drv.Free p) :
    (registryCreate k (fill k) drv param kzalloc).1.WellFormed := by
  cases h : findName drv k param.name with
  | some p =>
    rw [registryCreate_found _ h]
    exact wf.countOwner (findName_some h).1
  | none =>
    cases kzalloc with
    | none =>
      rw [registryCreate_failed h]
      exact wf
    | some p =>
      rw [registryCreate_new p h]
      exact wf.insertNew (free p rfl) h

theorem registryClose (wf : drv.WellFormed) (k : Kind) (param : IpcClose) :
    (registryClose k drv param).1.WellFormed := by
  by_cases h : containerOf param.handle ∈ drv.mList k
  · by_cases last : (drv.mem (containerOf param.handle)).ownerCount = 1
    · rw [registryClose_last wf _ h rfl last]
      exact wf.of_erase h _
    · rw [registryClose_busy wf _ h rfl last]
      have := wf.owned k _ h
      exact wf.of_owners (by omega)
  · rw [registryClose_unlisted (.inr h)]
    exact wf

theorem registryCloseAll (wf : drv.WellFormed) (k : Kind) :
    (registryCloseAll k drv).1.WellFormed := by
  apply wf.of_sublist
  · intro l
    by_cases hl : l = k
    · subst hl
      exact (drv.setList_mList_self l []).symm ▸ List.nil_sublist _
    · exact (drv.setList_mList_ne [] hl).symm ▸ List.Sublist.refl _
  · intro l q _
    exact ⟨rfl, rfl, rfl⟩

end Driver.WellFormed

end Gipcy.Linux
