import Gipcy.Qnx.Dispatch

/-! The registries of the manager. A create and a close as one change of the
driver each, for all four kinds at once; then what every state that can be
reached keeps of the lists. -/
namespace Gipcy.Qnx

open PosixSemaphore Transition
open Linux (CStr Ptr Kind nameSize_pos)

namespace Driver

variable (drv : Driver) (k l : Kind) (sem : Sem) (p : Ptr)

@[simp] theorem write_setLock (e : Entry) :
    (drv.setLock k sem).write p e = (drv.write p e).setLock k sem := rfl

@[simp] theorem setList_setLock (ps : List Ptr) :
    (drv.setLock k sem).setList l ps = (drv.setList l ps).setLock k sem := rfl

@[simp] theorem write_setList (ps : List Ptr) (e : Entry) :
    (drv.setList k ps).write p e = (drv.write p e).setList k ps := rfl

@[simp] theorem write_write (e e' : Entry) : (drv.write p e).write p e' = drv.write p e' := by
  simp [write]

theorem setList_mList_ne (ps : List Ptr) (h : l ≠ k) :
    (drv.setList k ps).mList l = drv.mList l := by
  simp [setList, h]

theorem Free.write_mem {drv : Driver} {p : Ptr} (free : drv.Free p) (e : Entry) {l : Kind} {q : Ptr}
    (hq : q ∈ drv.mList l) : (drv.write p e).mem q = drv.mem q := by
  apply drv.write_mem_ne e
  rintro rfl
  exact free.2 l hq

theorem write_self : drv.write p (drv.mem p) = drv := by
  simp [write]

@[simp] theorem semPostLock_setLock (lim : Limits) :
    semPostLock lim k (drv.setLock k sem) = drv.setLock k (semPost lim sem) := by
  simp [semPostLock]

@[simp] theorem countOwner_setLock :
    countOwner (drv.setLock k sem) p = (countOwner drv p).setLock k sem := rfl

@[simp] theorem countLock_setLock :
    countLock (drv.setLock k sem) p = (countLock drv p).setLock k sem := rfl

@[simp] theorem findName_setLock (name : CStr 128) :
    findName (drv.setLock k sem) l name = findName drv l name := rfl

end Driver

/-- The function returns, and the driver is then the given one. -/
def Ends {α : Type} (k : Kind) (r : Result α) (after : Driver) (value : α) : Prop :=
  ∃ sem, Up sem ∧ r = .done (after.setLock k sem) value

theorem Ends.map {α β : Type} {k : Kind} {r : Result α} {after : Driver} {value : α}
    (h : Ends k r after value) (f : α → β) : Ends k (r.map f) after (f value) := by
  obtain ⟨sem, hup, rfl⟩ := h
  exact ⟨sem, hup, rfl⟩

/-! The loop of a close. -/

section CloseLoop

variable {p : Ptr} {destroy : Entry → Entry} {ps : List Ptr} {mem : Ptr → Entry}

theorem closeLoop_of_not_mem (mem : Ptr → Entry) (error : Int) (h : p ∉ ps) :
    closeLoop p destroy ps mem error = (mem, ps, error) := by
  induction ps with
  | nil => rfl
  | cons q rest ih =>
    have hq : q ≠ p := fun e => h (e ▸ List.mem_cons_self)
    have hrest : p ∉ rest := fun m => h (List.mem_cons_of_mem _ m)
    simp only [closeLoop, hq, ih hrest, ↓reduceIte]

theorem closeLoop_last (error : Int) (nodup : ps.Nodup) (h : p ∈ ps)
    (last : (mem p).ownerCount = 1) :
    closeLoop p destroy ps mem error =
      (Function.update mem p (destroy { mem p with ownerCount := 0 }), ps.erase p, 0) := by
  induction ps with
  | nil => cases h
  | cons q rest ih =>
    obtain ⟨hq, nodup⟩ := List.nodup_cons.mp nodup
    by_cases e : q = p
    · subst e
      simp [closeLoop, last]
    · have hrest : p ∈ rest := (List.mem_cons.mp h).resolve_left (Ne.symm e)
      have herase : (q :: rest).erase p = q :: rest.erase p :=
        List.erase_cons_tail (by simpa using e)
      simp only [closeLoop, e, ih nodup hrest, herase, ↓reduceIte]

theorem closeLoop_busy (error : Int) (nodup : ps.Nodup) (h : p ∈ ps)
    (more : (mem p).ownerCount ≠ 1) :
    closeLoop p destroy ps mem error =
      (Function.update mem p { mem p with ownerCount := (mem p).ownerCount - 1 }, ps, -EBUSY) := by
  induction ps with
  | nil => cases h
  | cons q rest ih =>
    obtain ⟨hq, nodup⟩ := List.nodup_cons.mp nodup
    by_cases e : q = p
    · subst e
      have hn : (mem q).ownerCount - 1 ≠ 0 := by grind
      simp only [closeLoop, hn, ↓reduceIte, closeLoop_of_not_mem _ _ hq]
    · have hrest : p ∈ rest := (List.mem_cons.mp h).resolve_left (Ne.symm e)
      simp only [closeLoop, e, ih nodup hrest, ↓reduceIte]

end CloseLoop

/-! The functions by kind. -/

def createOf (lim : Limits) : Kind → Driver → IpcCreate → Option Ptr → Result Ptr
  | .sem => ipcSemCreate lim
  | .mutex => ipcMutexCreate lim
  | .event => ipcEventCreate lim
  | .shm => ipcShmOpen lim

def closeOf (lim : Limits) : Kind → Driver → IpcClose → Result Int
  | .sem => ipcSemClose lim
  | .mutex => ipcMutexClose lim
  | .event => ipcEventClose lim
  | .shm => ipcShmClose lim

/-- What each create does with the semaphore of a new entry. -/
def initOf (lim : Limits) : Kind → Int32 → Sem
  | .sem => fun value => semInit lim value.toUInt32
  | .mutex => fun value => if value ≠ 0 then semInit lim value.toUInt32 else some 0
  | .event => fun _ => semInit lim 1
  | .shm => fun _ => none

/-- The check that each close makes of the memory at its handle. -/
def acceptsOf : Kind → Entry → Bool
  | .sem => fun e => e.idOf .sem = Kind.sem.id
  | .mutex => fun _ => true
  | .event => fun e => e.idOf .event = Kind.mutex.id
  | .shm => fun e => e.idOf .shm = Kind.mutex.id

def destroyOf : Kind → Entry → Entry
  | .shm => fun e => e
  | _ => Entry.destroy

theorem createOf_eq (lim : Limits) (k : Kind) :
    createOf lim k = registryCreate lim k (initOf lim k) := by
  cases k <;> rfl

theorem ioDevctl_create_eq (lim : Limits) (drv : Driver) (malloc : Option Ptr) (k : Kind)
    (param : IpcCreate) :
    ioDevctl lim drv malloc (.create k param) =
      (createOf lim k drv param malloc).map .ofHandle := by
  cases k <;> rfl

theorem ioDevctl_close_eq (lim : Limits) (drv : Driver) (malloc : Option Ptr) (k : Kind)
    (param : IpcClose) :
    ioDevctl lim drv malloc (.close k param) = (closeOf lim k drv param).map .ofError := by
  cases k <;> rfl

/-- A new entry, with its first owner. -/
def newEntry (k : Kind) (sema : Sem) (name : CStr 128) (p : Ptr) : Entry :=
  { Entry.zero with name := name, handle := p, ownerCount := 1, sema := sema }.setId k

def insertEntry (k : Kind) (sema : Sem) (drv : Driver) (name : CStr 128) (p : Ptr) : Driver :=
  (drv.write p (newEntry k sema name p)).setList k (drv.mList k ++ [p])

section Outcomes

variable {lim : Limits} {drv : Driver} {k : Kind} {p : Ptr}

theorem registryCreate_found (lim : Limits) (init : Int32 → Sem) (malloc : Option Ptr)
    {param : IpcCreate} (h : Open drv) (hfind : findName drv k param.name = some p) :
    Ends k (registryCreate lim k init drv param malloc) (countOwner drv p) (drv.mem p).handle := by
  unfold registryCreate
  obtain ⟨n, hn⟩ := h.semWaitLock k (fun drv => _)
  rw [hn]
  refine ⟨semPost lim (some n), up_semPost lim n, ?_⟩
  simp [hfind, countOwner]

theorem registryCreate_new (lim : Limits) (init : Int32 → Sem) (p : Ptr) {param : IpcCreate}
    (h : Open drv) (hfind : findName drv k param.name = none) :
    Ends k (registryCreate lim k init drv param (some p))
      (insertEntry k (init param.value) drv param.name p) p := by
  unfold registryCreate
  obtain ⟨n, hn⟩ := h.semWaitLock k (fun drv => _)
  rw [hn]
  refine ⟨semPost lim (some n), up_semPost lim n, ?_⟩
  simp [hfind, countOwner, insertEntry, newEntry, Entry.zero, Entry.setId]

theorem registryClose_enters (lim : Limits) (h : Open drv) (exist : Entry → Bool)
    (destroy : Entry → Entry) {handle : Ptr} (hnull : handle ≠ 0) :
    ∃ n, registryClose lim k exist destroy drv ⟨handle⟩ =
      closeBody lim k exist destroy handle (drv.setLock k (some n)) := by
  obtain ⟨n, hn⟩ := h.semWaitLock k (closeBody lim k exist destroy handle)
  exact ⟨n, (if_neg hnull).trans hn⟩

/-- A close of the null handle returns at once; any other enters the registry. -/
theorem closeOf_cases (lim : Limits) (k : Kind) (h : Open drv) (handle : Ptr) :
    (handle = 0 ∧ closeOf lim k drv ⟨handle⟩ = .done drv (-EINVAL)) ∨
    (handle ≠ 0 ∧ ∃ n, closeOf lim k drv ⟨handle⟩ =
      closeBody lim k (acceptsOf k) (destroyOf k) handle (drv.setLock k (some n))) := by
  by_cases hnull : handle = 0
  · refine .inl ⟨hnull, ?_⟩
    cases k <;> exact if_pos hnull
  · refine .inr ⟨hnull, ?_⟩
    cases k with
    | sem =>
      -- It posts where the others wait.
      obtain ⟨n, hn⟩ := (h .sem).semPost lim
      exact ⟨n + 1, by simp only [closeOf, ipcSemClose, if_neg hnull, semPostLock, hn]; rfl⟩
    | mutex | event | shm => exact registryClose_enters lim h _ _ hnull

/-- A close finds no entry at its handle, or does not take it for one. -/
theorem closeOf_refused (lim : Limits) (h : Open drv) {handle : Ptr}
    (refused : handle ∉ drv.mList k ∨ acceptsOf k (drv.mem handle) = false) :
    Ends k (closeOf lim k drv ⟨handle⟩) drv (-EINVAL) := by
  obtain ⟨-, heq⟩ | ⟨-, n, heq⟩ := closeOf_cases lim k h handle
  · refine ⟨drv.lock k, h k, ?_⟩
    rw [heq]
    simp [Driver.setLock]
  · refine ⟨semPost lim (some n), up_semPost lim n, ?_⟩
    rw [heq]
    unfold closeBody
    rcases refused with hp | hid
    · split
      · simp [closeLoop_of_not_mem _ _ hp]
        simp [Driver.setList, Driver.setLock, semPostLock]
      · simp
    · simp [hid]

theorem closeOf_last (lim : Limits) (h : Open drv) (nodup : (drv.mList k).Nodup)
    (hp : p ∈ drv.mList k) (notNull : p ≠ 0) (accepts : acceptsOf k (drv.mem p) = true)
    (last : (drv.mem p).ownerCount = 1) :
    Ends k (closeOf lim k drv ⟨p⟩)
      ((drv.write p (destroyOf k { drv.mem p with ownerCount := 0 })).setList k
        ((drv.mList k).erase p)) 0 := by
  obtain ⟨hnull, -⟩ | ⟨-, n, heq⟩ := closeOf_cases lim k h p
  · exact absurd hnull notNull
  · refine ⟨semPost lim (some n), up_semPost lim n, ?_⟩
    rw [heq]
    unfold closeBody
    simp [accepts, closeLoop_last _ nodup hp last]
    simp [Driver.setList, Driver.setLock, Driver.write, semPostLock]

theorem closeOf_busy (lim : Limits) (h : Open drv) (nodup : (drv.mList k).Nodup)
    (hp : p ∈ drv.mList k) (notNull : p ≠ 0) (accepts : acceptsOf k (drv.mem p) = true)
    (more : (drv.mem p).ownerCount ≠ 1) :
    Ends k (closeOf lim k drv ⟨p⟩)
      (drv.write p { drv.mem p with ownerCount := (drv.mem p).ownerCount - 1 }) (-EBUSY) := by
  obtain ⟨hnull, -⟩ | ⟨-, n, heq⟩ := closeOf_cases lim k h p
  · exact absurd hnull notNull
  · refine ⟨semPost lim (some n), up_semPost lim n, ?_⟩
    rw [heq]
    unfold closeBody
    simp [accepts, closeLoop_busy _ nodup hp more]
    simp [Driver.setList, Driver.setLock, Driver.write, semPostLock]

end Outcomes

/-- Every list holds each of its entries once, no entry is in two lists, and each says what
it is. -/
structure Driver.WellFormed (drv : Driver) : Prop where
  nodup : ∀ k, (drv.mList k).Nodup
  notNull : ∀ k, ∀ p ∈ drv.mList k, p ≠ 0
  handle : ∀ k, ∀ p ∈ drv.mList k, (drv.mem p).handle = p
  id : ∀ k, ∀ p ∈ drv.mList k, (drv.mem p).idOf k = k.id
  kind : ∀ k l p, p ∈ drv.mList k → p ∈ drv.mList l → l = k

namespace Driver.WellFormed

variable {drv : Driver} {k : Kind} {p : Ptr}

/-- Entries leave the lists, and none of the others becomes another. -/
theorem of_sublist (wf : drv.WellFormed) {drv' : Driver}
    (lists : ∀ k, (drv'.mList k).Sublist (drv.mList k))
    (handle : ∀ p, (drv'.mem p).handle = (drv.mem p).handle)
    (id : ∀ k p, (drv'.mem p).idOf k = (drv.mem p).idOf k) : drv'.WellFormed where
  nodup := fun k => (wf.nodup k).sublist (lists k)
  notNull := fun k p hp => wf.notNull k p ((lists k).mem hp)
  handle := fun k p hp => (handle p).trans (wf.handle k p ((lists k).mem hp))
  id := fun k p hp => (id k p).trans (wf.id k p ((lists k).mem hp))
  kind := fun k l p hk hl => wf.kind k l p ((lists k).mem hk) ((lists l).mem hl)

theorem setLock (wf : drv.WellFormed) (k : Kind) (sem : Sem) : (drv.setLock k sem).WellFormed :=
  wf.of_sublist (fun _ => .refl _) (fun _ => rfl) fun _ _ => rfl

theorem write (wf : drv.WellFormed) {e : Entry} (handle : e.handle = (drv.mem p).handle)
    (id : ∀ k, e.idOf k = (drv.mem p).idOf k) : (drv.write p e).WellFormed := by
  have lists : ∀ l, ((drv.write p e).mList l).Sublist (drv.mList l) := fun _ => .refl _
  apply wf.of_sublist lists
  · intro q
    by_cases hq : q = p
    · subst hq
      rw [write_mem_self, handle]
    · rw [drv.write_mem_ne e hq]
  · intro k q
    by_cases hq : q = p
    · subst hq
      rw [write_mem_self, id]
    · rw [drv.write_mem_ne e hq]

theorem erase (wf : drv.WellFormed) (k : Kind) (p : Ptr) :
    (drv.setList k ((drv.mList k).erase p)).WellFormed := by
  have lists : ∀ l, ((drv.setList k ((drv.mList k).erase p)).mList l).Sublist (drv.mList l) := by
    intro l
    by_cases hl : l = k
    · subst hl
      rw [setList_mList_self]
      exact List.erase_sublist
    · rw [drv.setList_mList_ne k l _ hl]
  exact wf.of_sublist lists (fun _ => rfl) fun _ _ => rfl

/-- Memory that no list holds may change as it likes. -/
theorem write_free (wf : drv.WellFormed) (free : drv.Free p) (e : Entry) :
    (drv.write p e).WellFormed where
  nodup := wf.nodup
  notNull := wf.notNull
  handle := by
    intro k q hq
    rw [free.write_mem e hq]
    exact wf.handle k q hq
  id := by
    intro k q hq
    rw [free.write_mem e hq]
    exact wf.id k q hq
  kind := wf.kind

theorem insertEntry (wf : drv.WellFormed) (free : drv.Free p) (k : Kind) (sema : Sem)
    (name : CStr 128) : (insertEntry k sema drv name p).WellFormed := by
  have hwf := wf.write_free free (newEntry k sema name p)
  have member : ∀ {l q}, q ∈ (Qnx.insertEntry k sema drv name p).mList l →
      q ∈ drv.mList l ∨ q = p ∧ l = k := by
    intro l q hq
    by_cases hl : l = k
    · subst hl
      simp only [Qnx.insertEntry, setList_mList_self, List.mem_append, List.mem_singleton] at hq
      exact hq.imp_right fun h => ⟨h, rfl⟩
    · rw [Qnx.insertEntry, setList_mList_ne _ _ _ _ hl] at hq
      exact .inl hq
  constructor
  · intro l
    by_cases hl : l = k
    · subst hl
      rw [Qnx.insertEntry, setList_mList_self, List.nodup_append]
      refine ⟨wf.nodup l, List.nodup_cons.mpr ⟨List.not_mem_nil, .nil⟩, ?_⟩
      intro q hq r hr hqr
      rw [hqr, List.mem_singleton.mp hr] at hq
      exact free.2 l hq
    · rw [Qnx.insertEntry, setList_mList_ne _ _ _ _ hl]
      exact wf.nodup l
  · intro l q hq
    obtain hq | ⟨rfl, rfl⟩ := member hq
    · exact wf.notNull l q hq
    · exact free.1
  · intro l q hq
    obtain hq | ⟨rfl, rfl⟩ := member hq
    · exact hwf.handle l q hq
    · simp [Qnx.insertEntry, newEntry]
  · intro l q hq
    obtain hq | ⟨rfl, rfl⟩ := member hq
    · exact hwf.id l q hq
    · simp [Qnx.insertEntry, newEntry]
  · intro k l q hk hl
    obtain old | ⟨rfl, rfl⟩ := member hk <;> obtain old' | ⟨hq, rfl⟩ := member hl
    · exact wf.kind k l q old old'
    · exact absurd (hq ▸ old) (free.2 k)
    · exact absurd old' (free.2 l)
    · rfl

end Driver.WellFormed

/-- What holds of the driver that a handler leaves, if it leaves one. -/
def Result.All {α : Type} (P : Driver → Prop) : Result α → Prop
  | .done drv _ | .waits drv _ => P drv
  | .undefined => True

section Keeps

variable {lim : Limits} {drv : Driver} {k : Kind}

theorem Ends.wellFormed {α : Type} {r : Result α} {after : Driver} {value : α}
    (h : Ends k r after value) (wf : after.WellFormed) : r.All Driver.WellFormed := by
  obtain ⟨sem, -, rfl⟩ := h
  exact wf.setLock k sem

theorem Result.All.map {α β : Type} {P : Driver → Prop} {r : Result α} (h : r.All P) (f : α → β) :
    (r.map f).All P := by
  cases r <;> exact h

theorem createOf_wellFormed (h : Open drv) (wf : drv.WellFormed) {param : IpcCreate}
    {malloc : Option Ptr} (free : ∀ p, malloc = some p → drv.Free p) :
    (createOf lim k drv param malloc).All Driver.WellFormed := by
  rw [createOf_eq]
  cases hfind : findName drv k param.name with
  | some p =>
    exact (registryCreate_found lim _ malloc h hfind).wellFormed (wf.write rfl fun _ => rfl)
  | none =>
    cases malloc with
    | none =>
      rw [registryCreate_undefined h hfind]
      trivial
    | some p =>
      exact (registryCreate_new lim _ p h hfind).wellFormed (wf.insertEntry (free p rfl) _ _ _)

theorem closeOf_wellFormed (h : Open drv) (wf : drv.WellFormed) (handle : Ptr) :
    (closeOf lim k drv ⟨handle⟩).All Driver.WellFormed := by
  by_cases refused : handle ∉ drv.mList k ∨ acceptsOf k (drv.mem handle) = false
  · exact (closeOf_refused lim h refused).wellFormed wf
  · have hp : handle ∈ drv.mList k := Classical.not_not.mp fun hp => refused (.inl hp)
    have accepts : acceptsOf k (drv.mem handle) = true :=
      (Bool.not_eq_false _).mp fun ha => refused (.inr ha)
    have notNull := wf.notNull k handle hp
    by_cases last : (drv.mem handle).ownerCount = 1
    · apply (closeOf_last lim h (wf.nodup k) hp notNull accepts last).wellFormed
      have hwf : (drv.write handle
          (destroyOf k { drv.mem handle with ownerCount := 0 })).WellFormed := by
        cases k <;> exact wf.write rfl fun _ => rfl
      exact hwf.erase k handle
    · exact (closeOf_busy lim h (wf.nodup k) hp notNull accepts last).wellFormed
        (wf.write rfl fun _ => rfl)

theorem objectLock_wellFormed (h : Open drv) (wf : drv.WellFormed) (failed : Int → Int)
    (param : IpcLock) (clock : Clock) :
    (objectLock lim k failed drv param clock).All Driver.WellFormed := by
  have outcome := objectLock_outcome (k := k) lim h failed param clock
  generalize objectLock lim k failed drv param clock = r at outcome
  have keep : ∀ {sem : Sem} {e : Entry}, e.handle = (drv.mem param.handle).handle →
      (∀ l, e.idOf l = (drv.mem param.handle).idOf l) →
      ((drv.write param.handle e).setLock k sem).WellFormed := fun handle id =>
    (wf.write handle id).setLock _ _
  cases outcome with
  | refused sem | waits sem | failed sem => exact wf.setLock k sem
  | took sem | unheeded sem => exact keep rfl fun _ => rfl
  | overflow => trivial

theorem objectUnlock_wellFormed (h : Open drv) (wf : drv.WellFormed) (id : UInt32) (handle : Ptr) :
    (objectUnlock lim k id drv handle).All Driver.WellFormed := by
  unfold objectUnlock
  split
  · exact wf
  · obtain ⟨sem, -, heq⟩ := handleCheck_eq lim k h id handle (fun drv exist => _)
    rw [heq]
    have hwf := wf.setLock k sem
    split
    · exact hwf.write rfl fun _ => rfl
    · exact hwf

theorem ioDevctl_wellFormed (h : Open drv) (wf : drv.WellFormed) {malloc : Option Ptr}
    (free : ∀ p, malloc = some p → drv.Free p) (command : Command) :
    (ioDevctl lim drv malloc command).All Driver.WellFormed := by
  cases command with
  | create k param =>
    rw [ioDevctl_create_eq]
    exact (createOf_wellFormed h wf free).map _
  | lock k param clock =>
    cases k with
    | shm => exact wf
    | _ => exact (objectLock_wellFormed h wf _ param clock).map _
  | unlock k param =>
    cases k with
    | shm => exact wf
    | _ => exact (objectUnlock_wellFormed h wf _ _).map _
  | close k param =>
    rw [ioDevctl_close_eq]
    exact (closeOf_wellFormed h wf param.handle).map _
  | eventReset param => exact (objectUnlock_wellFormed h wf _ _).map _
  | unknown => exact wf

end Keeps

theorem Server.wellFormed_reachable {lim : Limits} {ι : Type*} {s : Server}
    (hs : (system lim ι).Reachable s) : s.drv.WellFormed := by
  apply hs.invariant (I := fun s => s.drv.WellFormed)
  · rintro s ⟨mem, rfl⟩
    exact ⟨fun k => .nil, by simp [createInstance], by simp [createInstance],
      by simp [createInstance], by simp [createInstance]⟩
  · rintro s ⟨c, move⟩ t hr wf step
    have h : Open s.drv := open_reachable hr
    cases move with
    | request command malloc =>
      obtain ⟨⟨-, free⟩, step⟩ := Option.ite_none_right_eq_some.mp step
      cases Option.some.inj step
      have hall : (ioDevctl lim s.drv malloc command).All Driver.WellFormed :=
        ioDevctl_wellFormed h wf free command
      unfold after
      split <;> simp_all [Result.All]
    | expire errno =>
      simp only [system, System.ofNext, next] at step
      split at step <;> cases step
      exact wf
    | scribble p e =>
      obtain ⟨free, step⟩ := Option.ite_none_right_eq_some.mp step
      cases step
      exact wf.write_free free e

end Gipcy.Qnx
