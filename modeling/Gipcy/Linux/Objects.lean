import Gipcy.Lib.KeyedStore
import Gipcy.Linux.References

/-! Requests that run without interruption, as actions on the objects that they
name: a request reads and changes one object, whatever else is registered. -/
namespace Gipcy.Linux

open CountingSemaphore Transition KeyedStore

/-- A lock has the timeout 0; `memory` is whether a create that needs memory gets
it. -/
inductive ObjectRequest where
  | create (k : Kind) (param : IpcCreate) (memory : Bool)
  | lock (k : Kind) (handle : Ptr) (lockerid : Int32)
  | unlock (k : Kind) (handle : Ptr) (lockerid : Int32)
  | reset (handle : Ptr)
  | close (k : Kind) (handle : Ptr)

inductive Reply where
  | handle (handle : Ptr)
  | error (error : Int)

inductive Performs (drv : Driver) : ObjectRequest → Reply → Driver → Prop where
  | create {k param p} : drv.Free p →
      Performs drv (.create k param true)
        (.handle (registryCreate k (fill k) drv param (some p)).2)
        (registryCreate k (fill k) drv param (some p)).1
  | createFails {k param} :
      Performs drv (.create k param false) (.handle (registryCreate k (fill k) drv param none).2)
        (registryCreate k (fill k) drv param none).1
  | lock {k handle lockerid how r} : ipcLock k drv drv ⟨handle, 0, lockerid⟩ how = some r →
      Performs drv (.lock k handle lockerid) (.error r.error) r.after
  | unlock {k handle lockerid r} : ipcUnlock k drv ⟨handle, lockerid⟩ = some r →
      Performs drv (.unlock k handle lockerid) (.error r.2) r.1
  | reset {handle} :
      Performs drv (.reset handle) (.error (ipcEventReset drv ⟨handle⟩).2)
        (ipcEventReset drv ⟨handle⟩).1
  | close {k handle} :
      Performs drv (.close k handle) (.error (registryClose k drv ⟨handle⟩).2)
        (registryClose k drv ⟨handle⟩).1

/-- The handle of a request that has one. -/
def ObjectRequest.handle? : ObjectRequest → Option Ptr
  | .create _ _ _ => none
  | .lock _ handle _ | .unlock _ handle _ | .reset handle | .close _ handle => some handle

/-- The object that a request is about: the one of its name, or that of its live
handle. A shared memory is neither locked nor unlocked. -/
def Concerns (drv : Driver) (k : Kind) (name : CStr 128) : ObjectRequest → Prop
  | .create l param _ => l = k ∧ param.name = name
  | .lock l handle _ | .unlock l handle _ => l = k ∧ k ≠ .shm ∧ Designates drv k name handle
  | .reset handle => k = .event ∧ Designates drv k name handle
  | .close l handle => l = k ∧ Designates drv k name handle

/-! An object by itself. -/

def takeUnit (error : Int) (e : Entry) : Entry × Int :=
  if 0 < e.sema then ({ e with sema := e.sema - 1, lockCount := e.lockCount + 1 }, 0)
  else (e, error)

/-- A lock with the timeout 0. -/
def lockEntry : Kind → Int32 → Entry → Entry × Int
  | .sem, _, e => takeUnit (-ETIME) e
  | .mutex, lockerid, e =>
    if e.lockerid = lockerid then (e, 0)
    else if 0 < e.sema then ({ (takeUnit (-ETIME) e).1 with lockerid := lockerid }, 0)
    else (e, -ETIME)
  | .event, _, e => takeUnit (-ETIMEDOUT) e
  | .shm, _, e => (e, 0)

def raiseEntry (e : Entry) : Entry × Int :=
  if e.lockCount ≠ 0 then (e.up.decLock, 0) else (e, 0)

def unlockEntry : Kind → Int32 → Entry → Entry × Int
  | .sem, _, e => (e.up.decLock, 0)
  | .mutex, lockerid, e =>
    if e.lockerid ≠ lockerid then (e, 0) else ({ e with lockerid := 0 }.up.decLock, 0)
  | .event, _, e => raiseEntry e
  | .shm, _, e => (e, 0)

/-- An answer without the address in it. -/
inductive Answer where
  | handle
  | null
  | error (error : Int)
deriving DecidableEq

def Reply.answer : Reply → Answer
  | .handle p => if p = userHandle 0 then .null else .handle
  | .error e => .error e

def closeEntry (e : Entry) : Option Entry × Answer :=
  if e.ownerCount = 1 then (none, .error 0)
  else (some { e with ownerCount := e.ownerCount - 1 }, .error (-EBUSY))

/-- What a request does to its object, which is there or not. -/
def ObjectRequest.effect : ObjectRequest → Option Entry → Option Entry × Answer
  | .create _ _ _, some e => (some { e with ownerCount := e.ownerCount + 1 }, .handle)
  | .create k param true, none => (some { fill k param 0 with ownerCount := 1 }, .handle)
  | .create _ _ false, none => (none, .null)
  | .lock k _ lockerid, some e =>
    (some (lockEntry k lockerid e).1, .error (lockEntry k lockerid e).2)
  | .unlock k _ lockerid, some e =>
    (some (unlockEntry k lockerid e).1, .error (unlockEntry k lockerid e).2)
  | .reset _, some e => (some (raiseEntry e).1, .error (raiseEntry e).2)
  | .close _ _, some e => closeEntry e
  | _, none => (none, .null)

/-- The entry at `p` wherever it lies: an entry records its own address. -/
def Entry.relative (p : Ptr) (e : Entry) : Entry :=
  { e with handle := if e.handle = p then 0 else e.handle }

/-- The registered objects by kind and name. -/
def contents (drv : Driver) (key : Kind × CStr 128) : Option Entry :=
  (findName drv key.1 key.2).map fun p => (drv.mem p).relative p

section Contents

variable {drv : Driver} {k : Kind} {p : Ptr} {e : Entry}

theorem Driver.WellFormed.findName_iff (wf : drv.WellFormed) {name : CStr 128} :
    findName drv k name = some p ↔ p ∈ drv.mList k ∧ (drv.mem p).name = name := by
  constructor
  · exact findName_some
  · rintro ⟨hp, hname⟩
    cases hfind : findName drv k name with
    | some q =>
      obtain ⟨hq, hqname⟩ := findName_some hfind
      rw [wf.names k q hq p hp (hqname.trans hname.symm)]
    | none => exact absurd hname (findName_none hfind p hp)

theorem Driver.WellFormed.contents_iff (wf : drv.WellFormed) {name : CStr 128} :
    contents drv (k, name) = some e ↔
      ∃ p ∈ drv.mList k, (drv.mem p).name = name ∧ (drv.mem p).relative p = e := by
  simp only [contents, Option.map_eq_some_iff, wf.findName_iff, and_assoc]

theorem Driver.WellFormed.contents_of_mem (wf : drv.WellFormed) (hp : p ∈ drv.mList k) :
    contents drv (k, (drv.mem p).name) = some ((drv.mem p).relative p) :=
  wf.contents_iff.mpr ⟨p, hp, rfl, rfl⟩

/-- Two drivers that list the same entries of a key, with the same fields. -/
theorem Driver.WellFormed.contents_congr (wf : drv.WellFormed) {d : Driver} (wf' : d.WellFormed)
    {name : CStr 128} (same : ∀ q, (q ∈ d.mList k ∧ (d.mem q).name = name) ↔
      (q ∈ drv.mList k ∧ (drv.mem q).name = name))
    (mem : ∀ q ∈ drv.mList k, (drv.mem q).name = name → d.mem q = drv.mem q) :
    contents d (k, name) = contents drv (k, name) := by
  have hfind : findName d k name = findName drv k name :=
    Option.ext fun q => by rw [wf'.findName_iff, wf.findName_iff, same]
  simp only [contents, hfind]
  cases h : findName drv k name with
  | none => rfl
  | some q =>
    obtain ⟨hq, hname⟩ := wf.findName_iff.mp h
    simp only [Option.map_some, mem q hq hname]

/-- A listed entry is written to. -/
theorem contents_write (wf : drv.WellFormed) (wf' : (drv.write p e).WellFormed)
    (hp : p ∈ drv.mList k) (hname : e.name = (drv.mem p).name) :
    contents (drv.write p e) =
      Function.update (contents drv) (k, (drv.mem p).name) (some (e.relative p)) := by
  funext ⟨l, name⟩
  by_cases hkey : (l, name) = (k, (drv.mem p).name)
  · cases hkey
    rw [Function.update_self]
    exact wf'.contents_iff.mpr ⟨p, hp, by simp [hname], by simp⟩
  · rw [Function.update_of_ne hkey]
    have hne : ∀ q ∈ drv.mList l, (drv.mem q).name = name → q ≠ p := by
      rintro q hq hqname rfl
      exact hkey (by rw [wf.kind_unique hq hp, hqname])
    apply wf.contents_congr wf'
    · intro q
      by_cases hqp : q = p
      · subst hqp
        simp only [Driver.write_mList, Driver.write_mem_self, hname]
      · simp only [Driver.write_mList, drv.write_mem_ne e hqp]
    · exact fun q hq hqname => drv.write_mem_ne e (hne q hq hqname)

/-- A new entry. -/
theorem contents_insertNew (wf : drv.WellFormed) {param : IpcCreate} (free : drv.Free p)
    (new : findName drv k param.name = none) :
    contents (insertNew drv k param p) = Function.update (contents drv) (k, param.name)
      (some (Entry.relative p { fill k param p with ownerCount := 1 })) := by
  have wf' := wf.insertNew free new
  have hother : ∀ l, ∀ q ∈ drv.mList l, q ≠ p := fun l q hq e => free.2 l (e ▸ hq)
  have hself : (insertNew drv k param p).mem p = { fill k param p with ownerCount := 1 } := by
    simp [insertNew]
  funext key
  obtain ⟨l, name⟩ := key
  by_cases hkey : (l, name) = (k, param.name)
  · cases hkey
    rw [Function.update_self]
    exact wf'.contents_iff.mpr ⟨p, by simp [insertNew], by simp [hself], by rw [hself]⟩
  · rw [Function.update_of_ne hkey]
    have hmem : ∀ q ∈ drv.mList l, (insertNew drv k param p).mem q = drv.mem q := fun q hq => by
      rw [insertNew, Driver.setList_mem, drv.write_mem_ne _ (hother l q hq)]
    refine wf.contents_congr wf' (fun q => ?_) fun q hq _ => hmem q hq
    constructor
    · rintro ⟨hq, hname⟩
      rcases mem_insertNew hq with hq | ⟨rfl, rfl⟩
      · exact ⟨hq, hmem q hq ▸ hname⟩
      · rw [hself, fill_name] at hname
        exact absurd (by rw [hname]) hkey
    · rintro ⟨hq, hname⟩
      refine ⟨?_, (hmem q hq).symm ▸ hname⟩
      by_cases hl : l = k
      · subst hl
        simp [insertNew, hq]
      · rw [insertNew, Driver.setList_mList_ne _ _ hl]
        exact hq

/-- A listed entry leaves its list. -/
theorem contents_erase (wf : drv.WellFormed) (hp : p ∈ drv.mList k) :
    contents ((drv.write p e).setList k ((drv.mList k).erase p)) =
      Function.update (contents drv) (k, (drv.mem p).name) none := by
  have wf' := wf.of_erase hp e
  have hmem : ∀ q, q ≠ p →
      ((drv.write p e).setList k ((drv.mList k).erase p)).mem q = drv.mem q := fun q hq => by
    rw [Driver.setList_mem, drv.write_mem_ne _ hq]
  funext ⟨l, name⟩
  by_cases hkey : (l, name) = (k, (drv.mem p).name)
  · cases hkey
    rw [Function.update_self, Option.eq_none_iff_forall_ne_some]
    intro e' he
    obtain ⟨q, hq, hname, -⟩ := wf'.contents_iff.mp he
    obtain ⟨hq, hqp⟩ := (wf.mem_erase hp e).mp hq
    rw [hmem q hqp] at hname
    exact hqp (wf.names k q hq p hp hname)
  · rw [Function.update_of_ne hkey]
    have hne : ∀ q ∈ drv.mList l, (drv.mem q).name = name → q ≠ p := by
      rintro q hq hqname rfl
      exact hkey (by rw [wf.kind_unique hq hp, hqname])
    refine wf.contents_congr wf' (fun q => ?_) fun q hq hqname => hmem q (hne q hq hqname)
    rw [wf.mem_erase hp]
    constructor
    · rintro ⟨⟨hq, hqp⟩, hname⟩
      exact ⟨hq, hmem q hqp ▸ hname⟩
    · rintro ⟨hq, hname⟩
      exact ⟨⟨hq, hne q hq hname⟩, (hmem q (hne q hq hname)).symm ▸ hname⟩

end Contents

/-- Entries of other keys stay listed and keep every field. -/
structure Spares (drv d : Driver) (key : Kind × CStr 128) : Prop where
  wf : d.WellFormed
  others : ∀ l, ∀ q ∈ drv.mList l, (l, (drv.mem q).name) ≠ key → q ∈ d.mList l ∧ d.mem q = drv.mem q

section Requests

variable {drv d : Driver} {k : Kind} {name : CStr 128} {p : Ptr} {e : Entry}

theorem Driver.WellFormed.spares_same (wf : drv.WellFormed) (key : Kind × CStr 128) :
    Spares drv drv key where
  wf := wf
  others := fun _ _ hq _ => ⟨hq, rfl⟩

theorem Driver.WellFormed.spares_write (wf : drv.WellFormed) (wf' : (drv.write p e).WellFormed)
    (hp : p ∈ drv.mList k) : Spares drv (drv.write p e) (k, (drv.mem p).name) where
  wf := wf'
  others := by
    intro l q hq hkey
    refine ⟨hq, drv.write_mem_ne e ?_⟩
    rintro rfl
    exact hkey (by rw [wf.kind_unique hq hp])

theorem Driver.WellFormed.spares_insertNew (wf : drv.WellFormed) {param : IpcCreate}
    (free : drv.Free p) (new : findName drv k param.name = none) :
    Spares drv (Linux.insertNew drv k param p) (k, param.name) where
  wf := wf.insertNew free new
  others := by
    intro l q hq _
    have hqp : q ≠ p := fun e => free.2 l (e ▸ hq)
    rw [Linux.insertNew, Driver.setList_mem, drv.write_mem_ne _ hqp]
    refine ⟨?_, rfl⟩
    by_cases hl : l = k
    · subst hl
      simp [hq]
    · rw [Driver.setList_mList_ne _ _ hl]
      exact hq

theorem Driver.WellFormed.spares_erase (wf : drv.WellFormed) (hp : p ∈ drv.mList k) :
    Spares drv ((drv.write p e).setList k ((drv.mList k).erase p)) (k, (drv.mem p).name) where
  wf := wf.of_erase hp e
  others := by
    intro l q hq hkey
    have hqp : q ≠ p := by
      rintro rfl
      exact hkey (by rw [wf.kind_unique hq hp])
    exact ⟨(wf.mem_erase hp e).mpr ⟨hq, hqp⟩, by rw [Driver.setList_mem, drv.write_mem_ne _ hqp]⟩

/-- What a request that answers `a` left behind, for the object of the key. -/
structure Does (drv d : Driver) (key : Kind × CStr 128) (r : ObjectRequest) (a : Reply) :
    Prop where
  spares : Spares drv d key
  view : contents d = Function.update (contents drv) key (r.effect (contents drv key)).1
  answer : a.answer = (r.effect (contents drv key)).2

/-- A write that changes the entry like the request's effect. -/
theorem Driver.WellFormed.does_write (wf : drv.WellFormed) {r : ObjectRequest} {a : Reply}
    (wf' : (drv.write p e).WellFormed) (hp : p ∈ drv.mList k) (hname : e.name = (drv.mem p).name)
    (heffect : r.effect (some ((drv.mem p).relative p)) = (some (e.relative p), a.answer)) :
    Does drv (drv.write p e) (k, (drv.mem p).name) r a where
  spares := wf.spares_write wf' hp
  view := by rw [contents_write wf wf' hp hname, wf.contents_of_mem hp, heffect]
  answer := by rw [wf.contents_of_mem hp, heffect]

/-- An update that leaves the registration of an entry alone. -/
def SameEntry (e e' : Entry) : Prop :=
  e'.name = e.name ∧ e'.ownerCount = e.ownerCount ∧ e'.id = e.id

theorem Driver.WellFormed.write_same (wf : drv.WellFormed) (h : SameEntry (drv.mem p) e) :
    (drv.write p e).WellFormed := by
  apply wf.of_sublist
  · exact fun k => List.Sublist.refl _
  · intro k q _
    by_cases hqp : q = p
    · rw [hqp, drv.write_mem_self]
      exact h
    · rw [drv.write_mem_ne e hqp]
      exact ⟨rfl, rfl, rfl⟩

theorem Driver.WellFormed.handleExists_userHandle (wf : drv.WellFormed) (hp : p ∈ drv.mList k) :
    handleExists k drv (userHandle p) = true := by
  have hne : p ≠ 0 := fun e => wf.notNull k (e ▸ hp)
  simp [handleExists, userHandle_ne_zero, hne, wf.ids k p hp]

/-! The entry-level effects do not look at the address. -/

theorem takeUnit_relative (error : Int) (p : Ptr) (e : Entry) :
    takeUnit error (e.relative p) = ((takeUnit error e).1.relative p, (takeUnit error e).2) := by
  by_cases h : 0 < e.sema <;> simp [takeUnit, Entry.relative, h]

theorem lockEntry_relative (k : Kind) (lockerid : Int32) (p : Ptr) (e : Entry) :
    lockEntry k lockerid (e.relative p) =
      ((lockEntry k lockerid e).1.relative p, (lockEntry k lockerid e).2) := by
  cases k with
  | sem => exact takeUnit_relative _ p e
  | mutex =>
    by_cases hl : e.lockerid = lockerid
    · simp [lockEntry, Entry.relative, hl]
    · by_cases h : 0 < e.sema <;> simp [lockEntry, takeUnit, Entry.relative, hl, h]
  | event => exact takeUnit_relative _ p e
  | shm => rfl

theorem raiseEntry_relative (p : Ptr) (e : Entry) :
    raiseEntry (e.relative p) = ((raiseEntry e).1.relative p, (raiseEntry e).2) := by
  by_cases h : e.lockCount = 0 <;> simp [raiseEntry, Entry.relative, Entry.up, Entry.decLock, h]

theorem unlockEntry_relative (k : Kind) (lockerid : Int32) (p : Ptr) (e : Entry) :
    unlockEntry k lockerid (e.relative p) =
      ((unlockEntry k lockerid e).1.relative p, (unlockEntry k lockerid e).2) := by
  cases k with
  | sem => rfl
  | mutex =>
    by_cases hl : e.lockerid = lockerid <;>
      simp [unlockEntry, Entry.relative, Entry.up, Entry.decLock, hl]
  | event => exact raiseEntry_relative p e
  | shm => rfl

theorem lockEntry_same (k : Kind) (lockerid : Int32) (e : Entry) :
    SameEntry e (lockEntry k lockerid e).1 := by
  cases k <;> simp only [lockEntry, takeUnit]
  · split <;> exact ⟨rfl, rfl, rfl⟩
  · split
    · exact ⟨rfl, rfl, rfl⟩
    · split <;> exact ⟨rfl, rfl, rfl⟩
  · split <;> exact ⟨rfl, rfl, rfl⟩
  · exact ⟨rfl, rfl, rfl⟩

theorem raiseEntry_same (e : Entry) : SameEntry e (raiseEntry e).1 := by
  unfold raiseEntry
  split <;> exact ⟨rfl, rfl, rfl⟩

theorem unlockEntry_same (k : Kind) (lockerid : Int32) (e : Entry) :
    SameEntry e (unlockEntry k lockerid e).1 := by
  cases k with
  | mutex =>
    simp only [unlockEntry]
    split <;> exact ⟨rfl, rfl, rfl⟩
  | event => exact raiseEntry_same e
  | sem | shm => exact ⟨rfl, rfl, rfl⟩

/-! The requests are these effects on the entry at the address. -/

theorem ipcLock_zero (wf : drv.WellFormed) (hp : p ∈ drv.mList k) {lockerid : Int32}
    {how : WaitEnd} {r : Outcome}
    (h : ipcLock k drv drv ⟨userHandle p, 0, lockerid⟩ how = some r) :
    r.after = drv.write p (lockEntry k lockerid (drv.mem p)).1 ∧
      r.error = (lockEntry k lockerid (drv.mem p)).2 := by
  have hh := wf.handleExists_userHandle hp
  have h0 : ¬ (0 : Int32) < 0 := by decide
  cases k with
  | sem =>
    simp only [ipcLock, ipcSemLock, hh, ↓reduceIte, h0, containerOf_userHandle] at h
    obtain ⟨e, he, rfl⟩ := Option.map_eq_some_iff.mp h
    rcases Entry.down_timed he with ⟨rfl, hpos, rfl⟩ | ⟨rfl, hz, rfl⟩
    · simp [lockEntry, takeUnit, hpos, Entry.incLock]
    · simp [lockEntry, takeUnit, Int.not_lt.mpr hz]
  | mutex =>
    simp only [ipcLock, ipcMutexLock, hh, ↓reduceIte, h0, containerOf_userHandle] at h
    split at h
    · rename_i hl
      cases h
      simp [lockEntry, hl, Outcome.same, Driver.write_self]
    · rename_i hl
      obtain ⟨e, he, rfl⟩ := Option.map_eq_some_iff.mp h
      rcases Entry.down_timed he with ⟨rfl, hpos, rfl⟩ | ⟨rfl, hz, rfl⟩
      · simp [lockEntry, takeUnit, hl, hpos, Entry.incLock]
      · simp [lockEntry, hl, Int.not_lt.mpr hz]
  | event =>
    simp only [ipcLock, ipcEventLock, hh, ↓reduceIte, h0, containerOf_userHandle] at h
    obtain ⟨e, he, rfl⟩ := Option.map_eq_some_iff.mp h
    rcases Entry.down_timed he with ⟨rfl, hpos, rfl⟩ | ⟨rfl, hz, rfl⟩
    · simp [lockEntry, takeUnit, hpos, Entry.incLock]
    · simp [lockEntry, takeUnit, Int.not_lt.mpr hz]
  | shm => cases h

/-- A wait without time either has a unit to take or ends at once. -/
theorem exists_ipcLock_zero (wf : drv.WellFormed) (hp : p ∈ drv.mList k) (hk : k ≠ .shm)
    (lockerid : Int32) : ∃ how r, ipcLock k drv drv ⟨userHandle p, 0, lockerid⟩ how = some r := by
  have hh := wf.handleExists_userHandle hp
  have h0 : ¬ (0 : Int32) < 0 := by decide
  have hwait : ∃ how e, (drv.mem p).down .timed how = some e := by
    by_cases hpos : 0 < (drv.mem p).sema
    · exact ⟨.acquired, _, by simp [Entry.down, hpos]; rfl⟩
    · exact ⟨.timedOut, _, by simp [Entry.down, Int.not_lt.mp hpos]; rfl⟩
  obtain ⟨how, e, he⟩ := hwait
  refine ⟨how, ?_⟩
  cases k with
  | sem => simp [ipcLock, ipcSemLock, hh, he]
  | mutex =>
    simp only [ipcLock, ipcMutexLock, hh, ↓reduceIte, h0, containerOf_userHandle, he]
    split <;> exact ⟨_, rfl⟩
  | event => simp [ipcLock, ipcEventLock, hh, he]
  | shm => exact absurd rfl hk

theorem eventRaise_eq (wf : drv.WellFormed) (hp : p ∈ drv.mList .event) :
    eventRaise drv (userHandle p) =
      (drv.write p (raiseEntry (drv.mem p)).1, (raiseEntry (drv.mem p)).2) := by
  simp only [eventRaise, wf.handleExists_userHandle hp, ↓reduceIte, containerOf_userHandle,
    raiseEntry]
  split
  · rfl
  · rw [Driver.write_self]

theorem ipcUnlock_eq (wf : drv.WellFormed) (hp : p ∈ drv.mList k) (hk : k ≠ .shm)
    (lockerid : Int32) : ipcUnlock k drv ⟨userHandle p, lockerid⟩ =
      some (drv.write p (unlockEntry k lockerid (drv.mem p)).1,
        (unlockEntry k lockerid (drv.mem p)).2) := by
  have hh := wf.handleExists_userHandle hp
  cases k with
  | sem =>
    simp only [ipcUnlock, ipcSemUnlock, hh, ↓reduceIte, containerOf_userHandle]
    rfl
  | mutex =>
    simp only [ipcUnlock, ipcMutexUnlock, hh, ↓reduceIte, containerOf_userHandle, unlockEntry]
    split
    · rw [Driver.write_self]
    · rfl
  | event => exact congrArg some (eventRaise_eq wf hp)
  | shm => exact absurd rfl hk

theorem fill_relative (k : Kind) (param : IpcCreate) (p : Ptr) :
    Entry.relative p { fill k param p with ownerCount := 1 } =
      { fill k param 0 with ownerCount := 1 } := by
  cases k <;> simp only [fill, semFill, mutexFill, mutexBlank, eventFill, shmFill]
  case mutex => split <;> simp [Entry.relative]
  all_goals simp [Entry.relative]

/-- A create takes its object, or makes it if there is memory. -/
theorem does_create (wf : drv.WellFormed) {param : IpcCreate} (memory : Bool) {kzalloc : Option Ptr}
    (free : ∀ p, kzalloc = some p → drv.Free p) (hmemory : memory = kzalloc.isSome) :
    Does drv (registryCreate k (fill k) drv param kzalloc).1 (k, param.name)
      (.create k param memory) (.handle (registryCreate k (fill k) drv param kzalloc).2) := by
  have hlisted : ∀ p, p ≠ 0 → (Reply.handle (userHandle p)).answer = .handle := by
    intro p hp
    exact if_neg fun e => hp (userHandle_injective e)
  cases hfind : findName drv k param.name with
  | some p =>
    obtain ⟨hp, hname⟩ := findName_some hfind
    rw [registryCreate_found _ hfind, ← hname]
    refine wf.does_write (wf.countOwner hp) hp rfl ?_
    rw [hlisted p fun e => wf.notNull k (e ▸ hp)]
    cases memory <;> rfl
  | none =>
    have hnone : contents drv (k, param.name) = none := by simp [contents, hfind]
    cases kzalloc with
    | none =>
      subst hmemory
      rw [registryCreate_failed hfind]
      refine ⟨wf.spares_same _, ?_, by rw [hnone]; rfl⟩
      rw [hnone, eq_comm, Function.update_eq_self_iff, hnone]
      rfl
    | some p =>
      subst hmemory
      rw [registryCreate_new p hfind]
      refine ⟨wf.spares_insertNew (free p rfl) hfind, ?_, ?_⟩
      · rw [contents_insertNew wf (free p rfl) hfind, hnone, fill_relative]
        rfl
      · rw [hnone, hlisted p (free p rfl).1]
        rfl

theorem does_close (wf : drv.WellFormed) (hp : p ∈ drv.mList k) :
    Does drv (registryClose k drv ⟨userHandle p⟩).1 (k, (drv.mem p).name)
      (.close k (userHandle p)) (.error (registryClose k drv ⟨userHandle p⟩).2) := by
  have hc : containerOf (userHandle p) = p := containerOf_userHandle p
  by_cases last : (drv.mem p).ownerCount = 1
  · have heffect : (ObjectRequest.close k (userHandle p)).effect
        (some ((drv.mem p).relative p)) = (none, .error 0) := if_pos last
    rw [registryClose_last wf ⟨userHandle p⟩ hp hc last]
    refine ⟨wf.spares_erase hp, ?_, ?_⟩
    · rw [contents_erase wf hp, wf.contents_of_mem hp, heffect]
    · rw [wf.contents_of_mem hp, heffect]
      rfl
  · rw [registryClose_busy wf ⟨userHandle p⟩ hp hc last]
    have := wf.owned k p hp
    exact wf.does_write (wf.of_owners (by omega)) hp rfl (if_neg last)

theorem performs_does (wf : drv.WellFormed) {r : ObjectRequest} {a : Reply}
    (concerns : Concerns drv k name r) (h : Performs drv r a d) : Does drv d (k, name) r a := by
  cases h with
  | @create l param p free =>
    obtain ⟨rfl, rfl⟩ := concerns
    exact does_create wf true (by rintro q ⟨⟩; exact free) rfl
  | createFails =>
    obtain ⟨rfl, rfl⟩ := concerns
    exact does_create wf false (by simp) rfl
  | @lock l handle lockerid how r h =>
    obtain ⟨rfl, -, p, hp, rfl, rfl⟩ := concerns
    obtain ⟨hafter, herror⟩ := ipcLock_zero wf hp h
    have hsame := lockEntry_same l lockerid (drv.mem p)
    rw [hafter, herror]
    refine wf.does_write (wf.write_same hsame) hp hsame.1 ?_
    simp only [ObjectRequest.effect, lockEntry_relative, Reply.answer]
  | @unlock l handle lockerid r h =>
    obtain ⟨rfl, hk, p, hp, rfl, rfl⟩ := concerns
    have hsame := unlockEntry_same l lockerid (drv.mem p)
    rw [ipcUnlock_eq wf hp hk] at h
    cases h
    refine wf.does_write (wf.write_same hsame) hp hsame.1 ?_
    simp only [ObjectRequest.effect, unlockEntry_relative, Reply.answer]
  | reset =>
    obtain ⟨rfl, p, hp, rfl, rfl⟩ := concerns
    have hsame := raiseEntry_same (drv.mem p)
    rw [ipcEventReset, eventRaise_eq wf hp]
    refine wf.does_write (wf.write_same hsame) hp hsame.1 ?_
    simp only [ObjectRequest.effect, raiseEntry_relative, Reply.answer]
  | close =>
    obtain ⟨rfl, p, hp, rfl, rfl⟩ := concerns
    exact does_close wf hp

/-- A request always comes to an end, and there is always an address to allocate. -/
theorem exists_performs (wf : drv.WellFormed) {r : ObjectRequest}
    (concerns : Concerns drv k name r) : ∃ a d, Performs drv r a d := by
  cases r with
  | create l param memory =>
    cases memory with
    | false => exact ⟨_, _, .createFails⟩
    | true =>
      obtain ⟨p, free⟩ := drv.exists_free
      exact ⟨_, _, .create free⟩
  | lock l handle lockerid =>
    obtain ⟨rfl, hk, p, hp, rfl, rfl⟩ := concerns
    obtain ⟨how, r, h⟩ := exists_ipcLock_zero wf hp hk lockerid
    exact ⟨_, _, .lock h⟩
  | unlock l handle lockerid =>
    obtain ⟨rfl, hk, p, hp, rfl, rfl⟩ := concerns
    exact ⟨_, _, .unlock (ipcUnlock_eq wf hp hk lockerid)⟩
  | reset handle => exact ⟨_, _, .reset⟩
  | close l handle => exact ⟨_, _, .close⟩

/-- A handle that a create returns is that of the entry that was listed under the
name, or of the one that it has listed there. -/
theorem performs_handle {r : ObjectRequest} {handle : Ptr}
    (concerns : Concerns drv k name r) (h : Performs drv r (.handle handle) d) :
    (∃ p, findName drv k name = some p ∧ handle = userHandle p) ∨
      (findName drv k name = none ∧ (handle = userHandle 0 ∨ Designates d k name handle)) := by
  cases h with
  | @create l param p free =>
    obtain ⟨rfl, rfl⟩ := concerns
    cases hfind : findName drv l param.name with
    | some q =>
      rw [registryCreate_found _ hfind]
      exact .inl ⟨q, rfl, rfl⟩
    | none =>
      rw [registryCreate_new p hfind]
      exact .inr ⟨rfl, .inr ⟨p, by simp [insertNew], by simp [insertNew], rfl⟩⟩
  | @createFails l param =>
    obtain ⟨rfl, rfl⟩ := concerns
    cases hfind : findName drv l param.name with
    | some q =>
      rw [registryCreate_found _ hfind]
      exact .inl ⟨q, rfl, rfl⟩
    | none =>
      rw [registryCreate_failed hfind]
      exact .inr ⟨rfl, .inl rfl⟩

end Requests

/-! Two requests on two objects. -/

section Independence

variable {drv d : Driver} {key key₁ key₂ : Kind × CStr 128} {r r₁ r₂ : ObjectRequest}

/-- The request ends with the answer. -/
def Answers (r : ObjectRequest) (drv : Driver) (answer : Answer) (d : Driver) : Prop :=
  ∃ a, Performs drv r a d ∧ a.answer = answer

theorem localRequest (r : ObjectRequest) (key : Kind × CStr 128) :
    Local contents (fun drv => drv.WellFormed ∧ Concerns drv key.1 key.2 r) key (Answers r) where
  frame := by
    rintro drv answer d ⟨wf, concerns⟩ ⟨a, h, -⟩ other hother
    rw [(performs_does wf concerns h).view, Function.update_of_ne hother]
  determined := by
    rintro drv _ d drv' _ d' ⟨wf, concerns⟩ ⟨wf', concerns'⟩ hview ⟨a, h, rfl⟩ ⟨a', h', rfl⟩
    have does := performs_does wf concerns h
    have does' := performs_does wf' concerns' h'
    simp only [does.view, does'.view, Function.update_self, does.answer, does'.answer, hview,
      and_self]

theorem Spares.designates (h : Spares drv d key₁) {k : Kind} {name : CStr 128} {handle : Ptr}
    (hne : (k, name) ≠ key₁) (designates : Designates drv k name handle) :
    Designates d k name handle := by
  obtain ⟨p, hp, rfl, rfl⟩ := designates
  obtain ⟨hp', hmem⟩ := h.others k p hp hne
  exact ⟨p, hp', by rw [hmem], rfl⟩

/-- A request on another object is about the same object as before. -/
theorem Spares.concerns (h : Spares drv d key₁) (hne : key₂ ≠ key₁)
    (concerns : Concerns drv key₂.1 key₂.2 r) : Concerns d key₂.1 key₂.2 r := by
  cases r with
  | create l param memory => exact concerns
  | lock l handle lockerid | unlock l handle lockerid =>
    exact ⟨concerns.1, concerns.2.1, h.designates hne concerns.2.2⟩
  | reset handle | close l handle => exact ⟨concerns.1, h.designates hne concerns.2⟩

/-- The name is taken by the same entry, or by none, as before. -/
theorem Spares.findName (h : Spares drv d key₁) (hne : key₂ ≠ key₁)
    (view : contents d key₂ = contents drv key₂) :
    Linux.findName d key₂.1 key₂.2 = Linux.findName drv key₂.1 key₂.2 := by
  cases hfind : Linux.findName drv key₂.1 key₂.2 with
  | some p =>
    obtain ⟨hp, hname⟩ := findName_some hfind
    obtain ⟨hp', hmem⟩ := h.others _ p hp (by rw [hname]; exact hne)
    exact h.wf.findName_iff.mpr ⟨hp', by rw [hmem, hname]⟩
  | none => simpa [contents, hfind] using view

theorem Reply.answer_error_iff {a : Reply} {error : Int} :
    a.answer = .error error ↔ a = .error error := by
  cases a with
  | handle p =>
    simp only [Reply.answer]
    split <;> simp
  | error e => simp [Reply.answer]

/-- No entry lies at the address 0. -/
theorem Designates.answer (wf : drv.WellFormed) {k : Kind} {name : CStr 128} {handle : Ptr}
    (h : Designates drv k name handle) : (Reply.handle handle).answer = .handle := by
  obtain ⟨p, hp, -, rfl⟩ := h
  have hne : p ≠ 0 := fun e => wf.notNull k (e ▸ hp)
  exact if_neg fun e => hne (userHandle_injective e)

/-- The same reply, but for the address of an entry that the request has made. -/
def SameReply (drv u v : Driver) (key : Kind × CStr 128) (a b : Reply) : Prop :=
  a = b ∨ (findName drv key.1 key.2 = none ∧
    ∃ p q, a = .handle p ∧ b = .handle q ∧ Designates u key.1 key.2 p ∧ Designates v key.1 key.2 q)

/-- A request before and after another one on a different object. -/
theorem sameReply (wf : drv.WellFormed) (hne : key₁ ≠ key₂)
    (concerns₁ : Concerns drv key₁.1 key₁.2 r₁) (concerns₂ : Concerns drv key₂.1 key₂.2 r₂)
    {d₁ u d₂ v : Driver} {a₁ a₂ b₁ b₂ : Reply} (first₁ : Performs drv r₁ a₁ d₁)
    (then₂ : Performs d₁ r₂ a₂ u) (first₂ : Performs drv r₂ b₂ d₂) (then₁ : Performs d₂ r₁ b₁ v) :
    SameReply drv u v key₁ a₁ b₁ := by
  have does₁ := performs_does wf concerns₁ first₁
  have does₂ := performs_does wf concerns₂ first₂
  have later₁ := does₂.spares.concerns hne concerns₁
  have later₂ := does₁.spares.concerns hne.symm concerns₂
  obtain ⟨hview, hanswer⟩ := (localRequest r₁ key₁).past (localRequest r₂ key₂) hne
    ⟨wf, concerns₁⟩ ⟨does₂.spares.wf, later₁⟩ ⟨wf, concerns₂⟩ ⟨a₁, first₁, rfl⟩ ⟨b₂, first₂, rfl⟩
    ⟨b₁, then₁, rfl⟩
  have hframe := (localRequest r₂ key₂).frame ⟨wf, concerns₂⟩ ⟨b₂, first₂, rfl⟩ key₁ hne
  have hfind := does₂.spares.findName hne hframe
  have does₂' := performs_does does₁.spares.wf later₂ then₂
  cases a₁ with
  | error e => exact .inl (Reply.answer_error_iff.mp hanswer.symm).symm
  | handle p =>
    cases b₁ with
    | error e => exact .inl (Reply.answer_error_iff.mp hanswer)
    | handle q =>
      rcases performs_handle concerns₁ first₁ with ⟨x, hx, rfl⟩ | ⟨hnone, hp⟩ <;>
        rcases performs_handle later₁ then₁ with ⟨y, hy, rfl⟩ | ⟨hnone', hq⟩ <;>
        rw [hfind] at *
      · cases hx.symm.trans hy
        exact .inl rfl
      · exact absurd (hx.symm.trans hnone') (by simp)
      · exact absurd (hnone.symm.trans hy) (by simp)
      · have wf₁ := does₁.spares.wf
        have wf₂ := (performs_does does₂.spares.wf later₁ then₁).spares.wf
        rcases hp with rfl | hp <;> rcases hq with rfl | hq
        · exact .inl rfl
        · rw [hq.answer wf₂] at hanswer
          simp [Reply.answer] at hanswer
        · rw [hp.answer wf₁] at hanswer
          simp [Reply.answer] at hanswer
        · exact .inr ⟨hnone, p, q, rfl, rfl, does₂'.spares.designates hne hp, hq⟩

theorem Concerns.designates {k : Kind} {name : CStr 128} {handle : Ptr}
    (h : Concerns drv k name r) (hhandle : r.handle? = some handle) :
    Designates drv k name handle := by
  cases r with
  | create l param memory => cases hhandle
  | lock l x lockerid | unlock l x lockerid =>
    cases hhandle
    exact h.2.2
  | reset x | close l x =>
    cases hhandle
    exact h.2

/-- A name has one live handle. -/
theorem Designates.unique (wf : drv.WellFormed) {k : Kind} {name : CStr 128} {h₁ h₂ : Ptr}
    (designates₁ : Designates drv k name h₁) (designates₂ : Designates drv k name h₂) :
    h₁ = h₂ := by
  obtain ⟨p, hp, hpname, rfl⟩ := designates₁
  obtain ⟨q, hq, hqname, rfl⟩ := designates₂
  rw [wf.names k p hp q hq (hpname.trans hqname.symm)]

/-- Either request can come first. -/
theorem exists_performs_two (wf : drv.WellFormed) (hne : key₁ ≠ key₂)
    (concerns₁ : Concerns drv key₁.1 key₁.2 r₁) (concerns₂ : Concerns drv key₂.1 key₂.2 r₂) :
    ∃ a d b u, Performs drv r₁ a d ∧ Performs d r₂ b u := by
  obtain ⟨a, d, first⟩ := exists_performs wf concerns₁
  have does := performs_does wf concerns₁ first
  obtain ⟨b, u, later⟩ :=
    exists_performs does.spares.wf (does.spares.concerns hne.symm concerns₂)
  exact ⟨a, d, b, u, first, later⟩

end Independence

/-- Requests on different objects, from any state and in either order. -/
theorem requests_independent {φ : Type*} [DecidableEq φ] {s : Device φ}
    (hs : (Device.system φ).Reachable s) {key₁ key₂ : Kind × CStr 128} {r₁ r₂ : ObjectRequest}
    (concerns₁ : Concerns s.drv key₁.1 key₁.2 r₁) (concerns₂ : Concerns s.drv key₂.1 key₂.2 r₂)
    (different : key₁ ≠ key₂ ∨
      ∃ h₁ h₂, r₁.handle? = some h₁ ∧ r₂.handle? = some h₂ ∧ h₁ ≠ h₂) :
    (∃ a d b u, Performs s.drv r₁ a d ∧ Performs d r₂ b u) ∧
    (∃ a d b u, Performs s.drv r₂ a d ∧ Performs d r₁ b u) ∧
    ∀ a₁ d₁ a₂ u b₂ d₂ b₁ v, Performs s.drv r₁ a₁ d₁ → Performs d₁ r₂ a₂ u →
      Performs s.drv r₂ b₂ d₂ → Performs d₂ r₁ b₁ v →
      SameReply s.drv u v key₁ a₁ b₁ ∧ SameReply s.drv v u key₂ b₂ a₂ ∧
      contents u = contents v ∧
      Spares s.drv d₁ key₁ ∧ Spares d₁ u key₂ ∧ Spares s.drv d₂ key₂ ∧ Spares d₂ v key₁ := by
  have wf := (Device.sound_reachable hs).wf
  have hne : key₁ ≠ key₂ := by
    rcases different with hne | ⟨h₁, h₂, hh₁, hh₂, hne⟩
    · exact hne
    · rintro rfl
      have designates₁ := Concerns.designates concerns₁ hh₁
      exact hne (designates₁.unique wf (Concerns.designates concerns₂ hh₂))
  refine ⟨exists_performs_two wf hne concerns₁ concerns₂,
    exists_performs_two wf hne.symm concerns₂ concerns₁, ?_⟩
  intro a₁ d₁ a₂ u b₂ d₂ b₁ v first₁ then₂ first₂ then₁
  have does₁ := performs_does wf concerns₁ first₁
  have does₂ := performs_does wf concerns₂ first₂
  have later₁ := does₂.spares.concerns hne concerns₁
  have later₂ := does₁.spares.concerns hne.symm concerns₂
  obtain ⟨hview, -, -⟩ := (localRequest r₁ key₁).comm (localRequest r₂ key₂) hne
    ⟨wf, concerns₁⟩ ⟨wf, concerns₂⟩ ⟨does₁.spares.wf, later₂⟩ ⟨does₂.spares.wf, later₁⟩
    ⟨a₁, first₁, rfl⟩ ⟨a₂, then₂, rfl⟩ ⟨b₂, first₂, rfl⟩ ⟨b₁, then₁, rfl⟩
  exact ⟨sameReply wf hne concerns₁ concerns₂ first₁ then₂ first₂ then₁,
    sameReply wf hne.symm concerns₂ concerns₁ first₂ then₁ first₁ then₂, hview,
    does₁.spares, (performs_does does₁.spares.wf later₂ then₂).spares,
    does₂.spares, (performs_does does₂.spares.wf later₁ then₁).spares⟩

/-- The last close of the semaphore "x" and the create of one without a name. -/
theorem requests_independent_close : ∃ s : Device Unit, (Device.system Unit).Reachable s ∧
    ∃ a₁ d₁ a₂ u b₂ d₂ b₁ v,
      Performs s.drv (.close .sem (userHandle 4096)) a₁ d₁ ∧
      Performs d₁ (.create .sem ⟨CStr.empty, 1, 0, 0⟩ true) a₂ u ∧
      Performs s.drv (.create .sem ⟨CStr.empty, 1, 0, 0⟩ true) b₂ d₂ ∧
      Performs d₂ (.close .sem (userHandle 4096)) b₁ v ∧ contents u = contents v := by
  refine exists_reachable_of_run ⟨ipcProbe fun _ => Entry.zero, [], [], []⟩
    [.deviceOpen (), .create () .sem ⟨CStr.x, 1, 0, 0⟩ 4096]
    (fun s => decide (4096 ∈ s.drv.mList .sem ∧ (s.drv.mem 4096).name = CStr.x)) ⟨_, rfl⟩
    (by decide) fun s hs hp => ?_
  obtain ⟨hp, hname⟩ := of_decide_eq_true hp
  obtain ⟨⟨a₁, d₁, a₂, u, first₁, then₂⟩, ⟨b₂, d₂, b₁, v, first₂, then₁⟩, h⟩ :=
    @requests_independent Unit _ s hs (.sem, CStr.x) (.sem, CStr.empty)
      (.close .sem (userHandle 4096)) (.create .sem ⟨CStr.empty, 1, 0, 0⟩ true)
      ⟨rfl, 4096, hp, hname, rfl⟩ ⟨rfl, rfl⟩ (.inl (by decide))
  exact ⟨a₁, d₁, a₂, u, b₂, d₂, b₁, v, first₁, then₂, first₂, then₁,
    (h a₁ d₁ a₂ u b₂ d₂ b₁ v first₁ then₂ first₂ then₁).2.2.1⟩

end Gipcy.Linux
