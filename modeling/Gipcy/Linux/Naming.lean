import Mathlib.Data.List.Perm.Basic
import Gipcy.Linux.Calls
import Gipcy.Linux.References

/-! Which names are told apart. A request of the driver carries the first 127
characters of a name, the object of a shared memory has up to 4095 in its own. -/
namespace Gipcy.Linux

open Transition

/-- A create call of the library, with what it is given besides the name. -/
inductive CreateCall where
  | semaphore (value : Int32)
  | mutex (gettid value : Int32)
  | event (manual value : Int32)
  | sharedMemory (size : Int32)

namespace CreateCall

def kind : CreateCall → Kind
  | .semaphore _ => .sem
  | .mutex _ _ => .mutex
  | .event _ _ => .event
  | .sharedMemory _ => .shm

def run {m : Nat} (fd : Int) (drv : Driver) (name : CStr m) :
    CreateCall → Option Ptr → Driver × Ptr
  | .semaphore value => ipcCreateSemaphore fd drv name value
  | .mutex gettid value => ipcCreateMutex fd gettid drv name value
  | .event manual value => ipcCreateEvent fd drv name manual value
  | .sharedMemory size => sharedMemoryOpen fd drv name size

/-- The request that the call sends. -/
def param {m : Nat} (name : CStr m) : CreateCall → IpcCreate
  | .semaphore _ => ⟨paramName name, 1, 0, 0⟩
  | .mutex gettid value => ⟨paramName name, if value ≠ 0 then 1 else 0, 0, gettid⟩
  | .event manual value =>
    ⟨paramName name, if value ≠ 0 then 0 else 1, if manual ≠ 0 then 1 else 0, 0⟩
  | .sharedMemory size => ⟨paramName name, size, 0, 0⟩

variable {m : Nat} (name : CStr m) (call : CreateCall)

@[simp] theorem param_name : (call.param name).name = paramName name := by
  cases call <;> rfl

theorem run_eq {fd : Int} (hfd : 0 < fd) (drv : Driver) (kzalloc : Option Ptr) :
    call.run fd drv name kzalloc =
      registryCreate call.kind (fill call.kind) drv (call.param name) kzalloc := by
  cases call with
  | semaphore value => exact createObject_eq hfd .sem (param name (.semaphore value)) kzalloc
  | mutex gettid value =>
    exact createObject_eq hfd .mutex (param name (.mutex gettid value)) kzalloc
  | event manual value =>
    exact createObject_eq hfd .event (param name (.event manual value)) kzalloc
  | sharedMemory size => exact createObject_eq hfd .shm (param name (.sharedMemory size)) kzalloc

end CreateCall

/-- `snprintf(tmpName, PATH_MAX, "%s%s", "/", name)`, which is `ipc_name`. -/
def shmName {m : Nat} (name : CStr m) : CStr 4096 where
  chars := 47 :: name.chars.take 4094
  noNul := by
    simp only [List.mem_cons, not_or]
    exact ⟨by decide, fun h => name.noNul (List.mem_of_mem_take h)⟩
  fits := by
    rw [List.length_cons, List.length_take]
    omega

section Names

variable {m₁ m₂ : Nat} {n₁ : CStr m₁} {n₂ : CStr m₂}

theorem CStr.ext_iff' {size : Nat} {a b : CStr size} : a = b ↔ a.chars = b.chars := by
  cases a
  cases b
  simp

theorem paramName_eq_iff : paramName n₁ = paramName n₂ ↔ n₁.chars.take 127 = n₂.chars.take 127 :=
  CStr.ext_iff'

/-- Names of one object are the same to the driver. -/
theorem paramName_of_shmName (h : shmName n₁ = shmName n₂) : paramName n₁ = paramName n₂ := by
  have htake : n₁.chars.take 4094 = n₂.chars.take 4094 :=
    (List.cons.inj (CStr.ext_iff'.mp h)).2
  have hshort := congrArg (List.take 127) htake
  rw [List.take_take, List.take_take] at hshort
  exact paramName_eq_iff.mpr hshort

end Names

variable {φ : Type*} [DecidableEq φ]

/-- The handle came from a create call with the name, and its entry has been
listed since. -/
inductive HandleOpen (fd : Int) (k : Kind) {m : Nat} (name : CStr m) (handle : Ptr) :
    Device φ → Prop where
  | create {s t file fresh} (call : CreateCall) : (Device.system φ).Reachable s →
      s.next (.create file call.kind (call.param name) fresh) = some t → call.kind = k →
      (call.run fd s.drv name (some fresh)).2 = handle → HandleOpen fd k name handle t
  | keep {s a t} : HandleOpen fd k name handle s → s.next a = some t →
      containerOf handle ∈ t.drv.mList k → HandleOpen fd k name handle t

theorem Designates.same_entry_iff {drv : Driver} (wf : drv.WellFormed) {k : Kind}
    {n₁ n₂ : CStr 128} {h₁ h₂ : Ptr} (open₁ : Designates drv k n₁ h₁)
    (open₂ : Designates drv k n₂ h₂) : containerOf h₁ = containerOf h₂ ↔ n₁ = n₂ := by
  obtain ⟨p, hp, rfl, rfl⟩ := open₁
  obtain ⟨q, hq, rfl, rfl⟩ := open₂
  rw [containerOf_userHandle, containerOf_userHandle]
  constructor
  · intro h
    rw [h]
  · exact wf.names k p hp q hq

namespace Device

variable {s t : Device φ} {k : Kind}

/-- What a create returns is the handle of a listed entry of its name. -/
theorem designates_create (sound : Sound s) (sound' : Sound t) {file : φ} {param : IpcCreate}
    {fresh : Ptr} (h : s.next (.create file k param fresh) = some t) :
    Designates t.drv k param.name (registryCreate k (fill k) s.drv param (some fresh)).2 := by
  obtain ⟨p, hp, hname, hrefs⟩ := next_moves sound h
  refine ⟨p, ?_, hname, hp⟩
  rw [sound'.wf.listed_iff, hrefs, if_pos ⟨rfl, rfl⟩]
  exact Int.lt_add_one_of_le (sound.wf.refs_nonneg p)

/-- A handle designates its entry until the entry is taken off the list. -/
theorem designates_next (sound : Sound s) {a : Request φ} (h : s.next a = some t)
    {name : CStr 128} {p : Ptr} (hdes : Designates s.drv k name (userHandle p))
    (listed : p ∈ t.drv.mList k) : Designates t.drv k name (userHandle p) := by
  obtain ⟨q, hq, rfl, hpq⟩ := hdes
  cases userHandle_injective hpq
  exact ⟨p, listed, next_keepsNames sound h k p hq listed, rfl⟩

end Device

theorem HandleOpen.designates {fd : Int} (hfd : 0 < fd) {k : Kind} {m : Nat} {name : CStr m}
    {handle : Ptr} {s : Device φ} (h : HandleOpen fd k name handle s) :
    (Device.system φ).Reachable s ∧ Designates s.drv k (paramName name) handle := by
  induction h with
  | @create s t file fresh call hs hnext hk hhandle =>
    have ht : (Device.system φ).Reachable t := hs.step hnext
    have hdes := Device.designates_create (Device.sound_reachable hs) (Device.sound_reachable ht)
      hnext
    rw [← call.run_eq name hfd, hhandle, call.param_name, hk] at hdes
    exact ⟨ht, hdes⟩
  | @keep s a t _ hnext listed ih =>
    obtain ⟨hs, p, hp, hname, rfl⟩ := ih
    rw [containerOf_userHandle] at listed
    exact ⟨hs.step hnext, Device.designates_next (Device.sound_reachable hs) hnext
      ⟨p, hp, hname, rfl⟩ listed⟩

/-- Two handles of one kind have one entry exactly when the first 127 characters
of their names are the same. -/
theorem HandleOpen.same_entry_iff {fd : Int} (hfd : 0 < fd) {k : Kind} {m₁ m₂ : Nat}
    {n₁ : CStr m₁} {n₂ : CStr m₂} {h₁ h₂ : Ptr} {s : Device φ}
    (open₁ : HandleOpen fd k n₁ h₁ s) (open₂ : HandleOpen fd k n₂ h₂ s) :
    containerOf h₁ = containerOf h₂ ↔ n₁.chars.take 127 = n₂.chars.take 127 := by
  obtain ⟨hs, hdes₁⟩ := open₁.designates hfd
  obtain ⟨-, hdes₂⟩ := open₂.designates hfd
  exact (hdes₁.same_entry_iff (Device.sound_reachable hs).wf hdes₂).trans paramName_eq_iff

/-! Handles of library users that delete each of theirs once. -/

/-- A handle that was returned and not yet deleted. -/
structure OpenHandle where
  kind : Kind
  handle : Ptr
  size : Nat
  name : CStr size

structure Session (φ : Type*) where
  device : Device φ
  handles : List OpenHandle

inductive SessionAct (φ : Type*) where
  | create (file : φ) (call : CreateCall) (size : Nat) (name : CStr size) (fresh : Ptr)
  | delete (file : φ) (i : Nat)
  | other (request : Request φ)

namespace Session

/-- A create call lists its handle, a delete call takes one off the list, and
with the last file all of them are gone. -/
def next (fd : Int) (s : Session φ) : SessionAct φ → Option (Session φ)
  | .create file call size name fresh =>
    (s.device.next (.create file call.kind (call.param name) fresh)).map fun d =>
      ⟨d, ⟨call.kind, (call.run fd s.device.drv name (some fresh)).2, size, name⟩ :: s.handles⟩
  | .delete file i =>
    s.handles[i]?.bind fun h =>
      (s.device.next (.close file h.kind ⟨h.handle⟩)).map fun d => ⟨d, s.handles.eraseIdx i⟩
  | .other (.create _ _ _ _) | .other (.close _ _ _) => none
  | .other (.deviceClose file) =>
    (s.device.next (.deviceClose file)).map fun d =>
      ⟨d, if s.device.files.length = 1 then [] else s.handles⟩
  | .other request => (s.device.next request).map fun d => ⟨d, s.handles⟩

def system (fd : Int) (φ : Type*) [DecidableEq φ] : System (Session φ) (SessionAct φ) :=
  .ofNext (fun s => (Device.system φ).init s.device ∧ s.handles = []) (next fd)

/-- The open handles of the entry at `p`. -/
def users (handles : List OpenHandle) (k : Kind) (p : Ptr) : Nat :=
  handles.countP fun h => h.kind = k ∧ h.handle = userHandle p

theorem users_cons (h : OpenHandle) (handles : List OpenHandle) (k : Kind) (p : Ptr) :
    users (h :: handles) k p =
      users handles k p + if h.kind = k ∧ h.handle = userHandle p then 1 else 0 := by
  simp only [users, List.countP_cons, decide_eq_true_eq]

/-- Taking a handle off the list and putting it back loses nothing. -/
theorem users_eraseIdx {handles : List OpenHandle} {i : Nat} {h : OpenHandle}
    (hi : handles[i]? = some h) (k : Kind) (p : Ptr) :
    users handles k p = users (handles.eraseIdx i) k p +
      if h.kind = k ∧ h.handle = userHandle p then 1 else 0 := by
  obtain ⟨hlt, rfl⟩ := List.getElem?_eq_some_iff.mp hi
  rw [← users_cons]
  exact ((List.getElem_cons_eraseIdx_perm hlt).countP_eq _).symm

theorem users_pos {handles : List OpenHandle} {h : OpenHandle} (hh : h ∈ handles) {p : Ptr}
    (hp : h.handle = userHandle p) : 0 < users handles h.kind p :=
  List.countP_pos_iff.mpr ⟨h, hh, by simp [hp]⟩

/-- Every reference is that of an open handle. -/
structure Tracked (s : Session φ) : Prop where
  reachable : (Device.system φ).Reachable s.device
  designates : ∀ h ∈ s.handles, Designates s.device.drv h.kind (paramName h.name) h.handle
  counted : ∀ k p, s.device.drv.refs k p = users s.handles k p

namespace Tracked

variable {s : Session φ} {fd : Int}

/-- A request that leaves the references as they are. -/
theorem same (inv : Tracked s) {a : Request φ} {d : Device φ} (h : s.device.next a = some d)
    (refs : ∀ k p, d.drv.refs k p = s.device.drv.refs k p) : Tracked ⟨d, s.handles⟩ := by
  have hd : (Device.system φ).Reachable d := inv.reachable.step h
  have sound := Device.sound_reachable inv.reachable
  refine ⟨hd, fun handle hh => ?_, fun k p => (refs k p).trans (inv.counted k p)⟩
  obtain ⟨p, hp, hname, hhandle⟩ := inv.designates handle hh
  have listed : p ∈ d.drv.mList handle.kind := by
    rw [(Device.sound_reachable hd).wf.listed_iff, refs]
    exact sound.wf.listed_iff.mp hp
  rw [hhandle]
  exact Device.designates_next sound h ⟨p, hp, hname, rfl⟩ listed

theorem create (inv : Tracked s) (hfd : 0 < fd) {file : φ} {call : CreateCall} {size : Nat}
    {name : CStr size} {fresh : Ptr} {d : Device φ}
    (h : s.device.next (.create file call.kind (call.param name) fresh) = some d) :
    Tracked ⟨d, ⟨call.kind, (call.run fd s.device.drv name (some fresh)).2, size, name⟩ ::
      s.handles⟩ := by
  have hd : (Device.system φ).Reachable d := inv.reachable.step h
  have sound := Device.sound_reachable inv.reachable
  have sound' := Device.sound_reachable hd
  obtain ⟨p, hp, -, hrefs⟩ := Device.next_moves sound h
  have hmade : (call.run fd s.device.drv name (some fresh)).2 = userHandle p := by
    rw [call.run_eq name hfd, hp]
  refine ⟨hd, ?_, fun k q => ?_⟩
  · intro handle hh
    rcases List.mem_cons.mp hh with rfl | hh
    · have hdes := Device.designates_create sound sound' h
      rwa [← call.run_eq name hfd, call.param_name] at hdes
    · obtain ⟨q, hq, hname, hhandle⟩ := inv.designates handle hh
      have listed : q ∈ d.drv.mList handle.kind := by
        have hpos := sound.wf.listed_iff.mp hq
        rw [sound'.wf.listed_iff, hrefs]
        split <;> omega
      rw [hhandle]
      exact Device.designates_next sound h ⟨q, hq, hname, rfl⟩ listed
  · rw [hrefs, inv.counted, users_cons, hmade]
    have hiff : (k = call.kind ∧ q = p) ↔ (call.kind = k ∧ userHandle p = userHandle q) := by
      constructor
      · rintro ⟨rfl, rfl⟩
        exact ⟨rfl, rfl⟩
      · rintro ⟨rfl, he⟩
        exact ⟨rfl, (userHandle_injective he).symm⟩
    simp only [hiff]
    split <;> simp

theorem delete (inv : Tracked s) {file : φ} {i : Nat} {h : OpenHandle}
    (hi : s.handles[i]? = some h) {d : Device φ}
    (hd : s.device.next (.close file h.kind ⟨h.handle⟩) = some d) :
    Tracked ⟨d, s.handles.eraseIdx i⟩ := by
  have hreach : (Device.system φ).Reachable d := inv.reachable.step hd
  have sound := Device.sound_reachable inv.reachable
  have hrefs := Device.next_moves sound hd
  have hcounted : ∀ k p, d.drv.refs k p = users (s.handles.eraseIdx i) k p := by
    intro k p
    have hiff : (k = h.kind ∧ h.handle = userHandle p ∧ p ∈ s.device.drv.mList k) ↔
        (h.kind = k ∧ h.handle = userHandle p) := by
      constructor
      · rintro ⟨rfl, hp, -⟩
        exact ⟨rfl, hp⟩
      · rintro ⟨rfl, hp⟩
        obtain ⟨q, hq, -, hhandle⟩ := inv.designates h (List.mem_of_getElem? hi)
        cases userHandle_injective (hhandle.symm.trans hp)
        exact ⟨rfl, hp, hq⟩
    rw [hrefs, inv.counted, users_eraseIdx hi]
    simp only [hiff]
    split <;> simp
  refine ⟨hreach, fun handle hh => ?_, hcounted⟩
  obtain ⟨p, hp, hname, hhandle⟩ := inv.designates handle (List.mem_of_mem_eraseIdx hh)
  have listed : p ∈ d.drv.mList handle.kind := by
    rw [(Device.sound_reachable hreach).wf.listed_iff, hcounted]
    exact_mod_cast users_pos hh hhandle
  rw [hhandle]
  exact Device.designates_next sound hd ⟨p, hp, hname, rfl⟩ listed

theorem next (inv : Tracked s) (hfd : 0 < fd) {a : SessionAct φ} {t : Session φ}
    (h : s.next fd a = some t) : Tracked t := by
  cases a with
  | create file call size name fresh =>
    obtain ⟨d, hd, rfl⟩ := Option.map_eq_some_iff.mp h
    exact inv.create hfd hd
  | delete file i =>
    obtain ⟨handle, hi, h⟩ := Option.bind_eq_some_iff.mp h
    obtain ⟨d, hd, rfl⟩ := Option.map_eq_some_iff.mp h
    exact inv.delete hi hd
  | other request =>
    cases request with
    | create file k param fresh => cases h
    | close file k param => cases h
    | deviceClose file =>
      obtain ⟨d, hd, rfl⟩ := Option.map_eq_some_iff.mp h
      have hrefs := Device.next_moves (Device.sound_reachable inv.reachable) hd
      by_cases last : s.device.files.length = 1
      · rw [if_pos last]
        refine ⟨inv.reachable.step hd, by simp, fun k p => ?_⟩
        rw [hrefs, if_pos last]
        rfl
      · rw [if_neg last]
        exact inv.same hd fun k p => by rw [hrefs, if_neg last]
    | deviceOpen file | start file k op handle timeout lockerid | access i how | scribble p e =>
      obtain ⟨d, hd, rfl⟩ := Option.map_eq_some_iff.mp h
      exact inv.same hd (Device.next_moves (Device.sound_reachable inv.reachable) hd)

end Tracked

theorem tracked_reachable {fd : Int} (hfd : 0 < fd) {s : Session φ}
    (h : (system fd φ).Reachable s) : Tracked s := by
  apply h.invariant (I := Tracked)
  · rintro ⟨device, handles⟩ ⟨hinit, hnil⟩
    cases hnil
    refine ⟨.init hinit, by simp, fun k p => ?_⟩
    obtain ⟨mem, rfl⟩ := hinit
    rfl
  · intro s a t _ inv step
    exact inv.next hfd step

/-- A delete goes on to `shm_unlink`. -/
def Unlinks (fd : Int) (drv : Driver) (h : OpenHandle) : Prop :=
  ¬ (sharedMemoryClose fd drv h.handle).2 < 0

/-- No other open handle is one of the same shared-memory object. -/
def LastOfObject (handles : List OpenHandle) (i : Nat) (h : OpenHandle) : Prop :=
  ∀ other ∈ handles.eraseIdx i, other.kind = .shm → shmName other.name ≠ shmName h.name

/-- No other open handle is one of the same entry. -/
def LastOfEntry (handles : List OpenHandle) (i : Nat) (h : OpenHandle) : Prop :=
  ∀ other ∈ handles.eraseIdx i, other.kind = .shm →
    other.name.chars.take 127 ≠ h.name.chars.take 127

theorem LastOfEntry.lastOfObject {handles : List OpenHandle} {i : Nat} {h : OpenHandle}
    (last : LastOfEntry handles i h) : LastOfObject handles i h :=
  fun other ho hk hname => last other ho hk (paramName_eq_iff.mp (paramName_of_shmName hname))

/-- `shared_memory_close` answers 0 for the last reference alone. -/
theorem unlinks_iff_one {fd : Int} (hfd : 0 < fd) {drv : Driver} (wf : drv.WellFormed) {p : Ptr}
    (hp : p ∈ drv.mList .shm) {h : OpenHandle} (hhandle : h.handle = userHandle p) :
    Unlinks fd drv h ↔ drv.refs .shm p = 1 := by
  have herror := registryClose_error wf hp ⟨userHandle p⟩ (containerOf_userHandle p)
  rw [Unlinks, sharedMemoryClose, if_neg (ipcDriverHandle_open hfd), hhandle,
    Driver.refs_of_mem hp]
  simp only [ioctlShmClose, ioctlClose, ipcShmClose, Bool.not_true, Bool.false_eq_true,
    ↓reduceIte, herror]
  by_cases last : (drv.mem p).ownerCount = 1 <;> simp [last, sysIoctl, EBUSY]

/-- A delete unlinks exactly when no other open handle has the same entry. -/
theorem Tracked.unlinks_iff {s : Session φ} (inv : Tracked s) {fd : Int} (hfd : 0 < fd) {i : Nat}
    {h : OpenHandle} (hi : s.handles[i]? = some h) (hk : h.kind = .shm) :
    Unlinks fd s.device.drv h ↔ LastOfEntry s.handles i h := by
  have sound := Device.sound_reachable inv.reachable
  obtain ⟨p, hp, hname, hhandle⟩ := inv.designates h (List.mem_of_getElem? hi)
  rw [hk] at hp
  have hrefs := inv.counted .shm p
  rw [users_eraseIdx hi, if_pos ⟨hk, hhandle⟩] at hrefs
  rw [unlinks_iff_one hfd sound.wf hp hhandle, hrefs]
  constructor
  · intro hone other ho hkind hsame
    obtain ⟨q, hq, hqname, hother⟩ := inv.designates other (List.mem_of_mem_eraseIdx ho)
    rw [hkind] at hq
    have hpq : q = p := sound.wf.names .shm q hq p hp (by
      rw [hqname, hname]
      exact paramName_eq_iff.mpr hsame)
    have hpos := users_pos ho (hpq ▸ hother)
    rw [hkind] at hpos
    omega
  · intro last
    have hzero : users (s.handles.eraseIdx i) .shm p = 0 := by
      refine List.countP_eq_zero.mpr fun other ho hboth => ?_
      obtain ⟨hkind, hother⟩ := of_decide_eq_true hboth
      obtain ⟨q, -, hqname, hotherq⟩ := inv.designates other (List.mem_of_mem_eraseIdx ho)
      cases userHandle_injective (hotherq.symm.trans hother)
      exact last other ho hkind (paramName_eq_iff.mp (hqname.symm.trans hname))
    rw [hzero]
    rfl

end Session

/-- Handles of the first three kinds have one entry for one name exactly where
the first 127 characters tell their names apart or the names are the same. For a
shared memory the name of its object takes the place of the name, and the last
delete of an object unlinks it exactly when no other object in use has the same
first 127 characters. -/
theorem name_identifies_iff (φ : Type*) [DecidableEq φ] {fd : Int} (hfd : 0 < fd) :
    (∀ (s : Device φ) (k : Kind) (m₁ m₂ : Nat) (n₁ : CStr m₁) (n₂ : CStr m₂) (h₁ h₂ : Ptr),
      HandleOpen fd k n₁ h₁ s → HandleOpen fd k n₂ h₂ s →
      (k ≠ .shm → ((containerOf h₁ = containerOf h₂ ↔ n₁.chars = n₂.chars) ↔
        (n₁.chars = n₂.chars ∨ n₁.chars.take 127 ≠ n₂.chars.take 127))) ∧
      (k = .shm → ((containerOf h₁ = containerOf h₂ ↔ shmName n₁ = shmName n₂) ↔
        (shmName n₁ = shmName n₂ ∨ n₁.chars.take 127 ≠ n₂.chars.take 127)))) ∧
    ∀ (s : Session φ) (i : Nat) (h : OpenHandle), (Session.system fd φ).Reachable s →
      s.handles[i]? = some h → h.kind = .shm →
      (Session.Unlinks fd s.device.drv h → Session.LastOfObject s.handles i h) ∧
      (Session.LastOfObject s.handles i h →
        (Session.Unlinks fd s.device.drv h ↔ Session.LastOfEntry s.handles i h)) := by
  refine ⟨fun s k m₁ m₂ n₁ n₂ h₁ h₂ open₁ open₂ => ?_, fun s i h hs hi hk => ?_⟩
  · rw [open₁.same_entry_iff hfd open₂]
    refine ⟨fun _ => ?_, fun _ => ?_⟩
    · have hcut : n₁.chars = n₂.chars → n₁.chars.take 127 = n₂.chars.take 127 := congrArg _
      tauto
    · have hcut : shmName n₁ = shmName n₂ → n₁.chars.take 127 = n₂.chars.take 127 :=
        fun h => paramName_eq_iff.mp (paramName_of_shmName h)
      tauto
  · have hiff := (Session.tracked_reachable hfd hs).unlinks_iff hfd hi hk
    exact ⟨fun hu => (hiff.mp hu).lastOfObject, fun _ => hiff⟩

/-- A create call with an open file and memory returns an open handle. -/
theorem exists_handleOpen (fd : Int) {s : Device φ} (hs : (Device.system φ).Reachable s)
    {file : φ} (hfile : file ∈ s.files) {fresh : Ptr} (free : s.drv.Free fresh) {m : Nat}
    (name : CStr m) (call : CreateCall) :
    ∃ t, s.next (.create file call.kind (call.param name) fresh) = some t ∧ t.files = s.files ∧
      t.drv = (registryCreate call.kind (fill call.kind) s.drv (call.param name) (some fresh)).1 ∧
      HandleOpen fd call.kind name (call.run fd s.drv name (some fresh)).2 t := by
  have hnext := Device.next_create hfile free call.kind (call.param name)
  exact ⟨_, hnext, rfl, rfl, .create call hs hnext rfl rfl⟩

/-- A handle stays open over a create. -/
theorem HandleOpen.create_other {fd : Int} (hfd : 0 < fd) {k l : Kind} {m : Nat} {name : CStr m}
    {handle fresh : Ptr} {file : φ} {param : IpcCreate} {s t : Device φ}
    (h : HandleOpen fd k name handle s) (hnext : s.next (.create file l param fresh) = some t) :
    HandleOpen fd k name handle t := by
  obtain ⟨hs, p, hp, -, rfl⟩ := h.designates hfd
  have sound := Device.sound_reachable hs
  obtain ⟨q, -, -, hrefs⟩ := Device.next_moves sound hnext
  refine h.keep hnext ?_
  have hpos := sound.wf.listed_iff.mp hp
  rw [containerOf_userHandle, (sound.next hnext).wf.listed_iff, hrefs]
  split <;> omega

/-- Two creates of semaphores on a new driver. -/
theorem exists_two_open {m₁ m₂ : Nat} (n₁ : CStr m₁) (n₂ : CStr m₂) :
    ∃ (s : Device Unit) (h₁ h₂ : Ptr), HandleOpen 3 .sem n₁ h₁ s ∧ HandleOpen 3 .sem n₂ h₂ s := by
  let start : Device Unit := ⟨ipcDeviceOpen (ipcProbe fun _ => Entry.zero), [()], [], []⟩
  have hstart : (Device.system Unit).Reachable start :=
    .step (.init ⟨fun _ => Entry.zero, rfl⟩)
      (show Device.next _ (.deviceOpen ()) = some start from rfl)
  obtain ⟨s, hs, hfiles, hdrv, open₁⟩ := exists_handleOpen 3 hstart
    (List.mem_singleton.mpr rfl : () ∈ start.files) (by decide : start.drv.Free 4096) n₁
    (.semaphore 1)
  have free : s.drv.Free 8192 := by
    have hfind : findName start.drv .sem (paramName n₁) = none := rfl
    rw [hdrv, registryCreate_new _ hfind]
    refine ⟨by decide, fun k hk => ?_⟩
    rcases mem_insertNew hk with hk | ⟨-, hk⟩
    · cases hk
    · exact absurd hk (by decide)
  obtain ⟨t, ht, -, -, open₂⟩ := exists_handleOpen 3 (hstart.step hs)
    (hfiles ▸ List.mem_singleton.mpr rfl : () ∈ s.files) free n₂ (.semaphore 1)
  exact ⟨t, _, _, open₁.create_other (by decide) ht, open₂⟩

/-- Semaphores "x" and "y"; and a shared memory "x" with two handles, one of them
deleted. -/
theorem name_identifies_short :
    (∃ (s : Device Unit) (h₁ h₂ : Ptr), HandleOpen 3 .sem CStr.x h₁ s ∧
      HandleOpen 3 .sem CStr.y h₂ s ∧
      (containerOf h₁ = containerOf h₂ ↔ CStr.x.chars = CStr.y.chars)) ∧
    ∃ s : Session Unit, (Session.system 3 Unit).Reachable s ∧
      ∃ h, s.handles[0]? = some h ∧ Session.Unlinks 3 s.device.drv h := by
  have hfd : (0 : Int) < 3 := by decide
  constructor
  · obtain ⟨s, h₁, h₂, open₁, open₂⟩ := exists_two_open CStr.x CStr.y
    have hiff := ((name_identifies_iff Unit hfd).1 s .sem _ _ _ _ h₁ h₂ open₁ open₂).1 (by decide)
    exact ⟨s, h₁, h₂, open₁, open₂, hiff.mpr (.inr (by decide))⟩
  · refine exists_reachable_of_run ⟨⟨ipcProbe fun _ => Entry.zero, [], [], []⟩, []⟩
      [.other (.deviceOpen ()), .create () (.sharedMemory 4096) _ CStr.x 4096,
        .create () (.sharedMemory 4096) _ CStr.x 8192, .delete () 0]
      (fun s => decide (s.handles.map (·.kind) = [.shm])) ⟨⟨_, rfl⟩, rfl⟩ (by decide +kernel)
      fun s hs hp => ?_
    obtain ⟨h, hhandles, hk⟩ := List.map_eq_singleton_iff.mp (of_decide_eq_true hp)
    have hi : s.handles[0]? = some h := by rw [hhandles]; rfl
    have last : Session.LastOfEntry s.handles 0 h := by
      rw [Session.LastOfEntry, hhandles]
      simp
    have hiff := (name_identifies_iff Unit hfd).2 s 0 h hs hi hk
    exact ⟨h, hi, (hiff.2 last.lastOfObject).mpr last⟩

/-- 127 times "a" and then one more character. -/
def longName (last : UInt8) (h : 0 ≠ last) : CStr 129 where
  chars := List.replicate 127 97 ++ [last]
  noNul := by simp [h]
  fits := by simp

/-- Two names of 128 characters that differ in the last one. -/
theorem name_not_identifies :
    ¬ ∀ (s : Device Unit) (k : Kind) (m₁ m₂ : Nat) (n₁ : CStr m₁) (n₂ : CStr m₂) (h₁ h₂ : Ptr),
      k ≠ .shm → HandleOpen 3 k n₁ h₁ s → HandleOpen 3 k n₂ h₂ s →
      (containerOf h₁ = containerOf h₂ ↔ n₁.chars = n₂.chars) := by
  intro h
  obtain ⟨s, h₁, h₂, open₁, open₂⟩ :=
    exists_two_open (longName 120 (by decide)) (longName 121 (by decide))
  have hsame := (open₁.same_entry_iff (by decide) open₂).mpr (by decide)
  exact absurd ((h s .sem _ _ _ _ h₁ h₂ (by decide) open₁ open₂).mp hsame) (by decide)

end Gipcy.Linux
