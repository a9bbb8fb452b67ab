import Gipcy.Linux.Insys

/-! How each request of the driver moves the references on the entries, and that
an entry keeps its name as long as it is listed. -/
namespace Gipcy.Linux

/-- The handle is that of a listed entry of the name. -/
def Designates (drv : Driver) (k : Kind) (name : CStr 128) (handle : Ptr) : Prop :=
  ∃ p ∈ drv.mList k, (drv.mem p).name = name ∧ handle = userHandle p

section Registry

variable {drv : Driver} {k : Kind} {param : IpcCreate}

/-- An entry is listed exactly as long as there are references on it. -/
theorem Driver.WellFormed.listed_iff (wf : drv.WellFormed) {p : Ptr} :
    p ∈ drv.mList k ↔ 0 < drv.refs k p := by
  constructor
  · intro hp
    rw [Driver.refs_of_mem hp]
    exact wf.owned k p hp
  · intro h
    by_contra hp
    rw [Driver.refs_of_not_mem hp] at h
    exact absurd h (by decide)

theorem Driver.WellFormed.refs_nonneg (wf : drv.WellFormed) (p : Ptr) : 0 ≤ drv.refs k p := by
  by_cases hp : p ∈ drv.mList k
  · exact Int.le_of_lt (wf.listed_iff.mp hp)
  · exact (Driver.refs_of_not_mem hp).ge

/-- A create returns the handle of a listed entry of the name, with one reference
more. -/
theorem refs_registryCreate (wf : drv.WellFormed) {fresh : Ptr} (free : drv.Free fresh) :
    ∃ p, (registryCreate k (fill k) drv param (some fresh)).2 = userHandle p ∧
      ((registryCreate k (fill k) drv param (some fresh)).1.mem p).name = param.name ∧
      ∀ l q, (registryCreate k (fill k) drv param (some fresh)).1.refs l q =
        drv.refs l q + if l = k ∧ q = p then 1 else 0 := by
  cases hfind : findName drv k param.name with
  | some p =>
    obtain ⟨hp, hname⟩ := findName_some hfind
    rw [registryCreate_found _ hfind]
    refine ⟨p, rfl, by simp [countOwner, hname], fun l q => ?_⟩
    split
    · rename_i heq
      obtain ⟨rfl, rfl⟩ := heq
      exact (refs_found wf hp).1
    · rw [(refs_found wf hp).2 l q ‹_›, Int.add_zero]
  | none =>
    rw [registryCreate_new _ hfind]
    refine ⟨fresh, rfl, by simp [insertNew], fun l q => ?_⟩
    split
    · rename_i heq
      obtain ⟨rfl, rfl⟩ := heq
      exact (refs_new free).1
    · rw [(refs_new free).2 l q ‹_›, Int.add_zero]

/-- A close writes to the entry of its handle at most. -/
theorem registryClose_mem_ne (wf : drv.WellFormed) (k : Kind) (param : IpcClose) {q : Ptr}
    (hq : q ≠ containerOf param.handle) : (registryClose k drv param).1.mem q = drv.mem q := by
  by_cases hp : containerOf param.handle ∈ drv.mList k
  · by_cases last : (drv.mem (containerOf param.handle)).ownerCount = 1
    · rw [registryClose_last wf _ hp rfl last, Driver.setList_mem, drv.write_mem_ne _ hq]
    · rw [registryClose_busy wf _ hp rfl last, drv.write_mem_ne _ hq]
  · rw [registryClose_unlisted (.inr hp)]

/-- A close of a listed entry takes one reference from it. -/
theorem refs_registryClose (wf : drv.WellFormed) (k : Kind) (param : IpcClose) (l : Kind)
    (q : Ptr) :
    (registryClose k drv param).1.refs l q =
      drv.refs l q - if l = k ∧ param.handle = userHandle q ∧ q ∈ drv.mList l then 1 else 0 := by
  by_cases hp : containerOf param.handle ∈ drv.mList k
  · have hhandle : userHandle (containerOf param.handle) = param.handle :=
      userHandle_containerOf fun e => wf.notNull k (e ▸ hp)
    split
    · rename_i heq
      obtain ⟨rfl, hq, -⟩ := heq
      have hc : containerOf param.handle = q := by rw [hq, containerOf_userHandle]
      exact registryClose_refs wf (hc ▸ hp) param hc
    · rename_i hne
      have hother : ¬ (l = k ∧ q = containerOf param.handle) := by
        intro ⟨hl, hq⟩
        exact hne ⟨hl, by rw [hq, hhandle], by rw [hl, hq]; exact hp⟩
      have hlist := (registryClose_releases wf hp hhandle.symm).2.2 l q hother
      by_cases hq : q ∈ drv.mList l
      · have hqp : q ≠ containerOf param.handle := by
          intro hqp
          rw [hqp] at hq
          exact hother ⟨wf.kind_unique hq hp, hqp⟩
        rw [Driver.refs_of_mem (hlist.mpr hq), Driver.refs_of_mem hq,
          registryClose_mem_ne wf k param hqp, Int.sub_zero]
      · rw [Driver.refs_of_not_mem (hlist.not.mpr hq), Driver.refs_of_not_mem hq, Int.sub_zero]
  · have hnot : ¬ (l = k ∧ param.handle = userHandle q ∧ q ∈ drv.mList l) := by
      rintro ⟨rfl, hq, hmem⟩
      rw [hq, containerOf_userHandle] at hp
      exact hp hmem
    rw [registryClose_unlisted (.inr hp), if_neg hnot, Int.sub_zero]

end Registry

namespace Device

variable {φ : Type*} [DecidableEq φ] {s t : Device φ} {a : Request φ}

theorem next_create {file : φ} (hfile : file ∈ s.files) {fresh : Ptr} (free : s.drv.Free fresh)
    (k : Kind) (param : IpcCreate) : s.next (.create file k param fresh) = some { s with
      drv := (registryCreate k (fill k) s.drv param (some fresh)).1
      log := createRecord s.drv k param fresh :: s.log } :=
  if_pos ⟨hfile, free⟩

/-- The references after a request. -/
def Moves (s t : Device φ) : Request φ → Prop
  | .create _ k param fresh => ∃ p,
    (registryCreate k (fill k) s.drv param (some fresh)).2 = userHandle p ∧
    (t.drv.mem p).name = param.name ∧
    ∀ l q, t.drv.refs l q = s.drv.refs l q + if l = k ∧ q = p then 1 else 0
  | .close _ k param => ∀ l q, t.drv.refs l q =
    s.drv.refs l q - if l = k ∧ param.handle = userHandle q ∧ q ∈ s.drv.mList l then 1 else 0
  | .deviceClose _ => ∀ l q, t.drv.refs l q = if s.files.length = 1 then 0 else s.drv.refs l q
  | _ => ∀ l q, t.drv.refs l q = s.drv.refs l q

/-- The entries that are still listed have their names. -/
def KeepsNames (drv drv' : Driver) : Prop :=
  ∀ k, ∀ p ∈ drv.mList k, p ∈ drv'.mList k → (drv'.mem p).name = (drv.mem p).name

theorem refs_write (drv : Driver) {p : Ptr} {e : Entry}
    (same : (∀ k, p ∉ drv.mList k) ∨ e.ownerCount = (drv.mem p).ownerCount) (l : Kind) (q : Ptr) :
    (drv.write p e).refs l q = drv.refs l q := by
  by_cases hq : q ∈ drv.mList l
  · rw [Driver.refs_of_mem (by exact hq), Driver.refs_of_mem hq]
    by_cases hqp : q = p
    · subst hqp
      rw [drv.write_mem_self, same.resolve_left fun h => h l hq]
    · rw [drv.write_mem_ne _ hqp]
  · rw [Driver.refs_of_not_mem (by exact hq), Driver.refs_of_not_mem hq]

theorem keepsNames_write (drv : Driver) {p : Ptr} {e : Entry}
    (same : (∀ k, p ∉ drv.mList k) ∨ e.name = (drv.mem p).name) :
    KeepsNames drv (drv.write p e) := by
  intro k q hq _
  by_cases hqp : q = p
  · subst hqp
    rw [drv.write_mem_self, same.resolve_left fun h => h k hq]
  · rw [drv.write_mem_ne _ hqp]

theorem keepsNames_create (drv : Driver) (k : Kind) (param : IpcCreate) {fresh : Ptr}
    (free : drv.Free fresh) :
    KeepsNames drv (registryCreate k (fill k) drv param (some fresh)).1 := by
  cases hfind : findName drv k param.name with
  | some p =>
    rw [registryCreate_found _ hfind]
    exact keepsNames_write drv (.inr rfl)
  | none =>
    rw [registryCreate_new _ hfind]
    intro l q hq _
    have hqp : q ≠ fresh := fun e => free.2 l (e ▸ hq)
    rw [insertNew, Driver.setList_mem, drv.write_mem_ne _ hqp]

theorem keepsNames_close {drv : Driver} (wf : drv.WellFormed) (k : Kind) (param : IpcClose) :
    KeepsNames drv (registryClose k drv param).1 := by
  intro l q _ _
  by_cases hp : containerOf param.handle ∈ drv.mList k
  · by_cases hqp : q = containerOf param.handle
    · rw [hqp]
      by_cases last : (drv.mem (containerOf param.handle)).ownerCount = 1
      · simp [registryClose_last wf _ hp rfl last]
      · simp [registryClose_busy wf _ hp rfl last]
    · rw [registryClose_mem_ne wf k param hqp]
  · rw [registryClose_unlisted (.inr hp)]

theorem next_keepsNames (sound : Sound s) (h : s.next a = some t) : KeepsNames s.drv t.drv := by
  cases a with
  | deviceOpen file =>
    simp only [Device.next] at h
    split at h <;> cases h
    exact fun k p _ _ => rfl
  | deviceClose file =>
    simp only [Device.next] at h
    obtain ⟨-, h⟩ := Option.ite_none_right_eq_some.mp h
    cases h
    intro k p _ _
    rw [ipcDeviceClose_mem]
  | create file k param fresh =>
    simp only [Device.next] at h
    obtain ⟨⟨-, free⟩, h⟩ := Option.ite_none_right_eq_some.mp h
    cases h
    exact keepsNames_create s.drv k param free
  | close file k param =>
    simp only [Device.next] at h
    obtain ⟨-, h⟩ := Option.ite_none_right_eq_some.mp h
    cases h
    exact keepsNames_close sound.wf k param
  | start file k op handle timeout lockerid =>
    simp only [Device.next] at h
    obtain ⟨-, h⟩ := Option.ite_none_right_eq_some.mp h
    obtain ⟨point, -, h⟩ := Option.map_eq_some_iff.mp h
    split at h <;> cases h <;> exact fun k p _ _ => rfl
  | access i how =>
    simp only [Device.next] at h
    obtain ⟨⟨file, p, call⟩, -, h⟩ := Option.bind_eq_some_iff.mp h
    obtain ⟨⟨e, nx⟩, ha, h⟩ := Option.map_eq_some_iff.mp h
    cases h
    exact keepsNames_write s.drv (.inr (access_effect ha).registration.1)
  | scribble p e =>
    simp only [Device.next] at h
    obtain ⟨free, h⟩ := Option.ite_none_right_eq_some.mp h
    cases h
    exact keepsNames_write s.drv (.inl free.2)

theorem next_moves (sound : Sound s) (h : s.next a = some t) : Moves s t a := by
  cases a with
  | deviceOpen file =>
    simp only [Device.next] at h
    split at h <;> cases h
    exact fun l q => rfl
  | deviceClose file =>
    simp only [Device.next] at h
    obtain ⟨⟨hfile, -⟩, h⟩ := Option.ite_none_right_eq_some.mp h
    cases h
    intro l q
    have husage := sound.usage
    have hlast : s.drv.mUsage - 1 = 0 ↔ s.files.length = 1 := by omega
    have hlist : (ipcDeviceClose s.drv).mList l =
        if s.files.length = 1 then [] else s.drv.mList l := by
      rw [ipcDeviceClose_mList]
      simp only [hlast]
    simp only [Driver.refs, hlist, ipcDeviceClose_mem]
    split <;> simp
  | create file k param fresh =>
    simp only [Device.next] at h
    obtain ⟨⟨-, free⟩, h⟩ := Option.ite_none_right_eq_some.mp h
    cases h
    exact refs_registryCreate sound.wf free
  | close file k param =>
    simp only [Device.next] at h
    obtain ⟨-, h⟩ := Option.ite_none_right_eq_some.mp h
    cases h
    exact refs_registryClose sound.wf k param
  | start file k op handle timeout lockerid =>
    simp only [Device.next] at h
    obtain ⟨-, h⟩ := Option.ite_none_right_eq_some.mp h
    obtain ⟨point, -, h⟩ := Option.map_eq_some_iff.mp h
    split at h <;> cases h <;> exact fun l q => rfl
  | access i how =>
    simp only [Device.next] at h
    obtain ⟨⟨file, p, call⟩, -, h⟩ := Option.bind_eq_some_iff.mp h
    obtain ⟨⟨e, nx⟩, ha, h⟩ := Option.map_eq_some_iff.mp h
    cases h
    exact refs_write s.drv (.inr (access_effect ha).registration.2.1)
  | scribble p e =>
    simp only [Device.next] at h
    obtain ⟨free, h⟩ := Option.ite_none_right_eq_some.mp h
    cases h
    exact refs_write s.drv (.inl free.2)

end Device

end Gipcy.Linux
