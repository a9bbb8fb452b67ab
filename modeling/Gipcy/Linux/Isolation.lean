import Gipcy.Lib.Budget
import Gipcy.Linux.References

/-! What one client's closes do to the handle of another. The references of an
entry are one counter, with no record of the file that took them. -/
namespace Gipcy.Linux

open Transition Budget

namespace Device

variable {φ : Type*} [DecidableEq φ] {s t : Device φ} {k : Kind} {name : CStr 128} {p : Ptr}

/-- What a request adds to the owners of the entry at `p`, which has the name,
while it is listed. -/
def weight (k : Kind) (name : CStr 128) (p : Ptr) : Request φ → Int
  | .create _ l param _ => if l = k ∧ param.name = name then 1 else 0
  | .close _ l param => if l = k ∧ param.handle = userHandle p then -1 else 0
  | _ => 0

/-- Nothing but the close of a file takes it from the open ones. -/
theorem next_files {a : Request φ} (h : s.next a = some t) {file : φ} (hfile : file ∈ s.files)
    (stays : a ≠ .deviceClose file) : file ∈ t.files := by
  cases a with
  | deviceOpen other =>
    simp only [Device.next] at h
    split at h <;> cases h
    exact List.mem_cons_of_mem _ hfile
  | deviceClose other =>
    simp only [Device.next] at h
    obtain ⟨-, h⟩ := Option.ite_none_right_eq_some.mp h
    cases h
    have hne : file ≠ other := fun e => stays (e ▸ rfl)
    exact (List.mem_erase_of_ne hne).mpr hfile
  | create other l param fresh =>
    simp only [Device.next] at h
    obtain ⟨-, h⟩ := Option.ite_none_right_eq_some.mp h
    cases h
    exact hfile
  | close other l param =>
    simp only [Device.next] at h
    obtain ⟨-, h⟩ := Option.ite_none_right_eq_some.mp h
    cases h
    exact hfile
  | start other l op handle timeout lockerid =>
    simp only [Device.next] at h
    obtain ⟨-, h⟩ := Option.ite_none_right_eq_some.mp h
    obtain ⟨point, -, h⟩ := Option.map_eq_some_iff.mp h
    split at h <;> cases h <;> exact hfile
  | access i how =>
    simp only [Device.next] at h
    obtain ⟨c, -, h⟩ := Option.bind_eq_some_iff.mp h
    obtain ⟨r, -, h⟩ := Option.map_eq_some_iff.mp h
    cases h
    exact hfile
  | scribble q e =>
    simp only [Device.next] at h
    obtain ⟨-, h⟩ := Option.ite_none_right_eq_some.mp h
    cases h
    exact hfile

/-- The file is open and the entry at `p` is listed under the name. -/
structure Keeps (s : Device φ) (file : φ) (k : Kind) (name : CStr 128) (p : Ptr) : Prop where
  sound : Sound s
  file : file ∈ s.files
  listed : p ∈ s.drv.mList k
  name : (s.drv.mem p).name = name

/-- One step moves the owners by its weight. -/
theorem Keeps.refs_next {file : φ} (h : Keeps s file k name p) {a : Request φ}
    (hnext : s.next a = some t) (stays : a ≠ .deviceClose file) :
    t.drv.refs k p = s.drv.refs k p + weight k name p a := by
  have hmoves := next_moves h.sound hnext
  have hpos := h.sound.wf.listed_iff.mp h.listed
  cases a with
  | create other l param fresh =>
    obtain ⟨q, -, hqname, hrefs⟩ := hmoves
    have wf := (h.sound.next hnext).wf
    have listed : p ∈ t.drv.mList k := by
      rw [wf.listed_iff, hrefs]
      split <;> omega
    have hpname : (t.drv.mem p).name = name :=
      (next_keepsNames h.sound hnext k p h.listed listed).trans h.name
    have hiff : (k = l ∧ p = q) ↔ (l = k ∧ param.name = name) := by
      constructor
      · rintro ⟨rfl, rfl⟩
        exact ⟨rfl, hqname.symm.trans hpname⟩
      · rintro ⟨rfl, rfl⟩
        have hq : q ∈ t.drv.mList l := by
          have hnonneg := h.sound.wf.refs_nonneg (k := l) q
          rw [wf.listed_iff, hrefs, if_pos ⟨rfl, rfl⟩]
          omega
        exact ⟨rfl, wf.names l p listed q hq (hpname.trans hqname.symm)⟩
    simp only [hrefs, weight, hiff]
  | close other l param =>
    have hiff : (k = l ∧ param.handle = userHandle p ∧ p ∈ s.drv.mList k) ↔
        (l = k ∧ param.handle = userHandle p) := by
      constructor
      · rintro ⟨rfl, hp, -⟩
        exact ⟨rfl, hp⟩
      · rintro ⟨rfl, hp⟩
        exact ⟨rfl, hp, h.listed⟩
    simp only [hmoves k p, weight, hiff]
    split <;> omega
  | deviceClose other =>
    -- A file that is not the only one is closed.
    have hother : other ∈ s.files := by
      simp only [Device.next] at hnext
      exact (Option.ite_none_right_eq_some.mp hnext).1.1
    have hmany : s.files.length ≠ 1 := by
      intro hone
      obtain ⟨only, honly⟩ := List.length_eq_one_iff.mp hone
      have hfile := h.file
      rw [honly, List.mem_singleton] at hother hfile
      exact stays (by rw [hother, hfile])
    rw [hmoves, if_neg hmany]
    exact (Int.add_zero _).symm
  | deviceOpen other | start other l op handle timeout lockerid | access i how | scribble q e =>
    exact (hmoves k p).trans (Int.add_zero _).symm

/-- A step that leaves the entry listed leaves everything as it was for it. -/
theorem Keeps.next {file : φ} (h : Keeps s file k name p) {a : Request φ}
    (hnext : s.next a = some t) (stays : a ≠ .deviceClose file) (listed : p ∈ t.drv.mList k) :
    Keeps t file k name p where
  sound := h.sound.next hnext
  file := next_files hnext h.file stays
  listed := listed
  name := (next_keepsNames h.sound hnext k p h.listed listed).trans h.name

/-- The entry stays listed as long as the owners do not run out. -/
theorem Keeps.listed_iff_solvent {file : φ} {labels : List (Request φ)} (h : Keeps s file k name p)
    (stays : ∀ a ∈ labels, a ≠ .deviceClose file) (exec : (system φ).Exec s labels t) :
    ((system φ).confine fun u => p ∈ u.drv.mList k).Exec s labels t ↔
      Solvent (weight k name p) (s.drv.refs k p - 1) labels := by
  induction exec with
  | nil s =>
    have hpos := h.sound.wf.listed_iff.mp h.listed
    exact iff_of_true (.nil s) (solvent_nil.mpr (by omega))
  | @cons s a u labels t step rest ih =>
    have stay := stays a List.mem_cons_self
    have hpos := h.sound.wf.listed_iff.mp h.listed
    have hrefs := h.refs_next step stay
    have wf := (h.sound.next step).wf
    have hb : s.drv.refs k p - 1 + weight k name p a = u.drv.refs k p - 1 := by omega
    rw [solvent_cons, hb, and_iff_right (by omega)]
    by_cases listed : p ∈ u.drv.mList k
    · have hrest := ih (h.next step stay listed) fun b hb => stays b (List.mem_cons_of_mem a hb)
      rw [← hrest]
      constructor
      · rintro (_ | ⟨step', rest'⟩)
        cases Option.some.inj (step'.1.symm.trans step)
        exact rest'
      · exact fun rest' => .cons ⟨step, listed⟩ rest'
    · -- The owners have run out with this step.
      refine iff_of_false ?_ fun hsolvent => ?_
      · rintro (_ | ⟨step', rest'⟩)
        cases Option.some.inj (step'.1.symm.trans step)
        exact listed step'.2
      · have hnonneg := hsolvent.nonneg
        exact listed (wf.listed_iff.mpr (by omega))

end Device

open Device

/-- A handle that a client created through its file stays registered exactly as
long as, in every first part of what follows, the closes of the handle that all
clients make do not outnumber its other owners and the further creates. -/
theorem handle_registered_iff {φ : Type*} [DecidableEq φ] {s₀ s t : Device φ}
    {labels : List (Request φ)} {file : φ} {k : Kind} {param : IpcCreate} {fresh : Ptr}
    (hs : (Device.system φ).Reachable s₀)
    (created : s₀.next (.create file k param fresh) = some s)
    (stays : ∀ a ∈ labels, a ≠ .deviceClose file) (exec : (Device.system φ).Exec s labels t) :
    let p := containerOf (registryCreate k (fill k) s₀.drv param (some fresh)).2
    ((Device.system φ).confine fun u => p ∈ u.drv.mList k).Exec s labels t ↔
      Solvent (weight k param.name p) ((s.drv.mem p).ownerCount - 1) labels := by
  have sound := sound_reachable hs
  obtain ⟨q, hq, hname, hrefs⟩ := next_moves sound created
  have hfile : file ∈ s.files := by
    have hopen : file ∈ s₀.files := by
      simp only [Device.next] at created
      exact (Option.ite_none_right_eq_some.mp created).1.1
    exact next_files created hopen (by simp)
  have listed : q ∈ s.drv.mList k := by
    have hnonneg := sound.wf.refs_nonneg (k := k) q
    rw [(sound.next created).wf.listed_iff, hrefs, if_pos ⟨rfl, rfl⟩]
    omega
  rw [hq, containerOf_userHandle]
  intro p
  rw [← Driver.refs_of_mem listed]
  exact Keeps.listed_iff_solvent ⟨sound.next created, hfile, listed, hname⟩ stays exec

/-- Two open files, and the semaphore "x" that the second one has created. -/
def twoFiles : Device Bool := ⟨⟨fun _ => Entry.zero, fun _ => [], 2⟩, [true, false], [], []⟩

def semX : IpcCreate := ⟨CStr.x, 1, 0, 0⟩

def twoFilesCreated : Device Bool where
  drv := (registryCreate .sem (fill .sem) twoFiles.drv semX (some 4096)).1
  files := [true, false]
  calls := []
  log := [.created .sem 4096 true]

theorem twoFiles_reachable : (Device.system Bool).Reachable twoFiles :=
  reachable_of_run ⟨fun _ => Entry.zero, rfl⟩
    (show run Device.next ⟨ipcProbe fun _ => Entry.zero, [], [], []⟩
      [.deviceOpen false, .deviceOpen true] = some twoFiles from rfl)

theorem twoFiles_created :
    twoFiles.next (.create true .sem semX 4096) = some twoFilesCreated := rfl

theorem twoFiles_handle :
    containerOf (registryCreate .sem (fill .sem) twoFiles.drv semX (some 4096)).2 = 4096 :=
  containerOf_userHandle 4096

/-- The other file creates the semaphore too, and closes it once. -/
theorem handle_registered_balanced :
    ∃ t, ((Device.system Bool).confine fun u => 4096 ∈ u.drv.mList .sem).Exec twoFilesCreated
      [.create false .sem semX 8192, .close false .sem ⟨userHandle 4096⟩] t := by
  obtain ⟨t, ht⟩ := Option.isSome_iff_exists.mp (show (run Device.next twoFilesCreated
    [.create false .sem semX 8192, .close false .sem ⟨userHandle 4096⟩]).isSome = true by
      decide +kernel)
  have hiff := handle_registered_iff twoFiles_reachable twoFiles_created (by simp)
    (exec_ofNext_iff.mpr ht)
  rw [twoFiles_handle] at hiff
  refine ⟨t, hiff.mpr ?_⟩
  have hcount : (twoFilesCreated.drv.mem 4096).ownerCount = 1 := by decide +kernel
  simp [hcount, solvent_cons, solvent_nil, weight]

/-- The other file closes the semaphore that it has not created. -/
theorem handle_not_registered :
    ¬ ∀ (s₀ s t : Device Bool) (labels : List (Request Bool)) (k : Kind) (param : IpcCreate)
        (fresh : Ptr), (Device.system Bool).Reachable s₀ →
      s₀.next (.create true k param fresh) = some s →
      (∀ a ∈ labels, (∃ param fresh, a = .create false k param fresh) ∨
        ∃ param, a = .close false k param) →
      (Device.system Bool).Exec s labels t →
      containerOf (registryCreate k (fill k) s₀.drv param (some fresh)).2 ∈ t.drv.mList k := by
  intro h
  obtain ⟨t, ht, hgone⟩ := (Option.any_eq_true _ _).mp (show (run Device.next twoFilesCreated
    [.close false .sem ⟨userHandle 4096⟩]).any (fun t => decide (4096 ∉ t.drv.mList .sem)) = true
      by decide +kernel)
  have listed := h twoFiles twoFilesCreated t [.close false .sem ⟨userHandle 4096⟩] .sem semX 4096
    twoFiles_reachable twoFiles_created (by simp) (exec_ofNext_iff.mpr ht)
  rw [twoFiles_handle] at listed
  exact of_decide_eq_true hgone listed

end Gipcy.Linux
