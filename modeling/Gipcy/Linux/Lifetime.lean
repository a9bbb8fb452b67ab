import Gipcy.Lib.Clients
import Gipcy.Linux.References

/-! Whether a request works on an entry that was freed. The driver takes no reference
for a lock, unlock or reset under way; its entry lives as long as the clients keep
theirs. -/
namespace Gipcy.Linux

open CountingSemaphore Transition Clients

/-- The driver, and the handles that each open file was given and has not closed. -/
structure Leased (φ : Type*) where
  dev : Device φ
  held : φ → Kind → Ptr → Nat

namespace Leased

variable {φ : Type*} [DecidableEq φ]

/-- The handles of a file after its count for one entry has changed. -/
def hold (s : Leased φ) (file : φ) (k : Kind) (p : Ptr) (n : Nat) : φ → Kind → Ptr → Nat :=
  Function.update s.held file fun l q => if l = k ∧ q = p then n else s.held file l q

/-- The handles after a request. -/
def leases (s : Leased φ) : Request φ → φ → Kind → Ptr → Nat
  | .deviceClose file => Function.update s.held file fun _ _ => 0
  | .create file k param fresh =>
    let p := containerOf (registryCreate k (fill k) s.dev.drv param (some fresh)).2
    s.hold file k p (s.held file k p + 1)
  | .close file k param =>
    let p := containerOf param.handle
    s.hold file k p (s.held file k p - 1)
  | _ => s.held

def next (s : Leased φ) (a : Request φ) : Option (Leased φ) :=
  (s.dev.next a).map fun dev => ⟨dev, s.leases a⟩

/-- The runs of a freshly probed driver. -/
def system (φ : Type*) [DecidableEq φ] : System (Leased φ) (Request φ) :=
  .ofNext (fun s => (∃ mem, s.dev = ⟨ipcProbe mem, [], [], []⟩) ∧ s.held = fun _ _ _ => 0) next

/-- A lock, unlock or reset request of the file is under way on the entry. -/
def Busy (s : Leased φ) (file : φ) (k : Kind) (p : Ptr) : Prop :=
  ∃ x ∈ s.dev.calls, x.1 = file ∧ x.2.1 = p ∧ x.2.2.kind = k

instance (s : Leased φ) (file : φ) (k : Kind) (p : Ptr) : Decidable (s.Busy file k p) :=
  inferInstanceAs (Decidable (∃ x ∈ s.dev.calls, _))

/-- A file uses and closes only handles that it holds, and it closes the last one of
an entry only when none of its own requests is under way on it. -/
def Careful (s : Leased φ) : Request φ → Prop
  | .start file k _ handle _ _ => 0 < s.held file k (containerOf handle)
  | .close file k param =>
    0 < s.held file k (containerOf param.handle) ∧
      (s.Busy file k (containerOf param.handle) → 1 < s.held file k (containerOf param.handle))
  | _ => True

instance (s : Leased φ) (a : Request φ) : Decidable (s.Careful a) := by
  cases a <;> unfold Careful <;> infer_instance

omit [DecidableEq φ] in
/-- The entry that a request reads or writes without having looked for it in its list. -/
def touches (s : Device φ) : Request φ → Option (Kind × Ptr)
  | .start _ k _ handle _ _ => some (k, containerOf handle)
  | .close _ k param => some (k, containerOf param.handle)
  | .access i _ => s.calls[i]?.map fun x => (x.2.2.kind, x.2.1)
  | _ => none

section Hold

variable {s : Leased φ} {file c : φ} {k l : Kind} {p q : Ptr} {n : Nat}

@[simp] theorem hold_self : s.hold file k p n file k p = n := by
  simp [hold]

theorem hold_of_ne (h : ¬ (c = file ∧ l = k ∧ q = p)) :
    s.hold file k p n c l q = s.held c l q := by
  by_cases hc : c = file
  · subst hc
    rw [hold, Function.update_self, if_neg fun e => h ⟨rfl, e⟩]
  · rw [hold, Function.update_of_ne hc]

/-- The handles of all files on one entry. -/
def total [Fintype φ] (held : φ → Kind → Ptr → Nat) (k : Kind) (p : Ptr) : Int :=
  tally (fun h : Kind → Ptr → Nat => (h k p : Int)) held

theorem total_hold [Fintype φ] : total (s.hold file k p n) l q =
    total s.held l q + if l = k ∧ q = p then (n : Int) - s.held file k p else 0 := by
  rw [total, hold, tally_update]
  by_cases h : l = k ∧ q = p
  · obtain ⟨rfl, rfl⟩ := h
    simp only [and_self, ↓reduceIte, total]
    omega
  · simp only [if_neg h, total]
    omega

end Hold

/-- The references on an entry cover the handles that are held on it, and a request
under way is one of an open file that holds a handle. -/
structure Covered [Fintype φ] (s : Leased φ) : Prop where
  sound : Device.Sound s.dev
  closed : ∀ c, c ∉ s.dev.files → s.held c = fun _ _ => 0
  leased : ∀ k p, total s.held k p ≤ s.dev.drv.refs k p
  calls : ∀ x ∈ s.dev.calls, x.1 ∈ s.dev.files ∧ 0 < s.held x.1 x.2.2.kind x.2.1

namespace Covered

variable [Fintype φ] {s t : Leased φ} {file : φ} {k : Kind} {dev : Device φ}

omit [DecidableEq φ] in
theorem listed (h : Covered s) {p : Ptr} (hp : 0 < s.held file k p) :
    p ∈ s.dev.drv.mList k := by
  let weight : (Kind → Ptr → Nat) → Int := fun h => (h k p : Int)
  have hnonneg : ∀ c, 0 ≤ weight (s.held c) := fun _ => Int.natCast_nonneg _
  have hle : (s.held file k p : Int) ≤ total s.held k p := le_tally hnonneg file
  have hrefs := h.leased k p
  rw [h.sound.wf.listed_iff]
  omega

theorem deviceOpen (h : Covered s) (step : s.dev.next (.deviceOpen file) = some dev) :
    Covered ⟨dev, s.held⟩ := by
  have sound := h.sound.next step
  have hrefs := Device.next_moves h.sound step
  simp only [Device.next] at step
  split at step <;> cases step
  refine ⟨sound, fun c hc => ?_, fun k p => (hrefs k p).symm ▸ h.leased k p, fun x hx => ?_⟩
  · exact h.closed c fun hopen => hc (List.mem_cons_of_mem _ hopen)
  · exact ⟨List.mem_cons_of_mem _ (h.calls x hx).1, (h.calls x hx).2⟩

/-- The last close frees every entry, and then no request is under way. -/
theorem deviceClose (h : Covered s) (step : s.dev.next (.deviceClose file) = some dev) :
    Covered ⟨dev, Function.update s.held file fun _ _ => 0⟩ := by
  have sound := h.sound.next step
  have hrefs := Device.next_moves h.sound step
  simp only [Device.next] at step
  obtain ⟨⟨hfile, hown⟩, step⟩ := Option.ite_none_right_eq_some.mp step
  cases step
  have hclosed : ∀ c, c ∉ s.dev.files.erase file →
      Function.update s.held file (fun _ _ => 0) c = fun _ _ => 0 := by
    intro c hc
    by_cases hcf : c = file
    · rw [hcf, Function.update_self]
    · rw [Function.update_of_ne hcf]
      exact h.closed c fun hopen => hc ((List.mem_erase_of_ne hcf).mpr hopen)
  refine ⟨sound, hclosed, fun k p => ?_, fun x hx => ?_⟩
  · rw [hrefs]
    split
    · rename_i hone
      have hempty : s.dev.files.erase file = [] := by
        rw [← List.length_eq_zero_iff, List.length_erase_of_mem hfile, hone]
      apply le_of_eq
      apply tally_eq_zero
      intro c
      have hzero := hclosed c (by rw [hempty]; exact List.not_mem_nil)
      exact congrArg (fun h : Kind → Ptr → Nat => (h k p : Int)) hzero
    · have hleased := h.leased k p
      rw [total, tally_update]
      simp only [total] at hleased
      push_cast
      omega
  · have hne := hown x hx
    obtain ⟨hopen, hheld⟩ := h.calls x hx
    dsimp only
    rw [Function.update_of_ne hne]
    exact ⟨(List.mem_erase_of_ne hne).mpr hopen, hheld⟩

theorem create (h : Covered s) {param : IpcCreate} {fresh : Ptr}
    (step : s.dev.next (.create file k param fresh) = some dev) :
    Covered ⟨dev, s.leases (.create file k param fresh)⟩ := by
  have sound := h.sound.next step
  obtain ⟨p, hp, -, hrefs⟩ := Device.next_moves h.sound step
  simp only [Device.next] at step
  obtain ⟨⟨hfile, -⟩, step⟩ := Option.ite_none_right_eq_some.mp step
  cases step
  simp only [leases, hp, containerOf_userHandle]
  refine ⟨sound, fun c hc => ?_, fun l q => ?_, fun x hx => ?_⟩
  · have hne : c ≠ file := fun e => hc (e ▸ hfile)
    exact (Function.update_of_ne hne ..).trans (h.closed c hc)
  · have hleased := h.leased l q
    rw [hrefs, total_hold]
    split <;> push_cast <;> omega
  · obtain ⟨hopen, hheld⟩ := h.calls x hx
    refine ⟨hopen, ?_⟩
    dsimp only
    by_cases hown : x.1 = file ∧ x.2.2.kind = k ∧ x.2.1 = p
    · obtain ⟨hxf, hxk, hxp⟩ := hown
      rw [hxf, hxk, hxp, hold_self]
      exact Nat.succ_pos _
    · rw [hold_of_ne hown]
      exact hheld

/-- The handle that is closed is one of a listed entry, so a reference goes with it. -/
theorem close (h : Covered s) {param : IpcClose} (careful : s.Careful (.close file k param))
    (step : s.dev.next (.close file k param) = some dev) :
    Covered ⟨dev, s.leases (.close file k param)⟩ := by
  have sound := h.sound.next step
  have hrefs := Device.next_moves h.sound step
  obtain ⟨hheld, hbusy⟩ := careful
  have hlisted := h.listed hheld
  have hhandle : userHandle (containerOf param.handle) = param.handle :=
    userHandle_containerOf fun e => h.sound.wf.notNull k (e ▸ hlisted)
  simp only [Device.next] at step
  obtain ⟨hfile, step⟩ := Option.ite_none_right_eq_some.mp step
  cases step
  simp only [leases]
  refine ⟨sound, fun c hc => ?_, fun l q => ?_, fun x hx => ?_⟩
  · have hne : c ≠ file := fun e => hc (e ▸ hfile)
    exact (Function.update_of_ne hne ..).trans (h.closed c hc)
  · have hleased := h.leased l q
    rw [hrefs, total_hold]
    by_cases hq : l = k ∧ q = containerOf param.handle
    · have hown : l = k ∧ param.handle = userHandle q ∧ q ∈ s.dev.drv.mList l := by
        rw [hq.1, hq.2]
        exact ⟨rfl, hhandle.symm, hlisted⟩
      rw [if_pos hq, if_pos hown]
      omega
    · have hother : ¬ (l = k ∧ param.handle = userHandle q ∧ q ∈ s.dev.drv.mList l) := by
        rintro ⟨hl, hhq, -⟩
        exact hq ⟨hl, by rw [hhq, containerOf_userHandle]⟩
      rw [if_neg hq, if_neg hother]
      omega
  · obtain ⟨hopen, hxheld⟩ := h.calls x hx
    refine ⟨hopen, ?_⟩
    dsimp only
    by_cases hown : x.1 = file ∧ x.2.2.kind = k ∧ x.2.1 = containerOf param.handle
    · obtain ⟨hxf, hxk, hxp⟩ := hown
      have hmore := hbusy ⟨x, hx, hxf, hxp, hxk⟩
      rw [hxf, hxk, hxp, hold_self]
      omega
    · rw [hold_of_ne hown]
      exact hxheld

theorem start (h : Covered s) {op : Op} {handle : Ptr} {timeout lockerid : Int32}
    (careful : s.Careful (.start file k op handle timeout lockerid))
    (step : s.dev.next (.start file k op handle timeout lockerid) = some dev) :
    Covered ⟨dev, s.held⟩ := by
  have sound := h.sound.next step
  have hrefs := Device.next_moves h.sound step
  have hheld : 0 < s.held file k (containerOf handle) := careful
  simp only [Device.next] at step
  obtain ⟨hfile, step⟩ := Option.ite_none_right_eq_some.mp step
  obtain ⟨point, -, step⟩ := Option.map_eq_some_iff.mp step
  split at step
  · cases step
    refine ⟨sound, h.closed, fun l q => (hrefs l q).symm ▸ h.leased l q, fun x hx => ?_⟩
    rcases List.mem_append.mp hx with hx | hx
    · exact h.calls x hx
    · rw [List.mem_singleton.mp hx]
      exact ⟨hfile, hheld⟩
  · cases step
    exact h

theorem access (h : Covered s) {i : Nat} {how : WaitEnd}
    (step : s.dev.next (.access i how) = some dev) : Covered ⟨dev, s.held⟩ := by
  have sound := h.sound.next step
  have hrefs := Device.next_moves h.sound step
  simp only [Device.next] at step
  obtain ⟨⟨c, p, call⟩, hcall, step⟩ := Option.bind_eq_some_iff.mp step
  obtain ⟨⟨e, nx⟩, -, step⟩ := Option.map_eq_some_iff.mp step
  cases step
  refine ⟨sound, h.closed, fun l q => (hrefs l q).symm ▸ h.leased l q, fun x hx => ?_⟩
  have hold := h.calls _ (List.mem_of_getElem? hcall)
  cases nx with
  | goto point =>
    rcases List.mem_or_eq_of_mem_set hx with hx | rfl
    · exact h.calls x hx
    · exact hold
  | ret error => exact h.calls x (List.mem_of_mem_eraseIdx hx)

theorem scribble (h : Covered s) {p : Ptr} {e : Entry}
    (step : s.dev.next (.scribble p e) = some dev) : Covered ⟨dev, s.held⟩ := by
  have sound := h.sound.next step
  have hrefs := Device.next_moves h.sound step
  simp only [Device.next] at step
  obtain ⟨-, step⟩ := Option.ite_none_right_eq_some.mp step
  cases step
  exact ⟨sound, h.closed, fun l q => (hrefs l q).symm ▸ h.leased l q, h.calls⟩

theorem next (h : Covered s) {a : Request φ} (careful : s.Careful a)
    (step : s.next a = some t) : Covered t := by
  obtain ⟨dev, hdev, rfl⟩ := Option.map_eq_some_iff.mp step
  cases a with
  | deviceOpen file => exact h.deviceOpen hdev
  | deviceClose file => exact h.deviceClose hdev
  | create file k param fresh => exact h.create hdev
  | close file k param => exact h.close careful hdev
  | start file k op handle timeout lockerid => exact h.start careful hdev
  | access i how => exact h.access hdev
  | scribble p e => exact h.scribble hdev

omit [DecidableEq φ] in
/-- What a careful request touches is listed. -/
theorem touched (h : Covered s) {a : Request φ} (careful : s.Careful a) {p : Ptr}
    (hp : touches s.dev a = some (k, p)) : p ∈ s.dev.drv.mList k := by
  cases a with
  | start file l op handle timeout lockerid =>
    cases hp
    exact h.listed careful
  | close file l param =>
    cases hp
    exact h.listed careful.1
  | access i how =>
    obtain ⟨x, hx, heq⟩ := Option.map_eq_some_iff.mp hp
    cases heq
    exact h.listed (h.calls x (List.mem_of_getElem? hx)).2
  | deviceOpen | deviceClose | create | scribble => cases hp

end Covered

theorem covered_reachable [Fintype φ] {s : Leased φ}
    (h : ((system φ).guard Careful).Reachable s) : Covered s := by
  apply h.invariant (I := Covered)
  · rintro ⟨dev, held⟩ ⟨⟨mem, hdev⟩, hheld⟩
    dsimp only at hdev hheld
    subst hdev hheld
    refine ⟨Device.sound_reachable (.init ⟨mem, rfl⟩), fun _ _ => rfl, fun k p => ?_, nofun⟩
    exact (tally_eq_zero fun _ => rfl).le
  · rintro s a t - inv ⟨careful, step⟩
    exact inv.next careful step

section Claims

/-- Where every file uses and closes only handles that it holds, and waits for its own
requests on an entry before it closes its last handle of it, no request of anybody
touches an entry that is not registered, and no handle that is held loses its entry. -/
theorem no_use_after_free [Fintype φ] {s : Leased φ}
    (h : ((system φ).guard Careful).Reachable s) :
    (∀ a k p, s.Careful a → touches s.dev a = some (k, p) → p ∈ s.dev.drv.mList k) ∧
    ∀ file k p, 0 < s.held file k p → p ∈ s.dev.drv.mList k :=
  ⟨fun _ _ _ careful hp => (covered_reachable h).touched careful hp,
    fun _ _ _ hp => (covered_reachable h).listed hp⟩

/-- One file waits for the semaphore while the other closes its handle. -/
theorem no_use_after_free_waiting : ∃ s : Leased Bool,
    ((system Bool).guard Careful).Reachable s ∧
      touches s.dev (.access 0 .acquired) = some (.sem, 4096) ∧
      4096 ∈ s.dev.drv.mList .sem := by
  refine exists_guarded_of_run ⟨⟨ipcProbe fun _ => Entry.zero, [], [], []⟩, fun _ _ _ => 0⟩
    [.deviceOpen true, .deviceOpen false, .create true .sem ⟨CStr.x, 0, 0, 0⟩ 4096,
      .create false .sem ⟨CStr.x, 0, 0, 0⟩ 8192,
      .start true .sem .lock (userHandle 4096) (-1) 0, .close false .sem ⟨userHandle 4096⟩]
    (fun s => decide (touches s.dev (.access 0 .acquired) = some (.sem, 4096)))
    ⟨⟨_, rfl⟩, rfl⟩ (by decide) fun s hs hp => ?_
  have htouch := of_decide_eq_true hp
  exact ⟨htouch, (no_use_after_free hs).1 (.access 0 .acquired) _ _ trivial htouch⟩

end Claims

end Leased

end Gipcy.Linux
