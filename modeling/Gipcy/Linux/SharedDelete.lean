import Gipcy.Linux.SharedMemory

/-! The deletes of one shared memory, where every create and open succeeds and
every handle is deleted once: which of them unlinks the name. -/
namespace Gipcy.Linux

open Transition Clients

variable {ι : Type*} [DecidableEq ι]

namespace Shm

/-- Creates, opens and first deletes; only `shm_unlink` may fail. -/
def Successful (name : CStr 128) (s : Shm ι) (a : ι × ShmAct) : Prop :=
  match a.2, s.points a.1 with
  | .deleteAgain _, _ => False
  | .ioctl copyFromUser copyToUser _, _ =>
    copyFromUser = true ∧ copyToUser = true ∧ registersNothing name s a = false
  | .sys _, .shmUnlink => True
  | .sys ok, .shmOpen _ _ => ok = true ∧ s.bound.isSome = true
  | .sys ok, _ => ok = true
  | .call _, _ | .delete _, _ => True

/-- The step is a register ioctl that lists the name. -/
def lists (name : CStr 128) (s : Shm ι) (a : ι × ShmAct) : Bool :=
  match a.2, s.points a.1 with
  | .ioctl _ _ _, .register _ => (findName s.drv .shm name).isNone
  | _, _ => false

/-- The step is a call of `shm_unlink`. -/
def unlinks (s : Shm ι) (a : ι × ShmAct) : Bool :=
  match a.2, s.points a.1 with
  | .sys _, .shmUnlink => true
  | _, _ => false

/-- The points of a call that has not failed and of a first delete. -/
def Succeeds : ShmPoint → Prop
  | .unregister _ | .deleteClose _ true => False
  | _ => True

def unlinking (point : ShmPoint) : Int := if point = .shmUnlink then 1 else 0

variable [Fintype ι]

/-- The deletes that are about to unlink the name. -/
def pending (s : Shm ι) : Int := tally unlinking s.points

def registered (name : CStr 128) (s : Shm ι) : Int :=
  if (findName s.drv .shm name).isSome then 1 else 0

/-- The owners of the entry are the handles that are still to be closed. -/
structure Balanced (name : CStr 128) (s : Shm ι) : Prop where
  wf : s.drv.WellFormed
  handles : ∀ h ∈ s.live, Names s.drv name h.ipcUser
  calls : ∀ c user, userOf (s.points c) = some user → Names s.drv name user
  points : ∀ c, Succeeds (s.points c)
  counted : ∀ p ∈ s.drv.mList .shm, (s.drv.mem p).name = name → (s.drv.mem p).ownerCount = s.users

namespace Balanced

variable {name : CStr 128} {s t : Shm ι} {c : ι}

omit [DecidableEq ι] in
/-- The object, its size and the handles that were deleted do not matter. -/
theorem congr (inv : Balanced name s) (drv : t.drv = s.drv) (points : t.points = s.points)
    (live : t.live = s.live) : Balanced name t := by
  obtain ⟨wf, handles, calls, succeeds, counted⟩ := inv
  refine ⟨drv ▸ wf, ?_, ?_, ?_, ?_⟩
  · rw [drv, live]
    exact handles
  · rw [drv, points]
    exact calls
  · rw [points]
    exact succeeds
  · simp only [users, drv, points, live]
    exact counted

/-- A call goes on with the reference that it has. -/
theorem goto (inv : Balanced name s) {point : ShmPoint} (user : userOf point = userOf (s.points c))
    (succeeds : Succeeds point) : Balanced name (s.goto c point) where
  wf := inv.wf
  handles := inv.handles
  calls := by
    apply forall_update (p := fun _ point => ∀ u, userOf point = some u → Names s.drv name u)
      fun d _ => inv.calls d
    exact fun u hu => inv.calls c u (user ▸ hu)
  points := forall_update (p := fun _ => Succeeds) (fun d _ => inv.points d) succeeds
  counted := by
    intro p hp hname
    have hholds : holds point = holds (s.points c) := by simp only [holds, user]
    rw [users_goto, hholds]
    exact (inv.counted p hp hname).trans (by omega)

/-- The reference of a call passes to the handle that it returns. -/
theorem ret (inv : Balanced name s) {h : ShmHandle} (user : userOf (s.points c) = some h.ipcUser) :
    Balanced name (s.ret c h) where
  wf := inv.wf
  handles := by
    intro k hk
    rcases List.mem_cons.mp hk with rfl | hk
    · exact inv.calls c _ user
    · exact inv.handles k hk
  calls := by
    apply forall_update (p := fun _ point => ∀ u, userOf point = some u → Names s.drv name u)
      fun d _ => inv.calls d
    rintro u ⟨⟩
  points := forall_update (p := fun _ => Succeeds) (fun d _ => inv.points d) trivial
  counted := by
    intro p hp hname
    refine (inv.counted p hp hname).trans ?_
    have husers := users_goto s c .idle
    rw [holds_of_userOf user, holds_of_none rfl] at husers
    simp only [users, Shm.ret, Shm.goto, List.length_cons, Nat.cast_add] at husers ⊢
    omega

/-- The reference of a handle passes to the delete of it. -/
theorem delete (inv : Balanced name s) (hidle : s.points c = .idle) {i : Nat} {h : ShmHandle}
    (hi : s.live[i]? = some h) (passed : List ShmHandle) :
    Balanced name
      { s.goto c (.deleteClose h.ipcUser false) with
        live := s.live.eraseIdx i, passed := passed } where
  wf := inv.wf
  handles := fun k hk => inv.handles k (List.mem_of_mem_eraseIdx hk)
  calls := by
    apply forall_update (p := fun _ point => ∀ u, userOf point = some u → Names s.drv name u)
      fun d _ => inv.calls d
    rintro _ ⟨⟩
    exact inv.handles h (List.mem_of_getElem? hi)
  points := forall_update (p := fun _ => Succeeds) (fun d _ => inv.points d) trivial
  counted := by
    intro p hp hname
    refine (inv.counted p hp hname).trans ?_
    have hlt : i < s.live.length := (List.getElem?_eq_some_iff.mp hi).1
    have hlen : (s.live.eraseIdx i).length = s.live.length - 1 := List.length_eraseIdx_of_lt hlt
    have hclose : holds (.deleteClose h.ipcUser false) = 1 := rfl
    have hzero : holds (s.points c) = 0 := by rw [hidle]; rfl
    simp only [users, Shm.goto, tally_update, hlen, hclose, hzero]
    omega

omit [DecidableEq ι] in
theorem users_eq_zero (inv : Balanced name s) (hnone : findName s.drv .shm name = none) :
    s.users = 0 :=
  users_eq_zero_of_names inv.handles inv.calls (findName_none hnone)

/-- A register ioctl takes a reference on the entry of the name. -/
theorem register (inv : Balanced name s) (hnone : userOf (s.points c) = none) {drv : Driver}
    (wf : drv.WellFormed) (names : ∀ u, Names s.drv name u → Names drv name u)
    (count : ∀ p ∈ drv.mList .shm, (drv.mem p).name = name → (drv.mem p).ownerCount = s.users + 1)
    {user : Ptr} (new : Names drv name user) (call : ShmCall) :
    Balanced name ({ s with drv := drv }.goto c (.allocate call user)) where
  wf := wf
  handles := fun h hh => names _ (inv.handles h hh)
  calls := by
    apply forall_update (p := fun _ point => ∀ u, userOf point = some u → Names drv name u)
      fun d _ u hu => names u (inv.calls d u hu)
    rintro _ ⟨⟩
    exact new
  points := forall_update (p := fun _ => Succeeds) (fun d _ => inv.points d) trivial
  counted := by
    intro p hp hname
    refine (count p hp hname).trans ?_
    rw [users_goto]
    show s.users + 1 = s.users - holds (s.points c) + 1
    rw [holds_of_none hnone]
    omega

theorem nextIoctl_register (inv : Balanced name s) {call : ShmCall}
    (hc : s.points c = .register call) {kzalloc : Option Ptr}
    (free : ∀ p ∈ kzalloc, s.drv.Free p)
    (registers : registersNothing name s (c, .ioctl true true kzalloc) = false) :
    ∃ drv user, nextIoctl name s c true true kzalloc =
        some ({ s with drv := drv }.goto c (.allocate call user)) ∧
      Balanced name ({ s with drv := drv }.goto c (.allocate call user)) ∧
      (findName drv .shm name).isSome = true := by
  have hnone : userOf (s.points c) = none := by rw [hc]; rfl
  have hfound : ∀ {drv : Driver} {user : Ptr}, Names drv name user →
      (findName drv .shm name).isSome = true := by
    rintro drv user ⟨p, hp, hname, -⟩
    exact registered_iff.mp ⟨p, hp, hname⟩
  cases hfind : findName s.drv .shm name with
  | some p =>
    obtain ⟨hp, hname⟩ := findName_some hfind
    have hmade : ipcShmOpen s.drv ⟨name, call.size, 0, 0⟩ kzalloc =
        (countOwner s.drv p, userHandle p) := registryCreate_found kzalloc hfind
    have names : ∀ u, Names s.drv name u → Names (countOwner s.drv p) name u :=
      fun u => Consistent.names_countOwner _
    have new := names (userHandle p) ⟨p, hp, hname, rfl⟩
    refine ⟨countOwner s.drv p, userHandle p, ?_, inv.register hnone (inv.wf.countOwner hp) names
      (fun q hq hqname => ?_) new call, hfound new⟩
    · simp [nextIoctl, hc, ioctlShmOpen, ioctlOpen, hmade, userHandle_ne_zero]
    · rw [Consistent.ownerCount_countOwner inv.wf hp hname hq hqname, ← inv.counted p hp hname]
  | none =>
    cases kzalloc with
    | none => simp [registersNothing, hc, hfind] at registers
    | some fresh =>
      have hfree := free fresh rfl
      have hmade : ipcShmOpen s.drv ⟨name, call.size, 0, 0⟩ (some fresh) =
          (insertNew s.drv .shm ⟨name, call.size, 0, 0⟩ fresh, userHandle fresh) :=
        registryCreate_new fresh hfind
      have new : Names (insertNew s.drv .shm ⟨name, call.size, 0, 0⟩ fresh) name
          (userHandle fresh) := ⟨fresh, by simp [insertNew], by simp [insertNew], rfl⟩
      refine ⟨_, userHandle fresh, ?_, inv.register hnone (inv.wf.insertNew hfree hfind)
        (fun u => Consistent.names_insertNew hfree) (fun q hq hqname => ?_) new call, hfound new⟩
      · simp [nextIoctl, hc, ioctlShmOpen, ioctlOpen, hmade, userHandle_ne_zero]
      · rw [inv.users_eq_zero hfind, Consistent.ownerCount_insertNew hfree hfind hq hqname]
        rfl

/-- The close of the last reference takes the entry off its list. -/
theorem close_last (inv : Balanced name s) {p : Ptr} (hp : p ∈ s.drv.mList .shm)
    (hname : (s.drv.mem p).name = name) (hlive : s.live = [])
    (hothers : ∀ d, d ≠ c → userOf (s.points d) = none) :
    let drv := (s.drv.write p { s.drv.mem p with ownerCount := 0 }).setList .shm
      ((s.drv.mList .shm).erase p)
    Balanced name ({ s with drv := drv }.goto c .shmUnlink) ∧ findName drv .shm name = none := by
  intro drv
  have hnone : ∀ q ∈ drv.mList .shm, (drv.mem q).name ≠ name := by
    intro q hq hqname
    obtain ⟨hq, hqp⟩ := (inv.wf.mem_erase hp _).mp hq
    rw [Driver.setList_mem, s.drv.write_mem_ne _ hqp] at hqname
    exact hqp (inv.wf.names .shm q hq p hp (hqname.trans hname.symm))
  refine ⟨⟨inv.wf.of_erase hp _, ?_, ?_, ?_, ?_⟩, ?_⟩
  · intro h hh
    exact absurd (show h ∈ s.live from hh) (hlive ▸ List.not_mem_nil)
  · apply forall_update (p := fun _ point => ∀ u, userOf point = some u → Names _ name u)
    · intro d hd u hu
      rw [hothers d hd] at hu
      cases hu
    · rintro u ⟨⟩
  · exact forall_update (p := fun _ => Succeeds) (fun d _ => inv.points d) trivial
  · intro q hq hqname
    exact absurd hqname (hnone q hq)
  · exact List.find?_eq_none.mpr fun q hq found => hnone q hq (of_decide_eq_true found)

/-- The close of any other keeps it there. -/
theorem close_busy (inv : Balanced name s) {p : Ptr} (hp : p ∈ s.drv.mList .shm)
    (hname : (s.drv.mem p).name = name) (huser : userOf (s.points c) = some (userHandle p))
    (busy : (s.drv.mem p).ownerCount ≠ 1) :
    let drv := s.drv.write p { s.drv.mem p with ownerCount := (s.drv.mem p).ownerCount - 1 }
    Balanced name ({ s with drv := drv }.goto c .idle) ∧
      (findName drv .shm name).isSome = true := by
  intro drv
  have hcount := inv.counted p hp hname
  have howned := inv.wf.owned .shm p hp
  have names : ∀ u, Names s.drv name u → Names drv name u :=
    fun u => Consistent.names_countOwner ((s.drv.mem p).ownerCount - 1)
  have wf : drv.WellFormed := inv.wf.of_owners (by omega)
  refine ⟨⟨wf, ?_, ?_, ?_, ?_⟩, ?_⟩
  · exact fun h hh => names _ (inv.handles h hh)
  · apply forall_update (p := fun _ point => ∀ u, userOf point = some u → Names _ name u)
      fun d _ u hu => names u (inv.calls d u hu)
    rintro u ⟨⟩
  · exact forall_update (p := fun _ => Succeeds) (fun d _ => inv.points d) trivial
  · intro q hq hqname
    rw [Shm.goto, Consistent.name_countOwner] at hqname
    have hqp := inv.wf.names .shm q hq p hp (hqname.trans hname.symm)
    rw [hqp, users_goto]
    show (Driver.mem (s.drv.write p _) p).ownerCount = s.users - holds (s.points c) + 0
    rw [Driver.write_mem_self, holds_of_userOf huser, ← hcount]
    show (s.drv.mem p).ownerCount - 1 = _
    omega
  · obtain ⟨q, hq, hqname, -⟩ := names (userHandle p) ⟨p, hp, hname, rfl⟩
    exact registered_iff.mp ⟨q, hq, hqname⟩

/-- The close request of a delete: of the last reference, or of another one. -/
theorem nextIoctl_close (inv : Balanced name s) {user : Ptr}
    (hc : s.points c = .deleteClose user false) (copyToUser : Bool) (kzalloc : Option Ptr) :
    ∃ drv point, nextIoctl name s c true copyToUser kzalloc =
        some ({ s with drv := drv }.goto c point) ∧
      Balanced name ({ s with drv := drv }.goto c point) ∧
      ((s.users = 1 ∧ point = .shmUnlink ∧ findName drv .shm name = none) ∨
        (s.users ≠ 1 ∧ point = .idle ∧ (findName drv .shm name).isSome = true)) := by
  have huser : userOf (s.points c) = some user := by rw [hc]; rfl
  obtain ⟨p, hp, hname, rfl⟩ := inv.calls c user huser
  have hcount := inv.counted p hp hname
  by_cases last : (s.drv.mem p).ownerCount = 1
  · obtain ⟨hlive, hothers⟩ := alone_of_users huser (by omega)
    have hclose : ipcShmClose s.drv ⟨userHandle p⟩ = _ :=
      registryClose_last inv.wf ⟨userHandle p⟩ hp (containerOf_userHandle p) last
    obtain ⟨hinv, hgone⟩ := inv.close_last hp hname hlive hothers
    refine ⟨_, .shmUnlink, ?_, hinv, .inl ⟨by omega, rfl, hgone⟩⟩
    simp only [nextIoctl, hc, ioctlShmClose, ioctlClose, hclose]
    rfl
  · have hclose : ipcShmClose s.drv ⟨userHandle p⟩ = _ :=
      registryClose_busy inv.wf ⟨userHandle p⟩ hp (containerOf_userHandle p) last
    obtain ⟨hinv, hthere⟩ := inv.close_busy hp hname huser last
    refine ⟨_, .idle, ?_, hinv, .inr ⟨by omega, rfl, hthere⟩⟩
    simp only [nextIoctl, hc, ioctlShmClose, ioctlClose, hclose]
    rfl

end Balanced

theorem pending_goto (s : Shm ι) (drv : Driver) (c : ι) (point : ShmPoint) :
    pending ({ s with drv := drv }.goto c point) =
      pending s - unlinking (s.points c) + unlinking point :=
  tally_update unlinking s.points c point

namespace Balanced

variable {name : CStr 128} {s t : Shm ι} {c : ι}

/-- A call goes on and leaves the entry alone. -/
theorem goes (inv : Balanced name s) (point : ShmPoint) (old : s.points c ≠ .shmUnlink)
    (new : point ≠ .shmUnlink) (user : userOf point = userOf (s.points c))
    (succeeds : Succeeds point) : Balanced name (s.goto c point) ∧
      pending (s.goto c point) + registered name (s.goto c point) =
        pending s + registered name s := by
  refine ⟨inv.goto user succeeds, ?_⟩
  have hpending : pending (s.goto c point) = pending s := by
    rw [pending_goto s s.drv]
    simp [unlinking, old, new]
  rw [hpending]
  rfl

/-- A call returns its handle. -/
theorem returns (inv : Balanced name s) {h : ShmHandle}
    (user : userOf (s.points c) = some h.ipcUser) (sizes : Nat → Int) :
    Balanced name ({ s with sizes := sizes }.ret c h) ∧
      pending ({ s with sizes := sizes }.ret c h) +
        registered name ({ s with sizes := sizes }.ret c h) = pending s + registered name s := by
  have hinv : Balanced name { s with sizes := sizes } := inv.congr rfl rfl rfl
  refine ⟨hinv.ret user, ?_⟩
  have hpending : pending ({ s with sizes := sizes }.ret c h) = pending s := by
    have hne : s.points c ≠ .shmUnlink := by
      intro hc
      rw [hc] at user
      cases user
    show tally unlinking (Function.update s.points c .idle) = _
    rw [tally_update]
    simp [unlinking, hne, pending]
  rw [hpending]
  rfl

theorem nextIoctl (inv : Balanced name s) {copyFromUser copyToUser : Bool} {kzalloc : Option Ptr}
    (free : ∀ p ∈ kzalloc, s.drv.Free p)
    (ok : Successful name s (c, .ioctl copyFromUser copyToUser kzalloc))
    (h : Shm.nextIoctl name s c copyFromUser copyToUser kzalloc = some t) :
    Balanced name t ∧ pending t + registered name t = pending s + registered name s +
      (lists name s (c, .ioctl copyFromUser copyToUser kzalloc)).toInt := by
  obtain ⟨rfl, rfl, registers⟩ := ok
  have hsucceeds := inv.points c
  cases hc : s.points c with
  | register call =>
    obtain ⟨drv, user, hnext, hinv, hnew⟩ := inv.nextIoctl_register hc free registers
    cases Option.some.inj (hnext.symm.trans h)
    refine ⟨hinv, ?_⟩
    have hregistered : registered name ({ s with drv := drv }.goto c (.allocate call user)) = 1 :=
      if_pos hnew
    rw [hregistered, pending_goto, hc]
    cases hfind : findName s.drv .shm name <;> simp [lists, hc, hfind, registered, unlinking]
  | deleteClose user again =>
    cases again with
    | true =>
      rw [hc] at hsucceeds
      exact hsucceeds.elim
    | false =>
      obtain ⟨p, hp, hname, -⟩ := inv.calls c user (by rw [hc]; rfl)
      have hold : registered name s = 1 := if_pos (registered_iff.mp ⟨p, hp, hname⟩)
      obtain ⟨drv, point, hnext, hinv, hlast | hbusy⟩ := inv.nextIoctl_close hc true kzalloc
      · obtain ⟨-, rfl, hnone⟩ := hlast
        cases Option.some.inj (hnext.symm.trans h)
        have hnew : registered name ({ s with drv := drv }.goto c .shmUnlink) = 0 :=
          if_neg (by simp [Shm.goto, hnone])
        refine ⟨hinv, ?_⟩
        rw [hold, hnew, pending_goto, hc]
        simp [lists, hc, unlinking]
      · obtain ⟨-, rfl, hsome⟩ := hbusy
        cases Option.some.inj (hnext.symm.trans h)
        have hnew : registered name ({ s with drv := drv }.goto c .idle) = 1 := if_pos hsome
        refine ⟨hinv, ?_⟩
        rw [hold, hnew, pending_goto, hc]
        simp [lists, hc, unlinking]
  | unregister user =>
    rw [hc] at hsucceeds
    exact hsucceeds.elim
  | _ => simp [Shm.nextIoctl, hc] at h

theorem nextSys (inv : Balanced name s) {ok : Bool} (successful : Successful name s (c, .sys ok))
    (h : Shm.nextSys s c ok = some t) :
    Balanced name t ∧ pending t + registered name t = pending s + registered name s -
      (unlinks s (c, .sys ok)).toInt := by
  have same : unlinks s (c, .sys ok) = false →
      Balanced name t ∧ pending t + registered name t = pending s + registered name s →
      Balanced name t ∧ pending t + registered name t = pending s + registered name s -
        (unlinks s (c, .sys ok)).toInt := by
    rintro hno ⟨hinv, hbalance⟩
    exact ⟨hinv, by rw [hno, hbalance]; simp⟩
  cases hc : s.points c with
  | shmUnlink =>
    simp only [Shm.nextSys, hc] at h
    cases h
    have hidle : Balanced name (s.goto c .idle) := inv.goto (by rw [hc]; rfl) trivial
    refine ⟨hidle.congr rfl rfl rfl, ?_⟩
    have hpending : pending (s.goto c .idle) = _ := pending_goto s s.drv c .idle
    have hone : unlinking (s.points c) = 1 := by rw [hc]; rfl
    have hzero : unlinking .idle = 0 := rfl
    have hunlinks : (unlinks s (c, .sys ok)).toInt = 1 := by simp [unlinks, hc]
    rw [hone, hzero] at hpending
    rw [hunlinks]
    show pending (s.goto c .idle) + registered name s = _
    omega
  | allocate call user =>
    obtain rfl : ok = true := by simpa [Successful, hc] using successful
    simp only [Shm.nextSys, hc, if_true] at h
    cases h
    apply same (by simp [unlinks, hc])
    apply inv.goes <;> cases call <;> simp [hc, firstOpen, userOf, Succeeds]
  | shmOpenExcl call user =>
    obtain rfl : ok = true := by simpa [Successful, hc] using successful
    apply same (by simp [unlinks, hc])
    simp only [Shm.nextSys, hc] at h
    cases hbound : s.bound with
    | some obj =>
      simp only [hbound] at h
      cases h
      apply inv.goes <;> simp [hc, userOf, Succeeds]
    | none =>
      simp only [hbound] at h
      cases h
      obtain ⟨hinv, hbalance⟩ := inv.goes (c := c) (.ftruncate call user s.objects true)
        (by simp [hc]) (by simp) (by simp [hc, userOf]) trivial
      exact ⟨hinv.congr rfl rfl rfl, hbalance⟩
  | shmOpen call user =>
    obtain ⟨rfl, hbound⟩ : ok = true ∧ s.bound.isSome = true := by
      simpa [Successful, hc] using successful
    obtain ⟨obj, hbound⟩ := Option.isSome_iff_exists.mp hbound
    apply same (by simp [unlinks, hc])
    simp only [Shm.nextSys, hc, hbound] at h
    cases h
    apply inv.goes <;> simp [hc, userOf, Succeeds]
  | fstat call user obj =>
    obtain rfl : ok = true := by simpa [Successful, hc] using successful
    have huser : userOf (s.points c) = some user := by rw [hc]; rfl
    apply same (by simp [unlinks, hc])
    simp only [Shm.nextSys, hc, Bool.not_true, Bool.false_eq_true, if_false] at h
    split at h
    · cases h
      exact inv.returns huser s.sizes
    · split at h
      · cases h
        exact inv.returns huser s.sizes
      · cases h
        apply inv.goes <;> simp [hc, userOf, Succeeds]
  | ftruncate call user obj made =>
    obtain rfl : ok = true := by simpa [Successful, hc] using successful
    have huser : userOf (s.points c) = some user := by rw [hc]; rfl
    apply same (by simp [unlinks, hc])
    simp only [Shm.nextSys, hc, Bool.not_true, Bool.false_eq_true, if_false] at h
    obtain ⟨-, h⟩ := Option.ite_none_left_eq_some.mp h
    cases h
    exact inv.returns huser _
  | _ => simp [Shm.nextSys, hc] at h

/-- The step lemma: a step that lists the name adds an entry or an unlink to
come, and a call of `shm_unlink` takes one away. -/
theorem next (inv : Balanced name s) {a : ι × ShmAct} (ok : Successful name s a)
    (h : Shm.next name s a = some t) : Balanced name t ∧
      pending t + registered name t =
        pending s + registered name s + ((lists name s a).toInt - (unlinks s a).toInt) := by
  obtain ⟨c, act⟩ := a
  cases act with
  | call call =>
    obtain ⟨hidle, h⟩ := Option.ite_none_right_eq_some.mp h
    cases h
    simpa [lists, unlinks] using inv.goes (c := c) (.register call) (by simp [hidle])
      (by simp) (by simp [hidle, userOf]) trivial
  | delete i =>
    obtain ⟨hidle, h⟩ := Option.ite_none_right_eq_some.mp h
    obtain ⟨handle, hi, h⟩ := Option.map_eq_some_iff.mp h
    cases h
    refine ⟨inv.delete hidle hi _, ?_⟩
    have hpending : pending (s.goto c (.deleteClose handle.ipcUser false)) = _ :=
      pending_goto s s.drv c _
    have hzero : unlinking (s.points c) = 0 := by rw [hidle]; rfl
    have hclose : unlinking (.deleteClose handle.ipcUser false) = 0 := rfl
    rw [hzero, hclose] at hpending
    show pending (s.goto c (.deleteClose handle.ipcUser false)) + registered name s = _
    simp only [lists, unlinks, Bool.toInt_false]
    omega
  | deleteAgain i => exact ok.elim
  | ioctl copyFromUser copyToUser kzalloc =>
    obtain ⟨free, h⟩ := Option.ite_none_right_eq_some.mp h
    simpa [unlinks] using inv.nextIoctl free ok h
  | sys okay =>
    obtain ⟨hinv, hbalance⟩ := inv.nextSys ok h
    refine ⟨hinv, ?_⟩
    simp only [lists, Bool.toInt_false]
    omega

end Balanced

omit [DecidableEq ι] in
theorem balanced_first {name : CStr 128} {s : Shm ι} (wf : s.drv.WellFormed)
    (hname : ¬ Registered s.drv .shm name) (hidle : s.points = fun _ => .idle)
    (hlive : s.live = []) : Balanced name s where
  wf := wf
  handles := by simp [hlive]
  calls := by simp [hidle, userOf]
  points := by simp [hidle, Succeeds]
  counted := fun p hp hpname => absurd ⟨p, hp, hpname⟩ hname

omit [DecidableEq ι] in
theorem pending_eq_zero {s : Shm ι} (hidle : s.points = fun _ => .idle) : pending s = 0 := by
  apply tally_eq_zero
  intro c
  rw [hidle]
  rfl

omit [Fintype ι] [DecidableEq ι] in
theorem registered_eq_zero {name : CStr 128} {s : Shm ι} (h : ¬ Registered s.drv .shm name) :
    registered name s = 0 :=
  if_neg (registered_iff.not.mp h)

omit [Fintype ι] in
instance (name : CStr 128) (s : Shm ι) (a : ι × ShmAct) : Decidable (Successful name s a) := by
  unfold Successful
  split <;> infer_instance

omit [Fintype ι] [DecidableEq ι] in
/-- Neither a handle, nor a create or open, nor the delete of another process has
a reference on the name that is still to be given back. -/
def Alone (s : Shm ι) (c : ι) : Prop :=
  s.live = [] ∧ ∀ d, d ≠ c → userOf (s.points d) = none

omit [DecidableEq ι] in
/-- A delete before its close request is one of the users. -/
theorem alone_iff {s : Shm ι} {c : ι} {user : Ptr} (h : userOf (s.points c) = some user) :
    s.Alone c ↔ s.users = 1 := by
  classical
  constructor
  · rintro ⟨hlive, hothers⟩
    have hsum : tally holds s.points = holds (s.points c) :=
      Finset.sum_eq_single c (fun d _ hd => holds_of_none (hothers d hd)) (by simp)
    rw [users, hlive, hsum, holds_of_userOf h]
    rfl
  · exact fun hone => alone_of_users h hone.le

/-- The close request of a delete, in every state that the runs reach. -/
theorem Balanced.close_iff {name : CStr 128} {s t : Shm ι} (inv : Balanced name s) {c : ι}
    {user : Ptr} (hc : s.points c = .deleteClose user false) {act : ShmAct}
    (ok : Successful name s (c, act)) (h : Shm.next name s (c, act) = some t) :
    (t.points c = .shmUnlink ↔ Registered s.drv .shm name ∧ ¬ Registered t.drv .shm name) ∧
      (t.points c = .shmUnlink ↔ s.Alone c) := by
  have huser : userOf (s.points c) = some user := by rw [hc]; rfl
  obtain ⟨p, hp, hname, -⟩ := inv.calls c user huser
  have hold : Registered s.drv .shm name := ⟨p, hp, hname⟩
  have hiff : Registered t.drv .shm name ↔ _ := registered_iff
  rw [alone_iff huser, hiff]
  cases act with
  | ioctl copyFromUser copyToUser kzalloc =>
    obtain ⟨rfl, rfl, -⟩ := ok
    obtain ⟨-, h⟩ := Option.ite_none_right_eq_some.mp h
    obtain ⟨drv, point, hnext, -, hlast | hbusy⟩ := inv.nextIoctl_close hc true kzalloc
    · obtain ⟨hone, rfl, hnone⟩ := hlast
      cases Option.some.inj (hnext.symm.trans h)
      simp [Shm.goto, hone, hnone, hold]
    · obtain ⟨hmore, rfl, hsome⟩ := hbusy
      cases Option.some.inj (hnext.symm.trans h)
      simp [Shm.goto, hmore, hsome]
  | call call | delete i | deleteAgain i => simp [Shm.next, hc] at h
  | sys okay => simp [Shm.next, Shm.nextSys, hc] at h

end Shm

section Claims

open Shm

/-- In every run of successful creates and opens and of one delete for each
handle, a delete goes on to `shm_unlink` exactly when its close request removed
the entry, which is when nobody else has a handle to close. Each entry that was
listed and removed has been unlinked once, or a delete is about to do it; when
everything has been deleted, the unlinks are as many as the entries. -/
theorem shm_last_unlinks {ι : Type*} [Fintype ι] [DecidableEq ι] (name : CStr 128) {s t : Shm ι}
    {labels : List (ι × ShmAct)} (init : (Shm.system ι name).init s)
    (exec : ((Shm.system ι name).guard (Successful name)).Exec s labels t) :
    (∀ c user act u, t.points c = .deleteClose user false →
      ((Shm.system ι name).guard (Successful name)).step t (c, act) u →
        (u.points c = .shmUnlink ↔
          Registered t.drv .shm name ∧ ¬ Registered u.drv .shm name) ∧
        (u.points c = .shmUnlink ↔ t.Alone c)) ∧
    total (Shm.next name) (fun s a => (lists name s a).toInt) s labels =
      total (Shm.next name) (fun s a => (unlinks s a).toInt) s labels + pending t +
        registered name t ∧
    (t.points = (fun _ => .idle) → t.live = [] →
      total (Shm.next name) (fun s a => (lists name s a).toInt) s labels =
        total (Shm.next name) (fun s a => (unlinks s a).toInt) s labels) := by
  obtain ⟨wf, hname, hidle, hlive, -⟩ := init
  obtain ⟨inv, hbalance⟩ := eq_add_total (I := Balanced name)
    (fun s => pending s + registered name s)
    (fun s a => (lists name s a).toInt - (unlinks s a).toInt)
    (fun s a t inv ok h => inv.next ok h) exec (balanced_first wf hname hidle hlive)
  rw [total_sub, pending_eq_zero hidle, registered_eq_zero hname] at hbalance
  have hsum : pending t + registered name t = 0 + 0 +
      (total (Shm.next name) (fun s a => (lists name s a).toInt) s labels -
        total (Shm.next name) (fun s a => (unlinks s a).toInt) s labels) := hbalance
  refine ⟨?_, by omega, ?_⟩
  · rintro c user act u hc ⟨ok, hnext⟩
    exact inv.close_iff hc ok hnext
  · intro hidle hlive
    have hgone : ¬ Registered t.drv .shm name := by
      rintro ⟨p, hp, hpname⟩
      have hcount := inv.counted p hp hpname
      have howned := inv.wf.owned .shm p hp
      have hzero : t.users = 0 := by simp [users, hlive, hidle, tally, holds, userOf]
      omega
    have hpending := pending_eq_zero hidle
    have hregistered := registered_eq_zero hgone
    omega

/-- One process creates the object, the other opens it, and both delete it. -/
def createOpenDelete : List (Bool × ShmAct) :=
  [(true, .call (.create 4)), (true, .ioctl true true (some 4096)), (true, .sys true),
    (true, .sys true), (true, .sys true), (false, .call .openExisting),
    (false, .ioctl true true none), (false, .sys true), (false, .sys true), (false, .sys true),
    (true, .delete 1), (true, .ioctl true true none), (false, .delete 0),
    (false, .ioctl true true none), (false, .sys true)]

def shmUnused : Shm Bool where
  drv := ipcProbe fun _ => Entry.zero
  bound := none
  sizes := fun _ => 0
  objects := 0
  points := fun _ => .idle
  live := []
  passed := []

theorem shmUnused_init (name : CStr 128) : (Shm.system Bool name).init shmUnused := by
  refine ⟨ipcProbe_wellFormed _, ?_, rfl, rfl, rfl⟩
  rintro ⟨p, hp, -⟩
  cases hp

theorem shm_last_unlinks_second :
    total (Shm.next CStr.x) (fun s a => (lists CStr.x s a).toInt) shmUnused createOpenDelete = 1 ∧
    total (Shm.next CStr.x) (fun s a => (unlinks s a).toInt) shmUnused createOpenDelete = 1 := by
  have hlists : total (Shm.next CStr.x) (fun s a => (lists CStr.x s a).toInt) shmUnused
      createOpenDelete = 1 := by decide
  obtain ⟨t, ht, hp⟩ := (Option.any_eq_true _ _).mp (show (run
    (fun s a => if Successful CStr.x s a then Shm.next CStr.x s a else none) shmUnused
    createOpenDelete).any
    (fun t => decide (t.points = (fun _ => .idle) ∧ t.live = [])) = true by decide)
  have exec : ((Shm.system Bool CStr.x).guard (Successful CStr.x)).Exec shmUnused
      createOpenDelete t := exec_guarded_of_run ht
  obtain ⟨hidle, hlive⟩ := of_decide_eq_true hp
  have hequal := (shm_last_unlinks CStr.x (shmUnused_init _) exec).2.2 hidle hlive
  exact ⟨hlists, hequal.symm.trans hlists⟩

end Claims

end Gipcy.Linux
