import Gipcy.Lib.Clients
import Gipcy.Linux.Ioctl

/-! The shared-memory calls of the insys library on one name, by any number of
processes. Each ioctl and each POSIX call is one step; `IPC_createSharedMemory`
and `IPC_createSharedMemoryEx` make the same ones. -/
namespace Gipcy.Linux

open Transition Clients

inductive ShmCall where
  | create (size : Int32)
  | createEx (size : Int32)
  | openExisting
deriving DecidableEq

def ShmCall.size : ShmCall → Int32
  | .create size | .createEx size => size
  | .openExisting => 0

/-- What a call does next. `user` is the handle that the driver gave out. -/
inductive ShmPoint where
  | idle
  | register (call : ShmCall)
  | allocate (call : ShmCall) (user : Ptr)
  | shmOpenExcl (call : ShmCall) (user : Ptr)
  | shmOpen (call : ShmCall) (user : Ptr)
  | fstat (call : ShmCall) (user : Ptr) (obj : Nat)
  | ftruncate (call : ShmCall) (user : Ptr) (obj : Nat) (made : Bool)
  | unregister (user : Ptr)
  /-- A delete, of a handle that was passed to one before if `again`. -/
  | deleteClose (user : Ptr) (again : Bool)
  | shmUnlink
deriving DecidableEq

/-- A handle that was returned, with the object of its descriptor. -/
structure ShmHandle where
  ipcUser : Ptr
  obj : Nat
  ipcSize : Int
  alreadyCreated : Option Bool
deriving DecidableEq

/-- `bound` is the object that the name is linked to, `sizes` the `st_size` of
each object; the objects from `objects` on do not exist yet. -/
structure Shm (ι : Type*) where
  drv : Driver
  bound : Option Nat
  sizes : Nat → Int
  objects : Nat
  points : ι → ShmPoint
  live : List ShmHandle
  passed : List ShmHandle

inductive ShmAct where
  | call (call : ShmCall)
  | delete (i : Nat)
  | deleteAgain (i : Nat)
  | ioctl (copyFromUser copyToUser : Bool) (kzalloc : Option Ptr)
  /-- A call of the C library, which may fail for a reason of its own. -/
  | sys (ok : Bool)
deriving DecidableEq

variable {ι : Type*} [DecidableEq ι]

namespace Shm

/-- Process `c` goes to a point. -/
def goto (s : Shm ι) (c : ι) (point : ShmPoint) : Shm ι :=
  { s with points := Function.update s.points c point }

/-- The call of process `c` returns a handle. -/
def ret (s : Shm ι) (c : ι) (h : ShmHandle) : Shm ι :=
  { s.goto c .idle with live := h :: s.live }

/-- `*alreadyCreated`, which only one of the calls has. -/
def alreadyCreated : ShmCall → Bool → Option Bool
  | .createEx _, already => some already
  | _, _ => none

/-- The first `shm_open` of a call: a create asks for a new object. -/
def firstOpen (call : ShmCall) (user : Ptr) : ShmPoint :=
  match call with
  | .openExisting => .shmOpen call user
  | _ => .shmOpenExcl call user

def nextIoctl (name : CStr 128) (s : Shm ι) (c : ι) (copyFromUser copyToUser : Bool)
    (kzalloc : Option Ptr) : Option (Shm ι) :=
  match s.points c with
  | .register call =>
    let r := ioctlShmOpen s.drv ⟨name, call.size, 0, 0⟩ copyFromUser copyToUser kzalloc
    let s := { s with drv := r.drv }
    match r.handle with
    | some user => some (s.goto c (.allocate call user))
    | none => some (s.goto c .idle)
  | .unregister user =>
    let r := ioctlShmClose s.drv ⟨user⟩ copyFromUser
    some ({ s with drv := r.1 }.goto c .idle)
  | .deleteClose user _ =>
    let r := ioctlShmClose s.drv ⟨user⟩ copyFromUser
    some ({ s with drv := r.1 }.goto c (if r.2 < 0 then .idle else .shmUnlink))
  | _ => none

def nextSys (s : Shm ι) (c : ι) (ok : Bool) : Option (Shm ι) :=
  match s.points c with
  | .allocate call user => some (s.goto c (if ok then firstOpen call user else .unregister user))
  | .shmOpenExcl call user =>
    match ok, s.bound with
    | false, _ => some (s.goto c (.unregister user))
    -- `EEXIST`
    | true, some _ => some (s.goto c (.shmOpen call user))
    | true, none =>
      some ({ s with
        bound := some s.objects
        sizes := Function.update s.sizes s.objects 0
        objects := s.objects + 1 }.goto c (.ftruncate call user s.objects true))
  | .shmOpen call user =>
    match ok, s.bound with
    | true, some obj => some (s.goto c (.fstat call user obj))
    | _, _ => some (s.goto c (.unregister user))
  | .fstat call user obj =>
    if !ok then some (s.goto c (.unregister user))
    else
      match call with
      | .openExisting =>
        some (s.ret c ⟨user, obj, if s.sizes obj > 0 then s.sizes obj else 0, none⟩)
      | call =>
        if s.sizes obj > 0 then
          some (s.ret c ⟨user, obj, call.size.toInt, alreadyCreated call true⟩)
        else some (s.goto c (.ftruncate call user obj false))
  | .ftruncate call user obj made =>
    if !ok then some (s.goto c (.unregister user))
    else if call.size < 0 then none
    else
      some ({ s with sizes := Function.update s.sizes obj call.size.toInt }.ret c
        ⟨user, obj, call.size.toInt, alreadyCreated call !made⟩)
  | .shmUnlink => some ({ s with bound := if ok then none else s.bound }.goto c .idle)
  | _ => none

def next (name : CStr 128) (s : Shm ι) (a : ι × ShmAct) : Option (Shm ι) :=
  match a.2 with
  | .call call => if s.points a.1 = .idle then some (s.goto a.1 (.register call)) else none
  | .delete i =>
    if s.points a.1 = .idle then
      s.live[i]?.map fun h =>
        { s.goto a.1 (.deleteClose h.ipcUser false) with
          live := s.live.eraseIdx i
          passed := h :: s.passed }
    else none
  | .deleteAgain i =>
    if s.points a.1 = .idle then
      s.passed[i]?.map fun h => s.goto a.1 (.deleteClose h.ipcUser true)
    else none
  | .ioctl copyFromUser copyToUser kzalloc =>
    if ∀ p ∈ kzalloc, s.drv.Free p then nextIoctl name s a.1 copyFromUser copyToUser kzalloc
    else none
  | .sys ok => nextSys s a.1 ok

/-- The runs on a name that nobody has registered; an object of that name may be
left over from before. -/
def system (ι : Type*) [DecidableEq ι] (name : CStr 128) : System (Shm ι) (ι × ShmAct) :=
  .ofNext (fun s => s.drv.WellFormed ∧ ¬ Registered s.drv .shm name ∧
    s.points = (fun _ => .idle) ∧ s.live = [] ∧ s.passed = []) (next name)

/-- All handles that are in use designate one object. -/
def OneObject (s : Shm ι) : Prop := ∀ h ∈ s.live, ∀ h' ∈ s.live, h.obj = h'.obj

/-- The handle on which the call has a reference of its own. -/
def userOf : ShmPoint → Option Ptr
  | .allocate _ user | .shmOpenExcl _ user | .shmOpen _ user | .fstat _ user _
  | .ftruncate _ user _ _ | .unregister user | .deleteClose user false => some user
  | _ => none

def holds (point : ShmPoint) : Int := if (userOf point).isSome then 1 else 0

/-- The object of a descriptor that has not been returned yet. -/
def objOf : ShmPoint → Option Nat
  | .fstat _ _ obj | .ftruncate _ _ obj _ => some obj
  | _ => none

theorem holds_nonneg (point : ShmPoint) : 0 ≤ holds point := by
  unfold holds
  split <;> decide

theorem holds_of_userOf {point : ShmPoint} {user : Ptr} (h : userOf point = some user) :
    holds point = 1 := by
  rw [holds, h]
  rfl

theorem holds_of_none {point : ShmPoint} (h : userOf point = none) : holds point = 0 := by
  rw [holds, h]
  rfl

theorem userOf_of_objOf {point : ShmPoint} {obj : Nat} (h : objOf point = some obj) :
    ∃ user, userOf point = some user := by
  cases point <;> cases h <;> exact ⟨_, rfl⟩

/-- The handle that the driver gave out for the name. -/
def Names (drv : Driver) (name : CStr 128) (user : Ptr) : Prop :=
  ∃ p ∈ drv.mList .shm, (drv.mem p).name = name ∧ user = userHandle p

variable [Fintype ι]

/-- The references that handles and calls have on the name. -/
def users (s : Shm ι) : Int := s.live.length + tally holds s.points

/-- What holds as long as nobody opens the object in the gap of a delete. -/
structure Consistent (name : CStr 128) (s : Shm ι) : Prop where
  wf : s.drv.WellFormed
  handles : ∀ h ∈ s.live, Names s.drv name h.ipcUser ∧ s.bound = some h.obj
  calls : ∀ c user, userOf (s.points c) = some user → Names s.drv name user
  objects : ∀ c obj, objOf (s.points c) = some obj → s.bound = some obj
  counted : ∀ p ∈ s.drv.mList .shm, (s.drv.mem p).name = name →
    s.users ≤ (s.drv.mem p).ownerCount
  gap : ∀ c, s.points c = .shmUnlink → s.live = [] ∧ ∀ d, objOf (s.points d) = none

theorem users_goto (s : Shm ι) (c : ι) (point : ShmPoint) :
    (s.goto c point).users = s.users - holds (s.points c) + holds point := by
  simp only [users, goto, tally_update]
  omega

/-- With one reference in all, a call that has one is alone. -/
theorem alone_of_users {s : Shm ι} {c : ι} {user : Ptr} (h : userOf (s.points c) = some user)
    (hone : s.users ≤ 1) : s.live = [] ∧ ∀ d, d ≠ c → userOf (s.points d) = none := by
  have hle : holds (s.points c) ≤ tally holds s.points := le_tally (fun d => holds_nonneg _) c
  rw [holds_of_userOf h] at hle
  unfold users at hone
  refine ⟨List.length_eq_zero_iff.mp (by omega), fun d hd => ?_⟩
  cases hu : userOf (s.points d) with
  | none => rfl
  | some other =>
    have htally : tally holds s.points ≤ 1 := by omega
    exact absurd (eq_of_tally_le_one (fun d => holds_nonneg _) htally (holds_of_userOf hu).ge
      (holds_of_userOf h).ge) hd

omit [DecidableEq ι] in
/-- Nobody has a reference on a name that is not registered. -/
theorem users_eq_zero_of_names {name : CStr 128} {s : Shm ι}
    (handles : ∀ h ∈ s.live, Names s.drv name h.ipcUser)
    (calls : ∀ c user, userOf (s.points c) = some user → Names s.drv name user)
    (hnone : ∀ p ∈ s.drv.mList .shm, (s.drv.mem p).name ≠ name) : s.users = 0 := by
  have hno : ∀ user, ¬ Names s.drv name user := by
    rintro user ⟨p, hp, hname, -⟩
    exact hnone p hp hname
  have hlive : s.live = [] := List.eq_nil_iff_forall_not_mem.mpr fun h hh => hno _ (handles h hh)
  have hcalls : tally holds s.points = 0 := by
    apply tally_eq_zero
    intro c
    cases hc : userOf (s.points c) with
    | none => exact holds_of_none hc
    | some user => exact absurd (calls c user hc) (hno user)
  rw [users, hlive, hcalls]
  rfl

namespace Consistent

variable {name : CStr 128} {s : Shm ι} {c : ι}

/-- A call goes on to another point, on an unchanged driver. -/
theorem goto (inv : Consistent name s) {point : ShmPoint}
    (count : ∀ p ∈ s.drv.mList .shm, (s.drv.mem p).name = name →
      s.users - holds (s.points c) + holds point ≤ (s.drv.mem p).ownerCount)
    (user : ∀ u, userOf point = some u → Names s.drv name u)
    (obj : ∀ o, objOf point = some o → s.bound = some o ∧ ∀ d, s.points d ≠ .shmUnlink)
    (gap : point ≠ .shmUnlink) : Consistent name (s.goto c point) where
  wf := inv.wf
  handles := inv.handles
  calls := by
    apply forall_update (p := fun _ point => ∀ u, userOf point = some u → Names s.drv name u)
      (fun d _ => inv.calls d) user
  objects := by
    apply forall_update (p := fun _ point => ∀ o, objOf point = some o → s.bound = some o)
      (fun d _ => inv.objects d) fun o ho => (obj o ho).1
  counted := by
    intro p hp hname
    rw [users_goto]
    exact count p hp hname
  gap := by
    intro d hd
    by_cases hdc : d = c
    · subst hdc
      simp only [Shm.goto, Function.update_self] at hd
      exact absurd hd gap
    · simp only [Shm.goto, Function.update_of_ne hdc] at hd
      refine ⟨(inv.gap d hd).1, ?_⟩
      apply forall_update (p := fun _ point => objOf point = none)
      · exact fun e _ => (inv.gap d hd).2 e
      · cases ho : objOf point with
        | none => rfl
        | some o => exact absurd hd ((obj o ho).2 d)

/-- A call goes on with the reference that it has, or lets it drop. -/
theorem goto_user (inv : Consistent name s) {point : ShmPoint}
    (user : userOf point = userOf (s.points c) ∨ userOf point = none)
    (obj : ∀ o, objOf point = some o → s.bound = some o ∧ ∀ d, s.points d ≠ .shmUnlink)
    (gap : point ≠ .shmUnlink) : Consistent name (s.goto c point) := by
  apply inv.goto _ _ obj gap
  · intro p hp hname
    have hcount := inv.counted p hp hname
    have hold := holds_nonneg (s.points c)
    have hle : holds point ≤ holds (s.points c) := by
      rcases user with h | h
      · simp only [holds, h, le_refl]
      · rw [holds_of_none h]
        exact hold
    omega
  · intro u hu
    rcases user with h | h
    · exact inv.calls c u (h ▸ hu)
    · rw [h] at hu
      cases hu

omit [DecidableEq ι] in
/-- The sizes of the objects do not matter here. -/
theorem with_sizes (inv : Consistent name s) (sizes : Nat → Int) :
    Consistent name { s with sizes := sizes } :=
  ⟨inv.wf, inv.handles, inv.calls, inv.objects, inv.counted, inv.gap⟩

omit [DecidableEq ι] in
/-- The driver changes and keeps the name for those that have it. -/
theorem with_drv (inv : Consistent name s) {drv : Driver} (wf : drv.WellFormed)
    (names : ∀ u, Names s.drv name u → Names drv name u)
    (count : ∀ p ∈ drv.mList .shm, (drv.mem p).name = name → s.users ≤ (drv.mem p).ownerCount) :
    Consistent name { s with drv := drv } where
  wf := wf
  handles := fun h hh => ⟨names _ (inv.handles h hh).1, (inv.handles h hh).2⟩
  calls := fun c u hu => names u (inv.calls c u hu)
  objects := inv.objects
  counted := count
  gap := inv.gap

/-- A call returns a handle for its reference and its descriptor. -/
theorem ret (inv : Consistent name s) {h : ShmHandle}
    (user : userOf (s.points c) = some h.ipcUser) (obj : objOf (s.points c) = some h.obj) :
    Consistent name (s.ret c h) := by
  have hidle : Consistent name (s.goto c .idle) := by
    apply inv.goto_user (.inr rfl) _ (by decide)
    intro o ho
    cases ho
  constructor
  · exact inv.wf
  · intro k hk
    rcases List.mem_cons.mp hk with rfl | hk
    · exact ⟨inv.calls c _ user, inv.objects c _ obj⟩
    · exact inv.handles k hk
  · exact hidle.calls
  · exact hidle.objects
  · intro p hp hname
    have hcount := inv.counted p hp hname
    have husers := users_goto s c .idle
    rw [holds_of_userOf user, holds_of_none rfl] at husers
    have hret : (s.ret c h).users = (s.goto c .idle).users + 1 := by
      simp only [users, Shm.ret, Shm.goto, List.length_cons]
      omega
    rw [hret, husers]
    show s.users - 1 + 0 + 1 ≤ (s.drv.mem p).ownerCount
    omega
  · intro d hd
    have hgap := hidle.gap d hd
    by_cases hdc : d = c
    · subst hdc
      simp [Shm.ret, Shm.goto] at hd
    · have hold : s.points d = .shmUnlink := by
        simpa [Shm.ret, Shm.goto, hdc] using hd
      have := (inv.gap d hold).2 c
      rw [obj] at this
      cases this

/-- A delete begins: its reference goes from the handle to the call. -/
theorem delete (inv : Consistent name s) (hidle : s.points c = .idle) {i : Nat} {h : ShmHandle}
    (hi : s.live[i]? = some h) (passed : List ShmHandle) :
    Consistent name
      { s.goto c (.deleteClose h.ipcUser false) with
        live := s.live.eraseIdx i, passed := passed } := by
  have hmem : h ∈ s.live := List.mem_of_getElem? hi
  have hlt : i < s.live.length := (List.getElem?_eq_some_iff.mp hi).1
  have hlen : (s.live.eraseIdx i).length = s.live.length - 1 := List.length_eraseIdx_of_lt hlt
  have hnogap : ∀ d, s.points d ≠ .shmUnlink := by
    intro d hd
    have := (inv.gap d hd).1
    rw [this] at hmem
    cases hmem
  constructor
  · exact inv.wf
  · exact fun k hk => inv.handles k (List.mem_of_mem_eraseIdx hk)
  · apply forall_update (p := fun _ point => ∀ u, userOf point = some u → Names s.drv name u)
      fun d _ => inv.calls d
    rintro _ ⟨⟩
    exact (inv.handles h hmem).1
  · apply forall_update (p := fun _ point => ∀ o, objOf point = some o → s.bound = some o)
      fun d _ => inv.objects d
    rintro _ ⟨⟩
  · intro p hp hname
    have hcount := inv.counted p hp hname
    have hclose : holds (.deleteClose h.ipcUser false) = 1 := rfl
    have hzero : holds (s.points c) = 0 := by rw [hidle]; rfl
    simp only [users, Shm.goto, tally_update, hlen, hclose, hzero] at hcount ⊢
    omega
  · intro d hd
    by_cases hdc : d = c
    · subst hdc
      simp [Shm.goto] at hd
    · simp only [Shm.goto, Function.update_of_ne hdc] at hd
      exact absurd hd (hnogap d)

omit [DecidableEq ι] in
theorem users_eq_zero (inv : Consistent name s)
    (hnone : ∀ p ∈ s.drv.mList .shm, (s.drv.mem p).name ≠ name) : s.users = 0 :=
  users_eq_zero_of_names (fun h hh => (inv.handles h hh).1) inv.calls hnone

/-- A registration with room for one reference more, on its way to the caller or
lost before it gets there. -/
theorem registered (inv : Consistent name s) (hc : userOf (s.points c) = none) {drv : Driver}
    (wf : drv.WellFormed) (names : ∀ u, Names s.drv name u → Names drv name u)
    (count : ∀ p ∈ drv.mList .shm, (drv.mem p).name = name →
      s.users + 1 ≤ (drv.mem p).ownerCount) {user : Ptr} (new : Names drv name user)
    (call : ShmCall) :
    Consistent name ({ s with drv := drv }.goto c (.allocate call user)) ∧
      Consistent name ({ s with drv := drv }.goto c .idle) := by
  have hdrv := inv.with_drv wf names fun p hp hname => by
    have := count p hp hname
    omega
  constructor
  · apply hdrv.goto _ _ _ (by simp)
    · intro p hp hname
      have hnone : holds (s.points c) = 0 := holds_of_none hc
      have hone : holds (.allocate call user) = 1 := rfl
      have hcount := count p hp hname
      simp only [users, hnone, hone] at hcount ⊢
      omega
    · rintro _ ⟨⟩
      exact new
    · rintro _ ⟨⟩
  · apply hdrv.goto_user (.inr rfl) _ (by decide)
    rintro _ ⟨⟩

theorem names_countOwner {drv : Driver} {name : CStr 128} {user p : Ptr} (e : Int)
    (h : Names drv name user) :
    Names (drv.write p { drv.mem p with ownerCount := e }) name user := by
  obtain ⟨q, hq, hname, huser⟩ := h
  refine ⟨q, hq, ?_, huser⟩
  by_cases he : q = p
  · subst he
    simpa using hname
  · rwa [drv.write_mem_ne _ he]

theorem name_countOwner (drv : Driver) (p q : Ptr) (e : Int) :
    ((drv.write p { drv.mem p with ownerCount := e }).mem q).name = (drv.mem q).name := by
  by_cases he : q = p
  · subst he
    simp
  · rw [drv.write_mem_ne _ he]

theorem names_insertNew {drv : Driver} {name : CStr 128} {user fresh : Ptr} {param : IpcCreate}
    (free : drv.Free fresh) (h : Names drv name user) :
    Names (insertNew drv .shm param fresh) name user := by
  obtain ⟨q, hq, hname, huser⟩ := h
  have he : q ≠ fresh := fun e => free.2 .shm (e ▸ hq)
  refine ⟨q, by simp [insertNew, hq], ?_, huser⟩
  rw [insertNew, Driver.setList_mem, drv.write_mem_ne _ he]
  exact hname

/-- One reference more, where the name is found. -/
theorem ownerCount_countOwner {drv : Driver} (wf : drv.WellFormed) {name : CStr 128} {p q : Ptr}
    (hp : p ∈ drv.mList .shm) (hname : (drv.mem p).name = name)
    (hq : q ∈ (countOwner drv p).mList .shm) (hqname : ((countOwner drv p).mem q).name = name) :
    ((countOwner drv p).mem q).ownerCount = (drv.mem p).ownerCount + 1 := by
  have hqp : q = p := by
    rw [countOwner, name_countOwner] at hqname
    exact wf.names .shm q hq p hp (hqname.trans hname.symm)
  rw [hqp, countOwner, Driver.write_mem_self]

/-- The first reference, where it is new. -/
theorem ownerCount_insertNew {drv : Driver} {param : IpcCreate} {fresh q : Ptr}
    (free : drv.Free fresh) (hfind : findName drv .shm param.name = none)
    (hq : q ∈ (insertNew drv .shm param fresh).mList .shm)
    (hqname : ((insertNew drv .shm param fresh).mem q).name = param.name) :
    ((insertNew drv .shm param fresh).mem q).ownerCount = 1 := by
  rcases mem_insertNew hq with hq | ⟨-, rfl⟩
  · have he : q ≠ fresh := fun e => free.2 .shm (e ▸ hq)
    rw [insertNew, Driver.setList_mem, drv.write_mem_ne _ he] at hqname
    exact absurd hqname (findName_none hfind q hq)
  · simp [insertNew]

/-- The registration of a name that an entry has. -/
theorem registered_found (inv : Consistent name s) (hc : userOf (s.points c) = none) {p : Ptr}
    (hp : p ∈ s.drv.mList .shm) (hname : (s.drv.mem p).name = name) (call : ShmCall) :
    Consistent name ({ s with drv := countOwner s.drv p }.goto c (.allocate call (userHandle p))) ∧
      Consistent name ({ s with drv := countOwner s.drv p }.goto c .idle) := by
  apply inv.registered hc (inv.wf.countOwner hp) (fun u => names_countOwner _)
  · intro q hq hqname
    have := inv.counted p hp hname
    rw [ownerCount_countOwner inv.wf hp hname hq hqname]
    omega
  · exact names_countOwner _ ⟨p, hp, hname, rfl⟩

/-- The registration of a name that no entry has. -/
theorem registered_new (inv : Consistent name s) (hc : userOf (s.points c) = none) {fresh : Ptr}
    (hfree : s.drv.Free fresh) (hfind : findName s.drv .shm name = none) (call : ShmCall) :
    Consistent name ({ s with drv := insertNew s.drv .shm ⟨name, call.size, 0, 0⟩ fresh }.goto c
        (.allocate call (userHandle fresh))) ∧
      Consistent name
        ({ s with drv := insertNew s.drv .shm ⟨name, call.size, 0, 0⟩ fresh }.goto c .idle) := by
  apply inv.registered hc (inv.wf.insertNew hfree hfind) (fun u => names_insertNew hfree)
  · intro q hq hqname
    have hzero := inv.users_eq_zero (findName_none hfind)
    rw [ownerCount_insertNew hfree hfind hq hqname, hzero]
    omega
  · exact ⟨fresh, by simp [insertNew], by simp [insertNew], rfl⟩

/-- The register ioctl of a call, which fails or gives out a handle. -/
theorem register (inv : Consistent name s) {call : ShmCall} (hc : s.points c = .register call)
    {kzalloc : Option Ptr} (free : ∀ p, kzalloc = some p → s.drv.Free p)
    (copyFromUser copyToUser : Bool)
    (registers : copyFromUser = true → copyToUser = true →
      Registered s.drv .shm name ∨ kzalloc.isSome = true) {t : Shm ι}
    (h : nextIoctl name s c copyFromUser copyToUser kzalloc = some t) : Consistent name t := by
  have hnone : userOf (s.points c) = none := by rw [hc]; rfl
  have hsame : Consistent name (s.goto c .idle) := by
    apply inv.goto_user (.inr rfl) _ (by decide)
    rintro _ ⟨⟩
  simp only [nextIoctl, hc, ioctlShmOpen, ioctlOpen] at h
  cases copyFromUser with
  | false =>
    cases h
    exact hsame
  | true =>
    cases hfind : findName s.drv .shm name with
    | some p =>
      have hmade : ipcShmOpen s.drv ⟨name, call.size, 0, 0⟩ kzalloc =
          (countOwner s.drv p, userHandle p) := registryCreate_found kzalloc hfind
      have hboth := inv.registered_found hnone (findName_some hfind).1 (findName_some hfind).2 call
      simp only [hmade, userHandle_ne_zero] at h
      cases copyToUser with
      | true =>
        cases h
        exact hboth.1
      | false =>
        cases h
        exact hboth.2
    | none =>
      cases kzalloc with
      | some fresh =>
        have hmade : ipcShmOpen s.drv ⟨name, call.size, 0, 0⟩ (some fresh) =
            (insertNew s.drv .shm ⟨name, call.size, 0, 0⟩ fresh, userHandle fresh) :=
          registryCreate_new fresh hfind
        have hboth := inv.registered_new hnone (free fresh rfl) hfind call
        simp only [hmade, userHandle_ne_zero] at h
        cases copyToUser with
        | true =>
          cases h
          exact hboth.1
        | false =>
          cases h
          exact hboth.2
      | none =>
        have hmade : ipcShmOpen s.drv ⟨name, call.size, 0, 0⟩ none = (s.drv, userHandle 0) :=
          registryCreate_failed hfind
        simp only [hmade, userHandle_ne_zero] at h
        cases copyToUser with
        | true =>
          rcases registers rfl rfl with hreg | hsome
          · rw [registered_iff, hfind] at hreg
            cases hreg
          · cases hsome
        | false =>
          cases h
          exact hsame

/-- The close of an error path or of a delete; a delete goes on to unlink the
name when the driver says that it was the last. -/
theorem close (inv : Consistent name s) {user : Ptr} (hc : userOf (s.points c) = some user)
    {point : ShmPoint} (hpoint : point = .idle ∨
      (point = .shmUnlink ∧ ¬ (registryClose .shm s.drv ⟨user⟩).2 < 0)) :
    Consistent name ({ s with drv := (registryClose .shm s.drv ⟨user⟩).1 }.goto c point) := by
  obtain ⟨p, hp, hname, rfl⟩ := inv.calls c user hc
  have hcount := inv.counted p hp hname
  have huser : userOf point = none := by rcases hpoint with rfl | ⟨rfl, -⟩ <;> rfl
  by_cases last : (s.drv.mem p).ownerCount = 1
  · obtain ⟨hlive, hothers⟩ := alone_of_users hc (last ▸ hcount)
    have hobjs : ∀ d, d ≠ c → objOf (s.points d) = none := by
      intro d hd
      cases ho : objOf (s.points d) with
      | none => rfl
      | some o =>
        obtain ⟨u, hu⟩ := userOf_of_objOf ho
        rw [hothers d hd] at hu
        cases hu
    have hobj : objOf point = none := by rcases hpoint with rfl | ⟨rfl, -⟩ <;> rfl
    rw [registryClose_last inv.wf ⟨userHandle p⟩ hp (containerOf_userHandle p) last]
    constructor
    · exact inv.wf.of_erase hp _
    · intro h hh
      exact absurd (show h ∈ s.live from hh) (hlive ▸ List.not_mem_nil)
    · apply forall_update (p := fun _ point => ∀ u, userOf point = some u → Names _ name u)
      · intro d hd u hu
        rw [hothers d hd] at hu
        cases hu
      · intro u hu
        rw [huser] at hu
        cases hu
    · apply forall_update (p := fun _ point => ∀ o, objOf point = some o → s.bound = some o)
        fun d _ => inv.objects d
      intro o ho
      rw [hobj] at ho
      cases ho
    · intro q hq hqname
      obtain ⟨hq, hqp⟩ := (inv.wf.mem_erase hp _).mp hq
      simp only [Shm.goto, Driver.setList_mem, s.drv.write_mem_ne _ hqp] at hqname
      exact absurd (inv.wf.names .shm q hq p hp (hqname.trans hname.symm)) hqp
    · intro d _
      exact ⟨hlive, forall_update (p := fun _ point => objOf point = none) hobjs hobj⟩
  · have hclose := registryClose_busy inv.wf ⟨userHandle p⟩ hp (containerOf_userHandle p) last
    have hidle : point = .idle := by
      refine hpoint.resolve_right fun h => h.2 ?_
      rw [hclose]
      exact Int.negSucc_lt_zero 15
    subst hidle
    rw [hclose]
    have hgone : Consistent name (s.goto c .idle) := by
      apply inv.goto_user (.inr rfl) _ (by decide)
      rintro _ ⟨⟩
    have howned := inv.wf.owned .shm p hp
    apply hgone.with_drv (inv.wf.of_owners (by omega)) fun u => names_countOwner _
    intro q hq hqname
    rw [name_countOwner] at hqname
    have hqp := inv.wf.names .shm q hq p hp (hqname.trans hname.symm)
    rw [hqp, Driver.write_mem_self, users_goto, holds_of_userOf hc, holds_of_none rfl]
    show s.users - 1 + 0 ≤ (s.drv.mem p).ownerCount - 1
    omega

/-- The object is made where there was none. -/
theorem shmOpenExcl (inv : Consistent name s) {call : ShmCall} {user : Ptr}
    (hc : s.points c = .shmOpenExcl call user) (hbound : s.bound = none)
    (gap : ∀ d, s.points d ≠ .shmUnlink) (sizes : Nat → Int) (objects : Nat) :
    Consistent name ({ s with
      bound := some s.objects
      sizes := sizes
      objects := objects }.goto c (.ftruncate call user s.objects true)) := by
  have hlive : s.live = [] := List.eq_nil_iff_forall_not_mem.mpr fun h hh => by
    have := (inv.handles h hh).2
    rw [hbound] at this
    cases this
  have hobjs : ∀ d o, objOf (s.points d) ≠ some o := by
    intro d o ho
    have := inv.objects d o ho
    rw [hbound] at this
    cases this
  have huser : userOf (s.points c) = some user := by rw [hc]; rfl
  constructor
  · exact inv.wf
  · intro h hh
    exact absurd (show h ∈ s.live from hh) (hlive ▸ List.not_mem_nil)
  · apply forall_update (p := fun _ point => ∀ u, userOf point = some u → Names s.drv name u)
      fun d _ => inv.calls d
    rintro _ ⟨⟩
    exact inv.calls c user huser
  · apply forall_update (p := fun _ point => ∀ o, objOf point = some o → some s.objects = some o)
    · exact fun d _ o ho => absurd ho (hobjs d o)
    · exact fun o ho => ho
  · intro p hp hname
    have hcount := inv.counted p hp hname
    have hsame : holds (.ftruncate call user s.objects true) = 1 := rfl
    have hold := holds_of_userOf huser
    simp only [users, Shm.goto, tally_update, hsame, hold] at hcount ⊢
    omega
  · intro d hd
    by_cases hdc : d = c
    · subst hdc
      simp [Shm.goto] at hd
    · simp only [Shm.goto, Function.update_of_ne hdc] at hd
      exact absurd hd (gap d)

theorem shmUnlink (inv : Consistent name s) (hc : s.points c = .shmUnlink) (bound : Option Nat) :
    Consistent name ({ s with bound := bound }.goto c .idle) := by
  obtain ⟨hlive, hobjs⟩ := inv.gap c hc
  have hidle : Consistent name (s.goto c .idle) := by
    apply inv.goto_user (.inr rfl) _ (by decide)
    rintro _ ⟨⟩
  constructor
  · exact inv.wf
  · intro h hh
    exact absurd (show h ∈ s.live from hh) (hlive ▸ List.not_mem_nil)
  · exact hidle.calls
  · apply forall_update (p := fun _ point => ∀ o, objOf point = some o → bound = some o)
    · intro d _ o ho
      rw [hobjs d] at ho
      cases ho
    · rintro _ ⟨⟩
  · exact hidle.counted
  · exact hidle.gap

omit [DecidableEq ι] in
theorem oneObject (inv : Consistent name s) : s.OneObject := by
  intro h hh k hk
  exact Option.some.inj ((inv.handles h hh).2.symm.trans (inv.handles k hk).2)

end Consistent

/-! The condition under which all handles stay together. -/

omit [Fintype ι] in
/-- The step is a `shm_open` that gives process `c` a descriptor. -/
def opens (s : Shm ι) (a : ι × ShmAct) : Bool :=
  match a.2, s.points a.1 with
  | .sys true, .shmOpenExcl _ _ => s.bound.isNone
  | .sys true, .shmOpen _ _ => s.bound.isSome
  | _, _ => false

/-- The step is a register ioctl that answers 0 for want of memory. -/
def registersNothing (name : CStr 128) (s : Shm ι) (a : ι × ShmAct) : Bool :=
  match a.2, s.points a.1 with
  | .ioctl true true none, .register _ => (findName s.drv .shm name).isNone
  | _, _ => false

/-- The step is a repeated delete of a handle that finds a registered entry. -/
def closesAgain (s : Shm ι) (a : ι × ShmAct) : Bool :=
  match a.2, s.points a.1 with
  | .ioctl true _ _, .deleteClose user true => containerOf user ∈ s.drv.mList .shm
  | _, _ => false

def Orderly (name : CStr 128) (s : Shm ι) (a : ι × ShmAct) : Prop :=
  (opens s a = true → ∀ d, s.points d ≠ .shmUnlink) ∧ registersNothing name s a = false ∧
    closesAgain s a = false

namespace Consistent

variable {name : CStr 128} {s t : Shm ι} {c : ι}

/-- A call goes on to a point without a descriptor. -/
theorem goto_plain (inv : Consistent name s) {point : ShmPoint}
    (user : userOf point = userOf (s.points c) ∨ userOf point = none) (obj : objOf point = none)
    (gap : point ≠ .shmUnlink) : Consistent name (s.goto c point) := by
  apply inv.goto_user user _ gap
  intro o ho
  rw [obj] at ho
  cases ho

theorem nextIoctl (inv : Consistent name s) {copyFromUser copyToUser : Bool}
    {kzalloc : Option Ptr} (free : ∀ p, kzalloc = some p → s.drv.Free p)
    (ok : Orderly name s (c, .ioctl copyFromUser copyToUser kzalloc))
    (h : Shm.nextIoctl name s c copyFromUser copyToUser kzalloc = some t) : Consistent name t := by
  cases hc : s.points c with
  | register call =>
    refine inv.register hc free copyFromUser copyToUser ?_ h
    rintro rfl rfl
    cases kzalloc with
    | some p => exact .inr rfl
    | none =>
      have hreg := ok.2.1
      simp only [registersNothing, hc, Option.isNone_eq_false_iff] at hreg
      exact .inl (registered_iff.mpr hreg)
  | unregister user =>
    simp only [Shm.nextIoctl, hc, ioctlShmClose, ioctlClose] at h
    cases copyFromUser with
    | false =>
      cases h
      exact inv.goto_plain (.inr rfl) rfl (by decide)
    | true =>
      cases h
      exact inv.close (by rw [hc]; rfl) (.inl rfl)
  | deleteClose user again =>
    have hidle : Consistent name (s.goto c .idle) := inv.goto_plain (.inr rfl) rfl (by decide)
    simp only [Shm.nextIoctl, hc, ioctlShmClose, ioctlClose] at h
    cases copyFromUser with
    | false =>
      cases h
      exact hidle
    | true =>
      cases h
      cases again with
      | false =>
        apply inv.close (by rw [hc]; rfl)
        by_cases hneg : (ipcShmClose s.drv ⟨user⟩).2 < 0
        · exact .inl (if_pos hneg)
        · exact .inr ⟨if_neg hneg, hneg⟩
      | true =>
        -- The handle matches no entry, so nothing is released.
        have hgone : containerOf user ∉ s.drv.mList .shm := by
          have := ok.2.2
          simpa [closesAgain, hc] using this
        have hclose : ipcShmClose s.drv ⟨user⟩ = (s.drv, -EINVAL) :=
          registryClose_unlisted (.inr hgone)
        simp only [Bool.not_true, Bool.false_eq_true, ↓reduceIte, hclose]
        exact hidle
  | _ => simp [Shm.nextIoctl, hc] at h

theorem nextSys (inv : Consistent name s) {ok : Bool} (orderly : Orderly name s (c, .sys ok))
    (h : Shm.nextSys s c ok = some t) : Consistent name t := by
  cases hc : s.points c with
  | allocate call user =>
    simp only [Shm.nextSys, hc] at h
    cases h
    cases ok with
    | false => exact inv.goto_plain (.inl (by rw [hc]; rfl)) rfl (by simp)
    | true =>
      cases call <;> exact inv.goto_plain (.inl (by rw [hc]; rfl)) rfl (by simp [firstOpen])
  | shmOpenExcl call user =>
    simp only [Shm.nextSys, hc] at h
    split at h
    · cases h
      exact inv.goto_plain (.inl (by rw [hc]; rfl)) rfl (by simp)
    · cases h
      exact inv.goto_plain (.inl (by rw [hc]; rfl)) rfl (by simp)
    · rename_i hbound
      cases h
      exact inv.shmOpenExcl hc hbound (orderly.1 (by simp [opens, hc, hbound])) _ _
  | shmOpen call user =>
    simp only [Shm.nextSys, hc] at h
    split at h
    · rename_i obj hbound
      cases h
      apply inv.goto_user (.inl (by rw [hc]; rfl)) _ (by simp)
      rintro _ ⟨⟩
      exact ⟨hbound, orderly.1 (by simp [opens, hc, hbound])⟩
    · cases h
      exact inv.goto_plain (.inl (by rw [hc]; rfl)) rfl (by simp)
  | fstat call user obj =>
    have huser : userOf (s.points c) = some user := by rw [hc]; rfl
    have hobj : objOf (s.points c) = some obj := by rw [hc]; rfl
    simp only [Shm.nextSys, hc] at h
    split at h
    · cases h
      exact inv.goto_plain (.inl huser.symm) rfl (by simp)
    · split at h
      · cases h
        exact inv.ret huser hobj
      · split at h
        · cases h
          exact inv.ret huser hobj
        · cases h
          apply inv.goto_user (.inl (by rw [hc]; rfl)) _ (by simp)
          rintro _ ⟨⟩
          refine ⟨inv.objects c obj hobj, fun d hd => ?_⟩
          rw [(inv.gap d hd).2 c] at hobj
          cases hobj
  | ftruncate call user obj made =>
    have huser : userOf (s.points c) = some user := by rw [hc]; rfl
    have hobj : objOf (s.points c) = some obj := by rw [hc]; rfl
    simp only [Shm.nextSys, hc] at h
    split at h
    · cases h
      exact inv.goto_plain (.inl huser.symm) rfl (by simp)
    · obtain ⟨-, h⟩ := Option.ite_none_left_eq_some.mp h
      cases h
      exact (inv.with_sizes _).ret huser hobj
  | shmUnlink =>
    simp only [Shm.nextSys, hc] at h
    cases h
    exact inv.shmUnlink hc _
  | _ => simp [Shm.nextSys, hc] at h

theorem next (inv : Consistent name s) {a : ι × ShmAct} (ok : Orderly name s a)
    (h : Shm.next name s a = some t) : Consistent name t := by
  obtain ⟨c, act⟩ := a
  cases act with
  | call call =>
    simp only [Shm.next] at h
    obtain ⟨-, h⟩ := Option.ite_none_right_eq_some.mp h
    cases h
    exact inv.goto_plain (.inr rfl) rfl (by simp)
  | delete i =>
    simp only [Shm.next] at h
    obtain ⟨hidle, h⟩ := Option.ite_none_right_eq_some.mp h
    obtain ⟨handle, hi, h⟩ := Option.map_eq_some_iff.mp h
    cases h
    exact inv.delete hidle hi _
  | deleteAgain i =>
    simp only [Shm.next] at h
    obtain ⟨-, h⟩ := Option.ite_none_right_eq_some.mp h
    obtain ⟨handle, -, h⟩ := Option.map_eq_some_iff.mp h
    cases h
    exact inv.goto_plain (.inr rfl) rfl (by simp)
  | ioctl copyFromUser copyToUser kzalloc =>
    simp only [Shm.next] at h
    obtain ⟨free, h⟩ := Option.ite_none_right_eq_some.mp h
    exact inv.nextIoctl (fun p hp => free p hp) ok h
  | sys okay =>
    exact inv.nextSys ok h

end Consistent

instance (name : CStr 128) (s : Shm ι) (a : ι × ShmAct) : Decidable (Orderly name s a) :=
  inferInstanceAs (Decidable (_ ∧ _))

omit [DecidableEq ι] in
theorem consistent_first {name : CStr 128} {s : Shm ι} (wf : s.drv.WellFormed)
    (hname : ¬ Registered s.drv .shm name) (hidle : s.points = fun _ => .idle)
    (hlive : s.live = []) : Consistent name s := by
  have hzero : s.users = 0 := by simp [users, hlive, hidle, tally, holds, userOf]
  refine ⟨wf, ?_, ?_, ?_, ?_, ?_⟩
  · intro h hh
    exact absurd hh (hlive ▸ List.not_mem_nil)
  · intro c user hc
    rw [hidle] at hc
    cases hc
  · intro c obj hc
    rw [hidle] at hc
    cases hc
  · intro p hp hpname
    exact absurd ⟨p, hp, hpname⟩ hname
  · intro c hc
    rw [hidle] at hc
    cases hc

end Shm

section Claims

/-- All handles that are in use designate one object, in every run in which no
`shm_open` succeeds while a delete stands between the close that removed the
entry and its `shm_unlink`, every register ioctl that answers 0 has registered,
and no repeated delete releases a reference. -/
theorem shm_one_object {ι : Type*} [Fintype ι] [DecidableEq ι] (name : CStr 128) :
    ∀ s, ((Shm.system ι name).guard (Shm.Orderly name)).Reachable s → s.OneObject := by
  intro s hs
  have inv : Shm.Consistent name s := by
    apply hs.invariant (I := Shm.Consistent name)
    · rintro s ⟨wf, hname, hidle, hlive, -⟩
      exact Shm.consistent_first wf hname hidle hlive
    · rintro s a t - inv ⟨ok, step⟩
      exact inv.next ok step
  exact inv.oneObject

/-- A driver on which nothing has happened, and no object of the name. -/
def shmFirst : Shm (Fin 3) where
  drv := ipcProbe fun _ => Entry.zero
  bound := none
  sizes := fun _ => 0
  objects := 0
  points := fun _ => .idle
  live := []
  passed := []

theorem shmFirst_init (name : CStr 128) : (Shm.system (Fin 3) name).init shmFirst := by
  refine ⟨ipcProbe_wellFormed _, ?_, rfl, rfl, rfl⟩
  rintro ⟨p, hp, -⟩
  cases hp

/-- Process 0 creates the object, process 1 opens it. -/
theorem shm_one_object_two_handles :
    ∃ s, ((Shm.system (Fin 3) CStr.x).guard (Shm.Orderly CStr.x)).Reachable s ∧
      s.live.length = 2 ∧ s.OneObject := by
  refine exists_guarded_of_run shmFirst
    [(0, .call (.create 4)), (0, .ioctl true true (some 4096)), (0, .sys true), (0, .sys true),
      (0, .sys true), (1, .call .openExisting), (1, .ioctl true true none), (1, .sys true),
      (1, .sys true), (1, .sys true)] (fun s => decide (s.live.length = 2))
    (shmFirst_init _) (by decide) fun s hs hp => ?_
  exact ⟨of_decide_eq_true hp, shm_one_object CStr.x s hs⟩

/-- Process 0 has removed the entry of its object when process 1 opens the
object; process 0 unlinks the name, and process 2 makes a new object. -/
def openInGap : List (Fin 3 × ShmAct) :=
  [(0, .call (.create 4)), (0, .ioctl true true (some 4096)), (0, .sys true), (0, .sys true),
    (0, .sys true), (0, .delete 0), (0, .ioctl true true none),
    (1, .call .openExisting), (1, .ioctl true true (some 4096)), (1, .sys true), (1, .sys true),
    (1, .sys true), (0, .sys true),
    (2, .call (.create 4)), (2, .ioctl true true none), (2, .sys true), (2, .sys true),
    (2, .sys true)]

theorem shm_two_objects :
    ¬ ∀ name : CStr 128, ∀ s, (Shm.system (Fin 3) name).Reachable s → s.OneObject := by
  intro h
  obtain ⟨s, hs, htwo⟩ : ∃ s, (Shm.system (Fin 3) CStr.x).Reachable s ∧
      s.live.map ShmHandle.obj = [1, 0] :=
    exists_reachable_of_run shmFirst openInGap
      (fun s => decide (s.live.map ShmHandle.obj = [1, 0])) (shmFirst_init _) (by decide)
      fun _ _ hp => of_decide_eq_true hp
  have hone := h _ s hs
  have hmem : ∀ o ∈ [1, 0], ∃ k ∈ s.live, k.obj = o := by
    intro o ho
    rw [← htwo] at ho
    exact List.mem_map.mp ho
  obtain ⟨k, hk, hk1⟩ := hmem 1 (by simp)
  obtain ⟨l, hl, hl0⟩ := hmem 0 (by simp)
  have := hone k hk l hl
  omega

end Claims

end Gipcy.Linux
