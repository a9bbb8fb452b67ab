import Gipcy.Linux.SharedMemory

/-! The map and unmap calls beside the other shared-memory calls of one name:
what a handle maps, against the size of its object. -/
namespace Gipcy.Linux

open Transition Clients

/-- `ipcData` has an item for each handle in use: whether its `ipc_data` is set. -/
structure Mapped (ι : Type*) where
  shm : Shm ι
  ipcData : List Bool

inductive MapAct where
  | shm (act : ShmAct)
  /-- A map of the `i`-th handle; `mmap` may fail for a reason of its own. -/
  | map (i : Nat) (mmap : Bool)
  | unmap (i : Nat) (munmap : Bool)
deriving DecidableEq

variable {ι : Type*} [DecidableEq ι]

namespace Mapped

def handleAt (x : Mapped ι) (i : Nat) : Option (ShmHandle × Bool) :=
  x.shm.live[i]?.bind fun h => x.ipcData[i]?.map fun data => (h, data)

/-- Write to the `i`-th handle. -/
def setAt (x : Mapped ι) (i : Nat) (h : ShmHandle) (data : Bool) : Mapped ι where
  shm := { x.shm with live := x.shm.live.set i h }
  ipcData := x.ipcData.set i data

/-- `IPC_mapSharedMemory`. A negative size is, as a `size_t`, more than any
address space holds. -/
def mapSharedMemory (x : Mapped ι) (i : Nat) (mmap : Bool) (h : ShmHandle) : Option (Mapped ι) :=
  if h.ipcSize = 0 then some x
  else if !mmap then some x
  else if h.ipcSize < 0 then none
  else some (x.setAt i h true)

/-- `IPC_unmapSharedMemory`. -/
def unmapSharedMemory (x : Mapped ι) (i : Nat) (munmap : Bool) (h : ShmHandle) (data : Bool) :
    Mapped ι :=
  if !data then x
  else if !munmap then x
  else x.setAt i { h with ipcSize := 0 } false

/-- What a step of the other calls does to the handles in use. -/
def follow (x : Mapped ι) (act : ShmAct) (t : Shm ι) : Mapped ι where
  shm := t
  ipcData :=
    match act with
    | .delete i => x.ipcData.eraseIdx i
    | _ => if x.shm.live.length < t.live.length then false :: x.ipcData else x.ipcData

def next (name : CStr 128) (x : Mapped ι) (a : ι × MapAct) : Option (Mapped ι) :=
  match a.2 with
  | .shm act => (Shm.next name x.shm (a.1, act)).map (x.follow act)
  | .map i mmap =>
    if x.shm.points a.1 = .idle then
      (x.handleAt i).bind fun r => x.mapSharedMemory i mmap r.1
    else none
  | .unmap i munmap =>
    if x.shm.points a.1 = .idle then
      (x.handleAt i).map fun r => x.unmapSharedMemory i munmap r.1 r.2
    else none

/-- The runs on a name that nobody has registered. An object that is left over
is one of those that exist. -/
def system (ι : Type*) [DecidableEq ι] (name : CStr 128) : System (Mapped ι) (ι × MapAct) :=
  .ofNext (fun x => (Shm.system ι name).init x.shm ∧ x.ipcData = [] ∧
    (∀ obj, x.shm.bound = some obj → obj < x.shm.objects) ∧ ∀ obj, 0 ≤ x.shm.sizes obj)
    (next name)

/-- A handle that is mapped maps no more than its object has. -/
def Inside (x : Mapped ι) : Prop :=
  ∀ i h, x.handleAt i = some (h, true) → h.ipcSize ≤ x.shm.sizes h.obj

/-- The step is the `fstat` of a create that finds a sized object: the object
and the size that the call asks for. -/
def finds (x : Mapped ι) (a : ι × MapAct) : Option (Nat × Int) :=
  match a.2, x.shm.points a.1 with
  | .shm (.sys true), .fstat call _ obj =>
    if x.shm.sizes obj > 0 then some (obj, call.size.toInt) else none
  | _, _ => none

/-- The step is a `ftruncate`: the object and its new size. -/
def resizes (x : Mapped ι) (a : ι × MapAct) : Option (Nat × Int) :=
  match a.2, x.shm.points a.1 with
  | .shm (.sys true), .ftruncate call _ obj _ => some (obj, call.size.toInt)
  | _, _ => none

/-- No create asks for more than the object that it finds has, and none gives an
object less than what a handle in use was returned with. -/
def Fitting (x : Mapped ι) (a : ι × MapAct) : Prop :=
  (∀ r ∈ x.finds a, r.2 ≤ x.shm.sizes r.1) ∧
  ∀ r ∈ x.resizes a, ∀ h ∈ x.shm.live, h.obj = r.1 → h.ipcSize ≤ r.2

instance (x : Mapped ι) (a : ι × MapAct) : Decidable (Fitting x a) :=
  inferInstanceAs (Decidable (_ ∧ _))

end Mapped

namespace Shm

/-- What holds of the sizes as long as all calls fit. -/
structure Fits (s : Shm ι) : Prop where
  nonneg : ∀ obj, 0 ≤ s.sizes obj
  bound : ∀ obj, s.bound = some obj → obj < s.objects
  calls : ∀ c obj, objOf (s.points c) = some obj → obj < s.objects
  handles : ∀ h ∈ s.live, h.obj < s.objects ∧ h.ipcSize ≤ s.sizes h.obj

namespace Fits

variable {name : CStr 128} {s t : Shm ι} {c : ι}

/-- A call goes on, with a descriptor of an object that exists. -/
theorem goto (inv : s.Fits) (drv : Driver) {point : ShmPoint}
    (obj : ∀ o, objOf point = some o → o < s.objects) :
    ({ s with drv := drv }.goto c point).Fits where
  nonneg := inv.nonneg
  bound := inv.bound
  calls := by
    apply forall_update (p := fun _ point => ∀ o, objOf point = some o → o < s.objects)
      (fun d _ => inv.calls d) obj
  handles := inv.handles

theorem goto_plain (inv : s.Fits) (drv : Driver) {point : ShmPoint} (obj : objOf point = none) :
    ({ s with drv := drv }.goto c point).Fits := by
  apply inv.goto drv
  intro o ho
  rw [obj] at ho
  cases ho

theorem ret (inv : s.Fits) {h : ShmHandle} (obj : h.obj < s.objects)
    (size : h.ipcSize ≤ s.sizes h.obj) : (s.ret c h).Fits := by
  have hidle : (s.goto c .idle).Fits := inv.goto_plain s.drv rfl
  refine ⟨inv.nonneg, inv.bound, hidle.calls, ?_⟩
  intro k hk
  rcases List.mem_cons.mp hk with rfl | hk
  · exact ⟨obj, size⟩
  · exact inv.handles k hk

omit [DecidableEq ι] in
/-- An object gets a size that no handle exceeds. -/
theorem resize (inv : s.Fits) {obj : Nat} {size : Int} (hsize : 0 ≤ size)
    (enough : ∀ h ∈ s.live, h.obj = obj → h.ipcSize ≤ size) :
    { s with sizes := Function.update s.sizes obj size }.Fits where
  nonneg := by
    intro o
    by_cases ho : o = obj
    · subst ho
      simpa using hsize
    · simpa [ho] using inv.nonneg o
  bound := inv.bound
  calls := inv.calls
  handles := by
    intro h hh
    refine ⟨(inv.handles h hh).1, ?_⟩
    by_cases ho : h.obj = obj
    · simpa [ho] using enough h hh ho
    · simpa [ho] using (inv.handles h hh).2

omit [DecidableEq ι] in
/-- A new object, which no handle designates. -/
theorem create (inv : s.Fits) :
    { s with
      bound := some s.objects
      sizes := Function.update s.sizes s.objects 0
      objects := s.objects + 1 }.Fits where
  nonneg := by
    intro o
    by_cases ho : o = s.objects
    · subst ho
      simp
    · simpa [ho] using inv.nonneg o
  bound := by
    intro o ho
    cases ho
    exact Nat.lt_succ_self _
  calls := fun c o ho => Nat.lt_succ_of_lt (inv.calls c o ho)
  handles := by
    intro h hh
    obtain ⟨hobj, hsize⟩ := inv.handles h hh
    refine ⟨Nat.lt_succ_of_lt hobj, ?_⟩
    simpa [Nat.ne_of_lt hobj] using hsize

theorem nextIoctl (inv : s.Fits) {copyFromUser copyToUser : Bool} {kzalloc : Option Ptr}
    (h : Shm.nextIoctl name s c copyFromUser copyToUser kzalloc = some t) : t.Fits := by
  cases hc : s.points c with
  | register call =>
    simp only [Shm.nextIoctl, hc] at h
    split at h <;> cases h <;> exact inv.goto_plain _ rfl
  | unregister user =>
    simp only [Shm.nextIoctl, hc] at h
    cases h
    exact inv.goto_plain _ rfl
  | deleteClose user again =>
    simp only [Shm.nextIoctl, hc] at h
    cases h
    apply inv.goto_plain
    split <;> rfl
  | _ => simp [Shm.nextIoctl, hc] at h

theorem nextFstat (inv : s.Fits) {ok : Bool} {data : List Bool} {call : ShmCall} {user : Ptr}
    {obj : Nat} (hc : s.points c = .fstat call user obj)
    (fitting : Mapped.Fitting ⟨s, data⟩ (c, .shm (.sys ok))) (h : Shm.nextSys s c ok = some t) :
    t.Fits := by
  have hobj : obj < s.objects := inv.calls c obj (by rw [hc]; rfl)
  simp only [Shm.nextSys, hc] at h
  split at h
  · cases h
    exact inv.goto_plain s.drv rfl
  · rename_i hok
    have hok : ok = true := by simpa using hok
    subst hok
    split at h
    · cases h
      apply inv.ret hobj
      split
      · exact le_refl _
      · exact inv.nonneg obj
    · split at h
      · rename_i hsized
        cases h
        exact inv.ret hobj (fitting.1 (obj, call.size.toInt) (by simp [Mapped.finds, hc, hsized]))
      · cases h
        apply inv.goto s.drv
        rintro _ ⟨⟩
        exact hobj

theorem nextFtruncate (inv : s.Fits) {ok : Bool} {data : List Bool} {call : ShmCall}
    {user : Ptr} {obj : Nat} {made : Bool} (hc : s.points c = .ftruncate call user obj made)
    (fitting : Mapped.Fitting ⟨s, data⟩ (c, .shm (.sys ok))) (h : Shm.nextSys s c ok = some t) :
    t.Fits := by
  have hobj : obj < s.objects := inv.calls c obj (by rw [hc]; rfl)
  simp only [Shm.nextSys, hc] at h
  split at h
  · cases h
    exact inv.goto_plain s.drv rfl
  · rename_i hok
    have hok : ok = true := by simpa using hok
    subst hok
    obtain ⟨hneg, h⟩ := Option.ite_none_left_eq_some.mp h
    cases h
    have hsize : 0 ≤ call.size.toInt := Int32.le_iff_toInt_le.mp (Int32.not_lt.mp hneg)
    have enough := fitting.2 (obj, call.size.toInt) (by simp [Mapped.resizes, hc])
    apply (inv.resize hsize enough).ret hobj
    simp

theorem nextSys (inv : s.Fits) {ok : Bool} {data : List Bool}
    (fitting : Mapped.Fitting ⟨s, data⟩ (c, .shm (.sys ok))) (h : Shm.nextSys s c ok = some t) :
    t.Fits := by
  cases hc : s.points c with
  | allocate call user =>
    simp only [Shm.nextSys, hc] at h
    cases h
    cases ok with
    | false => exact inv.goto_plain s.drv rfl
    | true => cases call <;> exact inv.goto_plain s.drv rfl
  | shmOpenExcl call user =>
    simp only [Shm.nextSys, hc] at h
    split at h
    · cases h
      exact inv.goto_plain s.drv rfl
    · cases h
      exact inv.goto_plain s.drv rfl
    · cases h
      apply inv.create.goto s.drv
      rintro _ ⟨⟩
      exact Nat.lt_succ_self _
  | shmOpen call user =>
    simp only [Shm.nextSys, hc] at h
    split at h
    · rename_i obj hbound
      cases h
      apply inv.goto s.drv
      rintro _ ⟨⟩
      exact inv.bound obj hbound
    · cases h
      exact inv.goto_plain s.drv rfl
  | fstat call user obj => exact inv.nextFstat hc fitting h
  | ftruncate call user obj made => exact inv.nextFtruncate hc fitting h
  | shmUnlink =>
    simp only [Shm.nextSys, hc] at h
    cases h
    have hidle : (s.goto c .idle).Fits := inv.goto_plain s.drv rfl
    refine ⟨hidle.nonneg, ?_, hidle.calls, hidle.handles⟩
    intro o ho
    cases ok with
    | false => exact inv.bound o ho
    | true => cases ho
  | _ => simp [Shm.nextSys, hc] at h

theorem next (inv : s.Fits) {act : ShmAct} {data : List Bool}
    (fitting : Mapped.Fitting ⟨s, data⟩ (c, .shm act)) (h : Shm.next name s (c, act) = some t) :
    t.Fits := by
  cases act with
  | call call =>
    simp only [Shm.next] at h
    obtain ⟨-, h⟩ := Option.ite_none_right_eq_some.mp h
    cases h
    exact inv.goto_plain s.drv rfl
  | delete i =>
    simp only [Shm.next] at h
    obtain ⟨-, h⟩ := Option.ite_none_right_eq_some.mp h
    obtain ⟨handle, -, h⟩ := Option.map_eq_some_iff.mp h
    cases h
    have hgoes : (s.goto c (.deleteClose handle.ipcUser false)).Fits := inv.goto_plain s.drv rfl
    exact ⟨hgoes.nonneg, hgoes.bound, hgoes.calls,
      fun k hk => inv.handles k (List.mem_of_mem_eraseIdx hk)⟩
  | deleteAgain i =>
    simp only [Shm.next] at h
    obtain ⟨-, h⟩ := Option.ite_none_right_eq_some.mp h
    obtain ⟨handle, -, h⟩ := Option.map_eq_some_iff.mp h
    cases h
    exact inv.goto_plain s.drv rfl
  | ioctl copyFromUser copyToUser kzalloc =>
    simp only [Shm.next] at h
    obtain ⟨-, h⟩ := Option.ite_none_right_eq_some.mp h
    exact inv.nextIoctl h
  | sys okay => exact inv.nextSys fitting h

end Fits

end Shm

namespace Mapped

variable {name : CStr 128} {x y : Mapped ι} {a : ι × MapAct}

omit [DecidableEq ι] in
theorem handleAt_mem {i : Nat} {r : ShmHandle × Bool} (h : x.handleAt i = some r) :
    r.1 ∈ x.shm.live := by
  obtain ⟨k, hk, h⟩ := Option.bind_eq_some_iff.mp h
  obtain ⟨data, -, rfl⟩ := Option.map_eq_some_iff.mp h
  exact List.mem_of_getElem? hk

omit [DecidableEq ι] in
/-- A handle is written back with no larger size. -/
theorem fits_setAt (inv : x.shm.Fits) {i : Nat} {h : ShmHandle} (data : Bool)
    (obj : h.obj < x.shm.objects) (size : h.ipcSize ≤ x.shm.sizes h.obj) :
    (x.setAt i h data).shm.Fits where
  nonneg := inv.nonneg
  bound := inv.bound
  calls := inv.calls
  handles := by
    intro k hk
    rcases List.mem_or_eq_of_mem_set hk with hk | rfl
    · exact inv.handles k hk
    · exact ⟨obj, size⟩

theorem fits_next (inv : x.shm.Fits) (fitting : Fitting x a) (h : next name x a = some y) :
    y.shm.Fits := by
  obtain ⟨c, act⟩ := a
  cases act with
  | shm act =>
    obtain ⟨t, ht, rfl⟩ := Option.map_eq_some_iff.mp h
    exact inv.next fitting ht
  | map i mmap =>
    simp only [next] at h
    obtain ⟨-, h⟩ := Option.ite_none_right_eq_some.mp h
    obtain ⟨r, hr, h⟩ := Option.bind_eq_some_iff.mp h
    obtain ⟨hobj, hsize⟩ := inv.handles r.1 (handleAt_mem hr)
    unfold mapSharedMemory at h
    split at h
    · cases h
      exact inv
    · split at h
      · cases h
        exact inv
      · obtain ⟨-, h⟩ := Option.ite_none_left_eq_some.mp h
        cases h
        exact fits_setAt inv true hobj hsize
  | unmap i munmap =>
    simp only [next] at h
    obtain ⟨-, h⟩ := Option.ite_none_right_eq_some.mp h
    obtain ⟨r, hr, rfl⟩ := Option.map_eq_some_iff.mp h
    obtain ⟨hobj, -⟩ := inv.handles r.1 (handleAt_mem hr)
    unfold unmapSharedMemory
    split
    · exact inv
    · split
      · exact inv
      · exact fits_setAt inv false hobj (inv.nonneg _)

end Mapped

section Claims

/-- In every run in which each create fits the object that it finds, and no
object is cut below what a handle in use was returned with, a mapping lies
inside its object. -/
theorem mapping_inside {ι : Type*} [DecidableEq ι] (name : CStr 128) :
    ∀ x, ((Mapped.system ι name).guard Mapped.Fitting).Reachable x → x.Inside := by
  intro x hx
  have inv : x.shm.Fits := by
    apply hx.invariant (I := fun x => x.shm.Fits)
    · rintro x ⟨⟨-, -, hidle, hlive, -⟩, -, hbound, hsizes⟩
      refine ⟨hsizes, hbound, ?_, ?_⟩
      · intro c obj hc
        rw [hidle] at hc
        cases hc
      · intro h hh
        rw [hlive] at hh
        cases hh
    · rintro x a y - inv ⟨fitting, step⟩
      exact Mapped.fits_next inv fitting step
  intro i h hi
  exact (inv.handles h (Mapped.handleAt_mem hi)).2

/-- A driver on which nothing has happened, and no object of the name. -/
def mappedFirst : Mapped (Fin 3) := ⟨shmFirst, []⟩

theorem mappedFirst_init : (Mapped.system (Fin 3) CStr.x).init mappedFirst :=
  ⟨shmFirst_init _, rfl, by rintro _ ⟨⟩, fun _ => Int.le_refl 0⟩

/-- A create of process `c`, each of its steps succeeding. -/
def createSteps (c : Fin 3) (size : Int32) (kzalloc : Option Ptr) : List (Fin 3 × MapAct) :=
  [(c, .shm (.call (.create size))), (c, .shm (.ioctl true true kzalloc)), (c, .shm (.sys true)),
    (c, .shm (.sys true)), (c, .shm (.sys true))]

/-- Process 0 makes an object of 8 bytes and maps it; process 1 asks for 4. -/
theorem mapping_inside_two :
    ∃ x, ((Mapped.system (Fin 3) CStr.x).guard Mapped.Fitting).Reachable x ∧
      x.ipcData = [true, true] ∧ x.Inside := by
  refine exists_guarded_of_run mappedFirst
    (createSteps 0 8 (some 4096) ++ [(0, .map 0 true)] ++ createSteps 1 4 none ++
      [(1, .shm (.sys true)), (1, .map 0 true)])
    (fun x => decide (x.ipcData = [true, true])) mappedFirst_init (by decide) fun x hx hp => ?_
  exact ⟨of_decide_eq_true hp, mapping_inside CStr.x x hx⟩

/-- Process 0 makes an object of 4 bytes; process 1 asks for 8, and maps 8. -/
theorem mapping_outside :
    ¬ ∀ name : CStr 128, ∀ x, (Mapped.system (Fin 3) name).Reachable x → x.Inside := by
  intro h
  obtain ⟨x, hx, hout⟩ : ∃ x, (Mapped.system (Fin 3) CStr.x).Reachable x ∧
      ∃ k, x.handleAt 0 = some (k, true) ∧ x.shm.sizes k.obj < k.ipcSize := by
    refine exists_reachable_of_run mappedFirst
      (createSteps 0 4 (some 4096) ++ createSteps 1 8 none ++
        [(1, .shm (.sys true)), (1, .map 0 true)])
      (fun x => (x.handleAt 0).any fun r => r.2 && decide (x.shm.sizes r.1.obj < r.1.ipcSize))
      mappedFirst_init (by decide) fun x _ hp => ?_
    obtain ⟨⟨k, data⟩, hk, hr⟩ := (Option.any_eq_true _ _).mp hp
    obtain ⟨rfl, hlt⟩ := Bool.and_eq_true_iff.mp hr
    exact ⟨k, hk, of_decide_eq_true hlt⟩
  obtain ⟨k, hk, hlt⟩ := hout
  have := h _ x hx 0 k hk
  omega

end Claims

end Gipcy.Linux
