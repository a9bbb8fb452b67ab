import Gipcy.Linux.SharedMemory

/-! Any number of creates of one shared memory that does not exist, at the same
time. The calls are followed beside the model: which of them made the object,
and with what handle each one returned. -/
namespace Gipcy.Linux

open Transition Clients

/-- A call that has returned. -/
structure Finished (ι : Type*) where
  process : ι
  call : ShmCall
  /-- Its own `shm_open` made the object. -/
  made : Bool
  handle : ShmHandle

/-- `made c` is whether the running call of process `c` has made the object. -/
structure Traced (ι : Type*) where
  shm : Shm ι
  made : ι → Bool
  finished : List (Finished ι)

variable {ι : Type*} [DecidableEq ι]

namespace Shm

/-- The step is a `shm_open` that makes the object. -/
def makes (s : Shm ι) (a : ι × ShmAct) : Bool :=
  match a.2, s.points a.1 with
  | .sys true, .shmOpenExcl _ _ => s.bound.isNone
  | _, _ => false

/-- The call that returns with the step of process `c` from `s` to `t`, and its
handle. -/
def returned (s t : Shm ι) (c : ι) : Option (ShmCall × ShmHandle) :=
  match s.points c with
  | .fstat call _ _ | .ftruncate call _ _ _ =>
    if s.live.length < t.live.length then t.live.head?.map fun h => (call, h) else none
  | _ => none

end Shm

namespace Traced

open Shm

def next (name : CStr 128) (x : Traced ι) (a : ι × ShmAct) : Option (Traced ι) :=
  (Shm.next name x.shm a).map fun t =>
    match returned x.shm t a.1 with
    | some (call, h) =>
      { shm := t
        made := Function.update x.made a.1 false
        finished := ⟨a.1, call, x.made a.1, h⟩ :: x.finished }
    | none =>
      { shm := t
        made := Function.update x.made a.1 (x.made a.1 || makes x.shm a)
        finished := x.finished }

/-- A create of the given size. -/
def CreatesSize (size : Int32) : ShmCall → Prop
  | .create n | .createEx n => n = size
  | .openExisting => False

/-- Nothing but creates of one size, and nothing fails. -/
def Undisturbed (name : CStr 128) (size : Int32) (x : Traced ι) (a : ι × ShmAct) : Prop :=
  match a.2 with
  | .call call => CreatesSize size call
  | .delete _ | .deleteAgain _ => False
  | .ioctl copyFromUser copyToUser _ =>
    copyFromUser = true ∧ copyToUser = true ∧ registersNothing name x.shm a = false
  | .sys ok => ok = true

/-- The runs from a state in which nothing is linked to the name. -/
def system (ι : Type*) [DecidableEq ι] (name : CStr 128) (size : Int32) :
    System (Traced ι) (ι × ShmAct) :=
  (System.ofNext (fun x => x.shm.bound = none ∧ x.shm.points = (fun _ => .idle) ∧
    x.made = (fun _ => false) ∧ x.finished = []) (next name)).guard (Undisturbed name size)

/-- What is known of a process, from where its call is. -/
def At (size : Int32) (bound : Option Nat) (made : Bool) : ShmPoint → Prop
  | .idle => made = false
  | .register call | .allocate call _ | .shmOpenExcl call _ => CreatesSize size call ∧ made = false
  | .shmOpen call _ => CreatesSize size call ∧ made = false ∧ bound.isSome
  | .fstat call _ obj => CreatesSize size call ∧ made = false ∧ bound = some obj
  | .ftruncate call _ obj here => CreatesSize size call ∧ made = here ∧ bound = some obj
  | _ => False

/-- A handle of the object, which has its size. -/
structure Made (size : Int32) (s : Shm ι) (r : Finished ι) : Prop where
  obj : s.bound = some r.handle.obj
  sized : s.sizes r.handle.obj = size.toInt
  ipcSize : r.handle.ipcSize = size.toInt
  flag : ∀ n, r.call = .createEx n → r.handle.alreadyCreated = some (!r.made)

structure Creating (size : Int32) (x : Traced ι) : Prop where
  points : ∀ c, At size x.shm.bound (x.made c) (x.shm.points c)
  sized : ∀ obj, x.shm.bound = some obj → x.shm.sizes obj = 0 ∨ x.shm.sizes obj = size.toInt
  finished : ∀ r ∈ x.finished, Made size x.shm r

/-- The own steps that a call has before it. -/
def rank : ShmPoint → Nat
  | .register _ => 6
  | .allocate _ _ => 5
  | .shmOpenExcl _ _ => 4
  | .shmOpen _ _ => 3
  | .fstat _ _ _ => 2
  | .ftruncate _ _ _ _ => 1
  | _ => 0

/-- What process `c` does in a step. -/
inductive Does (size : Int32) (x : Traced ι) (c : ι) : Traced ι → Prop where
  /-- Its call begins or goes on. -/
  | goes {drv point} : point ≠ .idle → At size x.shm.bound (x.made c) point →
      (x.shm.points c = .idle ∨ rank point < rank (x.shm.points c)) →
      Does size x c ⟨{ x.shm with drv := drv }.goto c point, x.made, x.finished⟩
  | makes {call user} : x.shm.points c = .shmOpenExcl call user → x.shm.bound = none →
      Does size x c
        ⟨{ x.shm with
            bound := some x.shm.objects
            sizes := Function.update x.shm.sizes x.shm.objects 0
            objects := x.shm.objects + 1 }.goto c (.ftruncate call user x.shm.objects true),
          Function.update x.made c true, x.finished⟩
  | returns {call h sizes} : x.shm.points c ≠ .idle →
      Made size { x.shm with sizes := sizes } ⟨c, call, x.made c, h⟩ →
      Does size x c ⟨{ x.shm with sizes := sizes }.ret c h, Function.update x.made c false,
        ⟨c, call, x.made c, h⟩ :: x.finished⟩

section Step

variable (name : CStr 128) {size : Int32} {x y : Traced ι} {c : ι}

theorem next_goto {act : ShmAct} {drv : Driver} {point : ShmPoint}
    (h : Shm.next name x.shm (c, act) = some ({ x.shm with drv := drv }.goto c point))
    (makesNone : makes x.shm (c, act) = false) :
    next name x (c, act) =
      some ⟨{ x.shm with drv := drv }.goto c point, x.made, x.finished⟩ := by
  have hreturned : returned x.shm ({ x.shm with drv := drv }.goto c point) c = none := by
    unfold returned
    split <;> simp [Shm.goto]
  simp [next, h, hreturned, makesNone]

theorem next_ret {act : ShmAct} {call : ShmCall} {h : ShmHandle} {sizes : Nat → Int}
    (hnext : Shm.next name x.shm (c, act) = some ({ x.shm with sizes := sizes }.ret c h))
    (hcall : ∃ user obj, x.shm.points c = .fstat call user obj ∨
      ∃ made, x.shm.points c = .ftruncate call user obj made) :
    next name x (c, act) = some ⟨{ x.shm with sizes := sizes }.ret c h,
      Function.update x.made c false, ⟨c, call, x.made c, h⟩ :: x.finished⟩ := by
  have hreturned : returned x.shm ({ x.shm with sizes := sizes }.ret c h) c = some (call, h) := by
    obtain ⟨user, obj, hc | ⟨made, hc⟩⟩ := hcall <;> simp [returned, hc, Shm.ret, Shm.goto]
  simp [next, hnext, hreturned]

/-- A create is given a handle when its request is copied in and out. -/
theorem nextIoctl_register {s : Shm ι} {call : ShmCall} (hc : s.points c = .register call)
    (kzalloc : Option Ptr) : ∃ drv user, nextIoctl name s c true true kzalloc =
      some ({ s with drv := drv }.goto c (.allocate call user)) := by
  have hmade : (ipcShmOpen s.drv ⟨name, call.size, 0, 0⟩ kzalloc).2 ≠ 0 := by
    simp only [ipcShmOpen, registryCreate]
    split
    · exact userHandle_ne_zero _
    · split <;> exact userHandle_ne_zero _
  refine ⟨(ipcShmOpen s.drv ⟨name, call.size, 0, 0⟩ kzalloc).1,
    (ipcShmOpen s.drv ⟨name, call.size, 0, 0⟩ kzalloc).2, ?_⟩
  simp [nextIoctl, hc, ioctlShmOpen, ioctlOpen, hmade]

theorem creates_firstOpen {call : ShmCall} (h : CreatesSize size call) (user : Ptr) :
    firstOpen call user = .shmOpenExcl call user := by
  cases call with
  | openExisting => exact h.elim
  | create n | createEx n => rfl

theorem creates_size {call : ShmCall} (h : CreatesSize size call) : call.size = size := by
  cases call with
  | openExisting => exact h.elim
  | create n | createEx n => exact h

/-- A call that has a descriptor of the object, which has its size now, returns. -/
theorem does_return {act : ShmAct} {call : ShmCall} (h : ShmHandle) (sizes : Nat → Int)
    (hnext : Shm.next name x.shm (c, act) = some ({ x.shm with sizes := sizes }.ret c h))
    (hcall : ∃ user obj, x.shm.points c = .fstat call user obj ∨
      ∃ made, x.shm.points c = .ftruncate call user obj made)
    (creates : CreatesSize size call) (obj : x.shm.bound = some h.obj)
    (sized : sizes h.obj = size.toInt) (ipcSize : h.ipcSize = call.size.toInt)
    (flag : h.alreadyCreated = alreadyCreated call (!x.made c)) :
    ∃ z, next name x (c, act) = some z ∧ Does size x c z := by
  refine ⟨_, next_ret name hnext hcall, .returns ?_ ⟨obj, sized, ?_, ?_⟩⟩
  · obtain ⟨user, obj, hc | ⟨made, hc⟩⟩ := hcall <;> simp [hc]
  · rw [ipcSize, creates_size creates]
  · rintro n rfl
    exact flag

/-- A step on to another point. -/
theorem does_goto {act : ShmAct} (drv : Driver) (point : ShmPoint)
    (h : Shm.next name x.shm (c, act) = some ({ x.shm with drv := drv }.goto c point))
    (makesNone : makes x.shm (c, act) = false) (running : point ≠ .idle)
    (hat : At size x.shm.bound (x.made c) point)
    (hrank : x.shm.points c = .idle ∨ rank point < rank (x.shm.points c)) :
    ∃ z, next name x (c, act) = some z ∧ Does size x c z :=
  ⟨_, next_goto name h makesNone, .goes running hat hrank⟩

/-- Wherever its call is, a process can make a step with it, and then does one of
the three things. -/
theorem does_sys (inv : Creating size x) (hsize : 0 < size)
    (hc : ∀ call, x.shm.points c ≠ .register call) (running : x.shm.points c ≠ .idle) :
    ∃ z, next name x (c, .sys true) = some z ∧ Does size x c z := by
  have hat := inv.points c
  cases hpoint : x.shm.points c with
  | idle => exact absurd hpoint running
  | register call => exact absurd hpoint (hc call)
  | allocate call user =>
    rw [hpoint] at hat
    apply does_goto name x.shm.drv (.shmOpenExcl call user)
    · simp only [Shm.next, nextSys, hpoint, if_true, creates_firstOpen hat.1]
    · simp [makes, hpoint]
    · simp
    · exact hat
    · exact .inr (by simp [hpoint, rank])
  | shmOpenExcl call user =>
    rw [hpoint] at hat
    cases hbound : x.shm.bound with
    | some obj =>
      apply does_goto name x.shm.drv (.shmOpen call user)
      · show nextSys x.shm c true = some (x.shm.goto c (.shmOpen call user))
        simp only [nextSys, hpoint, hbound]
      · simp [makes, hpoint, hbound]
      · simp
      · exact ⟨hat.1, hat.2, by rw [hbound]; rfl⟩
      · exact .inr (by simp [hpoint, rank])
    | none =>
      refine ⟨_, ?_, .makes hpoint hbound⟩
      simp [next, Shm.next, nextSys, hpoint, hbound, returned, makes]
  | shmOpen call user =>
    rw [hpoint] at hat
    obtain ⟨obj, hbound⟩ := Option.isSome_iff_exists.mp hat.2.2
    apply does_goto name x.shm.drv (.fstat call user obj)
    · show nextSys x.shm c true = some (x.shm.goto c (.fstat call user obj))
      simp only [nextSys, hpoint, hbound]
    · simp [makes, hpoint]
    · simp
    · exact ⟨hat.1, hat.2.1, hbound⟩
    · exact .inr (by simp [hpoint, rank])
  | fstat call user obj =>
    rw [hpoint] at hat
    obtain ⟨creates, hmade, hbound⟩ := hat
    have hcall : call ≠ .openExisting := by
      rintro rfl
      exact creates
    by_cases hpos : x.shm.sizes obj > 0
    · apply does_return name ⟨user, obj, call.size.toInt, alreadyCreated call true⟩ x.shm.sizes _
        ⟨user, obj, .inl hpoint⟩ creates hbound
      · exact (inv.sized obj hbound).resolve_left (by omega)
      · rfl
      · rw [hmade]
        rfl
      · cases call with
        | openExisting => exact absurd rfl hcall
        | create n | createEx n => simp [Shm.next, nextSys, hpoint, hpos]
    · apply does_goto name x.shm.drv (.ftruncate call user obj false)
      · cases call with
        | openExisting => exact absurd rfl hcall
        | create n | createEx n => simp [Shm.next, nextSys, hpoint, hpos]
      · simp [makes, hpoint]
      · simp
      · exact ⟨creates, hmade, hbound⟩
      · exact .inr (by simp [hpoint, rank])
  | ftruncate call user obj made =>
    rw [hpoint] at hat
    obtain ⟨creates, hmade, hbound⟩ := hat
    have hneg : ¬ call.size < 0 := by
      rw [creates_size creates]
      exact Int32.not_lt.mpr (Int32.le_of_lt hsize)
    apply does_return name ⟨user, obj, call.size.toInt, alreadyCreated call !made⟩
      (Function.update x.shm.sizes obj call.size.toInt) _ ⟨user, obj, .inr ⟨made, hpoint⟩⟩
      creates hbound
    · rw [Function.update_self, creates_size creates]
    · rfl
    · rw [hmade]
    · simp [Shm.next, nextSys, hpoint, hneg]
  | unregister user | deleteClose user again | shmUnlink =>
    rw [hpoint] at hat
    exact hat.elim

variable {name}

/-- A step of the system, by what it does. -/
theorem step_does (inv : Creating size x) (hsize : 0 < size) {a : ι × ShmAct}
    (step : (system ι name size).step x a y) : Does size x a.1 y := by
  obtain ⟨c, act⟩ := a
  obtain ⟨undisturbed, hnext⟩ := step
  have hnext : next name x (c, act) = some y := hnext
  obtain ⟨t, ht, -⟩ := Option.map_eq_some_iff.mp hnext
  have same : (∃ z, next name x (c, act) = some z ∧ Does size x c z) → Does size x c y := by
    rintro ⟨z, hz, does⟩
    cases Option.some.inj (hz.symm.trans hnext)
    exact does
  have hat := inv.points c
  cases act with
  | call call =>
    obtain ⟨idle, -⟩ := Option.ite_none_right_eq_some.mp ht
    rw [idle] at hat
    exact same (does_goto name x.shm.drv (.register call) (if_pos idle) rfl (by simp)
      ⟨undisturbed, hat⟩ (.inl idle))
  | delete i | deleteAgain i => exact undisturbed.elim
  | ioctl copyFromUser copyToUser kzalloc =>
    obtain ⟨rfl, rfl, -⟩ := undisturbed
    obtain ⟨free, ht⟩ := Option.ite_none_right_eq_some.mp ht
    cases hpoint : x.shm.points c with
    | register call =>
      rw [hpoint] at hat
      obtain ⟨drv, user, hregister⟩ := nextIoctl_register name hpoint kzalloc
      exact same (does_goto name drv (.allocate call user) ((if_pos free).trans hregister) rfl
        (by simp) hat (.inr (by simp [hpoint, rank])))
    | unregister user | deleteClose user again =>
      rw [hpoint] at hat
      exact hat.elim
    | _ => simp [nextIoctl, hpoint] at ht
  | sys ok =>
    obtain rfl : ok = true := undisturbed
    apply same
    apply does_sys name inv hsize
    · intro call hpoint
      simp [Shm.next, nextSys, hpoint] at ht
    · intro hpoint
      simp [Shm.next, nextSys, hpoint] at ht

/-- The running call of a process can always go on. -/
theorem exists_step (inv : Creating size x) (hsize : 0 < size) (running : x.shm.points c ≠ .idle) :
    ∃ act z, (system ι name size).step x (c, act) z := by
  by_cases hc : ∃ call, x.shm.points c = .register call
  · obtain ⟨call, hpoint⟩ := hc
    obtain ⟨p, free⟩ := x.shm.drv.exists_free
    obtain ⟨drv, user, hregister⟩ := nextIoctl_register name hpoint (some p)
    have hfree : ∀ q ∈ some p, x.shm.drv.Free q := by
      rintro q ⟨⟩
      exact free
    have hnext : Shm.next name x.shm (c, .ioctl true true (some p)) = _ :=
      (if_pos hfree).trans hregister
    exact ⟨.ioctl true true (some p), _, ⟨rfl, rfl, rfl⟩, next_goto name hnext rfl⟩
  · obtain ⟨z, hz, -⟩ := does_sys name inv hsize (fun call h => hc ⟨call, h⟩) running
    exact ⟨.sys true, z, rfl, hz⟩

theorem At.of_none {bound : Option Nat} {made : Bool} {point : ShmPoint}
    (h : At size none made point) : At size bound made point := by
  cases point with
  | shmOpen call user => exact absurd h.2.2 (by simp)
  | fstat call user obj | ftruncate call user obj here => exact absurd h.2.2 (by simp)
  | _ => exact h

/-- Every step keeps what is known. -/
theorem Does.creating (inv : Creating size x) (does : Does size x c y) : Creating size y := by
  cases does with
  | goes running hat hrank =>
    refine ⟨fun d => ?_, inv.sized, fun r hr => ?_⟩
    swap
    · have hold := inv.finished r hr
      exact ⟨hold.obj, hold.sized, hold.ipcSize, hold.flag⟩
    by_cases hd : d = c
    · subst hd
      simpa [Shm.goto] using hat
    · simpa [Shm.goto, hd] using inv.points d
  | makes hpoint hbound =>
    refine ⟨fun d => ?_, ?_, fun r hr => ?_⟩
    · by_cases hd : d = c
      · subst hd
        have hat := inv.points d
        rw [hpoint] at hat
        simpa [Shm.goto, At] using hat.1
      · have hat := inv.points d
        rw [hbound] at hat
        simpa [Shm.goto, hd] using hat.of_none
    · rintro obj ⟨⟩
      exact .inl (by simp [Shm.goto])
    · have hobj := (inv.finished r hr).obj
      rw [hbound] at hobj
      cases hobj
  | @returns call h sizes running made =>
    have hsame : ∀ obj, x.shm.bound = some obj → sizes obj = size.toInt := by
      intro obj hobj
      rw [Option.some.inj (hobj.symm.trans made.obj)]
      exact made.sized
    refine ⟨fun d => ?_, fun obj hobj => .inr (hsame obj hobj), fun r hr => ?_⟩
    · by_cases hd : d = c
      · subst hd
        simp [Shm.ret, Shm.goto, At]
      · simpa [Shm.ret, Shm.goto, hd] using inv.points d
    · rcases List.mem_cons.mp hr with rfl | hr
      · exact ⟨made.obj, made.sized, made.ipcSize, made.flag⟩
      · have hold := inv.finished r hr
        exact ⟨hold.obj, hsame _ hold.obj, hold.ipcSize, hold.flag⟩

end Step

/-! Calls begin and return. -/

section Calls

variable {name : CStr 128} {size : Int32} {x y : Traced ι} {c d : ι} {labels : List (ι × ShmAct)}

theorem creating_exec (hsize : 0 < size) (exec : (system ι name size).Exec x labels y)
    (inv : Creating size x) : Creating size y := by
  apply exec.preserves _ inv
  exact fun _ _ _ inv step => (step_does inv hsize step).creating inv

/-- A call begins where the process has none. -/
theorem begins_iff {c : ι} {act : ShmAct} (step : (system ι name size).step x (c, act) y) :
    (∃ call, act = .call call) ↔ x.shm.points c = .idle := by
  obtain ⟨undisturbed, hnext⟩ := step
  obtain ⟨t, ht, -⟩ := Option.map_eq_some_iff.mp (show next name x (c, act) = some y from hnext)
  cases act with
  | call call =>
    obtain ⟨idle, -⟩ := Option.ite_none_right_eq_some.mp ht
    exact iff_of_true ⟨call, rfl⟩ idle
  | delete i | deleteAgain i => exact undisturbed.elim
  | ioctl copyFromUser copyToUser kzalloc =>
    refine iff_of_false (by simp) fun idle => ?_
    obtain ⟨-, ht⟩ := Option.ite_none_right_eq_some.mp ht
    simp [nextIoctl, idle] at ht
  | sys ok =>
    refine iff_of_false (by simp) fun idle => ?_
    simp [Shm.next, nextSys, idle] at ht

/-- The label begins a call of process `c`. -/
def begins (c : ι) (a : ι × ShmAct) : Bool :=
  match a.2 with
  | .call _ => decide (a.1 = c)
  | _ => false

/-- The calls of a process that have returned. -/
def returns (c : ι) (x : Traced ι) : Nat := x.finished.countP fun r => decide (r.process = c)

def running (c : ι) (x : Traced ι) : Nat := if x.shm.points c = .idle then 0 else 1

/-- The process of a step: its call returns, or it goes on. -/
theorem Does.own (does : Does size x c y) :
    (Traced.returns c y = Traced.returns c x + 1 ∧ x.shm.points c ≠ .idle ∧
      y.shm.points c = .idle) ∨
      (Traced.returns c y = Traced.returns c x ∧ y.shm.points c ≠ .idle ∧
        (x.shm.points c = .idle ∨ rank (y.shm.points c) < rank (x.shm.points c))) := by
  cases does with
  | goes running hat hrank =>
    refine .inr ⟨rfl, ?_⟩
    simp only [Shm.goto, Function.update_self]
    exact ⟨running, hrank⟩
  | makes hpoint hbound =>
    refine .inr ⟨rfl, ?_⟩
    simp [Shm.goto, hpoint, rank]
  | returns running made =>
    refine .inl ⟨?_, running, ?_⟩
    · simp [Traced.returns]
    · simp [Shm.ret, Shm.goto]

theorem Does.other (does : Does size x c y) (hd : d ≠ c) :
    Traced.returns d y = Traced.returns d x ∧ y.shm.points d = x.shm.points d := by
  have hc : c ≠ d := hd.symm
  cases does with
  | goes running hat hrank => exact ⟨rfl, by simp [Shm.goto, hd]⟩
  | makes hpoint hbound => exact ⟨rfl, by simp [Shm.goto, hd]⟩
  | returns running made => exact ⟨by simp [Traced.returns, hc], by simp [Shm.ret, Shm.goto, hd]⟩

theorem step_calls (inv : Creating size x) (hsize : 0 < size) {a : ι × ShmAct}
    (step : (system ι name size).step x a y) (c : ι) :
    (if begins c a then 1 else 0) + (returns c x + running c x) = returns c y + running c y := by
  obtain ⟨d, act⟩ := a
  have does := step_does inv hsize step
  have hbegins : begins c (d, act) = true ↔ d = c ∧ x.shm.points d = .idle := by
    rw [← begins_iff step]
    cases act <;> simp [begins]
  by_cases hd : d = c
  · subst hd
    simp only [hbegins, true_and, running]
    rcases does.own with ⟨hreturns, hrun, hidle⟩ | ⟨hreturns, hrun, -⟩
    · simp [hreturns, hrun, hidle]
    · simp only [hreturns, hrun, if_false]
      split <;> omega
  · have hother := does.other (Ne.symm hd)
    simp [hbegins, hd, running, hother]

/-- Every call that has begun has returned a handle or runs. -/
theorem exec_calls (hsize : 0 < size) (exec : (system ι name size).Exec x labels y)
    (inv : Creating size x) (c : ι) :
    labels.countP (begins c) + (returns c x + running c x) = returns c y + running c y := by
  induction exec with
  | nil => simp
  | @cons x a u labels y step rest ih =>
    have hstep := step_calls inv hsize step c
    have hrest := ih ((step_does inv hsize step).creating inv)
    rw [List.countP_cons]
    omega

/-- A running call returns before its process has made seven steps. -/
theorem exists_return (hsize : 0 < size) (inv : Creating size x) (run : x.shm.points c ≠ .idle)
    (exec : (system ι name size).Exec x labels y)
    (many : 7 ≤ labels.countP fun a => decide (a.1 = c)) :
    ∃ first u, first <+: labels ∧ (system ι name size).Exec x first u ∧
      returns c x < returns c u := by
  let I : Traced ι → Prop := fun s => Creating size s ∧ returns c x ≤ returns c s ∧
    (returns c s = returns c x → s.shm.points c ≠ .idle)
  have keep : ∀ s a t, I s → (system ι name size).step s a t → I t := by
    rintro s a t ⟨inv, hle, hrun⟩ step
    have does := step_does inv hsize step
    refine ⟨does.creating inv, ?_⟩
    by_cases ha : a.1 = c
    · rw [ha] at does
      rcases does.own with ⟨hreturns, -, -⟩ | ⟨hreturns, hpoint, -⟩
      · exact ⟨by omega, by omega⟩
      · exact ⟨by omega, fun _ => hpoint⟩
    · obtain ⟨hreturns, hpoint⟩ := does.other (Ne.symm ha)
      rw [hreturns, hpoint]
      exact ⟨hle, hrun⟩
  have hI : I x := ⟨inv, Nat.le_refl _, fun _ => run⟩
  have hrank : rank (x.shm.points c) ≤ 6 := by
    cases x.shm.points c <;> simp [rank]
  obtain ⟨first, u, hprefix, hexec, hreturned⟩ := exec.exists_prefix_of_rank (I := I)
    (P := fun s => returns c s = returns c x) (fun s => rank (s.shm.points c))
    (fun a => decide (a.1 = c)) keep
    (by
      rintro s a t ⟨inv, -, hrun⟩ hs step ht
      have does := step_does inv hsize step
      by_cases ha : a.1 = c
      · rw [ha] at does
        rcases does.own with ⟨hreturns, -, -⟩ | ⟨-, -, hidle | hlt⟩
        · omega
        · exact absurd hidle (hrun hs)
        · simp only [ha, decide_true, if_true]
          omega
      · simp [ha, (does.other (Ne.symm ha)).2])
    hI (by omega)
  have hle := (hexec.preserves keep hI).2.1
  exact ⟨first, u, hprefix, hexec, by omega⟩

/-- Nothing takes back what a call has returned. -/
theorem finished_exec (hsize : 0 < size) (exec : (system ι name size).Exec x labels y)
    (inv : Creating size x) {r : Finished ι} (hr : r ∈ x.finished) : r ∈ y.finished := by
  have hkept := exec.preserves (I := fun s => Creating size s ∧ r ∈ s.finished)
    (by
      rintro s a t ⟨inv, hr⟩ step
      have does := step_does inv hsize step
      refine ⟨does.creating inv, ?_⟩
      cases does with
      | goes running hat hrank => exact hr
      | makes hpoint hbound => exact hr
      | returns running made => exact List.mem_cons_of_mem _ hr)
    ⟨inv, hr⟩
  exact hkept.2

end Calls

/-! Exactly one of them makes the object. -/

variable [Fintype ι]

/-- The calls, returned or not, that have made the object. -/
def creators (x : Traced ι) : Int :=
  x.finished.countP (·.made) + tally Bool.toInt x.made

theorem Does.creators {size : Int32} {x y : Traced ι} {c : ι} (inv : Creating size x)
    (does : Does size x c y) (one : x.creators = if x.shm.bound.isSome then 1 else 0) :
    y.creators = if y.shm.bound.isSome then 1 else 0 := by
  cases does with
  | goes running hat hrank => exact one
  | makes hpoint hbound =>
    have hat := inv.points c
    rw [hpoint] at hat
    have hmade : x.made c = false := hat.2
    rw [hbound] at one
    unfold Traced.creators at one ⊢
    show (x.finished.countP (·.made) : Int) + tally Bool.toInt (Function.update x.made c true) = 1
    rw [tally_update, hmade]
    show (x.finished.countP (·.made) : Int) + (tally Bool.toInt x.made - 0 + 1) = 1
    have hzero : (x.finished.countP (·.made) : Int) + tally Bool.toInt x.made = 0 := one
    omega
  | @returns call h sizes running made =>
    refine Eq.trans ?_ one
    have hcount : ((if x.made c = true then 1 else 0 : Nat) : Int) = (x.made c).toInt := by
      cases x.made c <;> rfl
    simp only [Traced.creators, tally_update, List.countP_cons, Nat.cast_add, hcount]
    show _ + _ + (_ - _ + 0) = _
    omega

section Runs

variable {name : CStr 128} {size : Int32} {x y : Traced ι} {labels : List (ι × ShmAct)}

theorem creating_init (init : (system ι name size).init x) :
    Creating size x ∧ x.creators = if x.shm.bound.isSome then 1 else 0 := by
  obtain ⟨hbound, hpoints, hmade, hfinished⟩ := init
  refine ⟨⟨fun c => ?_, fun obj hobj => ?_, fun r hr => ?_⟩, ?_⟩
  · rw [hpoints, hmade]
    rfl
  · rw [hbound] at hobj
    cases hobj
  · rw [hfinished] at hr
    cases hr
  · simp [creators, hbound, hmade, hfinished, tally]

theorem creators_exec (hsize : 0 < size) (exec : (system ι name size).Exec x labels y)
    (hx : Creating size x ∧ x.creators = if x.shm.bound.isSome then 1 else 0) :
    Creating size y ∧ y.creators = if y.shm.bound.isSome then 1 else 0 := by
  apply exec.preserves _ hx
  rintro s ⟨c, act⟩ t ⟨inv, one⟩ step
  have does := step_does inv hsize step
  exact ⟨does.creating inv, does.creators inv one⟩

end Runs

instance (size : Int32) : (call : ShmCall) → Decidable (CreatesSize size call)
  | .create n | .createEx n => inferInstanceAs (Decidable (n = size))
  | .openExisting => inferInstanceAs (Decidable False)

instance (name : CStr 128) (size : Int32) (x : Traced ι) :
    (a : ι × ShmAct) → Decidable (Undisturbed name size x a)
  | (_, .call call) => inferInstanceAs (Decidable (CreatesSize size call))
  | (_, .delete _) | (_, .deleteAgain _) => inferInstanceAs (Decidable False)
  | (c, .ioctl copyFromUser copyToUser kzalloc) => inferInstanceAs (Decidable
    (copyFromUser = true ∧ copyToUser = true ∧
      registersNothing name x.shm (c, .ioctl copyFromUser copyToUser kzalloc) = false))
  | (_, .sys ok) => inferInstanceAs (Decidable (ok = true))

end Traced

open Traced

/-- Any number of creates of one size run at the same time. Each of them can go on
at any moment, and returns; they all return the one object, which one of them
made, and which has and keeps its size from the first return on. -/
theorem shm_one_creator {ι : Type*} [Fintype ι] [DecidableEq ι] (name : CStr 128) {size : Int32}
    (hsize : 0 < size) {x₀ x : Traced ι} {labels : List (ι × ShmAct)}
    (init : (Traced.system ι name size).init x₀)
    (exec : (Traced.system ι name size).Exec x₀ labels x) :
    (∀ c, labels.countP (begins c) = returns c x + running c x) ∧
    (∀ c, x.shm.points c ≠ .idle →
      (∃ act y, (Traced.system ι name size).step x (c, act) y) ∧
      ∀ more y, (Traced.system ι name size).Exec x more y →
        7 ≤ more.countP (fun a => decide (a.1 = c)) →
        ∃ first u, first <+: more ∧ (Traced.system ι name size).Exec x first u ∧
          returns c x < returns c u) ∧
    (∀ r ∈ x.finished, ∀ more y, (Traced.system ι name size).Exec x more y →
      y.shm.bound = some r.handle.obj ∧ y.shm.sizes r.handle.obj = size.toInt) ∧
    x.creators ≤ 1 ∧ (x.finished ≠ [] → x.creators = 1) ∧
    (x.finished ≠ [] → (∀ c, x.shm.points c = .idle) → x.finished.countP (·.made) = 1) ∧
    ∀ r ∈ x.finished, ∀ n, r.call = .createEx n → r.handle.alreadyCreated = some (!r.made) := by
  have inv₀ := creating_init init
  obtain ⟨inv, one⟩ := creators_exec hsize exec inv₀
  have hbound : x.finished ≠ [] → x.creators = 1 := by
    intro hne
    obtain ⟨r, hr⟩ := List.exists_mem_of_ne_nil _ hne
    rw [one, (inv.finished r hr).obj]
    rfl
  refine ⟨fun c => ?_, fun c run => ⟨exists_step inv hsize run, fun more y hmore many =>
    exists_return hsize inv run hmore many⟩, ?_, ?_, hbound, ?_,
    fun r hr => (inv.finished r hr).flag⟩
  · have hcalls := exec_calls hsize exec inv₀.1 c
    obtain ⟨-, hidle, -, hfinished⟩ := init
    simpa [returns, running, hidle, hfinished] using hcalls
  · intro r hr more y hmore
    have made := (creating_exec hsize hmore inv).finished r (finished_exec hsize hmore inv hr)
    exact ⟨made.obj, made.sized⟩
  · rw [one]
    split <;> decide
  · intro hne hidle
    have hnone : tally Bool.toInt x.made = 0 := by
      apply tally_eq_zero
      intro c
      have hat := inv.points c
      rw [hidle c] at hat
      have hmade : x.made c = false := hat
      rw [hmade]
      rfl
    have hone := hbound hne
    unfold creators at hone
    omega

/-- Process `false` finds the object of process `true` without a size. -/
theorem shm_one_creator_race : ∃ x : Traced Bool,
    (Traced.system Bool CStr.x 4).Reachable x ∧ x.finished.length = 2 ∧ x.creators = 1 := by
  let first : Traced Bool := ⟨⟨ipcProbe fun _ => Entry.zero, none, fun _ => 0, 0, fun _ => .idle,
    [], []⟩, fun _ => false, []⟩
  have init : (Traced.system Bool CStr.x 4).init first := ⟨rfl, rfl, rfl, rfl⟩
  obtain ⟨x, hx, hp⟩ := (Option.any_eq_true _ _).mp (show (run
    (fun x a => if Undisturbed CStr.x 4 x a then Traced.next CStr.x x a else none) first
    [(true, .call (.createEx 4)), (true, .ioctl true true (some 4096)), (true, .sys true),
      (true, .sys true), (false, .call (.createEx 4)), (false, .ioctl true true none),
      (false, .sys true), (false, .sys true), (false, .sys true), (false, .sys true),
      (false, .sys true), (true, .sys true)]).any
    (fun x => decide (x.finished.length = 2)) = true by decide)
  have hexec : (Traced.system Bool CStr.x 4).Exec first _ x := exec_guarded_of_run hx
  have hlength : x.finished.length = 2 := of_decide_eq_true hp
  have hne : x.finished ≠ [] := by
    rintro hnil
    rw [hnil] at hlength
    cases hlength
  exact ⟨x, hexec.reachable (.init init), hlength,
    (shm_one_creator CStr.x (by decide) init hexec).2.2.2.2.1 hne⟩

end Gipcy.Linux
