import Gipcy.Lib.Transition
import Gipcy.Linux.Insys

/-! The semaphores, mutexes and events of the Windows library, over the named objects of
the system. A call is one system call, by any thread of any process. -/
namespace Gipcy.Windows

open Transition
open Linux (Primitive IPC_OK IPC_GENERAL_ERROR IPC_INVALID_HANDLE IPC_WAIT_TIMEOUT)

def IPC_WAIT_ABANDONED : Int := 0x40000400

/-- An object of the system. A semaphore is made with the maximum 1; `depth` counts how
often the owner of a mutex has captured it. -/
inductive KernelObject (τ : Type*) where
  | semaphore (count : Nat)
  | mutex (owner : Option τ) (depth : Nat) (abandoned : Bool)
  | event (manual signalled : Bool)
deriving DecidableEq

/-- What `WaitForSingleObject` returns. -/
inductive WaitStatus where
  | object0
  | abandoned
  | timeout
  | failed
deriving DecidableEq

namespace KernelObject

variable {τ : Type*}

def type : KernelObject τ → Primitive
  | .semaphore _ => .semaphore
  | .mutex _ _ _ => .mutex
  | .event _ _ => .event

/-- How often a thread holds the object. -/
def holds [DecidableEq τ] (t : τ) : KernelObject τ → Nat
  | .mutex (some u) depth _ => if u = t then depth else 0
  | _ => 0

/-- A thread that ends abandons its mutexes. -/
def abandon [DecidableEq τ] (t : τ) : KernelObject τ → KernelObject τ
  | .mutex (some u) depth abandoned =>
    if u = t then .mutex none 0 true else .mutex (some u) depth abandoned
  | o => o

/-- `WaitForSingleObject` takes the object for the thread. -/
def take [DecidableEq τ] (t : τ) : KernelObject τ → Option (KernelObject τ × WaitStatus)
  | .semaphore 0 => none
  | .semaphore (n + 1) => some (.semaphore n, .object0)
  | .mutex none _ abandoned =>
    some (.mutex (some t) 1 false, if abandoned then .abandoned else .object0)
  | .mutex (some u) depth abandoned =>
    if u = t then some (.mutex (some u) (depth + 1) abandoned, .object0) else none
  | .event _ false => none
  | .event manual true => some (.event manual manual, .object0)

/-- `ReleaseSemaphore` by 1, `ReleaseMutex` and `SetEvent`, where they succeed. -/
def release [DecidableEq τ] (t : τ) : KernelObject τ → Option (KernelObject τ)
  | .semaphore 0 => some (.semaphore 1)
  | .semaphore (_ + 1) => none
  | .mutex none _ _ => none
  | .mutex (some u) depth abandoned =>
    if u = t then
      some (if depth = 1 then .mutex none 0 abandoned else .mutex (some u) (depth - 1) abandoned)
    else none
  | .event manual _ => some (.event manual true)

/-- `ResetEvent`. -/
def reset : KernelObject τ → Option (KernelObject τ)
  | .event manual _ => some (.event manual false)
  | _ => none

/-- What `CreateSemaphore`, `CreateMutex` and `CreateEvent` make for a thread, if the
arguments are valid. -/
def initial (t : τ) (k : Primitive) (manual value : Int) : Option (KernelObject τ) :=
  match k with
  | .semaphore => if 0 ≤ value ∧ value ≤ 1 then some (.semaphore value.toNat) else none
  | .mutex => some (if value ≠ 0 then .mutex (some t) 1 false else .mutex none 0 false)
  | .event => some (.event (decide (manual ≠ 0)) (decide (value ≠ 0)))

end KernelObject

/-- `struct ipc_t`; the descriptor is `none` for `NULL`. -/
structure IpcObject (ν : Type*) where
  ipcName : ν
  ipcType : Primitive
  ipcDescr : Option Nat
deriving DecidableEq

/-- The named objects, of `made` so far, and the handles that were returned and not
deleted. `held` counts the captures of a mutex that succeeded less its releases; only the
proofs look at it. -/
structure Objects (ν τ : Type*) where
  names : ν → Option Nat
  objects : Nat → Option (KernelObject τ)
  made : Nat
  live : List (IpcObject ν)
  held : Nat → τ → Nat

/-- A call of a thread, by the function for a primitive, on a handle of any type. -/
inductive Call (ν : Type*) where
  /-- With `ok`, the system makes or opens the object. -/
  | create (k : Primitive) (name : ν) (manual value : Int) (ok : Bool)
  /-- The object is taken, or the time is up. -/
  | wait (k : Primitive) (h : IpcObject ν) (taken : Bool)
  | release (k : Primitive) (h : IpcObject ν)
  | reset (h : IpcObject ν)
  | delete (k : Primitive) (h : IpcObject ν)
  /-- The thread ends. -/
  | exit
deriving DecidableEq

/-! The answers of the library, from those of the system. -/

def ipcLockSemaphore (status : WaitStatus) : Int :=
  if status = .timeout then IPC_GENERAL_ERROR else IPC_OK

/-- The text shared by `IPC_captureMutex` and `IPC_waitEvent`. -/
def waitObject (status : WaitStatus) : Int :=
  if status = .timeout then IPC_WAIT_TIMEOUT
  else if status = .abandoned then IPC_WAIT_ABANDONED
  else IPC_OK

def ipcCaptureMutex := waitObject

def ipcWaitEvent := waitObject

def waitAnswer : Primitive → WaitStatus → Int
  | .semaphore => ipcLockSemaphore
  | .mutex => ipcCaptureMutex
  | .event => ipcWaitEvent

/-- The result of `ReleaseSemaphore` is dropped. -/
def ipcUnlockSemaphore (_ret : Bool) : Int := IPC_OK

/-- The text shared by `IPC_releaseMutex`, `IPC_setEvent` and `IPC_resetEvent`. -/
def releaseObject (ret : Bool) : Int := if ret then IPC_OK else IPC_GENERAL_ERROR

def ipcReleaseMutex := releaseObject

def ipcSetEvent := releaseObject

def ipcResetEvent := releaseObject

def releaseAnswer : Primitive → Bool → Int
  | .semaphore => ipcUnlockSemaphore
  | .mutex => ipcReleaseMutex
  | .event => ipcSetEvent

namespace Objects

variable {ν τ : Type*} [DecidableEq ν] [DecidableEq τ]

def set (s : Objects ν τ) (id : Nat) (o : KernelObject τ) : Objects ν τ :=
  { s with objects := Function.update s.objects id (some o) }

/-- The captures of a thread have changed. -/
def count (s : Objects ν τ) (id : Nat) (t : τ) (n : Nat) : Objects ν τ :=
  { s with held := Function.update s.held id (Function.update (s.held id) t n) }

/-- The object that the handle designates. -/
def object (s : Objects ν τ) (h : IpcObject ν) : Option (KernelObject τ) :=
  h.ipcDescr.bind s.objects

/-- The system makes a new object under the name. -/
def insert (s : Objects ν τ) (name : ν) (t : τ) (o : KernelObject τ) : Objects ν τ :=
  { s with
    names := Function.update s.names name (some s.made)
    objects := Function.update s.objects s.made (some o)
    made := s.made + 1
    held := Function.update s.held s.made (Function.update (fun _ => 0) t (o.holds t)) }

/-- The library returns a handle. -/
def ret (s : Objects ν τ) (h : IpcObject ν) : Objects ν τ := { s with live := h :: s.live }

/-- `IPC_createSemaphore` compares with `INVALID_HANDLE_VALUE`, so it returns a handle
also where `CreateSemaphore` has failed. -/
def createFailed (s : Objects ν τ) (k : Primitive) (name : ν) : Objects ν τ :=
  match k with
  | .semaphore => s.ret ⟨name, k, none⟩
  | .mutex | .event => s

def create (s : Objects ν τ) (t : τ) (k : Primitive) (name : ν) (manual value : Int) (ok : Bool) :
    Option (Objects ν τ) :=
  if ok then
    match s.names name with
    | none => (KernelObject.initial t k manual value).map fun o =>
      (s.insert name t o).ret ⟨name, k, some s.made⟩
    | some id =>
      -- A name that another type of object has is refused.
      if (s.objects id).map KernelObject.type = some k then some (s.ret ⟨name, k, some id⟩)
      else none
  else some (s.createFailed k name)

/-- `CloseHandle`: the last handle of an object frees it and its name. -/
def close (s : Objects ν τ) (h : IpcObject ν) : Objects ν τ :=
  let live := s.live.erase h
  match h.ipcDescr with
  | none => { s with live := live }
  | some id =>
    if ∃ x ∈ live, x.ipcDescr = some id then { s with live := live }
    else { s with
      live := live
      names := fun n => if s.names n = some id then none else s.names n
      objects := Function.update s.objects id none }

/-- What a call does, with its answer; `none` where it cannot go so. -/
def call (s : Objects ν τ) (t : τ) : Call ν → Option (Objects ν τ × Int)
  | .create k name manual value ok => (s.create t k name manual value ok).map (·, IPC_OK)
  | .wait k h taken =>
    if h ∈ s.live then
      match h.ipcDescr, s.object h with
      | some id, some o =>
        match o.take t, taken with
        | some (o', status), true =>
          some ((s.set id o').count id t (s.held id t + if o.type = .mutex then 1 else 0),
            waitAnswer k status)
        | none, false => some (s, waitAnswer k .timeout)
        | _, _ => none
      | _, _ => if taken then none else some (s, waitAnswer k .failed)
    else none
  | .release k h =>
    if h ∈ s.live then
      match h.ipcDescr, s.object h with
      | some id, some o =>
        match o.release t with
        | some o' =>
          if o.type = k then
            some ((s.set id o').count id t (s.held id t - if k = .mutex then 1 else 0),
              releaseAnswer k true)
          else some (s, releaseAnswer k false)
        | none => some (s, releaseAnswer k false)
      | _, _ => some (s, releaseAnswer k false)
    else none
  | .reset h =>
    if h ∈ s.live then
      match h.ipcDescr, (s.object h).bind KernelObject.reset with
      | some id, some o' => some (s.set id o', ipcResetEvent true)
      | _, _ => some (s, ipcResetEvent false)
    else none
  | .delete k h =>
    if h ∈ s.live then
      if h.ipcType = k then some (s.close h, IPC_OK) else some (s, IPC_INVALID_HANDLE)
    else none
  | .exit =>
    some ({ s with
      objects := fun id => (s.objects id).map (KernelObject.abandon t)
      held := fun id => Function.update (s.held id) t 0 }, IPC_OK)

def next (s : Objects ν τ) (a : τ × Call ν) : Option (Objects ν τ) :=
  (s.call a.1 a.2).map Prod.fst

/-- The runs of any number of threads, before the first object. -/
def system (ν τ : Type*) [DecidableEq ν] [DecidableEq τ] : System (Objects ν τ) (τ × Call ν) :=
  .ofNext (fun s => s = ⟨fun _ => none, fun _ => none, 0, [], fun _ _ => 0⟩) next

end Objects

namespace KernelObject

variable {τ : Type*} {o o' : KernelObject τ} {t u : τ} {status : WaitStatus}

/-- A semaphore is at most 1, and a mutex is held exactly if it has an owner. -/
def Valid : KernelObject τ → Prop
  | .semaphore count => count ≤ 1
  | .mutex owner depth _ => (owner = none ↔ depth = 0)
  | .event _ _ => True

theorem valid_initial {k : Primitive} {manual value : Int}
    (h : initial t k manual value = some o) : o.type = k ∧ o.Valid := by
  cases k with
  | semaphore =>
    obtain ⟨hvalue, h⟩ := Option.ite_none_right_eq_some.mp h
    cases h
    refine ⟨rfl, ?_⟩
    simp only [Valid]
    omega
  | mutex =>
    cases h
    split <;> exact ⟨rfl, by simp [Valid]⟩
  | event =>
    cases h
    exact ⟨rfl, trivial⟩

variable [DecidableEq τ]

theorem holds_initial {k : Primitive} {manual value : Int}
    (h : initial t k manual value = some o) (hu : u ≠ t) : o.holds u = 0 := by
  cases k with
  | semaphore =>
    obtain ⟨-, h⟩ := Option.ite_none_right_eq_some.mp h
    cases h
    rfl
  | mutex =>
    cases h
    split <;> simp [holds, Ne.symm hu]
  | event =>
    cases h
    rfl

theorem take_spec (valid : o.Valid) (h : o.take t = some (o', status)) :
    o'.type = o.type ∧ o'.Valid ∧ o'.holds t = o.holds t + (if o.type = .mutex then 1 else 0) ∧
      ∀ u, u ≠ t → o'.holds u = o.holds u := by
  cases o with
  | semaphore count =>
    cases count with
    | zero => cases h
    | succ n =>
      cases h
      refine ⟨rfl, ?_, by simp [holds, type], fun _ _ => rfl⟩
      simp only [Valid] at valid ⊢
      omega
  | mutex owner depth abandoned =>
    cases owner with
    | none =>
      cases h
      exact ⟨rfl, by simp [Valid], by simp [holds, type], fun u hu => by simp [holds, Ne.symm hu]⟩
    | some v =>
      obtain ⟨hv, htaken⟩ := Option.ite_none_right_eq_some.mp h
      subst hv
      cases htaken
      exact ⟨rfl, by simp [Valid], by simp [holds, type], fun u hu => by simp [holds, Ne.symm hu]⟩
  | event manual signalled =>
    cases signalled with
    | false => cases h
    | true =>
      cases h
      exact ⟨rfl, trivial, by simp [holds, type], fun _ _ => rfl⟩

theorem release_spec (valid : o.Valid) (h : o.release t = some o') :
    o'.type = o.type ∧ o'.Valid ∧ o'.holds t = o.holds t - (if o.type = .mutex then 1 else 0) ∧
      ∀ u, u ≠ t → o'.holds u = o.holds u := by
  cases o with
  | semaphore count =>
    cases count with
    | zero =>
      cases h
      exact ⟨rfl, by simp [Valid], by simp [holds, type], fun _ _ => rfl⟩
    | succ n => cases h
  | mutex owner depth abandoned =>
    cases owner with
    | none => cases h
    | some v =>
      obtain ⟨hv, hreleased⟩ := Option.ite_none_right_eq_some.mp h
      subst hv
      cases hreleased
      simp only [Valid, reduceCtorEq, false_iff] at valid
      split
      · rename_i hone
        exact ⟨rfl, by simp [Valid], by simp [holds, type, hone],
          fun u hu => by simp [holds, Ne.symm hu]⟩
      · refine ⟨rfl, ?_, by simp [holds, type], fun u hu => by simp [holds, Ne.symm hu]⟩
        simp only [Valid, reduceCtorEq, false_iff]
        omega
  | event manual signalled =>
    cases h
    exact ⟨rfl, trivial, by simp [holds, type], fun _ _ => rfl⟩

theorem abandon_spec (valid : o.Valid) :
    (o.abandon t).type = o.type ∧ (o.abandon t).Valid ∧ (o.abandon t).holds t = 0 ∧
      ∀ u, u ≠ t → (o.abandon t).holds u = o.holds u := by
  cases o with
  | semaphore | event => exact ⟨rfl, valid, rfl, fun _ _ => rfl⟩
  | mutex owner depth abandoned =>
    cases owner with
    | none => exact ⟨rfl, valid, rfl, fun _ _ => rfl⟩
    | some v =>
      by_cases hv : v = t
      · subst hv
        rw [abandon, if_pos rfl]
        exact ⟨rfl, by simp [Valid], rfl, fun u hu => by simp [holds, Ne.symm hu]⟩
      · rw [abandon, if_neg hv]
        exact ⟨rfl, valid, by simp [holds, hv], fun _ _ => rfl⟩

/-- Only the owner can hold a mutex. -/
theorem holds_unique (ht : 0 < o.holds t) (hu : 0 < o.holds u) : t = u := by
  cases o with
  | semaphore | event => exact absurd ht (Nat.lt_irrefl 0)
  | mutex owner depth abandoned =>
    cases owner with
    | none => exact absurd ht (Nat.lt_irrefl 0)
    | some v =>
      simp only [holds] at ht hu
      split at ht <;> split at hu <;> first | omega | simp_all

end KernelObject

namespace Objects

variable {ν τ : Type*} [DecidableEq ν] [DecidableEq τ]

/-- Each handle with a descriptor designates an object of its type, under its name; each
name belongs to such a handle; each object has a name, and is held as was counted. -/
structure Sound (s : Objects ν τ) : Prop where
  named : ∀ n id, s.names n = some id → ∃ x ∈ s.live, x.ipcName = n ∧ x.ipcDescr = some id
  once : ∀ n n' id, s.names n = some id → s.names n' = some id → n = n'
  handle : ∀ x ∈ s.live, ∀ id, x.ipcDescr = some id →
    s.names x.ipcName = some id ∧ (s.objects id).map KernelObject.type = some x.ipcType
  null : ∀ x ∈ s.live, x.ipcDescr = none → x.ipcType = .semaphore
  fresh : ∀ id, s.made ≤ id → s.objects id = none
  linked : ∀ id o, s.objects id = some o → ∃ n, s.names n = some id
  valid : ∀ id o, s.objects id = some o → o.Valid ∧ ∀ t, s.held id t = o.holds t

namespace Sound

variable {s : Objects ν τ} {id : Nat} {o o' : KernelObject τ} {t : τ}

omit [DecidableEq ν] in
/-- An object changes, and with it what one thread holds of it. -/
theorem set (h : Sound s) (ho : s.objects id = some o) (type : o'.type = o.type)
    (valid : o'.Valid) {n : Nat} (self : n = o'.holds t)
    (other : ∀ u, u ≠ t → o'.holds u = o.holds u) : Sound ((s.set id o').count id t n) where
  named := h.named
  once := h.once
  handle := by
    intro x hx i hi
    obtain ⟨hname, htype⟩ := h.handle x hx i hi
    refine ⟨hname, ?_⟩
    by_cases hid : i = id
    · subst hid
      rw [ho] at htype
      simp only [count, Objects.set, Function.update_self, Option.map_some, type]
      exact htype
    · simp only [count, Objects.set, Function.update_of_ne hid]
      exact htype
  null := h.null
  fresh := by
    intro i hi
    have hid : i ≠ id := by
      rintro rfl
      rw [h.fresh i hi] at ho
      cases ho
    simp only [count, Objects.set, Function.update_of_ne hid]
    exact h.fresh i hi
  linked := by
    intro i o'' hi
    by_cases hid : i = id
    · exact hid ▸ h.linked id o ho
    · simp only [count, Objects.set, Function.update_of_ne hid] at hi
      exact h.linked i o'' hi
  valid := by
    intro i o'' hi
    by_cases hid : i = id
    · subst hid
      simp only [count, Objects.set, Function.update_self, Option.some.injEq] at hi ⊢
      subst hi
      refine ⟨valid, fun u => ?_⟩
      by_cases hu : u = t
      · subst hu
        rw [Function.update_self, self]
      · rw [Function.update_of_ne hu, (h.valid i o ho).2, other u hu]
    · simp only [count, Objects.set, Function.update_of_ne hid] at hi ⊢
      exact h.valid i o'' hi

omit [DecidableEq ν] in
/-- A handle on the object of the name is returned. -/
theorem ret (h : Sound s) {x : IpcObject ν}
    (handle : ∀ id, x.ipcDescr = some id →
      s.names x.ipcName = some id ∧ (s.objects id).map KernelObject.type = some x.ipcType)
    (null : x.ipcDescr = none → x.ipcType = .semaphore) : Sound (s.ret x) where
  named := by
    intro n i hn
    obtain ⟨y, hy, hname⟩ := h.named n i hn
    exact ⟨y, List.mem_cons_of_mem _ hy, hname⟩
  once := h.once
  handle := by
    intro y hy
    rcases List.mem_cons.mp hy with rfl | hy
    · exact handle
    · exact h.handle y hy
  null := by
    intro y hy
    rcases List.mem_cons.mp hy with rfl | hy
    · exact null
    · exact h.null y hy
  fresh := h.fresh
  linked := h.linked
  valid := h.valid

omit [DecidableEq ν] in
theorem lt_made (h : Sound s) {n : ν} (hn : s.names n = some id) : id < s.made := by
  obtain ⟨x, hx, -, hdescr⟩ := h.named n id hn
  obtain ⟨-, htype⟩ := h.handle x hx id hdescr
  by_contra hge
  rw [h.fresh id (Nat.le_of_not_lt hge)] at htype
  cases htype

/-- A new object is made for a name without one, and its handle is returned. -/
theorem insert (h : Sound s) {name : ν} (hname : s.names name = none) (valid : o.Valid)
    (other : ∀ u, u ≠ t → o.holds u = 0) :
    Sound ((s.insert name t o).ret ⟨name, o.type, some s.made⟩) where
  named := by
    intro n i hn
    by_cases hnn : n = name
    · subst hnn
      simp only [Objects.ret, Objects.insert, Function.update_self, Option.some.injEq] at hn
      subst hn
      exact ⟨_, List.mem_cons_self, rfl, rfl⟩
    · simp only [Objects.ret, Objects.insert, Function.update_of_ne hnn] at hn
      obtain ⟨x, hx, hx'⟩ := h.named n i hn
      exact ⟨x, List.mem_cons_of_mem _ hx, hx'⟩
  once := by
    intro n n' i hn hn'
    have old : ∀ {m}, m ≠ name → Function.update s.names name (some s.made) m = some i →
        s.names m = some i ∧ i < s.made := by
      intro m hm hi
      rw [Function.update_of_ne hm] at hi
      exact ⟨hi, h.lt_made hi⟩
    have new : ∀ {m}, m = name → Function.update s.names name (some s.made) m = some i →
        i = s.made := by
      rintro m rfl hi
      rw [Function.update_self, Option.some.injEq] at hi
      exact hi.symm
    by_cases hnn : n = name <;> by_cases hnn' : n' = name
    · rw [hnn, hnn']
    · have := new hnn hn
      have := (old hnn' hn').2
      omega
    · have := new hnn' hn'
      have := (old hnn hn).2
      omega
    · exact h.once n n' i (old hnn hn).1 (old hnn' hn').1
  handle := by
    intro x hx i hi
    rcases List.mem_cons.mp hx with rfl | hx
    · cases hi
      simp [Objects.ret, Objects.insert]
    · obtain ⟨hn, htype⟩ := h.handle x hx i hi
      have hnn : x.ipcName ≠ name := by
        intro e
        rw [e, hname] at hn
        cases hn
      have hi' : i ≠ s.made := Nat.ne_of_lt (h.lt_made hn)
      simp only [Objects.ret, Objects.insert, Function.update_of_ne hnn, Function.update_of_ne hi']
      exact ⟨hn, htype⟩
  null := by
    intro x hx hnull
    rcases List.mem_cons.mp hx with rfl | hx
    · cases hnull
    · exact h.null x hx hnull
  fresh := by
    intro i hi
    simp only [Objects.ret, Objects.insert] at hi ⊢
    rw [Function.update_of_ne (by omega)]
    exact h.fresh i (by omega)
  linked := by
    intro i o' hi
    by_cases hi' : i = s.made
    · exact ⟨name, by simp [Objects.ret, Objects.insert, hi']⟩
    · simp only [Objects.ret, Objects.insert, Function.update_of_ne hi'] at hi ⊢
      obtain ⟨n, hn⟩ := h.linked i o' hi
      refine ⟨n, ?_⟩
      have hnn : n ≠ name := by
        intro e
        rw [e, hname] at hn
        cases hn
      rw [Function.update_of_ne hnn]
      exact hn
  valid := by
    intro i o' hi
    by_cases hi' : i = s.made
    · subst hi'
      simp only [Objects.ret, Objects.insert, Function.update_self, Option.some.injEq] at hi ⊢
      subst hi
      refine ⟨valid, fun u => ?_⟩
      by_cases hu : u = t
      · subst hu
        rw [Function.update_self]
      · rw [Function.update_of_ne hu, other u hu]
    · simp only [Objects.ret, Objects.insert, Function.update_of_ne hi'] at hi ⊢
      exact h.valid i o' hi

/-- A handle is closed while the object has others. -/
theorem eraseLive (h : Sound s) {x : IpcObject ν}
    (kept : ∀ id, x.ipcDescr = some id → ∃ y ∈ s.live.erase x, y.ipcDescr = some id) :
    Sound { s with live := s.live.erase x } where
  named := by
    intro n i hn
    obtain ⟨y, hy, hname, hdescr⟩ := h.named n i hn
    by_cases hyx : y = x
    · subst hyx
      obtain ⟨z, hz, hz'⟩ := kept i hdescr
      have hnz := (h.handle z (List.mem_of_mem_erase hz) i hz').1
      exact ⟨z, hz, h.once _ _ i hnz hn, hz'⟩
    · exact ⟨y, (List.mem_erase_of_ne hyx).mpr hy, hname, hdescr⟩
  once := h.once
  handle := fun y hy => h.handle y (List.mem_of_mem_erase hy)
  null := fun y hy => h.null y (List.mem_of_mem_erase hy)
  fresh := h.fresh
  linked := h.linked
  valid := h.valid

/-- The last handle is closed, the object goes with its name. -/
theorem free (h : Sound s) {x : IpcObject ν} (hx : x ∈ s.live) (hid : x.ipcDescr = some id)
    (last : ¬ ∃ y ∈ s.live.erase x, y.ipcDescr = some id) :
    Sound { s with
      live := s.live.erase x
      names := fun n => if s.names n = some id then none else s.names n
      objects := Function.update s.objects id none } where
  named := by
    intro n i hn
    dsimp only at hn
    split at hn
    · cases hn
    · rename_i hne
      obtain ⟨y, hy, hname, hdescr⟩ := h.named n i hn
      have hyx : y ≠ x := by
        rintro rfl
        cases hdescr.symm.trans hid
        exact hne hn
      exact ⟨y, (List.mem_erase_of_ne hyx).mpr hy, hname, hdescr⟩
  once := by
    intro n n' i hn hn'
    dsimp only at hn hn'
    split at hn <;> split at hn' <;> first | cases hn | cases hn' | exact h.once n n' i hn hn'
  handle := by
    intro y hy i hi
    have hne : i ≠ id := by
      rintro rfl
      exact last ⟨y, hy, hi⟩
    obtain ⟨hn, htype⟩ := h.handle y (List.mem_of_mem_erase hy) i hi
    dsimp only
    rw [hn, if_neg fun e => hne (Option.some.inj e), Function.update_of_ne hne]
    exact ⟨rfl, htype⟩
  null := fun y hy => h.null y (List.mem_of_mem_erase hy)
  fresh := by
    intro i hi
    by_cases hne : i = id
    · exact hne ▸ Function.update_self ..
    · exact (Function.update_of_ne hne ..).trans (h.fresh i hi)
  linked := by
    intro i o hi
    have hne : i ≠ id := by
      rintro rfl
      simp at hi
    dsimp only at hi
    rw [Function.update_of_ne hne] at hi
    obtain ⟨n, hn⟩ := h.linked i o hi
    exact ⟨n, by simp [hn, hne]⟩
  valid := by
    intro i o hi
    have hne : i ≠ id := by
      rintro rfl
      simp at hi
    dsimp only at hi
    rw [Function.update_of_ne hne] at hi
    exact h.valid i o hi

theorem close (h : Sound s) {x : IpcObject ν} (hx : x ∈ s.live) : Sound (s.close x) := by
  unfold Objects.close
  dsimp only
  split
  · rename_i hnull
    exact h.eraseLive fun i hi => by rw [hnull] at hi; cases hi
  · rename_i i hi
    split
    · rename_i hkept
      refine h.eraseLive fun j hj => ?_
      cases hj.symm.trans hi
      exact hkept
    · rename_i hlast
      exact h.free hx hi hlast

omit [DecidableEq ν] in
theorem exit (h : Sound s) : Sound { s with
    objects := fun id => (s.objects id).map (KernelObject.abandon t)
    held := fun id => Function.update (s.held id) t 0 } where
  named := h.named
  once := h.once
  handle := by
    intro x hx i hi
    obtain ⟨hn, htype⟩ := h.handle x hx i hi
    refine ⟨hn, ?_⟩
    obtain ⟨o, ho, htype⟩ := Option.map_eq_some_iff.mp htype
    simp [ho, (KernelObject.abandon_spec (t := t) (h.valid i o ho).1).1, htype]
  null := h.null
  fresh := fun i hi => by simp [h.fresh i hi]
  linked := by
    intro i o hi
    obtain ⟨o', ho', -⟩ := Option.map_eq_some_iff.mp hi
    exact h.linked i o' ho'
  valid := by
    intro i o hi
    obtain ⟨o', ho', rfl⟩ := Option.map_eq_some_iff.mp hi
    obtain ⟨hvalid, hheld⟩ := h.valid i o' ho'
    obtain ⟨-, hvalid', hself, hother⟩ := KernelObject.abandon_spec (t := t) hvalid
    refine ⟨hvalid', fun u => ?_⟩
    dsimp only
    by_cases hu : u = t
    · subst hu
      rw [Function.update_self, hself]
    · rw [Function.update_of_ne hu, hother u hu, hheld]

theorem create (h : Sound s) {k : Primitive} {name : ν} {manual value : Int} {ok : Bool}
    {s' : Objects ν τ} (step : s.create t k name manual value ok = some s') : Sound s' := by
  unfold Objects.create at step
  split at step
  · split at step
    · rename_i hname
      obtain ⟨o, ho, rfl⟩ := Option.map_eq_some_iff.mp step
      obtain ⟨rfl, hvalid⟩ := KernelObject.valid_initial ho
      exact h.insert hname hvalid fun u hu => KernelObject.holds_initial ho hu
    · rename_i i hname
      obtain ⟨htype, step⟩ := Option.ite_none_right_eq_some.mp step
      cases step
      refine h.ret (fun j hj => ?_) nofun
      cases hj
      exact ⟨hname, htype⟩
  · cases step
    cases k with
    | semaphore => exact h.ret nofun fun _ => rfl
    | mutex | event => exact h

theorem wait (h : Sound s) {k : Primitive} {x : IpcObject ν} {taken : Bool} {s' : Objects ν τ}
    {answer : Int} (step : s.call t (.wait k x taken) = some (s', answer)) : Sound s' := by
  obtain ⟨-, step⟩ := Option.ite_none_right_eq_some.mp step
  split at step
  · rename_i i o hi ho
    have hobject : s.objects i = some o := by simpa [object, hi] using ho
    split at step
    · rename_i o' status htake _
      cases step
      obtain ⟨htype, hvalid, hself, hother⟩ :=
        KernelObject.take_spec (h.valid i o hobject).1 htake
      exact h.set hobject htype hvalid (by rw [hself, (h.valid i o hobject).2]) hother
    · cases step
      exact h
    · cases step
  · split at step <;> cases step
    exact h

theorem release (h : Sound s) {k : Primitive} {x : IpcObject ν} {s' : Objects ν τ} {answer : Int}
    (step : s.call t (.release k x) = some (s', answer)) : Sound s' := by
  obtain ⟨-, step⟩ := Option.ite_none_right_eq_some.mp step
  split at step
  · rename_i i o hi ho
    have hobject : s.objects i = some o := by simpa [object, hi] using ho
    split at step
    · rename_i o' hrelease
      split at step <;> cases step
      · rename_i htype
        obtain ⟨hsame, hvalid, hself, hother⟩ :=
          KernelObject.release_spec (h.valid i o hobject).1 hrelease
        exact h.set hobject hsame hvalid (by rw [hself, (h.valid i o hobject).2, htype]) hother
      · exact h
    · cases step
      exact h
  · cases step
    exact h

theorem reset (h : Sound s) {x : IpcObject ν} {s' : Objects ν τ} {answer : Int}
    (step : s.call t (.reset x) = some (s', answer)) : Sound s' := by
  obtain ⟨-, step⟩ := Option.ite_none_right_eq_some.mp step
  split at step
  · rename_i i o' hi ho
    obtain ⟨o, hobject, hreset⟩ := Option.bind_eq_some_iff.mp ho
    have hobject : s.objects i = some o := by simpa [object, hi] using hobject
    cases step
    have hvalid := h.valid i o hobject
    cases o with
    | semaphore | mutex => cases hreset
    | event manual signalled =>
      cases hreset
      -- Nothing is held of an event, before and after.
      have htype : (.event manual false : KernelObject τ).type =
          (.event manual signalled : KernelObject τ).type := rfl
      have hset := h.set (t := t) hobject htype trivial (hvalid.2 t) fun _ _ => rfl
      have heq : (s.set i (.event manual false)).count i t (s.held i t) =
          s.set i (.event manual false) := by
        simp [count, Objects.set]
      rwa [heq] at hset
  · cases step
    exact h

theorem call (h : Sound s) {c : Call ν} {s' : Objects ν τ} {answer : Int}
    (step : s.call t c = some (s', answer)) : Sound s' := by
  cases c with
  | create k name manual value ok =>
    obtain ⟨s'', hs, heq⟩ := Option.map_eq_some_iff.mp step
    cases heq
    exact h.create hs
  | wait k x taken => exact h.wait step
  | release k x => exact h.release step
  | reset x => exact h.reset step
  | delete k x =>
    obtain ⟨hx, step⟩ := Option.ite_none_right_eq_some.mp step
    split at step <;> cases step
    · exact h.close hx
    · exact h
  | exit =>
    cases step
    exact h.exit

end Sound

theorem sound_reachable {s : Objects ν τ} (h : (system ν τ).Reachable s) : Sound s := by
  apply h.invariant (I := Sound)
  · rintro s rfl
    exact ⟨nofun, nofun, nofun, nofun, fun _ _ => rfl, nofun, nofun⟩
  · rintro s ⟨t, c⟩ u - inv step
    obtain ⟨⟨s', answer⟩, hcall, rfl⟩ := Option.map_eq_some_iff.mp step
    exact inv.call hcall

section Claims

variable {s : Objects ν τ}

/-- A mutex excludes in every run, whatever the threads release: at most one thread has
captured it more often than released it; meanwhile the captures of the others end with
their time limit and their releases are refused; its own releases are granted; and while
no thread has it, a capture is granted. -/
theorem mutex_excludes (h : (system ν τ).Reachable s) {x : IpcObject ν} (hx : x ∈ s.live)
    {id : Nat} (hid : x.ipcDescr = some id) (htype : x.ipcType = .mutex) :
    (∀ t u, 0 < s.held id t → 0 < s.held id u → t = u) ∧
    (∀ t u, 0 < s.held id t → u ≠ t → s.call u (.wait .mutex x true) = none ∧
      s.call u (.wait .mutex x false) = some (s, IPC_WAIT_TIMEOUT) ∧
      s.call u (.release .mutex x) = some (s, IPC_GENERAL_ERROR)) ∧
    (∀ t, 0 < s.held id t → ∃ s', s.call t (.release .mutex x) = some (s', IPC_OK) ∧
      s'.held id t = s.held id t - 1) ∧
    ((∀ t, s.held id t = 0) → ∀ u, ∃ s' answer,
      s.call u (.wait .mutex x true) = some (s', answer) ∧ 0 ≤ answer ∧ s'.held id u = 1) := by
  have inv := sound_reachable h
  obtain ⟨o, ho, hmutex⟩ := Option.map_eq_some_iff.mp (inv.handle x hx id hid).2
  rw [htype] at hmutex
  obtain ⟨hvalid, hheld⟩ := inv.valid id o ho
  have hobject : s.object x = some o := by simp [object, hid, ho]
  cases o with
  | semaphore | event => cases hmutex
  | mutex owner depth abandoned =>
    refine ⟨fun t u ht hu => ?_, fun t u ht hu => ?_, fun t ht => ?_, fun hfree u => ?_⟩
    · rw [hheld] at ht hu
      exact KernelObject.holds_unique ht hu
    all_goals
      simp only [call, hx, hid, hobject, if_true]
    · rw [hheld] at ht
      cases owner with
      | none => exact absurd ht (Nat.lt_irrefl 0)
      | some v =>
        have hv : v = t := by
          by_contra hne
          simp [KernelObject.holds, hne] at ht
        subst hv
        simp only [KernelObject.take, KernelObject.release, if_neg (Ne.symm hu), true_and]
        exact ⟨rfl, rfl⟩
    · rw [hheld] at ht ⊢
      cases owner with
      | none => exact absurd ht (Nat.lt_irrefl 0)
      | some v =>
        have hv : v = t := by
          by_contra hne
          simp [KernelObject.holds, hne] at ht
        subst hv
        simp only [KernelObject.release, KernelObject.type, if_true]
        exact ⟨_, rfl, by simp [count]⟩
    · cases owner with
      | none =>
        simp only [KernelObject.take, KernelObject.type, if_true, hfree]
        refine ⟨_, _, rfl, ?_, by simp [count]⟩
        cases abandoned <;> decide
      | some v =>
        have hzero := (hheld v).symm.trans (hfree v)
        simp only [KernelObject.holds, if_true] at hzero
        exact absurd (hvalid.mpr hzero) nofun

/-- A thread ends while it holds the mutex, another captures it. -/
theorem mutex_excludes_abandoned : ∃ s : Objects Unit Bool, (system Unit Bool).Reachable s ∧
    s.held 0 false = 1 ∧
      s.call true (.release .mutex ⟨(), .mutex, some 0⟩) = some (s, IPC_GENERAL_ERROR) := by
  refine exists_reachable_of_run ⟨fun _ => none, fun _ => none, 0, [], fun _ _ => 0⟩
    [(true, .create .mutex () 0 1 true), (true, .exit),
      (false, .wait .mutex ⟨(), .mutex, some 0⟩ true)]
    (fun s => decide (s.live = [⟨(), .mutex, some 0⟩] ∧ s.held 0 false = 1)) rfl (by decide)
    fun s hs hp => ?_
  obtain ⟨hlive, hheld⟩ := of_decide_eq_true hp
  have hx : (⟨(), .mutex, some 0⟩ : IpcObject Unit) ∈ s.live := hlive ▸ List.mem_cons_self
  exact ⟨hheld, ((mutex_excludes hs hx rfl rfl).2.1 false true (by omega) (by decide)).2.2⟩

end Claims

end Objects

end Gipcy.Windows
