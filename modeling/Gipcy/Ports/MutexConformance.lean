import Gipcy.Ports.MutexRelease
import Gipcy.Ports.Mutexes
import Gipcy.Ports.SemaphoreCalls

/-! The calls on a new mutex that every library answers alike: the threads take turns. -/
namespace Gipcy.Ports

open AnswerMachine
open Linux (CStr Ptr Kind IPC_OK IPC_GENERAL_ERROR IPC_WAIT_TIMEOUT)
open PosixSemaphore (Limits)
open SystemVSemaphore (SemSet UndoSet)

section Turns

variable {τ : Type*}

/-- Nobody captures a mutex that has an owner, and only the owner releases it. -/
def InTurn : Option τ → List (τ × MutexCall) → Prop
  | _, [] => True
  | owner, (t, .capture _) :: calls => owner = none ∧ InTurn (some t) calls
  | owner, (t, .release) :: calls => owner = some t ∧ InTurn none calls

instance decidableInTurn [DecidableEq τ] :
    (owner : Option τ) → (calls : List (τ × MutexCall)) → Decidable (InTurn owner calls)
  | _, [] => isTrue trivial
  | _, (t, .capture _) :: calls =>
    have := decidableInTurn (some t) calls
    inferInstanceAs (Decidable (_ ∧ _))
  | _, (_, .release) :: calls =>
    have := decidableInTurn none calls
    inferInstanceAs (Decidable (_ ∧ _))

variable {calls : List (τ × MutexCall)}

/-- A mutex that grants a capture without an owner and a release by the owner. -/
theorem answers_inTurn {ρ : Type*} {m : Machine ρ (τ × MutexCall) Int} (Has : ρ → Option τ → Prop)
    (capture : ∀ r t limit, Has r none → (m r (t, .capture limit)).2 = some IPC_OK ∧
      Has (m r (t, .capture limit)).1 (some t))
    (release : ∀ r t, Has r (some t) → (m r (t, .release)).2 = some IPC_OK ∧
      Has (m r (t, .release)).1 none)
    {r : ρ} {owner : Option τ} (has : Has r owner) (turn : InTurn owner calls) :
    answers m r calls = calls.map fun _ => IPC_OK := by
  induction calls generalizing r owner with
  | nil => rfl
  | cons call calls ih =>
    obtain ⟨t, limit | _⟩ := call
    · obtain ⟨rfl, rest⟩ := turn
      obtain ⟨hanswer, hnext⟩ := capture r t limit has
      rw [answers, hanswer, ih hnext rest]
      rfl
    · obtain ⟨rfl, rest⟩ := turn
      obtain ⟨hanswer, hnext⟩ := release r t has
      rw [answers, hanswer, ih hnext rest]
      rfl

/-- The units of a semaphore that a mutex is made of. -/
def unitsOf (owner : Option τ) : Nat := if owner.isNone then 1 else 0

theorem unitMutex_release {max n : Nat} (room : n < max) (refused full : Int) (t : τ) :
    unitMutex max refused full n (t, .release) = (n + 1, some IPC_OK) := by
  simp [unitMutex, room]

/-- Units beyond those of the mutex do no harm while there is room for one more. -/
theorem unitMutex_inTurn {max extra n : Nat} (room : extra < max) {owner : Option τ}
    (hn : n = extra + unitsOf owner) (refused full : Int) (turn : InTurn owner calls) :
    answers (unitMutex max refused full) n calls = calls.map fun _ => IPC_OK := by
  refine answers_inTurn (fun n owner => n = extra + unitsOf owner) ?_ ?_ hn turn
  · rintro _ t limit rfl
    exact ⟨rfl, rfl⟩
  · intro n t hn
    obtain rfl : n = extra := hn
    rw [unitMutex_release room]
    exact ⟨rfl, rfl⟩

variable [DecidableEq τ]

theorem windowsMutex_inTurn {owner : Option τ} (turn : InTurn owner calls) :
    answers windowsMutex (owner.map (·, 0)) calls = calls.map fun _ => IPC_OK := by
  refine answers_inTurn (fun r owner => r = owner.map (·, 0)) ?_ ?_ rfl turn
  · rintro _ t limit rfl
    exact ⟨rfl, rfl⟩
  · rintro _ t rfl
    simp [windowsMutex]

theorem linuxMutex_inTurn {owner : Option τ} (turn : InTurn owner calls) :
    answers linuxMutex owner calls = calls.map fun _ => IPC_OK := by
  refine answers_inTurn (fun r owner => r = owner) ?_ ?_ rfl turn
  · rintro _ t limit rfl
    exact ⟨rfl, rfl⟩
  · rintro _ t rfl
    simp [linuxMutex]

/-- Only the owner releases the mutex, and once it did, nobody else tries to capture it before
the owner has captured it again or released it as often as it captured it; `early` is that it
has done neither yet. -/
def Nested : Option (τ × Nat) → Bool → List (τ × MutexCall) → Prop
  | _, _, [] => True
  | none, _, (t, .capture _) :: calls => Nested (some (t, 0)) false calls
  | some (u, n), early, (t, .capture _) :: calls =>
    if u = t then Nested (some (u, n + 1)) false calls
    else early = false ∧ Nested (some (u, n)) early calls
  | none, _, (_, .release) :: _ => False
  | some (u, n), _, (t, .release) :: calls =>
    u = t ∧ Nested (if n = 0 then none else some (u, n - 1)) true calls

instance decidableNested :
    (owner : Option (τ × Nat)) → (early : Bool) → (calls : List (τ × MutexCall)) →
      Decidable (Nested owner early calls)
  | _, _, [] => isTrue trivial
  | none, _, (t, .capture _) :: calls => decidableNested (some (t, 0)) false calls
  | some (u, n), early, (t, .capture _) :: calls =>
    have := decidableNested (some (u, n + 1)) false calls
    have := decidableNested (some (u, n)) early calls
    inferInstanceAs (Decidable (if u = t then _ else _ ∧ _))
  | none, _, (_, .release) :: _ => isFalse id
  | some (u, n), _, (_, .release) :: calls =>
    have := decidableNested (if n = 0 then none else some (u, n - 1)) true calls
    inferInstanceAs (Decidable (_ ∧ _))

/-- The mutex of Linux is free from the first release on. -/
theorem linuxMutex_agrees_iff {owner : Option (τ × Nat)} {early : Bool} :
    answers linuxMutex (if early then none else owner.map Prod.fst) calls =
      answers windowsMutex owner calls ↔ Nested owner early calls := by
  have herror : IPC_OK ≠ IPC_GENERAL_ERROR := by decide
  have htimeout : IPC_OK ≠ IPC_WAIT_TIMEOUT := by decide
  induction calls generalizing owner early with
  | nil => exact iff_of_true rfl trivial
  | cons call calls ih =>
    obtain ⟨t, limit | _⟩ := call
    · rcases owner with _ | ⟨u, n⟩
      · have hnext := @ih (some (t, 0)) false
        simpa [answers, linuxMutex, windowsMutex, Nested] using hnext
      · by_cases hu : u = t
        · subst hu
          have hnext := @ih (some (u, n + 1)) false
          cases early <;> simpa [answers, linuxMutex, windowsMutex, Nested] using hnext
        · have hnext := @ih (some (u, n)) early
          cases early with
          | true => simp [answers, linuxMutex, windowsMutex, Nested, hu, htimeout]
          | false => simpa [answers, linuxMutex, windowsMutex, Nested, hu] using hnext
    · rcases owner with _ | ⟨u, n⟩
      · simp [answers, linuxMutex, windowsMutex, Nested, herror]
      · by_cases hu : u = t
        · subst hu
          have hnext := @ih (if n = 0 then none else some (u, n - 1)) true
          cases early <;> simpa [answers, linuxMutex, windowsMutex, Nested] using hnext
        · simp [answers, linuxMutex, windowsMutex, Nested, hu, herror]

/-- Out of turn, a capture without a unit is answered in two ways, and a release is refused
on Windows alone. -/
theorem inTurn_of_alike {max max' : Nat} (room : 1 < max) (room' : 1 < max')
    {refused full : Int} (hrefused : refused ≠ IPC_WAIT_TIMEOUT) {owner : Option τ}
    (first : answers windowsMutex (owner.map (·, 0)) calls =
      answers (unitMutex max IPC_WAIT_TIMEOUT full) (unitsOf owner) calls)
    (second : answers windowsMutex (owner.map (·, 0)) calls =
      answers (unitMutex max' refused IPC_OK) (unitsOf owner) calls) : InTurn owner calls := by
  have herror : IPC_GENERAL_ERROR ≠ IPC_OK := by decide
  induction calls generalizing owner with
  | nil => trivial
  | cons call calls ih =>
    obtain ⟨t, limit | _⟩ := call
    · cases owner with
      | none => exact ⟨rfl, ih (List.cons.inj first).2 (List.cons.inj second).2⟩
      | some u =>
        have hsame := (List.cons.inj (first.symm.trans second)).1
        exact absurd hsame.symm hrefused
    · cases owner with
      | none =>
        have hunits : unitsOf (none : Option τ) = 1 := rfl
        rw [hunits, answers, answers, unitMutex_release room'] at second
        exact absurd (List.cons.inj second).1 herror
      | some u =>
        have hunits : unitsOf (some u) = 0 := rfl
        rw [hunits, answers, answers, unitMutex_release (Nat.lt_of_succ_lt room)] at first
        rw [hunits, answers, answers, unitMutex_release (Nat.lt_of_succ_lt room')] at second
        by_cases hu : u = t
        · subst hu
          simp only [Option.map_some, windowsMutex, if_true] at first second
          exact ⟨rfl, ih (List.cons.inj first).2 (List.cons.inj second).2⟩
        · simp only [Option.map_some, windowsMutex, if_neg hu] at second
          exact absurd (List.cons.inj second).1 herror

end Turns

section New

variable {τ : Type*}

/-- Who has a new mutex. -/
def newOwner (creator : τ) (value : Bool) : Option τ := if value then some creator else none

theorem windowsMutex_new {ν : Type*} [DecidableEq ν] [DecidableEq τ] {s : Windows.Objects ν τ}
    (creator : τ) {name : ν} (new : s.names name = none) (value : Bool) :
    ∃ s' h id, s.call creator (.create .mutex name 0 (flag value).toInt true) =
        some (s', IPC_OK) ∧ s'.live = h :: s.live ∧
      OnMutex s' h id ((newOwner creator value).map (·, 0)) := by
  have hflag : (flag value).toInt ≠ 0 ↔ value = true := by cases value <;> decide
  have hobject : (if (flag value).toInt ≠ 0 then .mutex (some creator) 1 false
      else .mutex none 0 false : Windows.KernelObject τ) =
        mutexObject ((newOwner creator value).map (·, 0)) := by
    rw [if_congr hflag rfl rfl]
    cases value <;> rfl
  have hmade : s.call creator (.create .mutex name 0 (flag value).toInt true) =
      some ((s.insert name creator (mutexObject ((newOwner creator value).map (·, 0)))).ret
        ⟨name, .mutex, some s.made⟩, IPC_OK) := by
    simp only [Windows.Objects.call, Windows.Objects.create, new, Windows.KernelObject.initial,
      hobject, if_true, Option.map_some]
  refine ⟨_, _, s.made, hmade, rfl, List.mem_cons_self, rfl, ?_⟩
  simp [Windows.Objects.ret, Windows.Objects.insert]

theorem linuxMutex_new {fd : Int} (hfd : 0 < fd) {drv : Linux.Driver} {m : Nat} {name : CStr m}
    {fresh : Ptr} (new : ¬ Linux.Registered drv .mutex (Linux.paramName name))
    (free : drv.Free fresh) (gettid : τ → Int32) (creator : τ) (value : Bool) :
    ∃ after, Linux.ipcCreateMutex fd (gettid creator) drv name (flag value) (some fresh) =
        (after, Linux.userHandle fresh) ∧
      OwnedBy gettid after fresh (newOwner creator value) := by
  have hfind : Linux.findName drv .mutex (Linux.paramName name) = none := by
    rw [Linux.registered_iff] at new
    exact Option.not_isSome_iff_eq_none.mp new
  have hmade : Linux.ipcCreateMutex fd (gettid creator) drv name (flag value) (some fresh) = _ :=
    Linux.createObject_eq hfd .mutex _ _
  rw [Linux.registryCreate_new fresh hfind] at hmade
  refine ⟨_, hmade, free.1, ?_, ?_, ?_⟩ <;> cases value <;>
    simp [Linux.insertNew, Linux.fill, Linux.mutexFill, Linux.mutexBlank, flag, newOwner,
      Linux.Entry.zero]

/-- `IPC_createMutex` of System V, by a process that uses the set alone. -/
abbrev undoCreateMutex (id : Int) (value : Bool) : UndoSet × Option SystemV.IpcObject :=
  SystemV.createMutex (SystemV.semctlSetValUndo none) id value SystemV.newSet

theorem systemVMutex_new {id : Int} (hid : 0 < id) (value : Bool) :
    undoCreateMutex id value = (.of 1 ⟨1, 0, 0⟩, some ⟨.mutex, id, 0⟩) := by
  rw [undoCreateMutex, SystemV.createMutex, if_pos hid]
  rfl

theorem systemVMutex_units : OnUnits (.of 1 ⟨1, 0, 0⟩) 1 :=
  ⟨1, _, .inr rfl, rfl, ⟨by decide, by decide⟩, rfl⟩

theorem posixMutex_bounded (lim : Limits) (creator : τ) (value : Bool) :
    some (mutexValue value) = some (unitsOf (newOwner creator value)) ∧
      unitsOf (newOwner creator value) ≤ lim.semValueMax := by
  have hlarge := lim.large
  cases value with
  | true => exact ⟨rfl, Nat.zero_le _⟩
  | false => exact ⟨rfl, (by omega : 1 ≤ lim.semValueMax)⟩

theorem qnxMutex_new {lim : Limits} (failed : Int → Int) (errno : Int) {fd : Int} (hfd : 0 < fd)
    {s : Qnx.Server} (receiving : s.status = .receiving) (isOpen : Qnx.Open s.drv) {m : Nat}
    {name : CStr m} {block : Ptr}
    (new : Qnx.findName s.drv .mutex (name.snprintf 128 Linux.nameSize_pos) = none)
    (free : s.drv.Free block) (creator : τ) (value : Bool) :
    ∃ t, Qnx.ipcCreateMutex lim failed errno fd s name value (some block) = some (t, block) ∧
      Qnx.HasUnits t .mutex block (unitsOf (newOwner creator value)) := by
  let param : Qnx.IpcCreate := ⟨name.snprintf 128 Linux.nameSize_pos, if value then 0 else 1, 0⟩
  have hsema : (if param.value ≠ 0 then PosixSemaphore.semInit lim param.value.toUInt32
      else some 0) = some (unitsOf (newOwner creator value)) := by
    cases value with
    | true => rfl
    | false =>
      have hlarge := lim.large
      have hone : (Int32.toUInt32 1).toNat = 1 := rfl
      have hmade : PosixSemaphore.semInit lim (Int32.toUInt32 1) = some 1 := by
        rw [PosixSemaphore.semInit, if_pos (by omega), hone]
      exact hmade
  exact Qnx.hasUnits_create failed errno hfd receiving isOpen free hsema
    (Qnx.mutexCreate_new lim isOpen (show Qnx.findName s.drv .mutex param.name = none from new)
      free.1)

end New

section Claims

variable {ν τ : Type*} [DecidableEq ν] [DecidableEq τ] {objects : Windows.Objects ν τ} {wname : ν}
  {fd : Int} {gettid : τ → Int32} {drv : Linux.Driver} {m : Nat} {name : CStr m} {fresh : Ptr}

/-- Windows and Linux answer the calls of any threads on a new mutex alike exactly if only
the owner releases it, and once it did, nobody else tries to capture it before the owner has
captured it again or released it as often as it captured it. -/
theorem mutexes_agree_iff (creator : τ) (newWindows : objects.names wname = none) (hfd : 0 < fd)
    (inj : Function.Injective gettid) (nonzero : ∀ t, gettid t ≠ 0)
    (newLinux : ¬ Linux.Registered drv .mutex (Linux.paramName name)) (freeLinux : drv.Free fresh)
    (value : Bool) (calls : List (τ × MutexCall)) :
    ∃ windows windowsHandle linux,
      objects.call creator (.create .mutex wname 0 (flag value).toInt true) =
        some (windows, IPC_OK) ∧ windows.live = windowsHandle :: objects.live ∧
      Linux.ipcCreateMutex fd (gettid creator) drv name (flag value) (some fresh) =
        (linux, Linux.userHandle fresh) ∧
      ((∃ given, Answered (WindowsMutexes windowsHandle) windows calls given ∧
        Answered (LinuxMutexes fd gettid (Linux.userHandle fresh)) linux calls given) ↔
        Nested ((newOwner creator value).map (·, 0)) false calls) := by
  obtain ⟨windows, windowsHandle, object, hwindows, hlive, onWindows⟩ :=
    windowsMutex_new creator newWindows value
  obtain ⟨linux, hlinux, onLinux⟩ := linuxMutex_new hfd newLinux freeLinux gettid creator value
  refine ⟨windows, windowsHandle, linux, hwindows, hlive, hlinux, ?_⟩
  have hagrees := @linuxMutex_agrees_iff _ calls _ ((newOwner creator value).map (·, 0)) false
  have howner : (if false then none else ((newOwner creator value).map (·, 0)).map Prod.fst) =
      newOwner creator value := by
    cases value <;> rfl
  simp only [(windowsMutex_tracks windowsHandle object).answered_iff onWindows
      fun _ _ => trivial,
    (linuxMutex_tracks inj nonzero hfd fresh).answered_iff onLinux fun _ _ => trivial,
    exists_eq_left']
  rwa [howner] at hagrees

/-- A thread captures the mutex twice and releases it twice, the other one tries in between. -/
theorem mutexes_agree_nested :
    ∃ (windows : Windows.Objects Unit (Fin 2)) (windowsHandle : Windows.IpcObject Unit)
      (linux : Linux.Driver) (given : List Int),
    let capture := MutexCall.capture ⟨10, by decide⟩
    let calls := [(0, capture), (0, capture), (1, capture), (0, .release), (0, .release),
      (1, capture)]
    Answered (WindowsMutexes windowsHandle) windows calls given ∧
      Answered (LinuxMutexes 3 Linux.twoThreads (Linux.userHandle 4096)) linux calls given := by
  obtain ⟨windows, windowsHandle, linux, -, -, -, hiff⟩ :=
    @mutexes_agree_iff Unit (Fin 2) _ _ ⟨fun _ => none, fun _ => none, 0, [], fun _ _ => 0⟩ () 3
      Linux.twoThreads _ _ CStr.x _ 0 rfl (by decide) Linux.twoThreads_injective
      Linux.twoThreads_ne_zero (Linux.unregistered_probe .mutex (Linux.paramName CStr.x))
      Linux.free_probe false
      [(0, .capture ⟨10, by decide⟩), (0, .capture ⟨10, by decide⟩),
        (1, .capture ⟨10, by decide⟩), (0, .release), (0, .release),
        (1, .capture ⟨10, by decide⟩)]
  obtain ⟨given, onWindows, onLinux⟩ := hiff.mpr (by decide)
  exact ⟨windows, windowsHandle, linux, given, onWindows, onLinux⟩

/-- Every library answers the calls of a process's threads on a new mutex, with limits of up
to 2147 ms, alike exactly if the threads take turns, and then it grants them all. -/
theorem mutexes_portable_iff (creator : τ) (newWindows : objects.names wname = none)
    (hfd : 0 < fd) (inj : Function.Injective gettid) (nonzero : ∀ t, gettid t ≠ 0)
    (newLinux : ¬ Linux.Registered drv .mutex (Linux.paramName name)) (freeLinux : drv.Free fresh)
    {id : Int} (hid : 0 < id) (posix : Limits) {lim : Limits} (failed : Int → Int) (errno : Int)
    {ι : Type*} {s : Qnx.Server} {block : Ptr} (hs : (Qnx.Server.system lim ι).Reachable s)
    (receiving : s.status = .receiving)
    (newQnx : Qnx.findName s.drv .mutex (name.snprintf 128 Linux.nameSize_pos) = none)
    (freeQnx : s.drv.Free block) (value : Bool) (calls : List (τ × MutexCall))
    (short : ∀ call ∈ calls, call.2.Short) :
    ∃ windows windowsHandle linux set systemVHandle manager,
      objects.call creator (.create .mutex wname 0 (flag value).toInt true) =
        some (windows, IPC_OK) ∧ windows.live = windowsHandle :: objects.live ∧
      Linux.ipcCreateMutex fd (gettid creator) drv name (flag value) (some fresh) =
        (linux, Linux.userHandle fresh) ∧
      undoCreateMutex id value = (set, some systemVHandle) ∧
      Qnx.ipcCreateMutex lim failed errno fd s name value (some block) = some (manager, block) ∧
      let AllAnswer (given : List Int) : Prop :=
        Answered (WindowsMutexes windowsHandle) windows calls given ∧
        Answered (LinuxMutexes fd gettid (Linux.userHandle fresh)) linux calls given ∧
        Answered (SystemVMutexes systemVHandle) set calls given ∧
        Answered (PosixMutexes posix ⟨.mutex, ()⟩) (some (mutexValue value)) calls given ∧
        Answered (QnxMutexes lim failed fd block) manager calls given
      ((∃ given, AllAnswer given) ↔ InTurn (newOwner creator value) calls) ∧
      (InTurn (newOwner creator value) calls → AllAnswer (calls.map fun _ => IPC_OK)) := by
  obtain ⟨windows, windowsHandle, object, hwindows, hlive, onWindows⟩ :=
    windowsMutex_new creator newWindows value
  obtain ⟨linux, hlinux, onLinux⟩ := linuxMutex_new hfd newLinux freeLinux gettid creator value
  obtain ⟨manager, hmanager, onQnx⟩ := qnxMutex_new failed errno hfd receiving
    (Qnx.Server.open_reachable hs) newQnx freeQnx creator value
  have hlarge := lim.large
  have hlarge' := posix.large
  have hextra : 1 = (if value then 1 else 0) + unitsOf (newOwner creator value) := by
    cases value <;> rfl
  have hroom : (if value then 1 else 0) < 32767 := by cases value <;> decide
  have hrefused : Qnx.refusedLock failed ≠ IPC_WAIT_TIMEOUT := by
    rw [Qnx.refusedLock]
    split <;> decide
  refine ⟨windows, windowsHandle, linux, _, _, manager, hwindows, hlive, hlinux,
    systemVMutex_new hid value, hmanager, ?_⟩
  -- What each library answers is what its machine does.
  simp only [(windowsMutex_tracks windowsHandle object).answered_iff onWindows
      fun _ _ => trivial,
    (linuxMutex_tracks inj nonzero hfd fresh).answered_iff onLinux fun _ _ => trivial,
    (systemVMutex_tracks τ ⟨.mutex, id, 0⟩).answered_iff systemVMutex_units short,
    (posixMutex_tracks τ posix ⟨.mutex, ()⟩).answered_iff (posixMutex_bounded posix creator value)
      short,
    (qnxMutex_tracks τ lim failed hfd block).answered_iff onQnx short]
  by_cases turn : InTurn (newOwner creator value) calls
  · have onWindows := windowsMutex_inTurn turn
    have onLinux := linuxMutex_inTurn turn
    have onSystemV := unitMutex_inTurn hroom hextra IPC_WAIT_TIMEOUT IPC_GENERAL_ERROR turn
    have onPosix := unitMutex_inTurn (by omega : 0 < posix.semValueMax) (Nat.zero_add _).symm
      IPC_WAIT_TIMEOUT IPC_GENERAL_ERROR turn
    have onQnx := unitMutex_inTurn (by omega : 0 < lim.semValueMax) (Nat.zero_add _).symm
      (Qnx.refusedLock failed) IPC_OK turn
    exact ⟨iff_of_true ⟨_, onWindows, onLinux, onSystemV, onPosix, onQnx⟩ turn,
      fun _ => ⟨onWindows, onLinux, onSystemV, onPosix, onQnx⟩⟩
  · refine ⟨iff_of_false ?_ turn, fun h => absurd h turn⟩
    rintro ⟨given, onWindows, -, -, onPosix, onQnx⟩
    exact turn (inTurn_of_alike (by omega : 1 < posix.semValueMax)
      (by omega : 1 < lim.semValueMax) hrefused (onWindows.trans onPosix.symm)
      (onWindows.trans onQnx.symm))

/-- Two threads take turns on a mutex that the first one has from the start. -/
theorem mutexes_portable_turns :
    ∃ (windows : Windows.Objects Unit (Fin 2)) (windowsHandle : Windows.IpcObject Unit)
      (manager : Qnx.Server),
    let capture := MutexCall.capture ⟨10, by decide⟩
    let calls := [(0, .release), (1, capture), (1, .release), (0, capture)]
    Answered (WindowsMutexes windowsHandle) windows calls [0, 0, 0, 0] ∧
      Answered (QnxMutexes Qnx.leastLimits id 3 4096) manager calls [0, 0, 0, 0] := by
  obtain ⟨windows, windowsHandle, linux, set, systemVHandle, manager, -, -, -, -, -, -, granted⟩ :=
    @mutexes_portable_iff Unit (Fin 2) _ _
      ⟨fun _ => none, fun _ => none, 0, [], fun _ _ => 0⟩ () 3 Linux.twoThreads _ _ CStr.x _ 0 rfl
      (by decide) Linux.twoThreads_injective Linux.twoThreads_ne_zero
      (Linux.unregistered_probe .mutex (Linux.paramName CStr.x)) Linux.free_probe 1 (by decide)
      Qnx.leastLimits Qnx.leastLimits id 0 Unit newServer 4096 newServer_reachable rfl rfl
      newServer_free true
      [(0, .release), (1, .capture ⟨10, by decide⟩), (1, .release),
        (0, .capture ⟨10, by decide⟩)] (by decide)
  have answered := granted (by decide)
  exact ⟨windows, windowsHandle, manager, answered.1, answered.2.2.2.2⟩

end Claims

end Gipcy.Ports
