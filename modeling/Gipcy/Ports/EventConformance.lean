import Gipcy.Ports.Events
import Gipcy.Ports.SemaphoreCalls

/-! The calls on a new event that are answered as its interface says: all of them on Windows,
fewer on Linux, and fewer still on all five libraries. -/
namespace Gipcy.Ports

open AnswerMachine
open Linux (CStr Ptr Kind IPC_OK IPC_WAIT_TIMEOUT ipcDriverHandle_open)
open PosixSemaphore (Limits)
open SystemVSemaphore (UndoSet)

/-- Every wait comes right after a call with `p`; `first` is for a wait that is the first
call. -/
def WaitsFollow (p : EventCall → Bool) : Bool → List EventCall → Prop
  | _, [] => True
  | first, call :: calls => (call.waits = true → first = true) ∧ WaitsFollow p (p call) calls

instance decidableWaitsFollow (p : EventCall → Bool) :
    (first : Bool) → (calls : List EventCall) → Decidable (WaitsFollow p first calls)
  | _, [] => isTrue trivial
  | _, call :: calls =>
    have := decidableWaitsFollow p (p call) calls
    inferInstanceAs (Decidable (_ ∧ _))

theorem WaitsFollow.mono {p q : EventCall → Bool} (hpq : ∀ call, p call = true → q call = true)
    {first first' : Bool} (hfirst : first = true → first' = true) {calls : List EventCall}
    (follow : WaitsFollow p first calls) : WaitsFollow q first' calls := by
  induction calls generalizing first first' with
  | nil => trivial
  | cons call calls ih =>
    exact ⟨fun hwait => hfirst (follow.1 hwait), ih (hpq call) follow.2⟩

/-- What a wait may follow on Linux: not a reset, and another wait only if the event resets
itself. -/
def linuxAllows (manual : Bool) : EventCall → Bool
  | .set => true
  | .reset => false
  | .wait _ => !manual

section Answers

variable {manual value : Bool} {calls : List EventCall}

/-- The two events differ where only one is signalled; a manual event stays signalled when
the one of Linux is not any more. -/
theorem linuxEvent_agrees_iff {raised signalled : Bool}
    (hstate : manual = true → raised = false → signalled = true) :
    answers linuxEvent raised calls = answers (apiEvent manual) signalled calls ↔
      WaitsFollow (linuxAllows manual) (raised == signalled) calls := by
  have htimeout : IPC_OK ≠ IPC_WAIT_TIMEOUT := by decide
  induction calls generalizing raised signalled with
  | nil => exact iff_of_true rfl trivial
  | cons call calls ih =>
    cases call with
    | set =>
      have hnext := @ih true true (fun _ _ => rfl)
      simpa [answers, linuxEvent, apiEvent, WaitsFollow, EventCall.waits, linuxAllows] using hnext
    | reset =>
      have hnext := @ih true false (fun _ h => by cases h)
      simpa [answers, linuxEvent, apiEvent, WaitsFollow, EventCall.waits, linuxAllows] using hnext
    | wait limit =>
      cases raised with
      | true =>
        cases signalled with
        | true =>
          have hnext := @ih false manual (fun h _ => h)
          simpa [answers, linuxEvent, apiEvent, WaitsFollow, EventCall.waits, linuxAllows]
            using hnext
        | false => simp [answers, linuxEvent, apiEvent, WaitsFollow, EventCall.waits, htimeout]
      | false =>
        cases signalled with
        | true => simp [answers, linuxEvent, apiEvent, WaitsFollow, EventCall.waits, htimeout.symm]
        | false =>
          cases manual with
          | true => exact absurd (hstate rfl rfl) Bool.false_ne_true
          | false =>
            have hnext := @ih false false (fun h => by cases h)
            simpa [answers, linuxEvent, apiEvent, WaitsFollow, EventCall.waits, linuxAllows]
              using hnext

/-- Where the waits come right after sets, they all get through. -/
theorem answers_of_ready {ρ : Type*} {m : Machine ρ EventCall Int} (Ready : ρ → Prop)
    (set : ∀ r, (m r .set).2 = none ∧ Ready (m r .set).1) (reset : ∀ r, (m r .reset).2 = none)
    (wait : ∀ r limit, Ready r → (m r (.wait limit)).2 = some IPC_OK) {first : Bool} {r : ρ}
    (ready : first = true → Ready r) (follow : WaitsFollow (· == .set) first calls) :
    answers m r calls = (calls.filter EventCall.waits).map fun _ => IPC_OK := by
  induction calls generalizing first r with
  | nil => rfl
  | cons call calls ih =>
    obtain ⟨hwait, hrest⟩ := follow
    rw [answers]
    cases call with
    | set =>
      rw [(set r).1, ih (fun _ => (set r).2) hrest]
      rfl
    | reset =>
      rw [reset r, ih (fun h => by cases h) hrest]
      rfl
    | wait limit =>
      rw [wait r limit (ready (hwait rfl)), ih (fun h => by cases h) hrest]
      rfl

theorem apiEvent_ready (follow : WaitsFollow (· == .set) value calls) :
    answers (apiEvent manual) value calls =
      (calls.filter EventCall.waits).map fun _ => IPC_OK := by
  refine answers_of_ready (fun r => r = true) (fun _ => ⟨rfl, rfl⟩) (fun _ => rfl) ?_
    (fun h => h) follow
  rintro r limit rfl
  rfl

/-- A semaphore with a unit after every set. -/
theorem counter_ready {m : Machine Nat EventCall Int}
    (set : ∀ n, (m n .set).2 = none ∧ 0 < (m n .set).1) (reset : ∀ n, (m n .reset).2 = none)
    (wait : ∀ n limit, (m (n + 1) (.wait limit)).2 = some IPC_OK) {n : Nat}
    (ready : value = true → 0 < n) (follow : WaitsFollow (· == .set) value calls) :
    answers m n calls = answers (apiEvent manual) value calls := by
  rw [apiEvent_ready follow]
  refine answers_of_ready (fun n => 0 < n) set reset ?_ ready follow
  intro n limit hn
  obtain ⟨k, rfl⟩ := Nat.exists_eq_succ_of_ne_zero (by omega : n ≠ 0)
  exact wait k limit

theorem systemVEvent_set (manual : Bool) (n : Nat) : 0 < (systemVEvent manual n .set).1 := by
  by_cases hroom : (n : Int) < SystemVSemaphore.SEMVMX
  · simp [systemVEvent, hroom]
  · have hfull : ¬ (n : Int) < 32767 := hroom
    simp only [systemVEvent, if_neg hroom]
    omega

/-- An event of System V that resets itself answers as the manual event of the interface. -/
theorem systemVEvent_auto (n : Nat) (calls : List EventCall) :
    answers (systemVEvent false) n calls = answers (apiEvent true) (decide (0 < n)) calls := by
  refine answers_eq (R := fun n r => r = decide (0 < n)) ?_ rfl calls
  rintro n r call rfl
  cases call with
  | set =>
    exact ⟨rfl, (decide_eq_true (systemVEvent_set false n)).symm⟩
  | reset => exact ⟨rfl, rfl⟩
  | wait limit =>
    by_cases hunit : 0 < n
    · simp [systemVEvent, apiEvent, hunit]
    · simp [systemVEvent, apiEvent, hunit]

/-- An event that stays signalled and one that does not answer alike, and no wait follows a
reset: then none follows a wait either. -/
theorem follow_of_kinds {stays resets first : Bool} (hresets : resets = true → stays = true)
    (hfirst : first = true → stays = true) (follow : WaitsFollow (linuxAllows false) first calls)
    (alike : answers (apiEvent true) stays calls = answers (apiEvent false) resets calls) :
    WaitsFollow (· == .set) (first && resets) calls := by
  have htimeout : IPC_OK ≠ IPC_WAIT_TIMEOUT := by decide
  induction calls generalizing stays resets first with
  | nil => trivial
  | cons call calls ih =>
    obtain ⟨hwait, hrest⟩ := follow
    cases call with
    | set =>
      refine ⟨(fun h => by cases h), ?_⟩
      exact @ih true true true (fun _ => rfl) (fun _ => rfl) hrest (by simpa [answers, apiEvent]
        using alike)
    | reset =>
      refine ⟨(fun h => by cases h), ?_⟩
      exact @ih false false false (fun h => h) (fun h => h) hrest (by simpa [answers, apiEvent]
        using alike)
    | wait limit =>
      obtain rfl : first = true := hwait rfl
      obtain rfl : stays = true := hfirst rfl
      cases resets with
      | false => exact absurd alike (by simp [answers, apiEvent, htimeout])
      | true =>
        refine ⟨fun _ => rfl, ?_⟩
        exact @ih true false true (fun _ => rfl) (fun _ => rfl) hrest (by simpa [answers, apiEvent]
          using alike)

end Answers

/-- The calls go through, and the waits are answered as the interface has it. -/
def AnswersAsApi {σ : Type*} (step : σ → EventCall → σ → Option Int → Prop) (s : σ)
    (manual value : Bool) (calls : List EventCall) : Prop :=
  Answered step s calls (answers (apiEvent manual) value calls)

section New

variable {manual value : Bool} {calls : List EventCall}

theorem windows_new {ν τ : Type*} [DecidableEq ν] [DecidableEq τ] {s : Windows.Objects ν τ} (t : τ)
    {name : ν} (new : s.names name = none) (manual value : Bool) (calls : List EventCall) :
    ∃ s' h, s.call t (.create .event name (flag manual).toInt (flag value).toInt true) =
        some (s', IPC_OK) ∧ s'.live = h :: s.live ∧
      AnswersAsApi (WindowsEvents t h) s' manual value calls := by
  have hflag : ∀ b, decide ((flag b).toInt ≠ 0) = b := by decide
  have hmade : s.call t (.create .event name (flag manual).toInt (flag value).toInt true) =
      some ((s.insert name t (.event manual value)).ret ⟨name, .event, some s.made⟩, IPC_OK) := by
    simp only [Windows.Objects.call, Windows.Objects.create, new, Windows.KernelObject.initial,
      hflag, if_true, Option.map_some]
  refine ⟨_, _, hmade, rfl, ?_⟩
  have designates : Designates ((s.insert name t (.event manual value)).ret
      ⟨name, .event, some s.made⟩) ⟨name, .event, some s.made⟩ s.made manual value := by
    refine ⟨List.mem_cons_self, rfl, ?_⟩
    simp [Windows.Objects.ret, Windows.Objects.insert]
  exact ((windows_tracks t _ _ manual).answered_iff designates (fun _ _ => trivial) _).mpr rfl

theorem linux_new {fd : Int} (hfd : 0 < fd) {drv : Linux.Driver} {m : Nat} {name : CStr m}
    {fresh : Ptr} (new : ¬ Linux.Registered drv .event (Linux.paramName name))
    (free : drv.Free fresh) (manual value : Bool) (calls : List EventCall) :
    let made := Linux.ipcCreateEvent fd drv name (flag manual) (flag value) (some fresh)
    AnswersAsApi (LinuxEvents fd made.2) made.1 manual value calls ↔
      WaitsFollow (linuxAllows manual) value calls := by
  obtain ⟨after, hmade, hsignalled⟩ :=
    Linux.signalled_create hfd new free (flag manual) (flag value)
  have hraised : WaitsFollow (linuxAllows manual) (true == value) calls ↔
      WaitsFollow (linuxAllows manual) value calls := by
    cases value <;> rfl
  simp only [hmade]
  rw [AnswersAsApi, (linux_tracks hfd).answered_iff hsignalled fun _ _ => trivial,
    linuxEvent_agrees_iff (by simp), hraised]

/-- `IPC_createEvent` of System V, by a process that uses the set alone. -/
abbrev undoCreateEvent (id : Int) (manual value : Bool) :
    Option (UndoSet × Option SystemV.IpcObject) :=
  SystemV.createEvent (SystemV.semctlSetValUndo none) (SystemV.semtimedopUndo none) id manual value
    SystemV.newSet

theorem systemV_new {id : Int} (hid : 0 < id) (short : ∀ call ∈ calls, call.Short)
    (manual value : Bool) :
    ∃ set h, undoCreateEvent id manual value = some (set, some h) ∧
      (AnswersAsApi (SystemVEvents h) set manual value calls ↔
        answers (systemVEvent manual) (if value then 1 else 0) calls =
          answers (apiEvent manual) value calls) := by
  have hmade : undoCreateEvent id manual value =
      some (.of 1 ⟨if value then 1 else 0, 0, 0⟩,
        some ⟨.event, id, if manual then 1 else 0⟩) := by
    rw [undoCreateEvent, SystemV.createEvent, if_pos hid]
    cases value <;> rfl
  refine ⟨_, _, hmade, ?_⟩
  refine (systemV_tracks rfl).answered_iff ⟨1, _, .inr rfl, rfl, ?_⟩ short _
  cases value <;> exact ⟨⟨by decide, by decide⟩, rfl⟩

theorem qnx_new {lim : Limits} (failed : Int → Int) (errno : Int) {fd : Int} (hfd : 0 < fd)
    {s : Qnx.Server} (receiving : s.status = .receiving) (isOpen : Qnx.Open s.drv) {m : Nat}
    {name : CStr m} {block : Ptr}
    (new : Qnx.findName s.drv .event (name.snprintf 128 Linux.nameSize_pos) = none)
    (free : s.drv.Free block) (manual value : Bool) :
    ∃ t, Qnx.ipcCreateEvent lim failed errno fd s name manual value (some block) =
        some (t, block) ∧ Qnx.HasUnits t .event block 1 := by
  have hone : PosixSemaphore.semInit lim 1 = some 1 := by
    have hlarge := lim.large
    have hvalue : (1 : UInt32).toNat = 1 := rfl
    rw [PosixSemaphore.semInit, if_pos (by omega), hvalue]
  exact Qnx.hasUnits_create failed errno hfd receiving isOpen free hone
    (Qnx.eventCreate_new lim isOpen (show Qnx.findName s.drv .event
      (⟨name.snprintf 128 Linux.nameSize_pos, if value then 0 else 1,
        if manual then 1 else 0⟩ : Qnx.IpcCreate).name = none from new) free.1)

end New

section Ready

variable {manual value : Bool} {calls : List EventCall}

theorem systemVEvent_ready (follow : WaitsFollow (· == .set) value calls) :
    answers (systemVEvent manual) (if value then 1 else 0) calls =
      answers (apiEvent manual) value calls := by
  refine counter_ready (fun n => ⟨rfl, systemVEvent_set manual n⟩) (fun _ => rfl) (fun n => ?_) ?_
    follow
  · intro limit
    simp [systemVEvent]
  · rintro rfl
    exact Nat.one_pos

theorem room_ready (lim : Limits) (n : Nat) : 0 < if n < lim.semValueMax then n + 1 else n := by
  have hlarge := lim.large
  split <;> omega

theorem posixEvent_ready (lim : Limits) (follow : WaitsFollow (· == .set) value calls) :
    answers (posixEvent lim) (if value then 1 else 0) calls =
      answers (apiEvent manual) value calls := by
  refine counter_ready (fun n => ⟨rfl, room_ready lim n⟩) (fun _ => rfl) (fun _ _ => rfl) ?_ follow
  rintro rfl
  exact Nat.one_pos

theorem qnxEvent_ready (lim : Limits) (refused : Int)
    (follow : WaitsFollow (· == .set) value calls) :
    answers (qnxEvent lim refused) 1 calls = answers (apiEvent manual) value calls :=
  counter_ready (fun n => ⟨rfl, room_ready lim n⟩) (fun _ => rfl) (fun _ _ => rfl)
    (fun _ => Nat.one_pos) follow

/-- Linux and System V leave nothing but sets ahead of a wait. -/
theorem follow_of_linux_systemV (linux : WaitsFollow (linuxAllows manual) value calls)
    (systemV : answers (systemVEvent manual) (if value then 1 else 0) calls =
      answers (apiEvent manual) value calls) : WaitsFollow (· == .set) value calls := by
  cases manual with
  | true =>
    have hallows : linuxAllows true = (· == .set) := by
      funext call
      cases call <;> rfl
    rwa [hallows] at linux
  | false =>
    have hunit : decide (0 < if value then 1 else 0) = value := by cases value <;> rfl
    rw [systemVEvent_auto, hunit] at systemV
    have hfollow := follow_of_kinds (fun h => h) (fun h => h) linux systemV
    rwa [Bool.and_self] at hfollow

end Ready

section Claims

variable {ν τ : Type*} [DecidableEq ν] [DecidableEq τ] {objects : Windows.Objects ν τ} {wname : ν}
  {fd : Int} {drv : Linux.Driver} {m : Nat} {name : CStr m} {fresh : Ptr}

/-- A new event answers all calls as its interface says on Windows; on Linux exactly if no
wait comes right after a reset, nor first on an event made without a signal, nor right after
another wait on a manual event. -/
theorem events_agree_iff (t : τ) (newWindows : objects.names wname = none) (hfd : 0 < fd)
    (newLinux : ¬ Linux.Registered drv .event (Linux.paramName name)) (freeLinux : drv.Free fresh)
    (manual value : Bool) (calls : List EventCall) :
    (∃ s' h, objects.call t (.create .event wname (flag manual).toInt (flag value).toInt true) =
        some (s', IPC_OK) ∧ s'.live = h :: objects.live ∧
      AnswersAsApi (WindowsEvents t h) s' manual value calls) ∧
    (let made := Linux.ipcCreateEvent fd drv name (flag manual) (flag value) (some fresh)
    AnswersAsApi (LinuxEvents fd made.2) made.1 manual value calls ↔
      WaitsFollow (linuxAllows manual) value calls) :=
  ⟨windows_new t newWindows manual value calls,
    linux_new hfd newLinux freeLinux manual value calls⟩

/-- An event that resets itself, waited for twice after a set. -/
theorem events_agree_twice :
    let made := Linux.ipcCreateEvent 3 (Linux.ipcProbe fun _ => .zero) CStr.x (flag false)
      (flag true) (some 4096)
    AnswersAsApi (LinuxEvents 3 made.2) made.1 false true
      [.reset, .set, .wait ⟨10, by decide⟩, .wait ⟨20, by decide⟩] :=
  (@events_agree_iff Unit Unit _ _ ⟨fun _ => none, fun _ => none, 0, [], fun _ _ => 0⟩ () 3 _ _
    CStr.x _ () rfl (by decide) (Linux.unregistered_probe .event (Linux.paramName CStr.x))
    Linux.free_probe false true
    [.reset, .set, .wait ⟨10, by decide⟩, .wait ⟨20, by decide⟩]).2.mpr (by decide)

/-- Of the calls on a new event with limits of up to 2147 ms, every library answers those as
the interface says that have every wait right after a set, or first on an event made
signalled. -/
theorem events_portable_iff (t : τ) (newWindows : objects.names wname = none) (hfd : 0 < fd)
    (newLinux : ¬ Linux.Registered drv .event (Linux.paramName name)) (freeLinux : drv.Free fresh)
    {id : Int} (hid : 0 < id) (posix : Limits) {lim : Limits} (failed : Int → Int) (errno : Int)
    {ι : Type*} {s : Qnx.Server} {block : Ptr} (hs : (Qnx.Server.system lim ι).Reachable s)
    (receiving : s.status = .receiving)
    (newQnx : Qnx.findName s.drv .event (name.snprintf 128 Linux.nameSize_pos) = none)
    (freeQnx : s.drv.Free block) (manual value : Bool) (calls : List EventCall)
    (short : ∀ call ∈ calls, call.Short) :
    ∃ windows windowsHandle set systemVHandle manager,
      objects.call t (.create .event wname (flag manual).toInt (flag value).toInt true) =
        some (windows, IPC_OK) ∧ windows.live = windowsHandle :: objects.live ∧
      undoCreateEvent id manual value = some (set, some systemVHandle) ∧
      Qnx.ipcCreateEvent lim failed errno fd s name manual value (some block) =
        some (manager, block) ∧
      let linux := Linux.ipcCreateEvent fd drv name (flag manual) (flag value) (some fresh)
      (AnswersAsApi (WindowsEvents t windowsHandle) windows manual value calls ∧
        AnswersAsApi (LinuxEvents fd linux.2) linux.1 manual value calls ∧
        AnswersAsApi (SystemVEvents systemVHandle) set manual value calls ∧
        AnswersAsApi (PosixEvents posix ⟨.event, ()⟩) (some (if value then 1 else 0)) manual value
          calls ∧
        AnswersAsApi (QnxEvents lim failed fd block) manager manual value calls) ↔
      WaitsFollow (· == .set) value calls := by
  obtain ⟨windows, windowsHandle, hwindows, hlive, onWindows⟩ :=
    windows_new t newWindows manual value calls
  obtain ⟨set, systemVHandle, hset, onSystemV⟩ := systemV_new hid short manual value
  obtain ⟨manager, hmanager, serves⟩ := qnx_new failed errno hfd receiving
    (Qnx.Server.open_reachable hs) newQnx freeQnx manual value
  have onLinux := linux_new hfd newLinux freeLinux manual value calls
  refine ⟨windows, windowsHandle, set, systemVHandle, manager, hwindows, hlive, hset, hmanager, ?_⟩
  constructor
  · rintro ⟨-, linux, systemV, -, -⟩
    exact follow_of_linux_systemV (onLinux.mp linux) (onSystemV.mp systemV)
  · intro follow
    refine ⟨onWindows, onLinux.mpr ?_, onSystemV.mpr (systemVEvent_ready follow), ?_, ?_⟩
    · refine follow.mono (fun call hcall => ?_) fun h => h
      obtain rfl := eq_of_beq hcall
      rfl
    · exact (posix_tracks.answered_iff rfl short _).mpr (posixEvent_ready posix follow)
    · exact ((qnx_tracks hfd).answered_iff serves short _).mpr (qnxEvent_ready lim _ follow)

/-- A manual event made without a signal, set ahead of each wait. -/
theorem events_portable_paired :
    ∃ (windows : Windows.Objects Unit Unit) (windowsHandle : Windows.IpcObject Unit)
      (manager : Qnx.Server),
    let calls := [.set, .wait ⟨10, by decide⟩, .reset, .reset, .set, .set, .wait ⟨2147, by decide⟩]
    AnswersAsApi (WindowsEvents () windowsHandle) windows true false calls ∧
      AnswersAsApi (QnxEvents Qnx.leastLimits id 3 4096) manager true false calls := by
  obtain ⟨windows, windowsHandle, set, systemVHandle, manager, -, -, -, -, hiff⟩ :=
    @events_portable_iff Unit Unit _ _ ⟨fun _ => none, fun _ => none, 0, [], fun _ _ => 0⟩ () 3 _ _
      CStr.x _ () rfl (by decide) (Linux.unregistered_probe .event (Linux.paramName CStr.x))
      Linux.free_probe 1 (by decide) Qnx.leastLimits Qnx.leastLimits id 0 Unit newServer 4096
      newServer_reachable rfl rfl newServer_free true false
      [.set, .wait ⟨10, by decide⟩, .reset, .reset, .set, .set, .wait ⟨2147, by decide⟩]
      (by decide)
  have answered := hiff.mpr (by decide)
  exact ⟨windows, windowsHandle, manager, answered.1, answered.2.2.2.2⟩

end Claims

end Gipcy.Ports
