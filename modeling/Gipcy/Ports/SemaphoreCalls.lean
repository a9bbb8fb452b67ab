import Gipcy.Lib.Budget
import Gipcy.Linux.Calls
import Gipcy.Qnx.Insys

/-! The semaphore calls of both ports against the initial value. Both libraries
send the value 1 whatever they are given, and the QNX manager answers a lock that
found no unit as one that took it. -/
namespace Gipcy.Ports

open CountingSemaphore PosixSemaphore Budget
open Linux (CStr Ptr Kind IPC_OK ipcDriverHandle ipcDriverHandle_open)

inductive SemCall where
  | lock
  | unlock
deriving DecidableEq

/-- What a call adds to the units that are left if every lock succeeds. -/
def SemCall.weight : SemCall → Int
  | .lock => -1
  | .unlock => 1

/-- The answers of the locks, where `b` is the initial value with the unlocks so
far and without the successful locks so far. -/
def Honours : Int → List SemCall → List Int → Prop
  | _, [], answers => answers = []
  | b, .unlock :: calls, answers => Honours (b + 1) calls answers
  | b, .lock :: calls, r :: answers =>
    (r = IPC_OK ↔ 0 < b) ∧ Honours (if r = IPC_OK then b - 1 else b) calls answers
  | _, .lock :: _, [] => False

/-- Calls on one handle, one after the other, with the answers of the locks. A
lock has the timeout 0. -/
inductive LinuxRun (fd : Int) (handle : Ptr) : Linux.Driver → List SemCall → List Int → Prop where
  | nil (drv) : LinuxRun fd handle drv [] []
  | unlock {drv calls answers} :
      LinuxRun fd handle (Linux.ipcUnlockSemaphore fd drv handle).1 calls answers →
      LinuxRun fd handle drv (.unlock :: calls) answers
  | lock {drv how r calls answers} :
      Linux.ipcLockSemaphore fd drv drv handle 0 how = some r →
      LinuxRun fd handle r.after calls answers →
      LinuxRun fd handle drv (.lock :: calls) (r.error :: answers)

/-- The same over the manager, which reads its clock for every lock; the `errno` of a
deadline is positive. -/
inductive QnxRun (lim : Limits) (failed : Int → Int) (fd : Int) (handle : Ptr) :
    Qnx.Server → List SemCall → List Int → Prop where
  | nil (s) : QnxRun lim failed fd handle s [] []
  | unlock {s errno r calls answers} : 0 < errno →
      Qnx.ipcUnlockSemaphore lim failed errno fd s handle = some r →
      QnxRun lim failed fd handle r.1 calls answers →
      QnxRun lim failed fd handle s (.unlock :: calls) answers
  | lock {s errno clock r calls answers} : 0 < errno →
      Qnx.ipcLockSemaphore lim failed errno fd s handle 0 clock = some r →
      QnxRun lim failed fd handle r.1 calls answers →
      QnxRun lim failed fd handle s (.lock :: calls) (r.2 :: answers)

/-! The Linux port is a counter. -/

/-- The answers of a semaphore with `n` units. -/
def linuxAnswers : Nat → List SemCall → List Int
  | _, [] => []
  | n, .unlock :: calls => linuxAnswers (n + 1) calls
  | n + 1, .lock :: calls => IPC_OK :: linuxAnswers n calls
  | 0, .lock :: calls => -1 :: linuxAnswers 0 calls

/-- The entry at `p` is a semaphore with `n` units. -/
structure Holds (drv : Linux.Driver) (p : Ptr) (n : Nat) : Prop where
  notNull : p ≠ 0
  id : (drv.mem p).id = Kind.sem.id
  sema : (drv.mem p).sema = n

section Linux

variable {fd : Int} {drv : Linux.Driver} {p : Ptr} {n : Nat}

theorem Holds.exists (h : Holds drv p n) :
    Linux.handleExists .sem drv (Linux.userHandle p) = true := by
  simp [Linux.handleExists, Linux.userHandle_ne_zero, h.notNull, h.id]

theorem holds_create (hfd : 0 < fd) {m : Nat} {name : CStr m}
    (new : ¬ Linux.Registered drv .sem (Linux.paramName name)) {fresh : Ptr}
    (free : drv.Free fresh) (value : Int32) :
    ∃ after, Linux.ipcCreateSemaphore fd drv name value (some fresh) =
        (after, Linux.userHandle fresh) ∧ Holds after fresh 1 := by
  have hfind : Linux.findName drv .sem (Linux.paramName name) = none := by
    rw [Linux.registered_iff] at new
    exact Option.not_isSome_iff_eq_none.mp new
  have hmade : Linux.ipcCreateSemaphore fd drv name value (some fresh) = _ :=
    Linux.createObject_eq hfd .sem _ _
  rw [Linux.registryCreate_new fresh hfind] at hmade
  refine ⟨_, hmade, free.1, ?_, ?_⟩
  · simp [Linux.insertNew]
  · simp only [Linux.insertNew, Linux.Driver.setList_mem, Linux.Driver.write_mem_self]
    rfl

theorem holds_unlock (hfd : 0 < fd) (h : Holds drv p n) :
    Holds (Linux.ipcUnlockSemaphore fd drv (Linux.userHandle p)).1 p (n + 1) := by
  have hpost : Linux.ipcSemUnlock drv ⟨Linux.userHandle p, 0⟩ =
      (drv.write p (drv.mem p).up.decLock, 0) := by
    simp [Linux.ipcSemUnlock, h.exists]
  rw [Linux.ipcUnlockSemaphore, Linux.ioctlSemUnlock, Linux.unlockObject_ok hfd hpost]
  refine ⟨h.notNull, ?_, ?_⟩ <;>
    simp [Linux.Entry.up, Linux.Entry.decLock, post, h.id, h.sema]

/-- What a lock call with the timeout 0 makes of its wait. -/
theorem ipcLockSemaphore_eq (hfd : 0 < fd) (h : Holds drv p n) (how : WaitEnd) :
    Linux.ipcLockSemaphore fd drv drv (Linux.userHandle p) 0 how =
      ((drv.mem p).down .timed how).map fun e =>
        if how = .acquired then ⟨drv, drv.write p e.incLock, IPC_OK⟩
        else ⟨drv, drv.write p e, -1⟩ := by
  rw [Linux.ipcLockSemaphore, if_neg (ipcDriverHandle_open hfd)]
  simp only [Linux.ioctlSemLock, Linux.ioctlLock, Linux.ipcLock, Bool.not_true, Bool.false_eq_true,
    ↓reduceIte, Linux.ipcSemLock, h.exists, Linux.containerOf_userHandle]
  rw [if_neg (by decide), Option.map_map]
  congr 1
  funext e
  by_cases hhow : how = .acquired <;> simp [hhow, Linux.sysIoctl, Linux.ETIME]

theorem holds_lock (hfd : 0 < fd) (h : Holds drv p n) {how : WaitEnd} {r : Linux.Outcome}
    (hr : Linux.ipcLockSemaphore fd drv drv (Linux.userHandle p) 0 how = some r) :
    (r.error = if n = 0 then -1 else IPC_OK) ∧ Holds r.after p (n - 1) := by
  rw [ipcLockSemaphore_eq hfd h] at hr
  obtain ⟨e, he, rfl⟩ := Option.map_eq_some_iff.mp hr
  have hsema := h.sema
  rcases Linux.Entry.down_timed he with ⟨rfl, hpos, rfl⟩ | ⟨rfl, hzero, rfl⟩
  · have hn : n ≠ 0 := by omega
    refine ⟨by rw [if_neg hn]; rfl, h.notNull, ?_, ?_⟩
    · simp [Linux.Entry.incLock, h.id]
    · simp only [if_true, Linux.Driver.write_mem_self, Linux.Entry.incLock, hsema]
      omega
  · have hn : n = 0 := by omega
    subst hn
    exact ⟨rfl, h.notNull, by simp [h.id], by simpa using hsema⟩

/-- A lock with the timeout 0 always ends. -/
theorem exists_lock (hfd : 0 < fd) (h : Holds drv p n) :
    ∃ how r, Linux.ipcLockSemaphore fd drv drv (Linux.userHandle p) 0 how = some r := by
  refine ⟨if n = 0 then .timedOut else .acquired, ?_⟩
  apply Option.isSome_iff_exists.mp
  rw [ipcLockSemaphore_eq hfd h, Option.isSome_map, Linux.Entry.down, Option.isSome_map, h.sema]
  by_cases hn : n = 0
  · subst hn
    rfl
  · have hpos : (0 : Int) < n := by omega
    simp [hn, wait_of_pos hpos]

theorem linuxRun_iff (hfd : 0 < fd) (h : Holds drv p n) (calls : List SemCall)
    (answers : List Int) :
    LinuxRun fd (Linux.userHandle p) drv calls answers ↔ answers = linuxAnswers n calls := by
  induction calls generalizing drv n answers with
  | nil =>
    constructor
    · rintro ⟨⟩
      rfl
    · rintro rfl
      exact .nil drv
  | cons call calls ih =>
    cases call with
    | unlock =>
      have hunlock := ih (holds_unlock hfd h) answers
      constructor
      · rintro (_ | hrun)
        exact hunlock.mp hrun
      · exact fun he => .unlock (hunlock.mpr he)
    | lock =>
      constructor
      · intro hrun
        cases hrun with
        | lock hr rest =>
          obtain ⟨herror, hafter⟩ := holds_lock hfd h hr
          rw [(ih hafter _).mp rest, herror]
          cases n <;> rfl
      · rintro rfl
        obtain ⟨how, r, hr⟩ := exists_lock hfd h
        obtain ⟨herror, hafter⟩ := holds_lock hfd h hr
        have rest := LinuxRun.lock hr ((ih hafter _).mpr rfl)
        rw [herror] at rest
        cases n <;> exact rest

end Linux

/-- A counter that starts `d` units too low honours the value as long as nobody
takes the last units, one that starts too high as long as nobody asks for more. -/
theorem honours_linuxAnswers (d : Int) (n : Nat) (calls : List SemCall) (h : 0 ≤ n + min d 0) :
    Honours (n + d) calls (linuxAnswers n calls) ↔
      d = 0 ∨ Solvent SemCall.weight (n + min d 0) calls := by
  have hrefused : (-1 : Int) ≠ IPC_OK := by decide
  induction calls generalizing n with
  | nil => simp [Honours, linuxAnswers, solvent_nil, h]
  | cons call calls ih =>
    rw [solvent_cons, and_iff_right h]
    cases call with
    | unlock =>
      have hstep := ih (n + 1) (by omega)
      have hb : ((n + 1 : Nat) : Int) + d = n + d + 1 := by omega
      have hs : ((n + 1 : Nat) : Int) + min d 0 = n + min d 0 + 1 := by omega
      rw [hb, hs] at hstep
      exact hstep
    | lock =>
      cases n with
      | zero =>
        -- The semaphore refuses, and a budget of at least 0 must be used up.
        have hstep := ih 0 h
        have hover : ¬ Solvent SemCall.weight ((0 : Nat) + min d 0 + -1) calls := fun hs => by
          have := hs.nonneg
          omega
        simp only [Honours, linuxAnswers, SemCall.weight, hover, or_false, hrefused, if_false,
          false_iff]
        constructor
        · intro hd
          omega
        · intro hd
          exact ⟨by omega, hstep.mpr (.inl hd)⟩
      | succ n =>
        -- The semaphore grants, and the budget must not be used up.
        have hb : ((n + 1 : Nat) : Int) + d - 1 = n + d := by omega
        have hs : ((n + 1 : Nat) : Int) + min d 0 + -1 = n + min d 0 := by omega
        simp only [Honours, linuxAnswers, SemCall.weight, hb, hs, true_iff, if_true]
        by_cases hleft : 0 ≤ n + min d 0
        · exact (and_iff_right (by omega)).trans (ih n hleft)
        · have hover : ¬ Solvent SemCall.weight (n + min d 0) calls := fun hs => hleft hs.nonneg
          refine iff_of_false (fun hh => ?_) ?_
          · omega
          · simp only [hover, or_false]
            omega

/-! The QNX port grants every lock. -/

/-- The answers of a semaphore that never refuses. -/
def qnxAnswers : List SemCall → List Int
  | [] => []
  | .unlock :: calls => qnxAnswers calls
  | .lock :: calls => IPC_OK :: qnxAnswers calls

theorem honours_qnxAnswers (b : Int) (calls : List SemCall) (h : 0 ≤ b) :
    Honours b calls (qnxAnswers calls) ↔ Solvent SemCall.weight b calls := by
  induction calls generalizing b with
  | nil => simp [Honours, qnxAnswers, solvent_nil, h]
  | cons call calls ih =>
    rw [solvent_cons, and_iff_right h]
    cases call with
    | unlock => exact ih (b + 1) (by omega)
    | lock =>
      simp only [Honours, qnxAnswers, SemCall.weight, true_iff, if_true]
      by_cases hb : 0 < b
      · rw [and_iff_right hb]
        exact ih (b - 1) (by omega)
      · have hover : ¬ Solvent SemCall.weight (b + -1) calls := fun hs => by
          have := hs.nonneg
          omega
        exact iff_of_false (fun hh => hb hh.1) hover

/-- The manager receives, and the entry at `p` is a semaphore. -/
structure Serving (s : Qnx.Server) (p : Ptr) : Prop where
  receiving : s.status = .receiving
  isOpen : Qnx.Open s.drv
  exist : Qnx.handleExists .sem s.drv p
  sema : ∃ n, (s.drv.mem p).sema = some n

section Qnx

variable {fd : Int} {s : Qnx.Server} {p : Ptr}

theorem serving_left {t : Qnx.Server} {drv : Qnx.Driver} (left : t.Left .sem drv)
    (hopen : Qnx.Open drv) (exist : Qnx.handleExists .sem drv p)
    (sema : ∃ n, (drv.mem p).sema = some n) : Serving t p := by
  obtain ⟨receiving, sem, hup, hdrv⟩ := left
  exact ⟨receiving, hdrv ▸ hopen.setLock hup, hdrv ▸ exist, hdrv ▸ sema⟩

theorem serving_create (lim : Limits) (failed : Int → Int) (errno : Int) (hfd : 0 < fd)
    (receiving : s.status = .receiving) (hopen : Qnx.Open s.drv) {m : Nat} {name : CStr m}
    (new : Qnx.findName s.drv .sem (Qnx.paramName name) = none) (free : s.drv.Free p)
    (value : Int32) :
    ∃ t, Qnx.ipcCreateSemaphore lim failed errno fd s name value (some p) = some (t, p) ∧
      Serving t p := by
  have hends := Qnx.semCreate_new lim hopen (show Qnx.findName s.drv .sem
    (⟨Qnx.paramName name, 1, 0⟩ : Qnx.IpcCreate).name = none from new) free.1
  obtain ⟨t, left, hcall⟩ := Qnx.Server.call_ends errno receiving
    (fun q hq => Option.some.inj hq ▸ free) hends
  refine ⟨t, ?_, serving_left left (hopen.of_lock_eq rfl) ⟨free.1, ?_⟩ ⟨1, ?_⟩⟩
  · rw [Qnx.ipcCreateSemaphore, if_neg (ipcDriverHandle_open hfd), hcall]
    rfl
  · simp [Qnx.insertSem, Qnx.insertEntry, Qnx.newEntry]
  · have hlarge := lim.large
    simp only [Qnx.insertSem, Qnx.insertEntry, Qnx.newEntry, Qnx.Driver.setList_mem,
      Qnx.Driver.write_mem_self, Qnx.Entry.setId_sema, semInit]
    rw [show (Int32.toUInt32 1).toNat = 1 from rfl, if_pos (by omega)]

theorem serving_unlock (lim : Limits) (failed : Int → Int) (errno : Int) (hfd : 0 < fd)
    (h : Serving s p) :
    ∃ t, Qnx.ipcUnlockSemaphore lim failed errno fd s p = some (t, IPC_OK) ∧ Serving t p := by
  obtain ⟨n, hn⟩ := h.sema
  obtain ⟨t, left, hcall⟩ := Qnx.Server.call_ends errno h.receiving (by simp)
    (Qnx.unlock_ends lim none (by decide) h.isOpen h.exist)
  refine ⟨t, ?_, serving_left left (h.isOpen.of_lock_eq rfl) (h.exist.write rfl) ?_⟩
  · rw [Qnx.ipcUnlockSemaphore, if_neg (ipcDriverHandle_open hfd), hcall]
    rfl
  · simp [hn, semPost]

/-- With a unit or without one, the answer is success. -/
theorem serving_lock (lim : Limits) (failed : Int → Int) {errno : Int} (herrno : 0 < errno)
    (hfd : 0 < fd) (clock : Qnx.Clock) (h : Serving s p) :
    ∃ t, Qnx.ipcLockSemaphore lim failed errno fd s p 0 clock = some (t, IPC_OK) ∧
      Serving t p := by
  obtain ⟨n, hn⟩ := h.sema
  cases n with
  | zero =>
    obtain ⟨t, left, hcall⟩ := Qnx.Server.call_waits lim errno (by decide) h.receiving
      h.isOpen (show ¬ (0 : Int32) < 0 by decide) clock.takes_zero h.exist hn
    refine ⟨t, ?_, serving_left left h.isOpen h.exist h.sema⟩
    have hreply : Qnx.Reply.ofError (Qnx.lockFailed .sem errno) = .ok none :=
      if_neg (Int.not_lt.mpr (Int.le_of_lt herrno))
    rw [Qnx.ipcLockSemaphore, if_neg (ipcDriverHandle_open hfd), hcall, hreply]
    rfl
  | succ n =>
    obtain ⟨t, left, hcall⟩ := Qnx.Server.call_ends errno h.receiving (by simp)
      (Qnx.lock_took lim none (by decide) h.isOpen h.exist hn clock.takes_zero)
    refine ⟨t, ?_, serving_left left (h.isOpen.of_lock_eq rfl) (h.exist.write rfl) ?_⟩
    · rw [Qnx.ipcLockSemaphore, if_neg (ipcDriverHandle_open hfd), hcall]
      rfl
    · simp

theorem qnxRun_iff (lim : Limits) (failed : Int → Int) (hfd : 0 < fd) (h : Serving s p)
    (calls : List SemCall) (answers : List Int) :
    QnxRun lim failed fd p s calls answers ↔ answers = qnxAnswers calls := by
  induction calls generalizing s answers with
  | nil =>
    constructor
    · rintro ⟨⟩
      rfl
    · rintro rfl
      exact .nil s
  | cons call calls ih =>
    cases call with
    | unlock =>
      constructor
      · intro hrun
        cases hrun with
        | @unlock _ errno _ _ _ herrno hr rest =>
          obtain ⟨t, ht, hserving⟩ := serving_unlock lim failed errno hfd h
          cases ht.symm.trans hr
          exact (ih hserving answers).mp rest
      · intro he
        obtain ⟨t, ht, hserving⟩ := serving_unlock lim failed 1 hfd h
        exact .unlock Int.one_pos ht ((ih hserving answers).mpr he)
    | lock =>
      constructor
      · intro hrun
        cases hrun with
        | @lock _ errno clock _ _ _ herrno hr rest =>
          obtain ⟨t, ht, hserving⟩ := serving_lock lim failed herrno hfd clock h
          cases ht.symm.trans hr
          rw [(ih hserving _).mp rest]
          rfl
      · rintro rfl
        obtain ⟨t, ht, hserving⟩ := serving_lock lim failed Int.one_pos hfd .zero h
        exact .lock Int.one_pos ht ((ih hserving _).mpr rfl)

end Qnx

section Claims

variable {fd : Int} {m : Nat}

theorem linux_value_iff (hfd : 0 < fd) (name : CStr m) (value : Int32) (hvalue : 0 ≤ value.toInt)
    (calls : List SemCall) {drv : Linux.Driver} {fresh : Ptr}
    (new : ¬ Linux.Registered drv .sem (Linux.paramName name)) (free : drv.Free fresh) :
    let made := Linux.ipcCreateSemaphore fd drv name value (some fresh)
    (∃ answers, LinuxRun fd made.2 made.1 calls answers) ∧
    ((∀ answers, LinuxRun fd made.2 made.1 calls answers → Honours value.toInt calls answers) ↔
      (value.toInt = 1 ∨ Solvent SemCall.weight (min value.toInt 1) calls)) := by
  intro made
  obtain ⟨after, hmade, hholds⟩ := holds_create hfd new free value
  have hrun := linuxRun_iff hfd hholds calls
  simp only [made, hmade, hrun, forall_eq]
  refine ⟨⟨_, rfl⟩, ?_⟩
  have hbudget := honours_linuxAnswers (value.toInt - 1) 1 calls (by omega)
  have hb : ((1 : Nat) : Int) + (value.toInt - 1) = value.toInt := by omega
  have hs : ((1 : Nat) : Int) + min (value.toInt - 1) 0 = min value.toInt 1 := by omega
  rw [hb, hs] at hbudget
  exact hbudget.trans (or_congr_left (by omega))

theorem qnx_value_iff (hfd : 0 < fd) (name : CStr m) (value : Int32) (hvalue : 0 ≤ value.toInt)
    (calls : List SemCall) {lim : Limits} (failed : Int → Int) (errno : Int) {ι : Type*}
    {s : Qnx.Server} {block : Ptr} (hs : (Qnx.Server.system lim ι).Reachable s)
    (receiving : s.status = .receiving)
    (new : Qnx.findName s.drv .sem (Qnx.paramName name) = none) (free : s.drv.Free block) :
    ∃ t, Qnx.ipcCreateSemaphore lim failed errno fd s name value (some block) = some (t, block) ∧
    (∃ answers, QnxRun lim failed fd block t calls answers) ∧
    ((∀ answers, QnxRun lim failed fd block t calls answers → Honours value.toInt calls answers) ↔
      Solvent SemCall.weight value.toInt calls) := by
  obtain ⟨t, hmade, hserving⟩ := serving_create lim failed errno hfd receiving
    (Qnx.Server.open_reachable hs) new free value
  refine ⟨t, hmade, ?_⟩
  simp only [qnxRun_iff lim failed hfd hserving, forall_eq]
  exact ⟨⟨_, rfl⟩, honours_qnxAnswers value.toInt calls hvalue⟩

/-- The value given to a new semaphore is honoured on Linux if it is 1 or nobody
asks for more than there is, on QNX only if nobody asks for more than there is. -/
theorem initial_value_iff (hfd : 0 < fd) (name : CStr m) (value : Int32)
    (hvalue : 0 ≤ value.toInt) (calls : List SemCall) {drv : Linux.Driver} {fresh : Ptr}
    (newLinux : ¬ Linux.Registered drv .sem (Linux.paramName name)) (freeLinux : drv.Free fresh)
    {lim : Limits} (failed : Int → Int) (errno : Int) {ι : Type*} {s : Qnx.Server} {block : Ptr}
    (hs : (Qnx.Server.system lim ι).Reachable s) (receiving : s.status = .receiving)
    (newQnx : Qnx.findName s.drv .sem (Qnx.paramName name) = none) (freeQnx : s.drv.Free block) :
    (let made := Linux.ipcCreateSemaphore fd drv name value (some fresh)
    (∃ answers, LinuxRun fd made.2 made.1 calls answers) ∧
    ((∀ answers, LinuxRun fd made.2 made.1 calls answers → Honours value.toInt calls answers) ↔
      (value.toInt = 1 ∨ Solvent SemCall.weight (min value.toInt 1) calls))) ∧
    ∃ t, Qnx.ipcCreateSemaphore lim failed errno fd s name value (some block) = some (t, block) ∧
    (∃ answers, QnxRun lim failed fd block t calls answers) ∧
    ((∀ answers, QnxRun lim failed fd block t calls answers → Honours value.toInt calls answers) ↔
      Solvent SemCall.weight value.toInt calls) :=
  ⟨linux_value_iff hfd name value hvalue calls newLinux freeLinux,
    qnx_value_iff hfd name value hvalue calls failed errno hs receiving newQnx freeQnx⟩

/-- A new manager, for examples. -/
def newServer : Qnx.Server := ⟨Qnx.createInstance Qnx.leastLimits fun _ => .zero, .receiving, none⟩

theorem newServer_reachable : (Qnx.Server.system Qnx.leastLimits Unit).Reachable newServer :=
  .init ⟨_, rfl⟩

theorem newServer_free : newServer.drv.Free 4096 := by decide

/-- A semaphore with one unit, taken, given back and taken again. -/
theorem initial_value_one :
    (let made := Linux.ipcCreateSemaphore 3 (Linux.ipcProbe fun _ => .zero) CStr.x 1 (some 4096)
    ∀ answers, LinuxRun 3 made.2 made.1 [.lock, .unlock, .lock] answers →
      Honours 1 [.lock, .unlock, .lock] answers) ∧
    ∃ t, Qnx.ipcCreateSemaphore Qnx.leastLimits id 260 3 newServer CStr.x 1 (some 4096) =
        some (t, 4096) ∧
      ∀ answers, QnxRun Qnx.leastLimits id 3 4096 t [.lock, .unlock, .lock] answers →
        Honours 1 [.lock, .unlock, .lock] answers := by
  have hsolvent : Solvent SemCall.weight 1 [.lock, .unlock, .lock] := by
    simp [solvent_cons, solvent_nil, SemCall.weight]
  obtain ⟨⟨-, hlinux⟩, t, hmade, -, hqnx⟩ :=
    initial_value_iff (by decide : (0 : Int) < 3) CStr.x 1 (by decide) [.lock, .unlock, .lock]
      (Linux.unregistered_probe .sem (Linux.paramName CStr.x)) Linux.free_probe id 260
      newServer_reachable rfl rfl newServer_free
  exact ⟨hlinux.mpr (.inl rfl), t, hmade, hqnx.mpr hsolvent⟩

/-- On Linux a semaphore of value 0 is locked at once, on QNX one of value 1 is
locked twice. -/
theorem initial_value_ignored :
    (¬ ∀ (fd : Int) (drv : Linux.Driver) (m : Nat) (name : CStr m) (fresh : Ptr) (value : Int32)
        (calls : List SemCall), 0 < fd → ¬ Linux.Registered drv .sem (Linux.paramName name) →
      drv.Free fresh → 0 ≤ value.toInt →
      let made := Linux.ipcCreateSemaphore fd drv name value (some fresh)
      ∀ answers, LinuxRun fd made.2 made.1 calls answers → Honours value.toInt calls answers) ∧
    ¬ ∀ (lim : Limits) (failed : Int → Int) (errno fd : Int) (s : Qnx.Server) (m : Nat)
        (name : CStr m) (block : Ptr) (value : Int32) (calls : List SemCall), 0 < fd →
      (Qnx.Server.system lim Unit).Reachable s → s.status = .receiving →
      Qnx.findName s.drv .sem (Qnx.paramName name) = none → s.drv.Free block →
      0 ≤ value.toInt → ∀ t,
      Qnx.ipcCreateSemaphore lim failed errno fd s name value (some block) = some (t, block) →
      ∀ answers, QnxRun lim failed fd block t calls answers →
        Honours value.toInt calls answers := by
  have hfd : (0 : Int) < 3 := by decide
  constructor
  · intro h
    have new := Linux.unregistered_probe .sem (Linux.paramName CStr.x)
    have honoured := h 3 _ _ CStr.x 4096 0 [.lock] hfd new Linux.free_probe (by decide)
    have hsolvent := (linux_value_iff hfd CStr.x 0 (by decide) [.lock] new
      Linux.free_probe).2.mp honoured
    simp only [solvent_cons, solvent_nil, SemCall.weight] at hsolvent
    exact absurd hsolvent (by decide)
  · intro h
    obtain ⟨t, hmade, -, hqnx⟩ := qnx_value_iff hfd CStr.x 1 (by decide) [.lock, .lock] id 260
      newServer_reachable rfl rfl newServer_free
    have hsolvent := hqnx.mp (h Qnx.leastLimits id 260 3 newServer _ CStr.x 4096 1 [.lock, .lock]
      hfd newServer_reachable rfl rfl newServer_free (by decide) t hmade)
    simp only [solvent_cons, solvent_nil, SemCall.weight] at hsolvent
    exact absurd hsolvent (by decide)

end Claims

end Gipcy.Ports
