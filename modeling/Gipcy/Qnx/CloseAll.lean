import Gipcy.Lib.EraseLoop
import Gipcy.Qnx.Registry

/-! The `close_all` functions of the four kinds, and the `remove_instance` that
calls them when the manager ends. -/
namespace Gipcy.Qnx

open PosixSemaphore Transition EraseLoop
open Linux (CStr Ptr Kind)

/-- The memory, `used_counter`, and what was passed to `free`, in order. -/
structure Sweep where
  mem : Ptr → Entry
  usedCounter : Nat
  freed : List Ptr

/-- The body of the loop, but for the `erase` that ends it. -/
def closeAllBody (destroy : Entry → Entry) (s : Sweep) (entry : Ptr) : Sweep :=
  if (s.mem entry).ownerCount = 0 then
    { s with
      mem := Function.update s.mem entry (destroy (s.mem entry))
      freed := s.freed ++ [entry] }
  else { s with usedCounter := s.usedCounter + 1, freed := s.freed ++ [entry] }

structure ClosedAll where
  error : Int
  freed : List Ptr

/-- The text shared by the four functions. -/
def registryCloseAll (lim : Limits) (k : Kind) (destroy : Entry → Entry) (drv : Driver) :
    Result ClosedAll :=
  semWaitLock k drv fun drv =>
    let after := eraseLoop (closeAllBody destroy) 0 (drv.mList k) ⟨drv.mem, 0, []⟩
    .done (semPostLock lim k ({ drv with mem := after.1.mem }.setList k after.2))
      ⟨if after.1.usedCounter ≠ 0 then -EBUSY else 0, after.1.freed⟩

def ipcSemCloseAll (lim : Limits) := registryCloseAll lim .sem Entry.destroy
def ipcMutexCloseAll (lim : Limits) := registryCloseAll lim .mutex Entry.destroy
def ipcEventCloseAll (lim : Limits) := registryCloseAll lim .event Entry.destroy
def ipcShmCloseAll (lim : Limits) := registryCloseAll lim .shm fun e => e

def closeAllOf (lim : Limits) : Kind → Driver → Result ClosedAll
  | .sem => ipcSemCloseAll lim
  | .mutex => ipcMutexCloseAll lim
  | .event => ipcEventCloseAll lim
  | .shm => ipcShmCloseAll lim

def Result.bind {α β : Type} (r : Result α) (rest : Driver → α → Result β) : Result β :=
  match r with
  | .done drv value => rest drv value
  | .waits drv on => .waits drv on
  | .undefined => .undefined

/-- The results of the four calls are dropped; the value is what was freed. -/
def removeInstance (lim : Limits) (drv : Driver) : Result (List Ptr) :=
  (ipcSemCloseAll lim drv).bind fun drv sems =>
  (ipcMutexCloseAll lim drv).bind fun drv mutexes =>
  (ipcEventCloseAll lim drv).bind fun drv events =>
  (ipcShmCloseAll lim drv).bind fun drv shms =>
  .done { drv with mList := fun _ => [], lock := fun _ => none }
    (sems.freed ++ mutexes.freed ++ events.freed ++ shms.freed)

/-- The registry is empty afterwards, each entry was freed once and nothing else
was, and `-EBUSY` tells whether one still had an owner. -/
def ClosesAll (lim : Limits) (k : Kind) (drv : Driver) : Prop :=
  ∃ drv' r, closeAllOf lim k drv = .done drv' r ∧ drv'.mList k = [] ∧
    (∀ p, r.freed.count p = if p ∈ drv.mList k then 1 else 0) ∧
    (r.error = -EBUSY ↔ ∃ p ∈ drv.mList k, (drv.mem p).ownerCount ≠ 0)

section Steps

variable {lim : Limits} {drv : Driver} {k : Kind} {destroy : Entry → Entry}

/-- What the loop does to the entries that it comes to. -/
theorem foldl_closeAllBody (owners : ∀ e, (destroy e).ownerCount = e.ownerCount) (list : List Ptr)
    (s : Sweep) :
    (list.foldl (closeAllBody destroy) s).freed = s.freed ++ list ∧
    (list.foldl (closeAllBody destroy) s).usedCounter =
      s.usedCounter + list.countP fun p => (s.mem p).ownerCount ≠ 0 := by
  induction list generalizing s with
  | nil => simp
  | cons p rest ih =>
    have hmem : ∀ q, ((closeAllBody destroy s p).mem q).ownerCount = (s.mem q).ownerCount := by
      intro q
      unfold closeAllBody
      split
      · by_cases hq : q = p
        · subst hq
          simp [owners]
        · simp [hq]
      · rfl
    obtain ⟨hfreed, hused⟩ := ih (closeAllBody destroy s p)
    simp only [hmem] at hused
    constructor
    · rw [List.foldl_cons, hfreed]
      unfold closeAllBody
      split <;> simp
    · rw [List.foldl_cons, hused]
      unfold closeAllBody
      split
      · rename_i hzero
        simp [hzero]
      · rename_i hused
        simp [hused]
        omega

theorem semWaitLock_enters {α : Type} (free : drv.lock k ≠ some 0) (rest : Driver → Result α) :
    ∃ sem, semWaitLock k drv rest = rest (drv.setLock k sem) := by
  unfold semWaitLock
  cases hwait : semWait (drv.lock k) with
  | took sem => exact ⟨sem, rfl⟩
  | blocks => exact absurd (semWait_eq_blocks_iff.mp hwait) free
  | invalid => exact ⟨drv.lock k, by simp [Driver.setLock]⟩

/-- A registry that nobody is inside: every other entry stays on its list. -/
theorem registryCloseAll_ends (lim : Limits)
    (owners : ∀ e, (destroy e).ownerCount = e.ownerCount) (free : drv.lock k ≠ some 0) :
    ∃ drv' r, registryCloseAll lim k destroy drv = .done drv' r ∧
      drv'.mList = Function.update drv.mList k (skipped (drv.mList k)) ∧
      (∀ l, l ≠ k → drv'.lock l = drv.lock l) ∧ r.freed = erased (drv.mList k) ∧
      (r.error = -EBUSY ↔ ∃ p ∈ erased (drv.mList k), (drv.mem p).ownerCount ≠ 0) := by
  unfold registryCloseAll
  obtain ⟨sem, hsem⟩ := semWaitLock_enters free (fun drv => _)
  rw [hsem, Driver.setLock_mList, eraseLoop_zero]
  obtain ⟨hfreed, hused⟩ := foldl_closeAllBody owners (erased (drv.mList k)) ⟨drv.mem, 0, []⟩
  refine ⟨_, _, rfl, rfl, ?_, hfreed, ?_⟩
  · intro l hl
    exact (Driver.setLock_lock_ne _ _ hl).trans (drv.setLock_lock_ne _ hl)
  · have hcount : (erased (drv.mList k)).countP (fun p => (drv.mem p).ownerCount ≠ 0) ≠ 0 ↔
        ∃ p ∈ erased (drv.mList k), (drv.mem p).ownerCount ≠ 0 := by
      simp [List.countP_eq_zero]
    rw [← hcount]
    show (if _ ≠ 0 then -EBUSY else 0) = -EBUSY ↔ _
    rw [Driver.setLock_mem, hused, Nat.zero_add]
    split
    · rename_i h
      exact iff_of_true rfl h
    · rename_i h
      exact iff_of_false (by decide) h

theorem closeAllOf_ends (lim : Limits) (free : drv.lock k ≠ some 0) :
    ∃ drv' r, closeAllOf lim k drv = .done drv' r ∧
      drv'.mList = Function.update drv.mList k (skipped (drv.mList k)) ∧
      (∀ l, l ≠ k → drv'.lock l = drv.lock l) ∧ r.freed = erased (drv.mList k) ∧
      (r.error = -EBUSY ↔ ∃ p ∈ erased (drv.mList k), (drv.mem p).ownerCount ≠ 0) := by
  cases k <;> exact registryCloseAll_ends lim (fun _ => rfl) free

theorem closeAllOf_blocks (lim : Limits) (held : drv.lock k = some 0) :
    closeAllOf lim k drv = .waits drv (.registry k) := by
  cases k <;>
    simp only [closeAllOf, ipcSemCloseAll, ipcMutexCloseAll, ipcEventCloseAll, ipcShmCloseAll,
      registryCloseAll, semWaitLock, held, semWait]

/-- What `remove_instance` frees and what it forgets. -/
theorem removeInstance_ends (lim : Limits) (h : Open drv) :
    ∃ drv', removeInstance lim drv = .done drv' (erased (drv.mList .sem) ++
        erased (drv.mList .mutex) ++ erased (drv.mList .event) ++ erased (drv.mList .shm)) ∧
      ∀ k, drv'.mList k = [] := by
  have free : ∀ k, drv.lock k ≠ some 0 := by
    intro k hk
    obtain ⟨n, hn⟩ := h k
    rw [hn] at hk
    cases hk
  obtain ⟨drv₁, sems, heq₁, hlist₁, hlock₁, hsems, -⟩ := closeAllOf_ends lim (free .sem)
  have free₁ : ∀ l, l ≠ .sem → drv₁.lock l ≠ some 0 := fun l hl => hlock₁ l hl ▸ free l
  obtain ⟨drv₂, mutexes, heq₂, hlist₂, hlock₂, hmutexes, -⟩ :=
    closeAllOf_ends lim (free₁ .mutex (by decide))
  have free₂ : ∀ l, l ≠ .sem → l ≠ .mutex → drv₂.lock l ≠ some 0 := fun l hs hm =>
    hlock₂ l hm ▸ free₁ l hs
  obtain ⟨drv₃, events, heq₃, hlist₃, hlock₃, hevents, -⟩ :=
    closeAllOf_ends lim (free₂ .event (by decide) (by decide))
  have free₃ : drv₃.lock .shm ≠ some 0 :=
    hlock₃ .shm (by decide) ▸ free₂ .shm (by decide) (by decide)
  obtain ⟨drv₄, shms, heq₄, -, -, hshms, -⟩ := closeAllOf_ends lim free₃
  refine ⟨{ drv₄ with mList := fun _ => [], lock := fun _ => none }, ?_, fun _ => rfl⟩
  have hsem : ipcSemCloseAll lim drv = .done drv₁ sems := heq₁
  have hmutex : ipcMutexCloseAll lim drv₁ = .done drv₂ mutexes := heq₂
  have hevent : ipcEventCloseAll lim drv₂ = .done drv₃ events := heq₃
  have hshm : ipcShmCloseAll lim drv₃ = .done drv₄ shms := heq₄
  simp only [removeInstance, hsem, hmutex, hevent, hshm, Result.bind]
  simp [hsems, hmutexes, hevents, hshms, hlist₁, hlist₂, hlist₃]

/-- The entries that `remove_instance` does not free are those that share a list
with another one. -/
theorem removeInstance_frees_iff (lim : Limits) (h : Open drv) (wf : drv.WellFormed)
    {drv' : Driver} {freed : List Ptr} (hremove : removeInstance lim drv = .done drv' freed) :
    (∀ k, ∀ p ∈ drv.mList k, p ∈ freed) ↔ ∀ k, (drv.mList k).length ≤ 1 := by
  obtain ⟨after, heq, -⟩ := removeInstance_ends lim h
  obtain ⟨rfl, rfl⟩ := Result.done.inj (heq.symm.trans hremove)
  have hmem : ∀ p, p ∈ erased (drv.mList .sem) ++ erased (drv.mList .mutex) ++
      erased (drv.mList .event) ++ erased (drv.mList .shm) ↔ ∃ k, p ∈ erased (drv.mList k) := by
    intro p
    simp only [List.mem_append]
    constructor
    · rintro (((hp | hp) | hp) | hp) <;> exact ⟨_, hp⟩
    · rintro ⟨k, hp⟩
      cases k <;> simp [hp]
  have hsub : ∀ k p, p ∈ erased (drv.mList k) → p ∈ drv.mList k := fun k p hp =>
    (erased_append_skipped (drv.mList k)).subset (List.mem_append_left _ hp)
  simp only [hmem]
  constructor
  · intro all k
    rw [← skipped_eq_nil_iff, List.eq_nil_iff_forall_not_mem]
    intro p hskipped
    have hp : p ∈ drv.mList k :=
      (erased_append_skipped (drv.mList k)).subset (List.mem_append_right _ hskipped)
    obtain ⟨l, hl⟩ := all k p hp
    cases wf.kind k l p hp (hsub l p hl)
    have hnodup := (erased_append_skipped (drv.mList k)).nodup_iff.mpr (wf.nodup k)
    exact (List.nodup_append.mp hnodup).2.2 p hl p hskipped rfl
  · intro short k p hp
    have hnil := skipped_eq_nil_iff.mpr (short k)
    have hperm := erased_append_skipped (drv.mList k)
    rw [hnil, List.append_nil] at hperm
    exact ⟨k, hperm.symm.subset hp⟩

/-- An emptied list was none that the loop passes over an entry of. -/
theorem ClosesAll.short (h : ClosesAll lim k drv) :
    drv.lock k ≠ some 0 ∧ (drv.mList k).length ≤ 1 := by
  obtain ⟨drv', r, heq, hnil, -⟩ := h
  have free : drv.lock k ≠ some 0 := by
    intro held
    rw [closeAllOf_blocks lim held] at heq
    cases heq
  obtain ⟨drv'', r', heq', hlist, -⟩ := closeAllOf_ends lim free
  obtain ⟨rfl, rfl⟩ := Result.done.inj (heq.symm.trans heq')
  rw [hlist, Function.update_self] at hnil
  exact ⟨free, skipped_eq_nil_iff.mp hnil⟩

end Steps

section Claims

/-- A `close_all` does its work exactly when nobody is inside the registry and
there is at most one entry. -/
theorem close_all_iff (lim : Limits) (k : Kind) (drv : Driver) :
    ClosesAll lim k drv ↔ drv.lock k ≠ some 0 ∧ (drv.mList k).length ≤ 1 := by
  constructor
  · exact ClosesAll.short
  · rintro ⟨free, short⟩
    obtain ⟨drv', r, heq, hlist, -, hfreed, herror⟩ := closeAllOf_ends lim free
    have hempty : drv'.mList k = [] := by
      rw [hlist, Function.update_self]
      exact skipped_eq_nil_iff.mpr short
    have hnodup : (drv.mList k).Nodup := nodup_of_length_le_one short
    rw [erased_eq_self short] at hfreed herror
    refine ⟨drv', r, heq, hempty, ?_, herror⟩
    intro p
    rw [hfreed, hnodup.count]

/-- Two semaphores are made, and one is left. -/
theorem close_all_leaves :
    ¬ ∀ (lim : Limits) (s : Server), (Server.system lim Unit).Reachable s →
      ∀ k, ClosesAll lim k s.drv := by
  intro h
  obtain ⟨s, hs, htwo⟩ : ∃ s, (Server.system leastLimits Unit).Reachable s ∧
      (s.drv.mList .sem).length = 2 := by
    refine exists_reachable_of_run
      ⟨createInstance leastLimits fun _ => Entry.zero, .receiving, none⟩
      [((), .request (.create .sem ⟨CStr.x, 1, 0⟩) (some 4096)),
        ((), .request (.create .sem ⟨CStr.y, 1, 0⟩) (some 8192))]
      (fun s => decide ((s.drv.mList .sem).length = 2)) ⟨_, rfl⟩
      (by decide +kernel) fun s _ hp => of_decide_eq_true hp
  have hshort := (h leastLimits s hs .sem).short.2
  omega

end Claims

end Gipcy.Qnx
