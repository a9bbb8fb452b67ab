import Gipcy.Linux.SharedApi

/-! What a create or open that returns `NULL` leaves behind. -/
namespace Gipcy.Linux.SharedApi

/-- The same registry: the lists and the entries on them. -/
structure SameRegistry (drv drv' : Driver) : Prop where
  lists : drv'.mList = drv.mList
  entries : ∀ k, ∀ p ∈ drv.mList k, drv'.mem p = drv.mem p

/-- The same registry, names of objects with their sizes, and open descriptors. -/
structure Same (p q : Process) : Prop where
  registry : SameRegistry p.drv q.drv
  linked : q.linked = p.linked
  sizes : ∀ name obj, p.linked name = some obj → q.sizes obj = p.sizes obj
  fds : q.fds = p.fds

/-- The open ioctl gets as far as the registry. -/
def ReachesRegistry (ipcDriverFd : Int) (steps : Steps) : Prop :=
  0 < ipcDriverFd ∧ steps.copyFromUser = true

instance (ipcDriverFd : Int) (steps : Steps) : Decidable (ReachesRegistry ipcDriverFd steps) :=
  inferInstanceAs (Decidable (_ ∧ _))

/-- It finds the name or has memory for it, so that it counts a reference. -/
def TakesReference (ipcDriverFd : Int) (steps : Steps) (drv : Driver) (name : CStr 128) : Prop :=
  ReachesRegistry ipcDriverFd steps ∧ (Registered drv .shm name ∨ steps.kzalloc.isSome)

section Registry

variable {drv : Driver} {k : Kind} {param : IpcCreate} {kzalloc : Option Ptr}

theorem SameRegistry.refl (drv : Driver) : SameRegistry drv drv := ⟨rfl, fun _ _ _ => rfl⟩

/-- The close that follows a create takes its reference back. -/
theorem registryClose_registryCreate (wf : drv.WellFormed)
    (free : ∀ p, kzalloc = some p → drv.Free p) :
    SameRegistry drv (registryClose k (registryCreate k (fill k) drv param kzalloc).1
      ⟨(registryCreate k (fill k) drv param kzalloc).2⟩).1 := by
  have wf' : (registryCreate k (fill k) drv param kzalloc).1.WellFormed := wf.registryCreate free
  cases hfind : findName drv k param.name with
  | some p =>
    obtain ⟨hp, -⟩ := findName_some hfind
    rw [registryCreate_found _ hfind] at wf' ⊢
    -- The name had an owner before, so that it still has one.
    have more : ((countOwner drv p).mem p).ownerCount ≠ 1 := by
      have := wf.owned k p hp
      simp only [countOwner, Driver.write_mem_self]
      omega
    dsimp only
    rw [registryClose_busy wf' ⟨userHandle p⟩ hp (containerOf_userHandle p) more]
    have undone : (countOwner drv p).write p { (countOwner drv p).mem p with
        ownerCount := ((countOwner drv p).mem p).ownerCount - 1 } = drv := by
      simp [countOwner, Driver.write]
    rw [undone]
    exact .refl drv
  | none =>
    cases kzalloc with
    | none =>
      have unlisted : containerOf (userHandle 0) ∉ drv.mList k := by simpa using wf.notNull k
      have closed : registryClose k drv ⟨userHandle 0⟩ = (drv, -EINVAL) :=
        registryClose_unlisted (.inr unlisted)
      rw [registryCreate_failed hfind]
      dsimp only
      rw [closed]
      exact .refl drv
    | some p =>
      obtain ⟨-, hfree⟩ := free p rfl
      rw [registryCreate_new p hfind] at wf' ⊢
      have hp : p ∈ (insertNew drv k param p).mList k := by simp [insertNew]
      have last : ((insertNew drv k param p).mem p).ownerCount = 1 := by simp [insertNew]
      dsimp only
      rw [registryClose_last wf' ⟨userHandle p⟩ hp (containerOf_userHandle p) last]
      constructor
      · funext l
        by_cases hl : l = k
        · subst hl
          simp [insertNew, List.erase_append_right _ (hfree l)]
        · simp [insertNew, Driver.setList_mList_ne _ _ hl]
      · intro l q hq
        have hqp : q ≠ p := fun e => hfree l (e ▸ hq)
        simp [insertNew, Driver.write_mem_ne _ _ hqp]

/-- A create that counts a reference changes the registry. -/
theorem sameRegistry_registryCreate_iff (free : ∀ p, kzalloc = some p → drv.Free p) :
    SameRegistry drv (registryCreate k (fill k) drv param kzalloc).1 ↔
      ¬ (Registered drv k param.name ∨ kzalloc.isSome) := by
  rw [registered_iff]
  cases hfind : findName drv k param.name with
  | some p =>
    obtain ⟨hp, -⟩ := findName_some hfind
    rw [registryCreate_found _ hfind]
    refine iff_of_false ?_ (by simp)
    intro same
    have hcount := congrArg Entry.ownerCount (same.entries k p hp)
    simp only [countOwner, Driver.write_mem_self] at hcount
    omega
  | none =>
    cases kzalloc with
    | none =>
      rw [registryCreate_failed hfind]
      exact iff_of_true (.refl drv) (by simp)
    | some p =>
      obtain ⟨-, hfree⟩ := free p rfl
      rw [registryCreate_new p hfind]
      refine iff_of_false ?_ (by simp)
      intro same
      have hp : p ∈ (insertNew drv k param p).mList k := by simp [insertNew]
      rw [same.lists] at hp
      exact hfree k hp

end Registry

section Steps

variable {ipcDriverFd : Int} {steps : Steps} {m : Nat} {name : CStr m} {size : Int32} {p : Process}

/-- What the driver makes of the open ioctl. -/
def openedRegistry (steps : Steps) (name : CStr m) (size : Int32) (drv : Driver) : Driver × Ptr :=
  registryCreate .shm (fill .shm) drv ⟨paramName name, size, 0, 0⟩ steps.kzalloc

theorem sharedMemoryOpen_refused (refused : ¬ ReachesRegistry ipcDriverFd steps) :
    sharedMemoryOpen ipcDriverFd steps p name size = (p, none) := by
  unfold sharedMemoryOpen
  by_cases hfd : 0 < ipcDriverFd
  · have hcopy : steps.copyFromUser = false := by
      simpa [ReachesRegistry, hfd] using refused
    rw [if_neg (ipcDriverHandle_open hfd)]
    simp only [ioctlShmOpen, ioctlOpen, hcopy, Bool.not_false, ↓reduceIte]
    rfl
  · rw [if_pos (ipcDriverHandle_neg_iff.mpr hfd)]

theorem sharedMemoryOpen_reaches (reaches : ReachesRegistry ipcDriverFd steps) :
    sharedMemoryOpen ipcDriverFd steps p name size =
      ({ p with drv := (openedRegistry steps name size p.drv).1 },
        if steps.copyToUser then some (openedRegistry steps name size p.drv).2 else none) := by
  obtain ⟨hfd, hcopy⟩ := reaches
  have hne : (openedRegistry steps name size p.drv).2 ≠ 0 := by
    unfold openedRegistry registryCreate
    split
    · exact userHandle_ne_zero _
    · split <;> exact userHandle_ne_zero _
  have hopen : ioctlShmOpen p.drv ⟨paramName name, size, 0, 0⟩ steps.copyFromUser
      steps.copyToUser steps.kzalloc = if steps.copyToUser
        then ⟨(openedRegistry steps name size p.drv).1, 0,
          some (openedRegistry steps name size p.drv).2⟩
        else ⟨(openedRegistry steps name size p.drv).1, -EFAULT, none⟩ := by
    change ioctlOpen (registryCreate .shm (fill .shm)) _ _ _ _ _ = _
    cases hto : steps.copyToUser <;> simp [ioctlOpen, hcopy, openedRegistry] at hne ⊢ <;>
      simp [hne]
  unfold sharedMemoryOpen
  rw [if_neg (ipcDriverHandle_open hfd)]
  simp only [hopen]
  cases steps.copyToUser <;> rfl

theorem sharedMemoryClose_drv (hfd : 0 < ipcDriverFd) (copyFromUser : Bool) (handle : Ptr) :
    (sharedMemoryClose ipcDriverFd copyFromUser p handle).1 =
      { p with drv := if copyFromUser then (registryClose .shm p.drv ⟨handle⟩).1 else p.drv } := by
  unfold sharedMemoryClose
  rw [if_neg (ipcDriverHandle_open hfd)]
  cases copyFromUser <;> rfl

/-- Only the registry differs. -/
theorem same_drv_iff (p : Process) (drv : Driver) :
    Same p { p with drv := drv } ↔ SameRegistry p.drv drv :=
  ⟨Same.registry, fun same => ⟨same, rfl, fun _ _ _ => rfl, rfl⟩⟩

theorem not_same_of_fd {p q : Process} {fd : Nat} (unused : p.fds fd = none)
    (opened : (q.fds fd).isSome) : ¬ Same p q := by
  intro same
  rw [same.fds, unused] at opened
  cases opened

end Steps

section Claims

variable {ipcDriverFd : Int} {steps : Steps} {m : Nat} {name : CStr m} {p : Process}

/-- A call that gets as far as its body, whose body fails. -/
theorem same_failed_body_iff (wf : p.drv.WellFormed)
    (free : ∀ q, steps.kzalloc = some q → p.drv.Free q) (unused : p.fds steps.fd = none)
    (hfd : 0 < ipcDriverFd) {opens : Prop} {r : Return} {param : IpcCreate}
    (hparam : param.name = paramName name)
    (outcome : Outcome steps
      { p with drv := (registryCreate .shm (fill .shm) p.drv param steps.kzalloc).1 } opens r) :
    Same p (sharedMemoryClose ipcDriverFd steps.closeCopyFromUser r.process
      (registryCreate .shm (fill .shm) p.drv param steps.kzalloc).2).1 ↔
      ((Registered p.drv .shm (paramName name) ∨ steps.kzalloc.isSome) →
        steps.closeCopyFromUser = true) ∧ ¬ opens := by
  rw [sharedMemoryClose_drv hfd]
  cases outcome with
  | without hnot hprocess _ =>
    rw [hprocess, same_drv_iff]
    cases steps.closeCopyFromUser with
    | true => simpa [hnot] using registryClose_registryCreate wf free
    | false =>
      have hiff : SameRegistry p.drv (registryCreate .shm (fill .shm) p.drv param steps.kzalloc).1 ↔
          ¬ (Registered p.drv .shm param.name ∨ steps.kzalloc.isSome) :=
        sameRegistry_registryCreate_iff free
      simpa [hnot, hparam] using hiff
  | descriptor hopens _ hopened _ =>
    refine iff_of_false (not_same_of_fd unused hopened) ?_
    simp [hopens]

/-- A call that returns `NULL` leaves everything as it was, iff a reference that
its open ioctl counted is both reported to it and taken back, and it fails before
it has the descriptor. -/
theorem failed_leaves_nothing_iff (ipcDriverFd : Int) (steps : Steps) (name : CStr m) (p : Process)
    (call : ShmCall) (wf : p.drv.WellFormed) (free : ∀ q, steps.kzalloc = some q → p.drv.Free q)
    (unused : p.fds steps.fd = none)
    (failed : (ipcShared ipcDriverFd steps name p call).handle = none) :
    Same p (ipcShared ipcDriverFd steps name p call).process ↔
      (TakesReference ipcDriverFd steps p.drv (paramName name) →
        steps.copyToUser = true ∧ steps.closeCopyFromUser = true) ∧
      ¬ (ReachesRegistry ipcDriverFd steps ∧ steps.copyToUser = true ∧
        ObtainsFd steps p (ipcName name) call) := by
  rw [ipcShared_process]
  rw [ipcShared_handle] at failed
  unfold registered at failed ⊢
  by_cases reaches : ReachesRegistry ipcDriverFd steps
  · rw [sharedMemoryOpen_reaches reaches] at failed ⊢
    unfold openedRegistry at failed ⊢
    cases hcopy : steps.copyToUser with
    | false =>
      simp only [Bool.false_eq_true, ↓reduceIte]
      rw [same_drv_iff, sameRegistry_registryCreate_iff free]
      simp [TakesReference, reaches]
    | true =>
      simp only [hcopy, ↓reduceIte] at failed ⊢
      have outcome := bodyOf_outcome steps name call
        { p with drv := (registryCreate .shm (fill .shm) p.drv ⟨paramName name, call.size, 0, 0⟩
          steps.kzalloc).1 }
        (registryCreate .shm (fill .shm) p.drv ⟨paramName name, call.size, 0, 0⟩ steps.kzalloc).2
      have hopens : ∀ drv, ObtainsFd steps { p with drv := drv } (ipcName name) call =
          ObtainsFd steps p (ipcName name) call := by
        intro drv
        cases call <;> rfl
      rw [hopens] at outcome
      generalize bodyOf steps name call _ _ = r at outcome failed ⊢
      cases hr : r.handle with
      | some h => simp [hr] at failed
      | none =>
        simp only
        rw [same_failed_body_iff wf free unused reaches.1 rfl outcome]
        simp [TakesReference, reaches]
  · rw [sharedMemoryOpen_refused reaches]
    refine iff_of_true ?_ ?_
    · exact (same_drv_iff p p.drv).mpr (.refl p.drv)
    · simp [TakesReference, reaches]

/-- The memory of the handle is refused: the registration is taken back. -/
theorem failed_leaves_nothing_malloc :
    let r := ipcShared 1 { Steps.succeed with malloc := false } CStr.x newProcess (.create 8)
    r.handle = none ∧ Same newProcess r.process :=
  ⟨by decide +kernel, (failed_leaves_nothing_iff 1 { Steps.succeed with malloc := false } CStr.x
    newProcess (.create 8) (ipcProbe_wellFormed _) (by rintro _ ⟨⟩; exact free_probe) rfl
    (by decide +kernel)).mpr ⟨fun _ => ⟨rfl, rfl⟩, by decide⟩⟩

/-- The `ftruncate` of a new object fails: its descriptor stays open. -/
theorem failed_leaves_something : ¬ ∀ (ipcDriverFd : Int) (steps : Steps) (m : Nat) (name : CStr m)
    (p : Process) (call : ShmCall), p.drv.WellFormed →
    (∀ q, steps.kzalloc = some q → p.drv.Free q) → p.fds steps.fd = none →
    (ipcShared ipcDriverFd steps name p call).handle = none →
    Same p (ipcShared ipcDriverFd steps name p call).process := by
  intro h
  have same := h 1 { Steps.succeed with ftruncate := false } 128 CStr.x newProcess (.create 8)
    (ipcProbe_wellFormed _) (by rintro _ ⟨⟩; exact free_probe) rfl (by decide +kernel)
  refine not_same_of_fd (show newProcess.fds 3 = none from rfl) ?_ same
  decide +kernel

end Claims

end Gipcy.Linux.SharedApi
