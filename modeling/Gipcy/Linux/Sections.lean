import Gipcy.Linux.Concurrent

/-! The critical sections step by step, when nobody else moves: a create and a
close leave the memory and the lists as the registry model says. -/
namespace Gipcy.Linux

open CountingSemaphore Transition

namespace Concurrent

variable {ι : Type*} {c : ι} {k : Kind} {mem : Ptr → Entry} {mList : Kind → List Ptr}
  {locks : Kind → Option ι}

/-- The next step of a client, which reads the points of no other. -/
def goOn (m : Moved ι) (c : ι) (kzalloc : Option Ptr) : Option (Moved ι) :=
  step ⟨m.mem, m.mList, m.locks, fun _ => .idle⟩ c .acquired kzalloc m.pc

/-- Client `c` alone gets from one state to another. -/
inductive Goes (c : ι) : Moved ι → Moved ι → Prop where
  | refl {m} : Goes c m m
  | step {m m''} (kzalloc : Option Ptr) (m' : Moved ι) : goOn m c kzalloc = some m' →
      Goes c m' m'' → Goes c m m''

theorem Goes.trans {m m' m'' : Moved ι} (h : Goes c m m') (h' : Goes c m' m'') :
    Goes c m m'' := by
  induction h with
  | refl => exact h'
  | step kzalloc m' hm _ ih => exact .step kzalloc m' hm (ih h')

/-- These are steps of the whole machine. -/
theorem Goes.exec [DecidableEq ι] (init : Concurrent ι → Prop) {m m' : Moved ι}
    (h : Goes c m m') (s : Concurrent ι) :
    ∃ labels, (System.ofNext init next).Exec (s.after c m) labels (s.after c m') ∧
      ∀ a ∈ labels, a.1 = c := by
  induction h with
  | refl => exact ⟨[], .nil _, by simp⟩
  | @step m m'' kzalloc m' hm _ ih =>
    obtain ⟨labels, exec, own⟩ := ih
    have hstep : (s.after c m).step c .acquired kzalloc ((s.after c m).pcs c) = some m' := by
      rw [show (s.after c m).pcs c = m.pc from Function.update_self _ _ _]
      exact hm
    have hafter : (s.after c m).after c m' = s.after c m' := by
      simp [after]
    have first : (System.ofNext init next).step (s.after c m) (c, .step .acquired kzalloc)
        (s.after c m') := Option.map_eq_some_iff.mpr ⟨m', hstep, hafter⟩
    refine ⟨_, .cons first exec, fun a ha => ?_⟩
    rcases List.mem_cons.mp ha with rfl | ha
    · rfl
    · exact own a ha

theorem goes_search (param : IpcCreate) (rest : List Ptr) :
    Goes c ⟨mem, mList, locks, .search k param rest⟩ ⟨mem, mList, locks,
      match rest.find? fun p => decide ((mem p).name = param.name) with
      | some p => .countOwner k p
      | none => .allocate k param⟩ := by
  induction rest with
  | nil => exact .step none _ rfl .refl
  | cons p rest ih =>
    by_cases hp : (mem p).name = param.name
    · refine .step none ⟨mem, mList, locks, .countOwner k p⟩ ?_ ?_
      · simp [goOn, Concurrent.step, hp, moved]
      · simp only [List.find?_cons, hp, decide_true]
        exact .refl
    · refine .step none ⟨mem, mList, locks, .search k param rest⟩ ?_ ?_
      · simp [goOn, Concurrent.step, hp, moved]
      · simpa only [List.find?_cons, hp, decide_false] using ih

theorem goes_fresh (param : IpcCreate) (p : Ptr) (todo : List NewStmt) (mem : Ptr → Entry)
    (mList : Kind → List Ptr) (locks : Kind → Option ι) {e : Entry}
    (h : todo.foldlM (fun e stmt => NewStmt.run k param p .acquired e stmt) (mem p) = some e) :
    Goes c ⟨mem, mList, locks, .fresh k param p todo⟩
      ⟨Function.update mem p e, mList, locks, .fresh k param p []⟩ := by
  induction todo generalizing mem with
  | nil =>
    cases h
    rw [Function.update_eq_self]
    exact .refl
  | cons stmt todo ih =>
    rw [List.foldlM_cons] at h
    obtain ⟨e', he', h⟩ := Option.bind_eq_some_iff.mp h
    have rest := ih (Function.update mem p e') (by rwa [Function.update_self])
    rw [Function.update_idem] at rest
    refine .step none _ ?_ rest
    simp [goOn, Concurrent.step, he', write, moved]

/-- The end of a create, from the increment of the owner count on. -/
theorem goes_countOwner (p : Ptr) :
    Goes c ⟨mem, mList, locks, .countOwner k p⟩
      ⟨(countOwner ⟨mem, mList, 0⟩ p).mem, mList, Function.update locks k none, .idle⟩ :=
  .step none _ rfl (.step none _ rfl .refl)

/-- Taking and giving back a free mutex changes nothing. -/
theorem update_locks (hfree : locks k = none) :
    Function.update (Function.update locks k (some c)) k none = locks := by
  rw [Function.update_idem, ← hfree, Function.update_eq_self]

/-- A create from its `mutex_lock` to its `mutex_unlock`. -/
theorem goes_create (param : IpcCreate) (kzalloc : Option Ptr) (hfree : locks k = none) :
    let r := (registryCreate k (fill k) ⟨mem, mList, 0⟩ param kzalloc).1
    Goes c ⟨mem, mList, locks, .createEnter k param⟩ ⟨r.mem, r.mList, locks, .idle⟩ := by
  intro r
  have enter : goOn ⟨mem, mList, locks, .createEnter k param⟩ c none =
      some ⟨mem, mList, Function.update locks k (some c), .search k param (mList k)⟩ :=
    if_pos hfree
  refine .step none _ enter ((goes_search param (mList k)).trans ?_)
  have hfind : ((mList k).find? fun p => decide ((mem p).name = param.name)) =
      findName ⟨mem, mList, 0⟩ k param.name := rfl
  rw [hfind]
  suffices h : ∀ held : Kind → Option ι, Goes c ⟨mem, mList, held,
      match findName ⟨mem, mList, 0⟩ k param.name with
      | some p => .countOwner k p
      | none => .allocate k param⟩ ⟨r.mem, r.mList, Function.update held k none, .idle⟩ by
    have := h (Function.update locks k (some c))
    rwa [update_locks hfree] at this
  intro held
  cases hname : findName ⟨mem, mList, 0⟩ k param.name with
  | some p =>
    have hr : r = countOwner ⟨mem, mList, 0⟩ p := by
      simp only [r, registryCreate_found kzalloc hname]
    rw [hr]
    exact goes_countOwner p
  | none =>
    cases kzalloc with
    | none =>
      have hr : r = ⟨mem, mList, 0⟩ := by simp only [r, registryCreate_failed hname]
      rw [hr]
      exact .step none _ rfl (.step none _ rfl .refl)
    | some p =>
      -- The statements fill the new entry, then it is listed and counted.
      have hr : r = countOwner ⟨Function.update mem p (fill k param p),
          Function.update mList k (mList k ++ [p]), 0⟩ p := by
        simp [r, registryCreate, hname, Driver.write, Driver.setList]
      rw [hr]
      have hstmts : (newStmts k param).foldlM
          (fun e stmt => NewStmt.run k param p .acquired e stmt)
          (Function.update mem p Entry.zero p) = some (fill k param p) := by
        rw [Function.update_self]
        exact newStmts_fill k param p
      have filled : Goes c ⟨Function.update mem p Entry.zero, mList, held,
          .fresh k param p (newStmts k param)⟩ ⟨Function.update mem p (fill k param p), mList,
          held, .fresh k param p []⟩ := by
        have := goes_fresh (c := c) param p _ (Function.update mem p Entry.zero) mList held hstmts
        rw [Function.update_idem] at this
        exact this
      exact .step (some p) _ rfl (filled.trans (.step none _ rfl (goes_countOwner p)))

/-- The rest of a list without the entry of the close. -/
theorem goes_scan_of_not_mem {p : Ptr} {rest : List Ptr} (h : p ∉ rest) :
    Goes c ⟨mem, mList, locks, .scan k p rest⟩ ⟨mem, mList, locks, .closeLeave k⟩ := by
  induction rest with
  | nil => exact .step none _ rfl .refl
  | cons q rest ih =>
    have hq : p ≠ q := fun e => h (e ▸ List.mem_cons_self)
    have hrest : p ∉ rest := fun hp => h (List.mem_cons_of_mem _ hp)
    refine .step none ⟨mem, mList, locks, .scan k p rest⟩ ?_ (ih hrest)
    simp [goOn, Concurrent.step, Ne.symm hq, moved]

theorem goes_scan {p : Ptr} {rest : List Ptr} (nodup : rest.Nodup) (h : p ∈ rest) :
    Goes c ⟨mem, mList, locks, .scan k p rest⟩
      ⟨Function.update mem p { mem p with ownerCount := (mem p).ownerCount - 1 }, mList, locks,
        if (mem p).ownerCount - 1 = 0 then .listDel k p else .closeLeave k⟩ := by
  induction rest with
  | nil => cases h
  | cons q rest ih =>
    obtain ⟨hq, nodup⟩ := List.nodup_cons.mp nodup
    by_cases e : q = p
    · subst e
      by_cases last : (mem q).ownerCount - 1 = 0
      · refine .step none _ ?_ .refl
        simp [goOn, Concurrent.step, last, write, moved]
      · rw [if_neg last]
        refine .step none _ ?_ (goes_scan_of_not_mem hq)
        simp [goOn, Concurrent.step, last, write, moved]
    · refine .step none ⟨mem, mList, locks, .scan k p rest⟩ ?_
        (ih nodup ((List.mem_cons.mp h).resolve_left (Ne.symm e)))
      simp [goOn, Concurrent.step, e, moved]

/-- A close from its `mutex_lock` to its `mutex_unlock`. -/
theorem goes_close (handle : Ptr) (hfree : locks k = none)
    (wf : Driver.WellFormed ⟨mem, mList, 0⟩) :
    let r := (registryClose k ⟨mem, mList, 0⟩ ⟨handle⟩).1
    Goes c ⟨mem, mList, locks, .closeEnter k handle⟩ ⟨r.mem, r.mList, locks, .idle⟩ := by
  intro r
  have enter : goOn ⟨mem, mList, locks, .closeEnter k handle⟩ c none =
      some ⟨mem, mList, Function.update locks k (some c), .closeCheck k handle⟩ :=
    if_pos hfree
  refine .step none _ enter ?_
  suffices h : ∀ held : Kind → Option ι, Goes c ⟨mem, mList, held, .closeCheck k handle⟩
      ⟨r.mem, r.mList, Function.update held k none, .idle⟩ by
    have := h (Function.update locks k (some c))
    rwa [update_locks hfree] at this
  intro held
  have leave : ∀ {mem mList}, Goes c ⟨mem, mList, held, .closeLeave k⟩
      ⟨mem, mList, Function.update held k none, .idle⟩ := .step none _ rfl .refl
  obtain ⟨p, hp⟩ : ∃ p, containerOf handle = p := ⟨_, rfl⟩
  have check : goOn ⟨mem, mList, held, .closeCheck k handle⟩ c none =
      some ⟨mem, mList, held,
        if p ≠ 0 ∧ (mem p).id = k.id then .scan k p (mList k) else .closeLeave k⟩ := by
    simp only [goOn, Concurrent.step, hp]
    split <;> rfl
  refine .step none _ check ?_
  by_cases hlisted : p ∈ mList k
  · rw [if_pos ⟨fun e => wf.notNull k (e ▸ hlisted), wf.ids k p hlisted⟩]
    refine (goes_scan (wf.nodup k) hlisted).trans ?_
    by_cases last : (mem p).ownerCount = 1
    · have hr := registryClose_last wf ⟨handle⟩ hlisted hp last
      simp only [r, hr, last]
      exact .step none _ rfl (.step none _ rfl leave)
    · have hr := registryClose_busy wf ⟨handle⟩ hlisted hp last
      rw [if_neg (by omega)]
      simp only [r, hr]
      exact leave
  · have hr : registryClose k ⟨mem, mList, 0⟩ ⟨handle⟩ = (⟨mem, mList, 0⟩, -EINVAL) := by
      apply registryClose_unlisted
      rw [hp]
      exact .inr hlisted
    simp only [r, hr]
    split
    · exact (goes_scan_of_not_mem hlisted).trans leave
    · exact leave

/-- The registries, as the model of the critical sections has them. -/
def driver (s : Concurrent ι) : Driver := ⟨s.mem, s.mList, 0⟩

variable [DecidableEq ι] {init : Concurrent ι → Prop} {s : Concurrent ι}

/-- A section that ends with no mutex held, as a run of the whole machine. -/
theorem exec_of_goes {drv : Driver} (h : Goes c ⟨s.mem, s.mList, s.locks, s.pcs c⟩
      ⟨drv.mem, drv.mList, s.locks, .idle⟩) :
    ∃ labels t, (System.ofNext init next).Exec s labels t ∧ (∀ a ∈ labels, a.1 = c) ∧
      t.mem = drv.mem ∧ t.mList = drv.mList ∧ t.locks = s.locks ∧
      t.pcs = Function.update s.pcs c .idle := by
  obtain ⟨labels, exec, own⟩ := h.exec init s
  have hself : s.after c ⟨s.mem, s.mList, s.locks, s.pcs c⟩ = s := by
    simp only [after, Function.update_eq_self]
  rw [hself] at exec
  exact ⟨labels, _, exec, own, rfl, rfl, rfl, rfl⟩

/-- A create that is not disturbed does what its critical section does. -/
theorem create_refines {param : IpcCreate} (hpc : s.pcs c = .createEnter k param)
    (hfree : s.locks k = none) (kzalloc : Option Ptr) :
    let drv := (registryCreate k (fill k) s.driver param kzalloc).1
    ∃ labels t, (System.ofNext init next).Exec s labels t ∧ (∀ a ∈ labels, a.1 = c) ∧
      t.mem = drv.mem ∧ t.mList = drv.mList ∧ t.locks = s.locks ∧
      t.pcs = Function.update s.pcs c .idle := by
  intro drv
  apply exec_of_goes
  rw [hpc]
  exact goes_create param kzalloc hfree

/-- So does a close. -/
theorem close_refines {handle : Ptr} (wf : s.driver.WellFormed)
    (hpc : s.pcs c = .closeEnter k handle) (hfree : s.locks k = none) :
    let drv := (registryClose k s.driver ⟨handle⟩).1
    ∃ labels t, (System.ofNext init next).Exec s labels t ∧ (∀ a ∈ labels, a.1 = c) ∧
      t.mem = drv.mem ∧ t.mList = drv.mList ∧ t.locks = s.locks ∧
      t.pcs = Function.update s.pcs c .idle := by
  intro drv
  apply exec_of_goes
  rw [hpc]
  exact goes_close handle hfree wf

end Concurrent
end Gipcy.Linux
