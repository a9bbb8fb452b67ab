import Gipcy.Qnx.Registry

/-! A create of a name and the close of the handle that it returns, on any
registry. -/
namespace Gipcy.Qnx

open PosixSemaphore Transition
open Linux (CStr Ptr Kind)

/-- Each list holds what it held, and no entry on one has changed. -/
structure SameRegistries (drv drv' : Driver) : Prop where
  lists : drv'.mList = drv.mList
  entries : ∀ k, ∀ p ∈ drv.mList k, drv'.mem p = drv.mem p

/-- A create of the name, then a close of its handle. -/
def CloseUndoes (lim : Limits) (k : Kind) (drv : Driver) (param : IpcCreate)
    (malloc : Option Ptr) : Prop :=
  ∃ drv₁ handle drv₂, createOf lim k drv param malloc = .done drv₁ handle ∧
    closeOf lim k drv₁ ⟨handle⟩ =
      .done drv₂ (if findName drv k param.name = none then 0 else -EBUSY) ∧
    SameRegistries drv drv₂

/-- A close that finds no entry of its kind. -/
def Refuses (lim : Limits) (k : Kind) (drv : Driver) (handle : Ptr) : Prop :=
  ∃ drv', closeOf lim k drv ⟨handle⟩ = .done drv' (-EINVAL) ∧
    drv'.mList = drv.mList ∧ drv'.mem = drv.mem

/-- The kinds whose close takes its own entries for entries. -/
def ChecksOwnKind (k : Kind) : Prop := k = .sem ∨ k = .mutex

/-- The owners of an entry were not counted up to zero again. -/
def NotWrapped (k : Kind) (drv : Driver) (name : CStr 128) : Prop :=
  ∀ p, findName drv k name = some p → (drv.mem p).ownerCount ≠ 0

/-- The memory that a create gets; a new name needs some. -/
structure Allocates (k : Kind) (drv : Driver) (name : CStr 128) (malloc : Option Ptr) : Prop where
  free : ∀ p, malloc = some p → drv.Free p
  memory : findName drv k name = none → malloc ≠ none

section Steps

variable {lim : Limits} {drv : Driver} {k : Kind} {p : Ptr}

theorem acceptsOf_iff {e : Entry} (hid : e.idOf k = k.id) :
    acceptsOf k e = true ↔ ChecksOwnKind k := by
  cases k <;> simp [acceptsOf, ChecksOwnKind, hid] <;> decide

theorem Ends.refuses {handle : Ptr} (h : Ends k (closeOf lim k drv ⟨handle⟩) drv (-EINVAL)) :
    Refuses lim k drv handle := by
  obtain ⟨sem, -, heq⟩ := h
  exact ⟨_, heq, rfl, rfl⟩

theorem mem_of_findName {name : CStr 128} (h : findName drv k name = some p) :
    p ∈ drv.mList k := List.mem_of_find?_eq_some h

/-- The two calls one after the other, where each is known. -/
theorem closeUndoes_iff {param : IpcCreate} {malloc : Option Ptr} {after last : Driver}
    {handle : Ptr} {error : Int} (hcreate : createOf lim k drv param malloc = .done after handle)
    (hclose : Ends k (closeOf lim k after ⟨handle⟩) last error) :
    CloseUndoes lim k drv param malloc ↔
      error = (if findName drv k param.name = none then 0 else -EBUSY) ∧
        SameRegistries drv last := by
  obtain ⟨sem, -, hclose⟩ := hclose
  constructor
  · rintro ⟨drv₁, handle', drv₂, hcreate', hclose', same⟩
    obtain ⟨rfl, rfl⟩ := Result.done.inj (hcreate.symm.trans hcreate')
    obtain ⟨rfl, rfl⟩ := Result.done.inj (hclose.symm.trans hclose')
    exact ⟨rfl, same.lists, same.entries⟩
  · rintro ⟨rfl, same⟩
    exact ⟨_, _, _, hcreate, hclose, same.lists, same.entries⟩

/-- A close that is refused undoes nothing. -/
theorem not_closeUndoes_of_refused {param : IpcCreate} {malloc : Option Ptr} {after : Driver}
    {handle : Ptr} (hcreate : createOf lim k drv param malloc = .done after handle)
    (hclose : Ends k (closeOf lim k after ⟨handle⟩) after (-EINVAL)) :
    ¬ CloseUndoes lim k drv param malloc := by
  rw [closeUndoes_iff hcreate hclose]
  rintro ⟨herror, -⟩
  split at herror <;> exact absurd herror (by decide)

/-- The owner that the create counted is taken back. -/
theorem closeUndoes_found (h : Open drv) (wf : drv.WellFormed) {param : IpcCreate}
    (malloc : Option Ptr) (hfind : findName drv k param.name = some p) :
    CloseUndoes lim k drv param malloc ↔ ChecksOwnKind k ∧ (drv.mem p).ownerCount ≠ 0 := by
  have hp := mem_of_findName hfind
  obtain ⟨sem, hup, hcreate⟩ := registryCreate_found lim (initOf lim k) malloc h hfind
  rw [← createOf_eq, wf.handle k p hp] at hcreate
  have hopen : Open ((countOwner drv p).setLock k sem) := h.setLock hup
  have hcounted : (countOwner drv p).WellFormed := wf.write rfl fun _ => rfl
  have hwf := hcounted.setLock k sem
  have hcount : ((countOwner drv p).setLock k sem).mem p =
      { drv.mem p with ownerCount := (drv.mem p).ownerCount + 1 } := drv.write_mem_self p _
  have checks := acceptsOf_iff (hwf.id k p hp)
  by_cases own : ChecksOwnKind k
  · rw [and_iff_right own]
    by_cases wrapped : (drv.mem p).ownerCount = 0
    · -- The create counts from 0 to 1, so the close takes the entry away.
      have hclose := closeOf_last lim hopen (hwf.nodup k) hp (hwf.notNull k p hp)
        (checks.mpr own) (by rw [hcount, wrapped]; rfl)
      rw [closeUndoes_iff hcreate hclose]
      refine iff_of_false ?_ fun h => h wrapped
      rintro ⟨herror, -⟩
      simp only [hfind, reduceCtorEq, ↓reduceIte] at herror
      exact absurd herror (by decide)
    · have hclose := closeOf_busy lim hopen (hwf.nodup k) hp (hwf.notNull k p hp)
        (checks.mpr own) (by rw [hcount]; simpa using wrapped)
      rw [closeUndoes_iff hcreate hclose]
      refine iff_of_true ⟨by simp [hfind], rfl, ?_⟩ wrapped
      intro l q hq
      by_cases hqp : q = p
      · subst hqp
        rw [Driver.write_mem_self, hcount]
        simp
      · rw [Driver.write_mem_ne _ _ hqp]
        exact drv.write_mem_ne _ hqp
  · have refused := Bool.eq_false_iff.mpr fun ha => own (checks.mp ha)
    have hnot := not_closeUndoes_of_refused hcreate (closeOf_refused lim hopen (.inr refused))
    exact iff_of_false hnot fun h => own h.1

/-- The entry that the create made is taken away. -/
theorem closeUndoes_new (h : Open drv) (wf : drv.WellFormed) {param : IpcCreate}
    (free : drv.Free p) (hfind : findName drv k param.name = none) :
    CloseUndoes lim k drv param (some p) ↔ ChecksOwnKind k := by
  obtain ⟨sem, hup, hcreate⟩ := registryCreate_new lim (initOf lim k) p h hfind
  rw [← createOf_eq] at hcreate
  have hwf := (wf.insertEntry free k (initOf lim k param.value) param.name).setLock k sem
  have hopen : Open ((insertEntry k (initOf lim k param.value) drv param.name p).setLock k sem) :=
    h.setLock hup
  have hlist : ((insertEntry k (initOf lim k param.value) drv param.name p).setLock k sem).mList k =
      drv.mList k ++ [p] := by
    simp [insertEntry]
  have hp : p ∈ ((insertEntry k (initOf lim k param.value) drv param.name p).setLock k sem).mList k
      := by
    simp [hlist]
  have hmem : ((insertEntry k (initOf lim k param.value) drv param.name p).setLock k sem).mem p =
      newEntry k (initOf lim k param.value) param.name p := drv.write_mem_self p _
  have checks := acceptsOf_iff (hwf.id k p hp)
  by_cases own : ChecksOwnKind k
  · have hclose := closeOf_last lim hopen (hwf.nodup k) hp free.1 (checks.mpr own)
      (by rw [hmem]; rfl)
    rw [closeUndoes_iff hcreate hclose]
    refine iff_of_true ⟨by simp [hfind], ?_, ?_⟩ own
    · funext l
      by_cases hl : l = k
      · subst hl
        rw [Driver.setList_mList_self, hlist, List.erase_append_right _ (free.2 l)]
        simp
      · rw [Driver.setList_mList_ne _ _ _ _ hl]
        exact drv.setList_mList_ne k l _ hl
    · intro l q hq
      have hqp : q ≠ p := fun e => free.2 l (e ▸ hq)
      rw [Driver.setList_mem, Driver.write_mem_ne _ _ hqp]
      exact free.write_mem _ hq
  · have refused := Bool.eq_false_iff.mpr fun ha => own (checks.mp ha)
    have hnot := not_closeUndoes_of_refused hcreate (closeOf_refused lim hopen (.inr refused))
    exact iff_of_false hnot own

end Steps

section Claims

/-- A close undoes the create of its handle for the two kinds whose close checks
for their own number, unless the owners of the name were counted to zero by
overflow. A close of anything that is not listed is refused for every kind. -/
theorem close_undoes_iff (lim : Limits) {ι : Type*} {s : Server}
    (hs : (Server.system lim ι).Reachable s) (k : Kind) :
    (∀ param malloc, Allocates k s.drv param.name malloc →
      (CloseUndoes lim k s.drv param malloc ↔
        ChecksOwnKind k ∧ NotWrapped k s.drv param.name)) ∧
    ∀ handle, handle ∉ s.drv.mList k → Refuses lim k s.drv handle := by
  have h := Server.open_reachable hs
  have wf := Server.wellFormed_reachable hs
  constructor
  · intro param malloc alloc
    cases hfind : findName s.drv k param.name with
    | some p =>
      rw [closeUndoes_found h wf malloc hfind]
      simp [NotWrapped, hfind]
    | none =>
      cases malloc with
      | none => exact absurd rfl (alloc.memory hfind)
      | some p =>
        rw [closeUndoes_new h wf (alloc.free p rfl) hfind]
        simp [NotWrapped, hfind]
  · intro handle hlist
    exact (closeOf_refused lim h (.inl hlist)).refuses

/-- A manager that no client has called yet. -/
def freshServer : Server := ⟨createInstance leastLimits fun _ => .zero, .receiving, none⟩

theorem freshServer_reachable : (Server.system leastLimits Unit).Reachable freshServer :=
  .init ⟨_, rfl⟩

theorem freshServer_allocates (k : Kind) : Allocates k freshServer.drv CStr.x (some 4096) where
  free := by
    rintro p ⟨⟩
    decide
  memory := by simp

/-- A semaphore comes and goes. -/
theorem close_undoes_sem :
    CloseUndoes leastLimits .sem freshServer.drv ⟨CStr.x, 1, 0⟩ (some 4096) :=
  ((close_undoes_iff leastLimits freshServer_reachable .sem).1 ⟨CStr.x, 1, 0⟩ (some 4096)
    (freshServer_allocates .sem)).mpr ⟨.inl rfl, by simp [NotWrapped, findName, freshServer,
      createInstance]⟩

/-- The close of a new event is refused. -/
theorem close_not_undoes :
    ¬ ∀ (lim : Limits) (s : Server), (Server.system lim Unit).Reachable s →
      ∀ k param malloc, Allocates k s.drv param.name malloc →
        CloseUndoes lim k s.drv param malloc := by
  intro h
  have hundoes := h leastLimits freshServer freshServer_reachable .event ⟨CStr.x, 1, 0⟩ (some 4096)
    (freshServer_allocates .event)
  rw [closeUndoes_new (Server.open_reachable freshServer_reachable)
    (Server.wellFormed_reachable freshServer_reachable)
    ((freshServer_allocates .event).free 4096 rfl) rfl] at hundoes
  exact absurd hundoes (by simp [ChecksOwnKind])

end Claims

end Gipcy.Qnx
