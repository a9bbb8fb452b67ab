import Gipcy.Linux.Units

/-! How far the signal of an event is binary. A set reads `event_lock_count`,
raises the semaphore and then lowers the counter, in three steps: two sets that
read the counter before either has lowered it both raise. -/
namespace Gipcy.Linux

open CountingSemaphore Transition Clients

namespace Shared

/-- The sets and resets that have passed their guard but not yet done their
`atomic_dec`. -/
def pendingSet : Option Call → Int
  | some call => if call.point = .unlockUp ∨ call.point = .unlockDec then 1 else 0
  | none => 0

theorem pendingSet_nonneg (call : Option Call) : 0 ≤ pendingSet call := by
  cases call with
  | none => exact le_refl 0
  | some call =>
    simp only [pendingSet]
    split
    · exact Int.one_nonneg
    · exact le_refl 0

theorem pendingDec_le_pendingSet (call : Option Call) : pendingDec call ≤ pendingSet call := by
  cases call with
  | none => exact le_refl 0
  | some call =>
    simp only [pendingDec, pendingSet]
    split <;> split <;> simp_all

section Local

variable {call : Call} {how : WaitEnd} {e e' : Entry} {nx : Next}

/-- The counter less the sets under way goes down only where a set or a reset
passes its guard. -/
theorem claimed_access (h : Effect call how e e' nx) (hk : call.kind = .event)
    (hpass : ¬ (call.point = .unlockTest ∧ e.lockCount ≠ 0)) :
    e.lockCount - pendingSet (some call) ≤ e'.lockCount - pendingSet (call.advance nx) := by
  cases h <;>
    simp_all [pendingSet, Call.advance, Entry.incLock, Entry.decLock, Entry.up]

theorem passed_access (h : Effect call how e e' nx) (hk : call.kind = .event)
    (hpass : call.point = .unlockTest ∧ e.lockCount ≠ 0) :
    e'.lockCount = e.lockCount ∧ pendingSet (some call) = 0 ∧
      pendingSet (call.advance nx) = 1 := by
  cases h <;> simp_all [pendingSet, Call.advance]

variable {ι : Type*} (c : ι) (log : List (ι × Event))

/-- A wait takes a unit and a set raises one. -/
theorem signal_access (h : Effect call how e e' nx) (hk : call.kind = .event)
    (hset : call.point = .unlockUp → call.op = .unlock) :
    e'.sema + passes ((events call how nx).map (Prod.mk c) ++ log) -
        sets ((events call how nx).map (Prod.mk c) ++ log) =
      e.sema + passes log - sets log := by
  cases h <;>
    simp_all [events, passes, sets, Entry.incLock, Entry.decLock, Entry.up, post]
  omega

end Local

variable {ι : Type*} [DecidableEq ι] {tid : ι → Int32} {s t : Shared ι}

/-- The call that is about to raise the event, if any, is a set. -/
def OnlySets (s : Shared ι) (a : ι × Act) : Prop :=
  ∀ call, s.calls a.1 = some call → call.point = .unlockUp → call.op = .unlock

theorem signal_next {a : ι × Act} (h : next .event tid s a = some t)
    (fits : ∀ c, Fits .event (tid c) (s.calls c)) (only : OnlySets s a) :
    t.entry.sema + passes t.log - sets t.log = s.entry.sema + passes s.log - sets s.log := by
  obtain ⟨c, act⟩ := a
  cases act with
  | request op timeout =>
    obtain ⟨_, point, _, rfl⟩ := next_request h
    rfl
  | access how =>
    obtain ⟨call, e, nx, hc, effect, rfl⟩ := next_access h
    exact signal_access c s.log effect (fits c call hc).1 (only call hc)

variable [Fintype ι]

/-- A set or a reset that is about to pass its guard finds a count that is not
wholly due to the sets and resets under way. -/
def Claimable (s : Shared ι) (a : ι × Act) : Prop :=
  ∀ call, s.calls a.1 = some call → call.point = .unlockTest → s.entry.lockCount ≠ 0 →
    tally pendingSet s.calls < s.entry.lockCount

theorem claimed_next {a : ι × Act} (h : next .event tid s a = some t)
    (fits : ∀ c, Fits .event (tid c) (s.calls c)) (ok : Claimable s a)
    (claimed : tally pendingSet s.calls ≤ s.entry.lockCount) :
    tally pendingSet t.calls ≤ t.entry.lockCount := by
  obtain ⟨c, act⟩ := a
  cases act with
  | request op timeout =>
    obtain ⟨hc, point, hp, rfl⟩ := next_request h
    have hzero : pendingSet (some ⟨.event, op, timeout, tid c, point⟩) = 0 := by
      cases op <;> cases hp <;> rfl
    rw [tally_update, hc, hzero]
    simpa [pendingSet] using claimed
  | access how =>
    obtain ⟨call, e, nx, hc, effect, rfl⟩ := next_access h
    have hk := (fits c call hc).1
    rw [tally_update, hc]
    by_cases hpass : call.point = .unlockTest ∧ s.entry.lockCount ≠ 0
    · obtain ⟨hcount, hbefore, hafter⟩ := passed_access effect hk hpass
      have := ok call hc hpass.1 hpass.2
      simp only
      omega
    · have := claimed_access effect hk hpass
      simp only
      omega

theorem claimed_reachable {param : IpcCreate} {p : Ptr} {s : Shared ι}
    (h : ((system .event tid (eventFill param p) []).guard Claimable).Reachable s) :
    tally pendingSet s.calls ≤ s.entry.lockCount := by
  have inv : (∀ c, Fits .event (tid c) (s.calls c)) ∧
      tally pendingSet s.calls ≤ s.entry.lockCount := by
    apply h.invariant (I := fun s => (∀ c, Fits .event (tid c) (s.calls c)) ∧
      tally pendingSet s.calls ≤ s.entry.lockCount)
    · rintro s rfl
      refine ⟨fun c call hc => (by cases hc), ?_⟩
      simp [tally, pendingSet, eventFill, Entry.zero]
    · rintro s a t - ⟨fits, ih⟩ ⟨ok, hs⟩
      exact ⟨fits_next hs fits, claimed_next hs fits ok ih⟩
  exact inv.2

/-- The counts while every guard is passed on a count of its own. -/
theorem binary_reachable {param : IpcCreate} {p : Ptr} {s : Shared ι}
    (h : ((system .event tid (eventFill param p) []).guard Claimable).Reachable s) :
    s.entry.sema ≤ 1 ∧ 0 ≤ s.entry.lockCount := by
  have hclaimed := claimed_reachable h
  have hset : 0 ≤ tally pendingSet s.calls := tally_nonneg _ fun c => pendingSet_nonneg _
  have hinc : 0 ≤ tally pendingInc s.calls := tally_nonneg _ fun c => pendingInc_nonneg _
  have hdec : tally pendingDec s.calls ≤ tally pendingSet s.calls :=
    Finset.sum_le_sum fun c _ => pendingDec_le_pendingSet (s.calls c)
  have hlaw := (held_reachable (fun _ _ _ => .inl (by decide)) h).2
  have hone : (eventFill param p).sema + (eventFill param p).lockCount = 1 := rfl
  simp only [held] at hlaw
  exact ⟨by omega, by omega⟩

end Shared

section Claims

variable {ι : Type*} [Fintype ι] [DecidableEq ι]

/-- The signal is binary: the counts stay in their range, and from any state on,
while no further set raises the event, at most one wait passes. -/
def Binary (S : System (Shared ι) (ι × Act)) (segment : Shared ι → ι × Act → Prop) : Prop :=
  ∀ s, S.Reachable s → s.entry.sema ≤ 1 ∧ 0 ≤ s.entry.lockCount ∧
    ∀ labels t, (S.guard segment).Exec s labels t → sets t.log = sets s.log →
      passes t.log ≤ passes s.log + 1

/-- The event is binary in every run in which no set or reset passes its guard
on a count that others under way will take back, and over every stretch in which
no reset raises. -/
theorem event_binary (tid : ι → Int32) (param : IpcCreate) (p : Ptr) :
    Binary ((Shared.system .event tid (eventFill param p) []).guard Shared.Claimable)
      Shared.OnlySets := by
  intro s hs
  obtain ⟨hsema, hcount⟩ := Shared.binary_reachable hs
  refine ⟨hsema, hcount, fun labels t hexec hsets => ?_⟩
  have hfits := (Shared.held_reachable (fun _ _ _ => .inl (by decide)) hs).1
  -- The signal law along the stretch, with what it needs of the state.
  have hlaw : (∀ c, Shared.Fits .event (tid c) (t.calls c)) ∧
      t.entry.sema + passes t.log - sets t.log = s.entry.sema + passes s.log - sets s.log := by
    apply hexec.preserves (I := fun t => (∀ c, Shared.Fits .event (tid c) (t.calls c)) ∧
      t.entry.sema + passes t.log - sets t.log = s.entry.sema + passes s.log - sets s.log)
    · rintro u a v ⟨fits, ih⟩ ⟨only, -, step⟩
      exact ⟨Shared.fits_next step fits, (Shared.signal_next step fits only).trans ih⟩
    · exact ⟨hfits, rfl⟩
  have hfinal : 0 ≤ t.entry.sema := by
    apply hexec.preserves (I := fun t => 0 ≤ t.entry.sema)
    · rintro u a v ih ⟨-, -, step⟩
      exact Shared.sema_next step ih
    · exact Shared.sema_reachable (by decide : (0 : Int) ≤ 1) hs
  have := hlaw.2
  omega

/-- `a` waits, `b` and `c` both read the counter, both raise, both lower it. -/
def twoSets {C : Type} (a b c : C) : List (C × Act) :=
  [(a, .request .lock (-1)), (a, .access .acquired), (a, .access .acquired),
    (b, .request .unlock 0), (c, .request .unlock 0), (b, .access .acquired),
    (c, .access .acquired), (b, .access .acquired), (c, .access .acquired),
    (b, .access .acquired), (c, .access .acquired)]

theorem event_not_binary :
    ¬ ∀ (tid : Fin 3 → Int32) (param : IpcCreate) (p : Ptr),
      Binary (Shared.system .event tid (eventFill param p) []) fun _ _ => True := by
  intro h
  obtain ⟨s, hs, hp⟩ : ∃ s, (Shared.system .event (fun _ : Fin 3 => 0)
      (eventFill ⟨CStr.x, 0, 0, 0⟩ 4096) []).Reachable s ∧ ¬ s.entry.sema ≤ 1 :=
    exists_reachable_of_run _ (twoSets 0 1 2) (fun s => decide (¬ s.entry.sema ≤ 1)) rfl (by decide)
      fun _ _ hp => of_decide_eq_true hp
  exact hp (h _ _ _ s hs).1

end Claims

end Gipcy.Linux
