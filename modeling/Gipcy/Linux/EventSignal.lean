import Gipcy.Linux.EventBinary

/-! A set is not lost. The driver raises the event only if `event_lock_count` is
not zero; between two steps of a call the counter is the number of units that the
semaphore lacks, so a set that finds it at zero finds a unit. -/
namespace Gipcy.Linux

open CountingSemaphore Transition Clients

namespace Shared

variable {ι : Type*} [DecidableEq ι] {tid : ι → Int32} {s t u : Shared ι} {c : ι}

/-- No call stands between its step on the semaphore and its step on the counter. -/
def Settled (s : Shared ι) : Prop := ∀ c, pendingInc (s.calls c) = 0 ∧ pendingDec (s.calls c) = 0

instance [Fintype ι] (s : Shared ι) : Decidable (Settled s) :=
  inferInstanceAs (Decidable (∀ _, _ ∧ _))

/-- Only the client moves, and it makes no further request. -/
def Alone (c : ι) (_ : Shared ι) (a : ι × Act) : Prop := a.1 = c ∧ ∃ how, a.2 = .access how

/-- Where a set is that ran alone from an entry on. -/
inductive Setting (e : Entry) : Option Call → Entry → Prop where
  | testing {call} : call.point = .unlockTest → Setting e (some call) e
  | raising {call} : call.point = .unlockUp → e.lockCount ≠ 0 → Setting e (some call) e
  | counting {call} : call.point = .unlockDec → Setting e (some call) e.up
  | raised : Setting e none e.up.decLock
  | kept : e.lockCount = 0 → Setting e none e

section Local

variable {call : Call} {how : WaitEnd} {e e' : Entry} {nx : Next}

theorem Setting.access {first : Entry} (h : Setting first (some call) e) (hk : call.kind = .event)
    (effect : Effect call how e e' nx) : Setting first (call.advance nx) e' := by
  cases h with
  | testing hp =>
    cases effect with
    | notLocked _ _ hzero => exact .kept hzero
    | locked _ _ hcount => exact .raising rfl hcount
    | _ => simp_all
  | raising hp _ =>
    cases effect with
    | raised _ => exact .counting rfl
    | _ => simp_all
  | counting hp =>
    cases effect with
    | uncounted _ => exact .raised
    | _ => simp_all

end Local

theorem setting_next {first : Entry} {a : ι × Act} (alone : Alone c s a)
    (h : next .event tid s a = some t) (fits : ∀ c, Fits .event (tid c) (s.calls c))
    (set : Setting first (s.calls c) s.entry) :
    Setting first (t.calls c) t.entry ∧ ∀ d, d ≠ c → t.calls d = s.calls d := by
  obtain ⟨d, act⟩ := a
  obtain ⟨rfl, how, rfl⟩ := alone
  obtain ⟨call, e, nx, hc, effect, rfl⟩ := next_access h
  rw [hc] at set
  refine ⟨?_, fun c hne => Function.update_of_ne hne _ _⟩
  simpa using set.access (fits d call hc).1 effect

/-- A set that is alone to its end. -/
theorem set_alone {entry : Entry} {log : List (ι × Event)} {timeout : Int32}
    {labels : List (ι × Act)} (fits : ∀ c, Fits .event (tid c) (s.calls c))
    (request : next .event tid s (c, .request .unlock timeout) = some u)
    (alone : ((system .event tid entry log).guard (Alone c)).Exec u labels t) :
    Setting s.entry (t.calls c) t.entry ∧ ∀ d, d ≠ c → t.calls d = s.calls d := by
  have inv : (∀ d, Fits .event (tid d) (t.calls d)) ∧ Setting s.entry (t.calls c) t.entry ∧
      ∀ d, d ≠ c → t.calls d = s.calls d := by
    apply alone.preserves (I := fun t => (∀ d, Fits .event (tid d) (t.calls d)) ∧
      Setting s.entry (t.calls c) t.entry ∧ ∀ d, d ≠ c → t.calls d = s.calls d)
    · rintro v a w ⟨fits, set, others⟩ ⟨alone, step⟩
      obtain ⟨hset, hothers⟩ := setting_next alone step fits set
      exact ⟨fits_next step fits, hset, fun d hd => (hothers d hd).trans (others d hd)⟩
    · refine ⟨fits_next request fits, ?_⟩
      obtain ⟨_, point, hp, rfl⟩ := next_request request
      cases hp
      refine ⟨?_, fun d hd => Function.update_of_ne hd _ _⟩
      simpa using Setting.testing rfl
  exact inv.2

/-- One access of a client whose table of accesses allows it. -/
theorem alone_access {entry : Entry} {log : List (ι × Event)} {call : Call} {e : Entry} {nx : Next}
    (hc : s.calls c = some call) (ha : Linux.access call .acquired s.entry = some (e, nx)) :
    ((system .event tid entry log).guard (Alone c)).step s (c, .access .acquired)
      ⟨e, Function.update s.calls c (call.advance nx),
        (events call .acquired nx).map (Prod.mk c) ++ s.log⟩ := by
  refine ⟨⟨rfl, .acquired, rfl⟩, ?_⟩
  show next .event tid s _ = _
  simp only [next, hc, ha, Option.map_some]

/-- A request of an idle client. -/
theorem idle_request (tid : ι → Int32) (idle : s.calls c = none) (op : Op) {point : Point}
    (hp : firstPoint .event op = some point) (timeout : Int32) :
    next .event tid s (c, .request op timeout) = some { s with
      calls := Function.update s.calls c (some ⟨.event, op, timeout, tid c, point⟩) } := by
  simp only [next, idle, hp, Option.map_some]

/-- A set can run alone to its end, in one access or in three. -/
theorem exists_set_alone (idle : s.calls c = none) (entry : Entry) (log : List (ι × Event))
    (timeout : Int32) :
    ∃ u labels t, next .event tid s (c, .request .unlock timeout) = some u ∧
      ((system .event tid entry log).guard (Alone c)).Exec u labels t ∧ t.calls c = none := by
  by_cases hcount : s.entry.lockCount = 0
  · have test : Linux.access ⟨.event, .unlock, timeout, tid c, .unlockTest⟩ .acquired s.entry =
        some (s.entry, .ret 0) := by
      simp [Linux.access, eventAccess, hcount]
    exact ⟨_, _, _, idle_request tid idle .unlock rfl timeout,
      .single (alone_access (Function.update_self _ _ _) test), Function.update_self _ _ _⟩
  · have test : Linux.access ⟨.event, .unlock, timeout, tid c, .unlockTest⟩ .acquired s.entry =
        some (s.entry, .goto .unlockUp) := by
      simp [Linux.access, eventAccess, hcount]
    exact ⟨_, _, _, idle_request tid idle .unlock rfl timeout,
      .cons (alone_access (Function.update_self _ _ _) test)
        (.cons (alone_access (Function.update_self _ _ _) rfl)
          (.single (alone_access (Function.update_self _ _ _) rfl))),
      Function.update_self _ _ _⟩

/-- The client can wait for the event, or is blocked in a wait for it. -/
def CanWait (s : Shared ι) (c : ι) : Prop :=
  ∀ call, s.calls c = some call → call.point = .lockDown

/-- A wait that finds a unit takes it. -/
theorem wait_access (fits : ∀ c, Fits .event (tid c) (s.calls c)) {call : Call}
    (hc : s.calls c = some call) (hp : call.point = .lockDown) (unit : 0 < s.entry.sema)
    (entry : Entry) (log : List (ι × Event)) :
    ∃ t, (system .event tid entry log).step s (c, .access .acquired) t ∧
      passes t.log = passes s.log + 1 := by
  have hdown : Linux.access call .acquired s.entry =
      some ({ s.entry with sema := s.entry.sema - 1 }, .goto .lockInc) := by
    simp [Linux.access, (fits c call hc).1, eventAccess, hp, Entry.down, wait_of_pos unit,
      afterTimed]
  refine ⟨_, (alone_access hc hdown).2, ?_⟩
  simp [events, hp, passes]

theorem exists_wait_passes (fits : ∀ c, Fits .event (tid c) (s.calls c)) (can : CanWait s c)
    (unit : 0 < s.entry.sema) (entry : Entry) (log : List (ι × Event)) (timeout : Int32) :
    ∃ labels t, (system .event tid entry log).Exec s labels t ∧ (∀ a ∈ labels, a.1 = c) ∧
      passes t.log = passes s.log + 1 := by
  cases hc : s.calls c with
  | some call =>
    obtain ⟨t, step, hpasses⟩ := wait_access fits hc (can call hc) unit entry log
    exact ⟨_, t, .single step, by simp, hpasses⟩
  | none =>
    have request := idle_request tid hc .lock rfl timeout
    obtain ⟨t, step, hpasses⟩ := wait_access (fits_next request fits) (Function.update_self _ _ _)
      rfl unit entry log
    exact ⟨_, t, .cons request (.single step), by simp, hpasses⟩

/-- Between its steps a call leaves as many units as the counter says. -/
theorem Settled.law [Fintype ι] {param : IpcCreate} {p : Ptr} (settled : Settled s)
    (h : (system .event tid (eventFill param p) []).Reachable s) :
    s.entry.sema + s.entry.lockCount = 1 ∧ 0 ≤ s.entry.sema := by
  obtain ⟨hheld, hsema⟩ := event_units_conserved tid param p h
  have hinc : tally pendingInc s.calls = 0 := tally_eq_zero fun c => (settled c).1
  have hdec : tally pendingDec s.calls = 0 := tally_eq_zero fun c => (settled c).2
  simp only [held] at hheld
  exact ⟨by omega, hsema⟩

/-- Where the counter is zero the event has a signal already. -/
theorem Setting.signalled {e e' : Entry} (h : Setting e none e')
    (law : e.sema + e.lockCount = 1 ∧ 0 ≤ e.sema) : 1 ≤ e'.sema := by
  obtain ⟨hsum, hsema⟩ := law
  cases h with
  | raised => simp only [Entry.up, Entry.decLock, post]; omega
  | kept hzero => omega

end Shared

section Claims

variable {ι : Type*} [Fintype ι] [DecidableEq ι]

/-- A set that runs alone from a state in which no call is half done comes to an
end and leaves the event signalled: the next wait takes a unit, whoever makes it. -/
theorem set_not_lost (tid : ι → Int32) (param : IpcCreate) (p : Ptr) {s : Shared ι}
    (h : (Shared.system .event tid (eventFill param p) []).Reachable s) (settled : s.Settled)
    {c : ι} (idle : s.calls c = none) (timeout : Int32) :
    let S := Shared.system .event tid (eventFill param p) []
    (∃ u labels t, S.step s (c, .request .unlock timeout) u ∧
      (S.guard (Shared.Alone c)).Exec u labels t ∧ t.calls c = none) ∧
    ∀ u labels t, S.step s (c, .request .unlock timeout) u →
      (S.guard (Shared.Alone c)).Exec u labels t → t.calls c = none →
      1 ≤ t.entry.sema ∧ ∀ d, Shared.CanWait t d → ∃ labels v, S.Exec t labels v ∧
        (∀ a ∈ labels, a.1 = d) ∧ passes v.log = passes t.log + 1 := by
  intro S
  have fits := (Shared.held_reachable (fun _ _ _ => .inl (by decide)) h.guard_true).1
  refine ⟨Shared.exists_set_alone idle _ _ timeout, fun u labels t request alone returned => ?_⟩
  obtain ⟨set, others⟩ := Shared.set_alone fits request alone
  rw [returned] at set
  have signalled : 1 ≤ t.entry.sema := set.signalled (settled.law h)
  refine ⟨signalled, fun d can => ?_⟩
  have fits' : ∀ d, Shared.Fits .event (tid d) (t.calls d) := by
    intro d
    by_cases hd : d = c
    · subst hd
      rw [returned]
      rintro _ ⟨⟩
    · rw [others d hd]
      exact fits d
  exact Shared.exists_wait_passes fits' can signalled _ _ timeout

/-- Client 0 has taken the signal and client 1 is blocked when client 0 sets. -/
theorem set_not_lost_blocked :
    let S := Shared.system .event twoThreads (eventFill ⟨CStr.x, 0, 0, 0⟩ 4096) []
    ∃ s, S.Reachable s ∧ s.entry.sema = 0 ∧ s.calls 1 ≠ none ∧ ∃ u labels t,
      S.step s (0, .request .unlock 0) u ∧ (S.guard (Shared.Alone 0)).Exec u labels t ∧
        t.calls 0 = none ∧ 1 ≤ t.entry.sema := by
  refine exists_reachable_of_run _ [(0, .request .lock (-1)), (0, .access .acquired),
    (0, .access .acquired), (1, .request .lock (-1))]
    (fun s => decide (s.entry.sema = 0 ∧ s.calls 1 ≠ none ∧ s.Settled ∧ s.calls 0 = none)) rfl
    (by decide) fun s hs hp => ?_
  obtain ⟨hsema, hblocked, settled, idle⟩ := of_decide_eq_true hp
  obtain ⟨⟨u, labels, t, request, alone, returned⟩, hset⟩ :=
    set_not_lost twoThreads ⟨CStr.x, 0, 0, 0⟩ 4096 hs settled idle 0
  exact ⟨hsema, hblocked, u, labels, t, request, alone, returned,
    (hset u labels t request alone returned).1⟩

end Claims

end Gipcy.Linux
