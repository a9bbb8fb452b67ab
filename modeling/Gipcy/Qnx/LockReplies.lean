import Gipcy.Qnx.Registry

/-! The answers to lock requests with a time limit. The dispatcher takes only a
negative result for an error, and a lock function that fails returns -1 or, for
semaphores, `errno`. No answer is sure where the deadline overflows. -/
namespace Gipcy.Qnx

open PosixSemaphore Transition Server
open Linux (CStr Ptr Kind)

/-- The request is answered at once, or after the `sem_timedwait` has failed
with its `errno`. -/
inductive LockAnswered (lim : Limits) {ι : Type*} (c : ι) (s : Server) (k : Kind)
    (param : IpcLock) (clock : Clock) (u : Server) : Prop where
  | atOnce : next lim s (c, .request (.lock k param clock) none) = some u →
      u.status = .receiving → LockAnswered lim c s k param clock u
  | timedOut (t : Server) (errno : Int) :
      next lim s (c, .request (.lock k param clock) none) = some t → t.status ≠ .receiving →
      0 < errno → next lim t (c, .expire errno) = some u → LockAnswered lim c s k param clock u

/-- The count of the semaphore was lowered. -/
def TookUnit (s u : Server) (handle : Ptr) : Prop :=
  ∃ n, (s.drv.mem handle).sema = some (n + 1) ∧ (u.drv.mem handle).sema = some n

/-- The request is answered. Every answer says whether a unit was taken, and a request
that took none is an error that left all counts alone. -/
def RepliesTruly (lim : Limits) {ι : Type*} (c : ι) (s : Server) (k : Kind) (param : IpcLock)
    (clock : Clock) : Prop :=
  (∃ u, LockAnswered lim c s k param clock u) ∧
  ∀ u, LockAnswered lim c s k param clock u →
    (u.reply = some (.ok none) ↔ TookUnit s u param.handle) ∧
    (¬ TookUnit s u param.handle →
      (∃ error, u.reply = some (.error error)) ∧ u.drv.mem = s.drv.mem)

/-- A semaphore that exists and has no unit, or whose unit the library does not give
since the deadline is no instant. -/
def TakesNone (lim : Limits) (drv : Driver) (param : IpcLock) (clock : Clock) : Prop :=
  handleExists .sem drv param.handle ∧ ((∀ n, (drv.mem param.handle).sema ≠ some (n + 1)) ∨
    ¬ clock.InSecond param.timeout ∧ lim.readsDeadline = true)

section Steps

variable {lim : Limits} {k : Kind} {param : IpcLock} {clock : Clock} {ι : Type*} {c : ι}
  {s u : Server}

theorem next_lock (lim : Limits) (c : ι) (receiving : s.status = .receiving) (hk : k ≠ .shm)
    (param : IpcLock) (clock : Clock) : next lim s (c, .request (.lock k param clock) none) =
      some (s.after ((objectLock lim k (lockFailed k) s.drv param clock).map .ofError)) := by
  rw [← ioDevctl_lock_eq lim s.drv none hk]
  exact if_pos ⟨receiving, by simp⟩

/-- Every request with a time limit is answered, if its deadline can be computed. -/
theorem exists_lockAnswered (lim : Limits) (c : ι) (h : Open s.drv)
    (receiving : s.status = .receiving) (hk : k ≠ .shm) (limited : ¬ param.timeout < 0)
    (computed : ¬ Overflows k s.drv param) : ∃ u, LockAnswered lim c s k param clock u := by
  have hnext := next_lock lim c receiving hk param clock
  have outcome := objectLock_outcome (k := k) lim h (lockFailed k) param clock
  generalize objectLock lim k (lockFailed k) s.drv param clock = r at hnext outcome
  cases outcome with
  | refused | took | failed => exact ⟨_, .atOnce hnext rfl⟩
  | waits sem hopen finds hlimit =>
    rw [decide_eq_false limited] at hnext
    exact ⟨_, .timedOut _ EINVAL hnext (by simp [after, Result.map]) (by decide) rfl⟩
  | unheeded sem hopen hexist hsema hneg => exact absurd hneg limited
  | overflow ho => exact absurd ho computed

/-- Nothing answers where the deadline overflows. -/
theorem not_lockAnswered (h : Open s.drv) (receiving : s.status = .receiving) (hk : k ≠ .shm)
    (overflows : Overflows k s.drv param) : ¬ LockAnswered lim c s k param clock u := by
  have hnext := next_lock lim c receiving hk param clock
  have outcome := objectLock_outcome (k := k) lim h (lockFailed k) param clock
  generalize objectLock lim k (lockFailed k) s.drv param clock = r at hnext outcome
  have late : ∀ {P : Prop}, (¬ param.timeout < 0 → param.timeout.toInt ≤ 2147 ∧ P) →
      ¬ param.timeout < 0 → False := fun hlimit limited =>
    Int.not_lt.mpr (hlimit limited).1 overflows.2
  have limited : ¬ param.timeout < 0 := fun hneg => by
    rw [Int32.lt_iff_toInt_lt] at hneg
    exact Int.lt_irrefl _ (Int.lt_trans overflows.2 (Int.lt_trans hneg (by decide)))
  intro answered
  cases outcome with
  | refused sem hopen hexist => exact hexist overflows.1
  | took sem n hopen hexist hsema hlimit => exact late hlimit limited
  | waits sem hopen finds hlimit => exact late hlimit limited
  | unheeded sem hopen hexist hsema hneg => exact limited hneg
  | failed sem hopen hexist _ hlow => exact Int.not_lt.mpr hlow overflows.2
  | overflow =>
    cases answered with
    | atOnce step hstatus =>
      cases Option.some.inj (hnext.symm.trans step)
      simp [after, Result.map] at hstatus
    | timedOut t errno step hstatus herrno expire =>
      cases Option.some.inj (hnext.symm.trans step)
      simp [after, Result.map, Server.next] at expire

/-- What an answer can be. -/
theorem LockAnswered.cases (h : Open s.drv) (receiving : s.status = .receiving) (hk : k ≠ .shm)
    (limited : ¬ param.timeout < 0) (answered : LockAnswered lim c s k param clock u) :
    (¬ handleExists k s.drv param.handle ∧ u.reply = some (.error (-EINVAL)) ∧
      u.drv.mem = s.drv.mem) ∨
    (handleExists k s.drv param.handle ∧ u.reply = some (.ok none) ∧
      TookUnit s u param.handle ∧ ¬ (k = .sem ∧ TakesNone lim s.drv param clock)) ∨
    ((k = .sem → TakesNone lim s.drv param clock) ∧
      (∃ errno, 0 < errno ∧ u.reply = some (.ofError (lockFailed k errno))) ∧
      u.drv.mem = s.drv.mem) := by
  have hnext := next_lock lim c receiving hk param clock
  have outcome := objectLock_outcome (k := k) lim h (lockFailed k) param clock
  generalize objectLock lim k (lockFailed k) s.drv param clock = r at hnext outcome
  cases answered with
  | atOnce step hstatus =>
    cases Option.some.inj (hnext.symm.trans step)
    cases outcome with
    | refused sem hopen hexist => exact .inl ⟨hexist, rfl, rfl⟩
    | took sem n hopen hexist hsema hlimit =>
      refine .inr (.inl ⟨hexist, rfl, ⟨n, hsema, by simp [after, Result.map]⟩, ?_⟩)
      rintro ⟨-, -, hnone | ⟨hcarry, hreads⟩⟩
      · exact hnone n hsema
      · rcases (hlimit limited).2 with hin | hskips
        · exact hcarry hin
        · exact Bool.false_ne_true (hskips.symm.trans hreads)
    | waits => simp [after, Result.map] at hstatus
    | unheeded sem hopen hexist hsema hneg => exact absurd hneg limited
    | failed sem hopen hexist _ _ hinvalid =>
      refine .inr (.inr ⟨?_, ⟨EINVAL, by decide, rfl⟩, rfl⟩)
      rintro rfl
      refine ⟨hexist, ?_⟩
      rcases hinvalid with hnone | ⟨hcarry, hreads | hzero⟩
      · exact .inl fun n => by simp [hnone]
      · exact .inr ⟨hcarry, hreads⟩
      · exact .inl fun n => by simp [hzero]
    | overflow => simp [after, Result.map] at hstatus
  | timedOut t errno step hstatus herrno expire =>
    cases Option.some.inj (hnext.symm.trans step)
    cases outcome with
    | waits sem hopen finds hlimit =>
      simp only [after, Result.map, Server.next, limited, decide_false, Bool.not_false] at expire
      cases Option.some.inj expire
      refine .inr (.inr ⟨?_, ⟨errno, herrno, rfl⟩, rfl⟩)
      rintro rfl
      exact ⟨finds.1, .inl fun n => by simp [finds.2]⟩
    | refused | took | failed => exact absurd rfl hstatus
    | unheeded sem hopen hexist hsema hneg => exact absurd hneg limited
    | overflow => simp [after, Result.map, Server.next] at expire

theorem ofError_lockFailed {errno : Int} (herrno : 0 < errno) :
    Reply.ofError (lockFailed k errno) = if k = .sem then .ok none else .error (-1) := by
  cases k with
  | sem => exact if_neg (by simp only [lockFailed]; omega)
  | _ => rfl

theorem not_tookUnit_of_mem {handle : Ptr} (hmem : u.drv.mem = s.drv.mem) :
    ¬ TookUnit s u handle := by
  rintro ⟨n, hbefore, hafter⟩
  rw [hmem, hbefore] at hafter
  have := Option.some.inj hafter
  omega

/-- A semaphore lock that fails is answered like one that does not. -/
theorem not_repliesTruly (h : Open s.drv) (receiving : s.status = .receiving)
    (limited : ¬ param.timeout < 0) (takesNone : TakesNone lim s.drv param clock) :
    ¬ RepliesTruly lim c s .sem param clock := by
  rintro ⟨⟨u, answered⟩, truly⟩
  have hk : Kind.sem ≠ .shm := by decide
  obtain ⟨hrefused, -⟩ | ⟨-, -, -, htook⟩ | ⟨-, ⟨errno, herrno, hfailed⟩, hmem⟩ :=
    answered.cases h receiving hk limited
  · exact hrefused takesNone.1
  · exact htook ⟨rfl, takesNone⟩
  · obtain ⟨⟨error, hreply⟩, -⟩ := (truly u answered).2 (not_tookUnit_of_mem hmem)
    rw [hfailed, ofError_lockFailed herrno] at hreply
    cases hreply

theorem repliesTruly (h : Open s.drv) (receiving : s.status = .receiving) (hk : k ≠ .shm)
    (limited : ¬ param.timeout < 0) (computed : ¬ Overflows k s.drv param)
    (takes : ¬ (k = .sem ∧ TakesNone lim s.drv param clock)) :
    RepliesTruly lim c s k param clock := by
  refine ⟨exists_lockAnswered lim c h receiving hk limited computed, ?_⟩
  intro u answered
  obtain ⟨-, hreply, hmem⟩ | ⟨-, hreply, htook, -⟩ | ⟨hnone, ⟨errno, herrno, hreply⟩, hmem⟩ :=
    answered.cases h receiving hk limited
  · have hno : ¬ TookUnit s u param.handle := not_tookUnit_of_mem hmem
    rw [hreply]
    exact ⟨iff_of_false (by simp) hno, fun _ => ⟨⟨_, rfl⟩, hmem⟩⟩
  · exact ⟨iff_of_true hreply htook, fun hno => absurd htook hno⟩
  · have hno : ¬ TookUnit s u param.handle := not_tookUnit_of_mem hmem
    have hnotSem : k ≠ .sem := fun hsem => takes ⟨hsem, hnone hsem⟩
    rw [ofError_lockFailed herrno, if_neg hnotSem] at hreply
    rw [hreply]
    exact ⟨iff_of_false (by simp) hno, fun _ => ⟨⟨_, rfl⟩, hmem⟩⟩

end Steps

section Claims

/-- The manager answers a lock request with a time limit, and its answer tells truly
whether a unit was taken, exactly when the deadline does not overflow and the request is
not for a semaphore that gives no unit. -/
theorem lock_replies_iff (lim : Limits) {ι : Type*} (c : ι) {s : Server}
    (hs : (system lim ι).Reachable s) (receiving : s.status = .receiving) {k : Kind}
    (hk : k ≠ .shm) (param : IpcLock) (limited : 0 ≤ param.timeout) (clock : Clock) :
    RepliesTruly lim c s k param clock ↔
      ¬ Overflows k s.drv param ∧ ¬ (k = .sem ∧ TakesNone lim s.drv param clock) := by
  have h : Open s.drv := open_reachable hs
  have limited : ¬ param.timeout < 0 := Int32.not_lt.mpr limited
  constructor
  · intro truly
    constructor
    · intro overflows
      obtain ⟨u, answered⟩ := truly.1
      exact not_lockAnswered h receiving hk overflows answered
    · rintro ⟨rfl, takesNone⟩
      exact not_repliesTruly h receiving limited takesNone truly
  · rintro ⟨computed, takes⟩
    exact repliesTruly h receiving hk limited computed takes

/-- A mutex that is locked already. -/
theorem lock_replies_mutex :
    ∃ s, (system leastLimits Unit).Reachable s ∧ FindsNone .mutex s.drv ⟨4096, 5⟩ ∧
      RepliesTruly leastLimits () s .mutex ⟨4096, 5⟩ .zero := by
  refine exists_reachable_of_run
    ⟨createInstance leastLimits fun _ => Entry.zero, .receiving, none⟩
    [((), .request (.create .mutex ⟨CStr.x, 1, 0⟩) (some 4096)),
      ((), .request (.lock .mutex ⟨4096, -1⟩ .zero) none)]
    (fun s => decide (s.status = .receiving ∧ FindsNone .mutex s.drv ⟨4096, 5⟩)) ⟨_, rfl⟩
    (by decide +kernel) fun s hs hp => ?_
  obtain ⟨receiving, finds⟩ := of_decide_eq_true hp
  have short : ¬ Overflows .mutex s.drv ⟨4096, 5⟩ := fun ho => absurd ho.2 (by decide)
  exact ⟨finds, (lock_replies_iff leastLimits () hs receiving (by decide) ⟨4096, 5⟩
    (by decide) .zero).mpr ⟨short, fun h => absurd h.1 (by decide)⟩⟩

/-- A new semaphore without a unit: the wait ends, and the client is told that
it has one. -/
theorem lock_not_replies :
    ¬ ∀ (lim : Limits) (s : Server), (system lim Unit).Reachable s → s.status = .receiving →
      ∀ k param clock, k ≠ .shm → 0 ≤ param.timeout → RepliesTruly lim () s k param clock := by
  intro h
  obtain ⟨s, hs, receiving, finds⟩ : ∃ s, (system leastLimits Unit).Reachable s ∧
      s.status = .receiving ∧ FindsNone .sem s.drv ⟨4096, 5⟩ := by
    refine exists_reachable_of_run
      ⟨createInstance leastLimits fun _ => Entry.zero, .receiving, none⟩
      [((), .request (.create .sem ⟨CStr.x, 0, 0⟩) (some 4096))]
      (fun s => decide (s.status = .receiving ∧ FindsNone .sem s.drv ⟨4096, 5⟩)) ⟨_, rfl⟩
      (by decide +kernel) fun s _ hp => of_decide_eq_true hp
  have takesNone : TakesNone leastLimits s.drv ⟨4096, 5⟩ .zero :=
    ⟨finds.1, .inl fun n => by simp [finds.2]⟩
  exact not_repliesTruly (open_reachable hs) receiving (by decide) takesNone
    (h leastLimits s hs receiving .sem ⟨4096, 5⟩ .zero (by decide) (by decide))

end Claims

end Gipcy.Qnx
