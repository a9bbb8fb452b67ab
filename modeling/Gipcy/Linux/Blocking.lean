import Gipcy.Linux.Holding

/-! Waits and progress: how far a request is from the release of its registry
mutex and from its end, and when a client that waits stops the others. -/
namespace Gipcy.Linux

open CountingSemaphore Transition

namespace Concurrent

variable {ι : Type*} {s : Concurrent ι} {c : ι} {how : WaitEnd}
  {kzalloc : Option Ptr} {pc : Pc} {m : Moved ι}

/-- The accesses that an unlock or a reset still makes, at most. -/
def left : Point → Nat
  | .unlockTest => 4
  | .unlockClear => 3
  | .unlockUp => 2
  | .unlockDec => 1
  | .lockTest | .lockDown | .lockInc | .lockSet => 0

theorem left_le (point : Point) : left point ≤ 4 := by
  cases point <;> simp [left]

/-- The steps that a request still makes past its `mutex_lock`, at most. -/
def toGo (mList : Kind → List Ptr) (pc : Pc) : Nat :=
  match holds pc with
  | some k => remaining (mList k) pc + 4
  | none =>
    match pc with
    | .access _ call => left call.point
    | _ => 0

theorem toGo_of_holds {mList : Kind → List Ptr} {k : Kind} (h : holds pc = some k) :
    toGo mList pc = remaining (mList k) pc + 4 := by
  simp [toGo, h]

theorem toGo_le_of_holds_none (mList : Kind → List Ptr) (h : holds pc = none) :
    toGo mList pc ≤ 4 := by
  cases pc <;> first | exact left_le _ | exact Nat.zero_le 4 | cases h

theorem unlock_effect {call : Call} {e e' : Entry} {nx : Next} {p : Ptr}
    {mList : Kind → List Ptr} (h : Effect call how e e' nx) (fits : call.Fits)
    (hop : call.op ≠ .lock) : toGo mList (afterAccess p call nx) < left call.point := by
  have hpoint := fits.2
  cases h <;> cases hcall : call.op <;> simp_all [Op.has, afterAccess, toGo, holds, left]

namespace Stepped

theorem holds_cases (h : Stepped s c how kzalloc pc m) {k : Kind} (hk : holds pc = some k) :
    holds m.pc = some k ∨ holds m.pc = none := by
  cases h with
  | enters _ hn _ _ => cases hk.symm.trans (holds_of_entering hn)
  | leaves _ hk' _ => exact .inr hk'
  | reads hl hk' _ _ | counts _ hl hk' _ _ | lists _ hl hk' _ _ =>
    exact .inl (hk'.trans (hl.symm.trans hk))
  | allocates hpc _ | fills hpc _ =>
    subst hpc
    exact .inl hk
  | accesses hpc _ =>
    subst hpc
    cases hk

theorem keeps_or_frees (h : Stepped s c how kzalloc pc m) {k : Kind} (hk : holds pc = some k)
    (hlock : s.locks k = some c) : m.locks k = some c ∨ m.locks k = none := by
  cases h with
  | enters _ hn _ _ => cases hk.symm.trans (holds_of_entering hn)
  | leaves hl _ _ =>
    cases hk.symm.trans hl
    exact .inr (Function.update_self _ _ _)
  | _ => exact .inl hlock

theorem toGo_lt (h : Stepped s c how kzalloc pc m) (fine : Fine s.mem pc)
    (notLock : inLock pc = false) (entered : entering pc = none) :
    toGo m.mList m.pc < toGo s.mList pc := by
  cases hk : holds pc with
  | some k =>
    rw [toGo_of_holds hk]
    have hlt := h.remaining_lt hk
    rcases h.holds_cases hk with hk' | hk'
    · rw [toGo_of_holds hk']
      omega
    · have := toGo_le_of_holds_none m.mList hk'
      omega
  | none =>
    cases h with
    | enters _ hn _ _ => cases entered.symm.trans hn
    | leaves hl _ _ | reads hl _ _ _ | counts _ hl _ _ _ | lists _ hl _ _ _ => simp [hk] at hl
    | allocates hpc _ | fills hpc _ =>
      subst hpc
      cases hk
    | accesses hpc effect =>
      subst hpc
      exact unlock_effect effect fine (by simpa [inLock] using notLock)

/-- A request that is past its `mutex_lock` stays past it. -/
theorem stays (h : Stepped s c how kzalloc pc m) (notLock : inLock pc = false) :
    inLock m.pc = false ∧ entering m.pc = none := by
  cases h with
  | enters _ _ _ plain | leaves _ _ plain | reads _ _ plain _ | counts _ _ _ plain _
  | lists _ _ _ plain _ =>
    refine ⟨?_, plain.entered⟩
    rcases plain.lock with hl | hl
    · exact hl.trans notLock
    · exact hl
  | allocates _ _ | fills _ _ => exact ⟨rfl, rfl⟩
  | @accesses p call e nx hpc _ =>
    subst hpc
    cases nx with
    | ret error => exact ⟨rfl, rfl⟩
    | goto point => exact ⟨notLock, rfl⟩

end Stepped

theorem access_enabled {call : Call} (fits : call.Fits) (hop : call.op ≠ .lock) (e : Entry) :
    ∃ r, Linux.access call .acquired e = some r := by
  obtain ⟨hk, hpoint⟩ := fits
  cases hkind : call.kind <;> cases hcall : call.op <;> cases hp : call.point <;>
    simp_all [Kind.has, Op.has, Linux.access, semAccess, mutexAccess, eventAccess]

/-- A request past its `mutex_lock` can go on too, unless it is a lock. -/
theorem Sound.enabled_past (sound : Sound s) {c : ι} (busy : s.pcs c ≠ .idle)
    (entered : entering (s.pcs c) = none) (notLock : inLock (s.pcs c) = false)
    (kzalloc : Option Ptr) : ∃ m, s.step c .acquired kzalloc (s.pcs c) = some m := by
  cases hk : holds (s.pcs c) with
  | some k => exact sound.enabled hk kzalloc
  | none =>
    cases hpc : s.pcs c with
    | idle => exact absurd hpc busy
    | createEnter _ _ | checkEnter _ _ | closeEnter _ _ =>
      rw [hpc] at entered
      cases entered
    | access p call =>
      have fits := sound.fine c
      rw [hpc] at notLock fits
      obtain ⟨r, hr⟩ := access_enabled fits (by simpa [inLock] using notLock) (s.mem p)
      exact ⟨_, Option.map_eq_some_iff.mpr ⟨r, hr, rfl⟩⟩
    | _ =>
      rw [hpc] at hk
      cases hk

theorem notDown_of_holds {c : ι} {k : Kind} (hk : holds (s.pcs c) = some k) (p : Ptr)
    (call : Call) (hpc : s.pcs c = .access p call) : call.point ≠ .lockDown := by
  rw [hpc] at hk
  cases hk

theorem Sound.notDown (sound : Sound s) {c : ι} (notLock : inLock (s.pcs c) = false) (p : Ptr)
    (call : Call) (hpc : s.pcs c = .access p call) : call.point ≠ .lockDown := by
  intro hpoint
  have fits := sound.fine c
  rw [hpc] at notLock fits
  have hop := fits.2
  rw [hpoint] at hop
  cases hcall : call.op <;> simp_all [Op.has, inLock]

/-- The `mutex_lock` of a request, once the mutex is free. -/
theorem enter_alone {c : ι} {k : Kind} (hk : entering (s.pcs c) = some k)
    (hfree : s.locks k = none) (kzalloc : Option Ptr) :
    ∃ m, s.step c .acquired kzalloc (s.pcs c) = some m := by
  cases hpc : s.pcs c <;> rw [hpc] at hk <;> cases hk <;>
    exact ⟨_, if_pos hfree⟩

variable [DecidableEq ι] {t : Concurrent ι}

/-- The steps of a client itself. -/
def ownStep (c : ι) (a : ι × Move) : Bool :=
  match a.2 with
  | .step _ _ => a.1 = c
  | _ => false

/-- A client that waits never stops the others. -/
structure NeverStops (S : System (Concurrent ι) (ι × Move)) : Prop where
  waiting : ∀ s, S.Reachable s → ∀ c, s.Blocked c → ∀ k, s.locks k ≠ some c
  enabled : ∀ s, S.Reachable s → ∀ c k, s.locks k = some c → ∀ kzalloc,
    (∀ p, kzalloc = some p → ¬ s.InUse p) → ∃ t, S.step s (c, .step .acquired kzalloc) t
  released : ∀ s, S.Reachable s → ∀ c k, s.locks k = some c → ∃ n, ∀ labels t,
    S.Exec s labels t → n < labels.countP (ownStep c) →
      ∃ first u, first <+: labels ∧ S.Exec s first u ∧ u.locks k ≠ some c
  returned : ∀ s, S.Reachable s → ∀ c, s.pcs c = .idle → ∀ k, s.locks k ≠ some c
  /-- Any request but a lock comes to its end by steps of clients that do not
  wait for an object, whatever the allocator answers. -/
  completes : ∀ s, S.Reachable s → ∀ c, inLock (s.pcs c) = false →
    ∀ kzalloc : Concurrent ι → Option Ptr, (∀ u p, kzalloc u = some p → ¬ u.InUse p) →
      ∃ labels t, (S.guard fun u a => a.2 = .step .acquired (kzalloc u)).Exec s labels t ∧
        t.pcs c = .idle ∧ ∀ a ∈ labels, ¬ s.Blocked a.1

/-- The runs on which one client alone moves, with an allocator of its own. -/
abbrev alone (c : ι) (kzalloc : Concurrent ι → Option Ptr) :
    System (Concurrent ι) (ι × Move) :=
  (orderly ι).guard fun u a => a = (c, .step .acquired (kzalloc u))

theorem step_alone {c : ι} {kzalloc : Concurrent ι → Option Ptr} {m : Moved ι}
    (free : ∀ u p, kzalloc u = some p → ¬ u.InUse p)
    (hm : s.step c .acquired (kzalloc s) (s.pcs c) = some m)
    (notDown : ∀ p call, s.pcs c = .access p call → call.point ≠ .lockDown) :
    (alone c kzalloc).step s (c, .step .acquired (kzalloc s)) (s.after c m) := by
  refine ⟨rfl, ?_, ?_, ?_⟩
  · intro p call _ hpc hpoint
    exact absurd hpoint (notDown p call hpc)
  · cases hkz : kzalloc s with
    | none => simp [Allocates]
    | some p => simpa only [Allocates] using free s p hkz
  · exact Option.map_eq_some_iff.mpr ⟨m, hm, rfl⟩

/-- The holder of a registry mutex can go on alone until it has released it. -/
theorem Sound.release (sound : Sound s) {d : ι} {k : Kind} (hd : s.locks k = some d)
    {kzalloc : Concurrent ι → Option Ptr} (free : ∀ u p, kzalloc u = some p → ¬ u.InUse p) :
    ∃ labels t, (alone d kzalloc).Exec s labels t ∧ (Sound t ∧
      (∀ c, c ≠ d → t.pcs c = s.pcs c) ∧ (t.locks k = some d ∨ t.locks k = none)) ∧
      t.locks k = none := by
  refine System.exists_exec_of_rank (fun t => remaining (t.mList k) (t.pcs d)) ?_
    ⟨sound, fun _ _ => rfl, .inl hd⟩
  rintro u ⟨hu, hsame, hlock⟩ hgoal
  have hlock := hlock.resolve_right hgoal
  have hhas := (hu.locks d k).mp hlock
  obtain ⟨m, hm⟩ := hu.enabled hhas (kzalloc u)
  have step := step_alone free hm (notDown_of_holds hhas)
  have stepped := step_stepped hm
  refine ⟨_, _, step, ⟨hu.step step.2, ?_, ?_⟩, ?_⟩
  · intro c hc
    simpa [after, hc] using hsame c hc
  · exact stepped.keeps_or_frees hhas hlock
  · simpa [after] using stepped.remaining_lt hhas

/-- A request that is past its `mutex_lock` can go on alone to its end. -/
theorem Sound.finish (sound : Sound s) {c : ι} (notLock : inLock (s.pcs c) = false)
    (entered : entering (s.pcs c) = none) {kzalloc : Concurrent ι → Option Ptr}
    (free : ∀ u p, kzalloc u = some p → ¬ u.InUse p) :
    ∃ labels t, (alone c kzalloc).Exec s labels t ∧ (Sound t ∧ inLock (t.pcs c) = false ∧
      entering (t.pcs c) = none) ∧ t.pcs c = .idle := by
  refine System.exists_exec_of_rank (fun t => toGo t.mList (t.pcs c)) ?_
    ⟨sound, notLock, entered⟩
  rintro u ⟨hu, notLock, entered⟩ busy
  obtain ⟨m, hm⟩ := hu.enabled_past busy entered notLock (kzalloc u)
  have step := step_alone free hm (hu.notDown notLock)
  have stepped := step_stepped hm
  refine ⟨_, _, step, ⟨hu.step step.2, ?_⟩, ?_⟩
  · simpa [after] using stepped.stays notLock
  · simpa [after] using stepped.toGo_lt (hu.fine c) notLock entered

/-- Who moves in an execution of one client. -/
theorem labels_alone {c : ι} {kzalloc : Concurrent ι → Option Ptr} {labels : List (ι × Move)}
    (h : (alone c kzalloc).Exec s labels t) : ∀ a ∈ labels, a.1 = c := by
  induction h with
  | nil => simp
  | cons step _ ih =>
    intro a ha
    rcases List.mem_cons.mp ha with rfl | ha
    · rw [step.1]
    · exact ih a ha

/-- The runs with a given allocator on which every wait ends by acquiring. -/
abbrev going (kzalloc : Concurrent ι → Option Ptr) : System (Concurrent ι) (ι × Move) :=
  (orderly ι).guard fun u a => a.2 = .step .acquired (kzalloc u)

theorem going_of_alone {c : ι} {kzalloc : Concurrent ι → Option Ptr} {labels : List (ι × Move)}
    (h : (alone c kzalloc).Exec s labels t) : (going kzalloc).Exec s labels t :=
  h.guard_mono fun _ _ e => by rw [e]

/-- A client waits for one registry at most, and only for the release of it. -/
theorem Sound.free (sound : Sound s) {c : ι} {k : Kind} (hk : entering (s.pcs c) = some k)
    {kzalloc : Concurrent ι → Option Ptr} (free : ∀ u p, kzalloc u = some p → ¬ u.InUse p) :
    ∃ labels t, (going kzalloc).Exec s labels t ∧ Sound t ∧ t.pcs c = s.pcs c ∧
      t.locks k = none ∧ ∀ a ∈ labels, ¬ s.Blocked a.1 := by
  cases hd : s.locks k with
  | none => exact ⟨[], s, .nil s, sound, rfl, hd, by simp⟩
  | some d =>
    have hhas := (sound.locks d k).mp hd
    have hne : c ≠ d := by
      rintro rfl
      cases hhas.symm.trans (holds_of_entering hk)
    obtain ⟨labels, t, exec, ⟨ht, hsame, -⟩, hfree⟩ := sound.release hd free
    refine ⟨labels, t, going_of_alone exec, ht, hsame c hne, hfree, fun a ha blocked => ?_⟩
    rw [labels_alone exec a ha] at blocked
    cases hhas.symm.trans (sound.of_blocked blocked).1

theorem Sound.completes (sound : Sound s) {c : ι} (notLock : inLock (s.pcs c) = false)
    {kzalloc : Concurrent ι → Option Ptr} (free : ∀ u p, kzalloc u = some p → ¬ u.InUse p) :
    ∃ labels t, (going kzalloc).Exec s labels t ∧ t.pcs c = .idle ∧
      ∀ a ∈ labels, ¬ s.Blocked a.1 := by
  have hself : ¬ s.Blocked c := fun blocked => by
    cases notLock.symm.trans (sound.of_blocked blocked).2
  cases hk : entering (s.pcs c) with
  | none =>
    obtain ⟨labels, t, exec, -, hidle⟩ := sound.finish notLock hk free
    exact ⟨labels, t, going_of_alone exec, hidle, fun a ha => labels_alone exec a ha ▸ hself⟩
  | some k =>
    obtain ⟨before, u, first, hu, hsame, hfree, others⟩ := sound.free hk free
    rw [← hsame] at hk notLock
    -- The mutex is free now: the client takes it and goes on alone.
    obtain ⟨m, hm⟩ := enter_alone hk hfree (kzalloc u)
    have step := step_alone free hm (hu.notDown notLock)
    have past : inLock ((u.after c m).pcs c) = false ∧ entering ((u.after c m).pcs c) = none := by
      simpa [after] using (step_stepped hm).stays notLock
    obtain ⟨labels, t, exec, -, hidle⟩ := (hu.step step.2).finish past.1 past.2 free
    have rest := going_of_alone (System.Exec.cons step exec)
    refine ⟨_, t, first.append rest, hidle, fun a ha => ?_⟩
    rcases List.mem_append.mp ha with ha | ha
    · exact others a ha
    · exact labels_alone (System.Exec.cons step exec) a ha ▸ hself

theorem Sound.released (sound : Sound s) {c : ι} {k : Kind} {labels : List (ι × Move)}
    (h : (orderly ι).Exec s labels t)
    (many : remaining (s.mList k) (s.pcs c) < labels.countP (ownStep c)) :
    ∃ first u, first <+: labels ∧ (orderly ι).Exec s first u ∧ u.locks k ≠ some c := by
  refine h.exists_prefix_of_rank (I := Sound) (P := fun u => u.locks k = some c)
    (fun u => remaining (u.mList k) (u.pcs c)) (ownStep c) (fun _ _ _ hu step => hu.step step)
    ?_ sound many
  intro u a v hu hlock step _
  have hhas := (hu.locks c k).mp hlock
  rcases next_cases step.2.2 with ⟨pc, hidle, -, -, -, hne, rfl⟩ |
    ⟨how, kzalloc, m, hmove, stepped, rfl⟩ | ⟨p, e, hmove, rfl⟩
  · have hc : c ≠ a.1 := by
      rintro rfl
      rw [hidle] at hhas
      cases hhas
    have hown : ownStep c a = false := by
      cases hmove : a.2 <;> simp [ownStep, hmove, Ne.symm hc]
    simp [hown, hc]
  · by_cases hc : a.1 = c
    · subst hc
      have := stepped.remaining_lt hhas
      simp only [ownStep, hmove, after, Function.update_self, decide_true, if_true]
      omega
    · have hnot : holds (u.pcs a.1) ≠ some k := fun h =>
        hc (Option.some.inj (((hu.locks a.1 k).mpr h).symm.trans hlock))
      simp [ownStep, hmove, hc, after, Function.update_of_ne (Ne.symm hc), stepped.mList hnot]
  · simp [ownStep, hmove]

end Concurrent

open Concurrent

variable {ι : Type*}

/-- As long as no lock request takes the unit of a mutex that is being created. -/
theorem waiting_never_stops (ι : Type*) [DecidableEq ι] :
    NeverStops ((system ι).guard Orderly) where
  waiting := by
    intro s hs c blocked k hlock
    have sound := Sound.of_reachable hs
    cases ((sound.locks c k).mp hlock).symm.trans (sound.of_blocked blocked).1
  enabled := by
    intro s hs c k hlock kzalloc free
    have sound := Sound.of_reachable hs
    have hhas := (sound.locks c k).mp hlock
    obtain ⟨m, hm⟩ := sound.enabled hhas kzalloc
    refine ⟨s.after c m, ?_, ?_, Option.map_eq_some_iff.mpr ⟨m, hm, rfl⟩⟩
    · intro p call _ hpc hpoint
      exact absurd hpoint (notDown_of_holds hhas p call hpc)
    · cases kzalloc with
      | none => simp [Allocates]
      | some p => simpa only [Allocates] using free p rfl
  released := by
    intro s hs c k hlock
    exact ⟨remaining (s.mList k) (s.pcs c), fun labels t exec many =>
      (Sound.of_reachable hs).released exec many⟩
  returned := by
    intro s hs c hidle k hlock
    have hhas := ((Sound.of_reachable hs).locks c k).mp hlock
    rw [hidle] at hhas
    cases hhas
  completes := by
    intro s hs c notLock kzalloc free
    exact (Sound.of_reachable hs).completes notLock free

instance [Fintype ι] (s : Concurrent ι) (p : Ptr) : Decidable (s.InUse p) :=
  decidable_of_iff (p = 0 ∨ (p ∈ s.mList .sem ∨ p ∈ s.mList .mutex ∨ p ∈ s.mList .event ∨
    p ∈ s.mList .shm) ∨ ∃ c, ownMemory (s.pcs c) = some p) <| by
    refine or_congr Iff.rfl (or_congr ?_ Iff.rfl)
    constructor
    · rintro (h | h | h | h) <;> exact ⟨_, h⟩
    · rintro ⟨k, h⟩
      cases k <;> simp [h]

instance [Fintype ι] (s : Concurrent ι) : (a : ι × Move) → Decidable (s.Allocates a)
  | (_, .step _ (some p)) | (_, .scribble p _) => inferInstanceAs (Decidable ¬ s.InUse p)
  | (_, .step _ none) | (_, .create _ _) | (_, .request _ _ _ _ _) | (_, .close _ _) =>
    isTrue trivial

/-- Client 1 is past the handle check of a lock when client 0 closes the mutex
and creates a locked one in the same memory: the lock takes the unit that the
create then waits for, with the registry mutex held. -/
theorem waiting_stops_create : ¬ NeverStops (system (Fin 2)) := by
  intro h
  let steps (c : Fin 2) (n : Nat) : List (Fin 2 × Move) :=
    List.replicate n (c, .step .acquired none)
  let locked : IpcCreate := ⟨CStr.x, 1, 0, 1⟩
  obtain ⟨s, hs, hpc, hsema, hlock⟩ : ∃ s, (system (Fin 2)).Reachable s ∧
      s.pcs 0 = .fresh .mutex locked 4096 [.down, .setLockerid, .incLock] ∧
      (s.mem 4096).sema ≤ 0 ∧ s.locks .mutex = some 0 := by
    refine exists_guarded_of_run ⟨fun _ => Entry.zero, fun _ => [], fun _ => none, fun _ => .idle⟩
      ([(0, .create .mutex ⟨CStr.x, 0, 0, 1⟩)] ++ steps 0 2 ++
        [(0, .step .acquired (some 4096))] ++ steps 0 9 ++
        [(1, .request .mutex .lock (userHandle 4096) (-1) 2)] ++ steps 1 4 ++
        [(0, .close .mutex (userHandle 4096))] ++ steps 0 6 ++
        [(0, .create .mutex locked)] ++ steps 0 2 ++
        [(0, .step .acquired (some 4096))] ++ steps 0 6 ++ steps 1 1)
      (fun s => decide (s.pcs 0 = .fresh .mutex locked 4096 [.down, .setLockerid, .incLock] ∧
        (s.mem 4096).sema ≤ 0 ∧ s.locks .mutex = some 0)) ⟨rfl, rfl, rfl⟩ (by decide +kernel)
      fun s _ hp => of_decide_eq_true hp
  have blocked : s.Blocked 0 := by
    unfold Blocked
    rw [hpc]
    exact hsema
  exact h.waiting s hs 0 blocked .mutex hlock

end Gipcy.Linux
