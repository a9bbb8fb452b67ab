import Gipcy.Linux.Units

/-! Mutual exclusion of the driver's mutex. The one unit is in the semaphore, or
with a client on its way into or out of the mutex, or with the client inside;
`m_lockerid` names the client inside until that client's unlock clears it. -/
namespace Gipcy.Linux

open CountingSemaphore Transition Clients

/-- Between the `down` of a lock and its return, or between the check of an
unlock and its `up`. -/
def Point.owning : Point → Bool
  | .lockInc | .lockSet | .unlockClear | .unlockUp => true
  | _ => false

namespace Shared

/-- Where a client stands: inside the mutex or not, and the call it is in. -/
abbrev Stand := Bool × Option Call

def owns (v : Stand) : Bool := v.1 || v.2.any fun call => call.point.owning

def unitOf (v : Stand) : Int := if owns v then 1 else 0

/-- `m_lockerid` is this client's. -/
def named (v : Stand) : Prop :=
  v.1 = true ∨ ∃ call, v.2 = some call ∧ call.point = .unlockClear

/-- A client inside the mutex is in no call, or in one that has made no access. -/
def calm (v : Stand) : Prop :=
  v.1 = true → ∀ call, v.2 = some call → call.point = .lockTest ∨ call.point = .unlockTest

theorem named.owns {v : Stand} (h : named v) : owns v = true := by
  rcases h with h | ⟨call, h, hp⟩
  · simp [Shared.owns, h]
  · simp [Shared.owns, h, hp, Point.owning]

theorem unitOf_nonneg (v : Stand) : 0 ≤ unitOf v := by
  unfold unitOf
  split <;> decide

theorem unitOf_of_owns {v : Stand} (h : owns v = true) : unitOf v = 1 := if_pos h

section Local

variable {ι : Type*} [DecidableEq ι] {c : ι} {log : List (ι × Event)} {call : Call}
  {how : WaitEnd} {e e' : Entry} {nx : Next}

/-- Where the client of an access stands after it. -/
def afterAccess (c : ι) (log : List (ι × Event)) (call : Call) (how : WaitEnd) (nx : Next) :
    Stand :=
  (inside c ((events call how nx).map (Prod.mk c) ++ log), call.advance nx)

variable (h : Effect call how e e' nx) (hk : call.kind = .mutex)
  (name : e.lockerid = call.lockerid ↔ named (inside c log, some call))
  (hc : calm (inside c log, some call))

include h hk name hc

theorem unit_access (quiet : ¬ Interrupts call how) :
    e'.sema + unitOf (afterAccess c log call how nx) =
      e.sema + unitOf (inside c log, some call) := by
  cases h with
  | broken _ hi => exact absurd ⟨hk, hi⟩ quiet
  | _ =>
    simp_all [calm, named, afterAccess, Call.advance, events, inside, unitOf, owns,
      Point.owning, Entry.up, post, Entry.incLock, Entry.decLock]

theorem named_access (nonzero : call.lockerid ≠ 0) :
    e'.lockerid = call.lockerid ↔ named (afterAccess c log call how nx) := by
  have := nonzero.symm
  cases h <;> simp_all [calm, named, afterAccess, Call.advance, events, inside, Entry.up,
    Entry.incLock, Entry.decLock]

theorem calm_access : calm (afterAccess c log call how nx) := by
  cases h <;> simp_all [calm, named, afterAccess, Call.advance, events, inside]

omit name hc hk in
/-- `m_lockerid` changes in two places only. -/
theorem lockerid_access :
    e'.lockerid = e.lockerid ∨
      (call.point = .lockSet ∧ e'.lockerid = call.lockerid) ∨
      (call.point = .unlockClear ∧ e'.lockerid = 0) := by
  cases h with
  | stored hp => exact .inr (.inl ⟨hp, rfl⟩)
  | cleared hp => exact .inr (.inr ⟨hp, rfl⟩)
  | _ => exact .inl rfl

end Local

variable {ι : Type*} [DecidableEq ι] {tid : ι → Int32} {s t : Shared ι} {c : ι}

def stand (s : Shared ι) (c : ι) : Stand := (inside c s.log, s.calls c)

theorem stand_request (call : Call) :
    stand { s with calls := Function.update s.calls c (some call) } =
      Function.update s.stand c (inside c s.log, some call) := by
  funext d
  by_cases h : d = c
  · subst h
    simp [stand]
  · simp [stand, h]

theorem stand_access (call : Call) (how : WaitEnd) (e : Entry) (nx : Next) :
    stand ⟨e, Function.update s.calls c (call.advance nx),
        (events call how nx).map (Prod.mk c) ++ s.log⟩ =
      Function.update s.stand c (afterAccess c s.log call how nx) := by
  funext d
  by_cases h : d = c
  · subst h
    simp [stand, afterAccess]
  · simp [stand, h, inside_other h]

variable [Fintype ι]

/-- The invariant of a mutex entry. -/
structure Exclusive (tid : ι → Int32) (s : Shared ι) : Prop where
  fits : ∀ c, Fits .mutex (tid c) (s.calls c)
  name : ∀ c, s.entry.lockerid = tid c ↔ named (s.stand c)
  known : s.entry.lockerid = 0 ∨ ∃ c, s.entry.lockerid = tid c
  calm : ∀ c, calm (s.stand c)
  unit : s.entry.sema + tally unitOf s.stand = 1
  sema : 0 ≤ s.entry.sema

namespace Exclusive

theorem sole (inv : Exclusive tid s) {c d : ι} (hc : owns (s.stand c) = true)
    (hd : owns (s.stand d) = true) : c = d := by
  have hone : tally unitOf s.stand ≤ 1 := by
    have := inv.unit
    have := inv.sema
    omega
  exact eq_of_tally_le_one (fun _ => unitOf_nonneg _) hone (unitOf_of_owns hc).ge
    (unitOf_of_owns hd).ge

theorem request (inv : Exclusive tid s) (hc : s.calls c = none) {op : Op} {timeout : Int32}
    {point : Point} (hp : firstPoint .mutex op = some point) :
    Exclusive tid { s with
      calls := Function.update s.calls c (some ⟨.mutex, op, timeout, tid c, point⟩) } := by
  have hpoint : point = .lockTest ∨ point = .unlockTest := by
    cases op <;> cases hp
    · exact .inl rfl
    · exact .inr rfl
  have howns : owns (inside c s.log, some ⟨.mutex, op, timeout, tid c, point⟩) =
      owns (s.stand c) := by
    rcases hpoint with rfl | rfl <;> simp [owns, stand, hc, Point.owning]
  constructor
  · apply forall_update (p := fun d => Fits .mutex (tid d)) fun d _ => inv.fits d
    rintro _ ⟨⟩
    exact ⟨rfl, rfl, firstPoint_has hp⟩
  · rw [stand_request]
    apply forall_update (p := fun d v => s.entry.lockerid = tid d ↔ named v) fun d _ => inv.name d
    rw [inv.name c]
    rcases hpoint with rfl | rfl <;> simp [named, stand, hc]
  · exact inv.known
  · rw [stand_request]
    apply forall_update (p := fun _ => Shared.calm) fun d _ => inv.calm d
    rintro - _ ⟨⟩
    exact hpoint
  · have hsame : unitOf (inside c s.log, some ⟨.mutex, op, timeout, tid c, point⟩) =
        unitOf (s.stand c) := by
      unfold unitOf
      rw [howns]
    rw [stand_request, tally_update, hsame]
    have := inv.unit
    simp only
    omega
  · exact inv.sema

theorem access (inv : Exclusive tid s) (inj : Function.Injective tid) (nonzero : ∀ c, tid c ≠ 0)
    {call : Call} (hc : s.calls c = some call) {how : WaitEnd} {e : Entry} {nx : Next}
    (effect : Effect call how s.entry e nx) (quiet : how ≠ .interrupted) :
    Exclusive tid ⟨e, Function.update s.calls c (call.advance nx),
      (events call how nx).map (Prod.mk c) ++ s.log⟩ := by
  obtain ⟨hk, hl, hpoint⟩ := inv.fits c call hc
  have hstand : s.stand c = (inside c s.log, some call) := by rw [stand, hc]
  have hname : s.entry.lockerid = call.lockerid ↔ named (inside c s.log, some call) := by
    rw [hl, ← hstand]
    exact inv.name c
  have hcalm : Shared.calm (inside c s.log, some call) := hstand ▸ inv.calm c
  have hlocker := lockerid_access effect
  constructor
  · apply forall_update (p := fun d => Fits .mutex (tid d)) fun d _ => inv.fits d
    intro call' hcall'
    cases nx with
    | ret error => cases hcall'
    | goto point =>
      cases hcall'
      exact ⟨hk, hl, hk ▸ effect.has (hk ▸ hpoint)⟩
  · rw [stand_access]
    apply forall_update (p := fun d v => e.lockerid = tid d ↔ named v)
    · intro d hd
      have hne : tid d ≠ tid c := fun h => hd (inj h)
      rcases hlocker with same | ⟨hp, hset⟩ | ⟨hp, hclear⟩
      · rw [same]
        exact inv.name d
      · -- The caller has the unit, so no other client is named.
        have howns : owns (s.stand c) = true := by simp [hstand, owns, hp, Point.owning]
        rw [hset, hl]
        exact ⟨fun h => absurd h.symm hne, fun h => absurd (inv.sole h.owns howns) hd⟩
      · have hmine : s.entry.lockerid = tid c :=
          (inv.name c).mpr (.inr ⟨call, hc, hp⟩)
        rw [hclear, ← inv.name d, hmine]
        exact ⟨fun h => absurd h.symm (nonzero d), fun h => absurd h.symm hne⟩
    · rw [← hl]
      exact named_access effect hk hname hcalm (hl ▸ nonzero c)
  · rcases hlocker with same | ⟨_, hset⟩ | ⟨_, hclear⟩
    · simpa only [same] using inv.known
    · exact .inr ⟨c, hset.trans hl⟩
    · exact .inl hclear
  · rw [stand_access]
    apply forall_update (p := fun _ => Shared.calm) fun d _ => inv.calm d
    exact calm_access effect hk hname hcalm
  · rw [stand_access, tally_update, hstand]
    have hunit := unit_access effect hk hname hcalm fun h => quiet h.2
    have := inv.unit
    simp only
    omega
  · exact effect.sema_nonneg inv.sema

theorem next (inv : Exclusive tid s) (inj : Function.Injective tid) (nonzero : ∀ c, tid c ≠ 0)
    {a : ι × Act} (quiet : NoSignal s a) (h : Shared.next .mutex tid s a = some t) :
    Exclusive tid t := by
  obtain ⟨c, act⟩ := a
  cases act with
  | request op timeout =>
    obtain ⟨hc, point, hp, rfl⟩ := next_request h
    exact inv.request hc hp
  | access how =>
    obtain ⟨call, e, nx, hc, effect, rfl⟩ := next_access h
    refine inv.access inj nonzero hc effect ?_
    rintro rfl
    exact quiet rfl

/-- With no call between its first access and its return, the unit is in the
semaphore or with the client that `m_lockerid` names. -/
theorem quiet_cases (inv : Exclusive tid s) (quiet : Quiet s) :
    (s.entry.sema = 1 ∧ s.entry.lockerid = 0) ∨
      (s.entry.sema = 0 ∧ ∃ c, inside c s.log = true ∧ s.entry.lockerid = tid c) := by
  -- An owner that is in no call past its first access is inside.
  have hinside : ∀ c, owns (s.stand c) = true → inside c s.log = true := by
    intro c hc
    rcases Bool.or_eq_true_iff.mp hc with hc | hc
    · exact hc
    · obtain ⟨call, hcall, hp⟩ := (Option.any_eq_true _ _).mp hc
      have hfirst := quiet c call hcall
      obtain ⟨hk, -, -⟩ := inv.fits c call hcall
      rw [hk] at hfirst
      cases hop : call.op <;> rw [hop] at hfirst <;> cases hpt : call.point <;>
        rw [hpt] at hfirst hp <;> simp [firstPoint, Point.owning] at hfirst hp
  by_cases hany : ∃ c, owns (s.stand c) = true
  · obtain ⟨c, hc⟩ := hany
    have hin := hinside c hc
    have hle : unitOf (s.stand c) ≤ tally unitOf s.stand := le_tally (fun _ => unitOf_nonneg _) c
    rw [unitOf_of_owns hc] at hle
    have := inv.unit
    have := inv.sema
    exact .inr ⟨by omega, c, hin, (inv.name c).mpr (.inl hin)⟩
  · have hzero : tally unitOf s.stand = 0 := tally_eq_zero fun c => by
      rw [unitOf, if_neg fun h => hany ⟨c, h⟩]
    have hnot : ∀ c, s.entry.lockerid ≠ tid c := fun c h => hany ⟨c, ((inv.name c).mp h).owns⟩
    have := inv.unit
    refine .inl ⟨by omega, inv.known.resolve_right ?_⟩
    rintro ⟨c, hc⟩
    exact hnot c hc

end Exclusive

/-- The history of a new mutex: one that is created locked has been granted to
its creator. -/
def created (param : IpcCreate) (creator : ι) : List (ι × Event) :=
  if param.value ≠ 0 then [(creator, .granted)] else []

theorem exclusive_created (inj : Function.Injective tid) (nonzero : ∀ c, tid c ≠ 0)
    {param : IpcCreate} {creator : ι} (hcreator : param.value ≠ 0 → param.lockerid = tid creator)
    (p : Ptr) : Exclusive tid ⟨mutexFill param p, fun _ => none, created param creator⟩ := by
  by_cases hv : param.value = 0
  · have hfill : mutexFill param p = mutexBlank param p := by simp [mutexFill, hv]
    have hlog : created param creator = [] := by simp [created, hv]
    rw [hfill, hlog]
    refine ⟨fun c call hc => (by cases hc), fun c => ?_, .inl rfl, fun c h => (by cases h), ?_,
      Int.one_nonneg⟩
    · have := (nonzero c).symm
      simpa [mutexBlank, named, stand, inside] using this
    · simp [mutexBlank, tally, unitOf, owns, stand, inside]
  · have hlog : created param creator = [(creator, .granted)] := by simp [created, hv]
    have hlocker : (mutexFill param p).lockerid = tid creator := by
      simp [mutexFill, hv, hcreator hv]
    have hsema : (mutexFill param p).sema = 0 := by simp [mutexFill, hv, mutexBlank]
    rw [hlog]
    refine ⟨fun c call hc => (by cases hc), fun c => ?_, .inr ⟨creator, hlocker⟩,
      fun c h call hc => (by cases hc), ?_, hsema.ge⟩
    · simp only [hlocker, named, stand, inside]
      simpa using inj.eq_iff
    · simp [hsema, tally, unitOf, owns, stand, inside]

theorem lockCount_of_quiet {entry : Entry} {log : List (ι × Event)} (quiet : Quiet s)
    (h : ((system .mutex tid entry log).guard NoSignal).Reachable s) :
    s.entry.sema + s.entry.lockCount = entry.sema + entry.lockCount := by
  obtain ⟨fits, hlaw⟩ := held_reachable (fun _ _ hok => .inr hok) h
  -- A call at its first access is in none of the two gaps.
  have hpoint : ∀ c call, s.calls c = some call →
      call.point ≠ .lockInc ∧ call.point ≠ .unlockDec := by
    intro c call hc
    have hfirst := quiet c call hc
    rw [(fits c call hc).1] at hfirst
    constructor <;> intro hp <;> rw [hp] at hfirst <;> cases hop : call.op <;>
      rw [hop] at hfirst <;> cases hfirst
  have hinc : tally pendingInc s.calls = 0 := tally_eq_zero fun c => by
    cases hc : s.calls c with
    | none => rfl
    | some call => exact if_neg (hpoint c call hc).1
  have hdec : tally pendingDec s.calls = 0 := tally_eq_zero fun c => by
    cases hc : s.calls c with
    | none => rfl
    | some call => exact if_neg (hpoint c call hc).2
  simp only [held] at hlaw
  omega

theorem exclusive_reachable (inj : Function.Injective tid) (nonzero : ∀ c, tid c ≠ 0)
    {param : IpcCreate} {creator : ι} (hcreator : param.value ≠ 0 → param.lockerid = tid creator)
    (p : Ptr)
    (h : ((system .mutex tid (mutexFill param p) (created param creator)).guard
      NoSignal).Reachable s) : Exclusive tid s := by
  apply h.invariant (I := Exclusive tid)
  · rintro s rfl
    exact exclusive_created inj nonzero hcreator p
  · rintro s a t - ih ⟨quiet, step⟩
    exact ih.next inj nonzero quiet step

end Shared

/-- Mutual exclusion of one live mutex under every interleaving without signals. -/
theorem mutex_exclusive {ι : Type*} [Fintype ι] [DecidableEq ι] {tid : ι → Int32}
    (inj : Function.Injective tid) (nonzero : ∀ c, tid c ≠ 0) {param : IpcCreate} {creator : ι}
    (hcreator : param.value ≠ 0 → param.lockerid = tid creator) (p : Ptr) {s : Shared ι}
    (h : ((Shared.system .mutex tid (mutexFill param p) (Shared.created param creator)).guard
      Shared.NoSignal).Reachable s) :
    (∀ c d, inside c s.log = true → inside d s.log = true → c = d) ∧
    (s.Quiet →
      (s.entry.sema = 1 ∧ s.entry.lockCount = 0 ∧ s.entry.lockerid = 0) ∨
      (s.entry.sema = 0 ∧ s.entry.lockCount = 1 ∧
        ∃ c, inside c s.log = true ∧ s.entry.lockerid = tid c)) := by
  have inv := Shared.exclusive_reachable inj nonzero hcreator p h
  refine ⟨fun c d hc hd => inv.sole ?_ ?_, fun quiet => ?_⟩
  · simp [Shared.owns, Shared.stand, hc]
  · simp [Shared.owns, Shared.stand, hd]
  · have hcount := Shared.lockCount_of_quiet quiet h
    have hone : (mutexFill param p).sema + (mutexFill param p).lockCount = 1 := by
      unfold mutexFill
      split <;> rfl
    rcases inv.quiet_cases quiet with ⟨hs, hl⟩ | ⟨hs, hl⟩
    · exact .inl ⟨hs, by omega, hl⟩
    · exact .inr ⟨hs, by omega, hl⟩

/-- Client 0 created the mutex locked, client 1 has waited for it in vain. -/
theorem mutex_exclusive_contended :
    ∃ s : Shared (Fin 2),
      ((Shared.system .mutex twoThreads (mutexFill ⟨CStr.x, 1, 0, 1⟩ 4096)
        (Shared.created ⟨CStr.x, 1, 0, 1⟩ 0)).guard Shared.NoSignal).Reachable s ∧
      (inside 0 s.log = true ∧ s.calls 1 = none) ∧
      ∀ c d, inside c s.log = true → inside d s.log = true → c = d := by
  refine exists_guarded_of_run _ [(1, .request .lock 5), (1, .access .acquired),
    (1, .access .timedOut)] (fun s => decide (inside 0 s.log = true ∧ s.calls 1 = none)) rfl
    (by decide) fun s hs hp => ?_
  exact ⟨of_decide_eq_true hp,
    (mutex_exclusive twoThreads_injective twoThreads_ne_zero (fun _ => rfl) _ hs).1⟩

end Gipcy.Linux
