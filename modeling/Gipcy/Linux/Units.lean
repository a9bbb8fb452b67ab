import Gipcy.Linux.Registry
import Gipcy.Linux.Sharing

/-! Conservation of units. The kernel semaphore and the driver's own counter
move in two separate steps and in opposite directions; together with the calls
that stand between the two steps they always add up to what the entry began
with. -/
namespace Gipcy.Linux

open CountingSemaphore Transition Clients

/-- A signal that ends the wait of a mutex: the one case in which the counter
goes up without a unit. -/
def Interrupts (call : Call) (how : WaitEnd) : Prop :=
  call.kind = .mutex ∧ how = .interrupted

section Access

variable {call : Call} {how : WaitEnd} {e e' : Entry} {nx : Next}

theorem Effect.sema_nonneg (h : Effect call how e e' nx) (hs : 0 ≤ e.sema) : 0 ≤ e'.sema := by
  cases h with
  | took => simp only; omega
  | raised => simp only [Entry.up, post]; omega
  | _ => exact hs

/-- What the semaphore and the counter gain, the pending calls lose. -/
theorem Effect.conserves (h : Effect call how e e' nx) (quiet : ¬ Interrupts call how) :
    e'.sema + e'.lockCount + Shared.pendingInc (call.advance nx) -
        Shared.pendingDec (call.advance nx) =
      e.sema + e.lockCount + Shared.pendingInc (some call) - Shared.pendingDec (some call) := by
  cases h with
  | broken _ hi hk => exact absurd ⟨hk, hi⟩ quiet
  | _ =>
    simp_all only [Shared.pendingInc, Shared.pendingDec, Call.advance, Entry.incLock, Entry.decLock,
      Entry.up, post, reduceCtorEq, ↓reduceIte] <;> omega

end Access

namespace Shared

variable {ι : Type*} [DecidableEq ι]

section History

variable {c d : ι}

theorem inside_other (h : d ≠ c) (es : List Event) (log : List (ι × Event)) :
    inside d (es.map (Prod.mk c) ++ log) = inside d log := by
  induction es with
  | nil => rfl
  | cons e es ih => cases e <;> simp [inside, ih, Ne.symm h]

theorem units_other (h : d ≠ c) (es : List Event) (log : List (ι × Event)) :
    units d (es.map (Prod.mk c) ++ log) = units d log := by
  induction es with
  | nil => rfl
  | cons e es ih => cases e <;> simp [units, ih, Ne.symm h]

/-- What one client does changes the units of that client alone. -/
theorem units_update (es : List Event) (log : List (ι × Event)) :
    (fun d => units d (es.map (Prod.mk c) ++ log)) =
      Function.update (fun d => units d log) c (units c (es.map (Prod.mk c) ++ log)) := by
  funext d
  by_cases h : d = c
  · subst h
    rw [Function.update_self]
  · rw [Function.update_of_ne h, units_other h]

end History

variable [Fintype ι] {k : Kind} {tid : ι → Int32} {s t : Shared ι} {c : ι}

/-- The semaphore and the counter with the calls that stand between the two. -/
def held (s : Shared ι) : Int :=
  s.entry.sema + s.entry.lockCount + tally pendingInc s.calls - tally pendingDec s.calls

theorem pending_request {op : Op} (call : Call) (h : s.calls c = none)
    (hp : firstPoint k op = some call.point) :
    tally pendingInc (Function.update s.calls c (some call)) = tally pendingInc s.calls ∧
      tally pendingDec (Function.update s.calls c (some call)) = tally pendingDec s.calls := by
  have hinc : call.point ≠ .lockInc := by
    intro e
    rw [e] at hp
    cases k <;> cases op <;> cases hp
  have hdec : call.point ≠ .unlockDec := by
    intro e
    rw [e] at hp
    cases k <;> cases op <;> cases hp
  constructor
  · rw [tally_update, h]
    simp [pendingInc, hinc]
  · rw [tally_update, h]
    simp [pendingDec, hdec]

theorem held_next {a : ι × Act} (h : next k tid s a = some t)
    (fits : ∀ c, Fits k (tid c) (s.calls c)) (quiet : k ≠ .mutex ∨ NoSignal s a) :
    t.held = s.held := by
  obtain ⟨c, act⟩ := a
  cases act with
  | request op timeout =>
    obtain ⟨hc, point, hp, rfl⟩ := next_request h
    obtain ⟨hinc, hdec⟩ := pending_request ⟨k, op, timeout, tid c, point⟩ hc hp
    simp only [held, hinc, hdec]
  | access how =>
    obtain ⟨call, e, nx, hc, effect, rfl⟩ := next_access h
    have hquiet : ¬ Interrupts call how := by
      rintro ⟨hk, rfl⟩
      rw [(fits c call hc).1] at hk
      exact quiet.elim (· hk) (· rfl)
    have hsum := effect.conserves hquiet
    simp only [held, tally_update, hc]
    omega

/-- The law, from any entry with which the calls begin. -/
theorem held_reachable {entry : Entry} {log : List (ι × Event)} {ok : Shared ι → ι × Act → Prop}
    (quiet : ∀ s a, ok s a → k ≠ .mutex ∨ NoSignal s a) {s : Shared ι}
    (h : ((system k tid entry log).guard ok).Reachable s) :
    (∀ c, Fits k (tid c) (s.calls c)) ∧ s.held = entry.sema + entry.lockCount := by
  apply h.invariant (I := fun s => (∀ c, Fits k (tid c) (s.calls c)) ∧
    s.held = entry.sema + entry.lockCount)
  · rintro s rfl
    refine ⟨fun c call hc => (by cases hc), ?_⟩
    simp [held, tally, pendingInc, pendingDec]
  · rintro s a t - ⟨fits, ih⟩ ⟨hok, hs⟩
    exact ⟨fits_next hs fits, (held_next hs fits (quiet s a hok)).trans ih⟩

omit [Fintype ι] in
theorem sema_next {a : ι × Act} (h : next k tid s a = some t) (hs : 0 ≤ s.entry.sema) :
    0 ≤ t.entry.sema := by
  obtain ⟨c, act⟩ := a
  cases act with
  | request op timeout =>
    obtain ⟨_, point, _, rfl⟩ := next_request h
    exact hs
  | access how =>
    obtain ⟨call, e, nx, _, effect, rfl⟩ := next_access h
    exact effect.sema_nonneg hs

omit [Fintype ι] in
theorem sema_reachable {entry : Entry} {log : List (ι × Event)} {ok : Shared ι → ι × Act → Prop}
    (first : 0 ≤ entry.sema) {s : Shared ι}
    (h : ((system k tid entry log).guard ok).Reachable s) : 0 ≤ s.entry.sema := by
  apply h.invariant (I := fun s => 0 ≤ s.entry.sema)
  · rintro s rfl
    exact first
  · rintro s a t - ih ⟨-, hs⟩
    exact sema_next hs ih

/-! Semaphores: the units that clients hold. -/

def unlocks : Act → Bool
  | .request .unlock _ => true
  | _ => false

/-- A client unlocks only what it has locked. -/
def Disciplined (s : Shared ι) (a : ι × Act) : Prop :=
  unlocks a.2 = true → 0 < units a.1 s.log

instance (s : Shared ι) (a : ι × Act) : Decidable (Disciplined s a) :=
  inferInstanceAs (Decidable (_ → _))

omit [DecidableEq ι] [Fintype ι] in
theorem units_cons (c : ι) [DecidableEq ι] (e : Event) (log : List (ι × Event)) :
    units c ((c, e) :: log) =
      units c log + (if e = .granted then 1 else 0) - (if e = .released then 1 else 0) := by
  cases e <;> simp [units]

omit [Fintype ι] in
/-- On a semaphore a unit goes from the count to the pending calls, from there
to its client, and back to the count. -/
theorem unit_effect {call : Call} {how : WaitEnd} {e e' : Entry} {nx : Next}
    (h : Effect call how e e' nx) (hk : call.kind = .sem) (log : List (ι × Event)) :
    e'.sema + pendingInc (call.advance nx) +
        units c ((events call how nx).map (Prod.mk c) ++ log) =
      e.sema + pendingInc (some call) + units c log := by
  cases h <;>
    simp_all [pendingInc, Call.advance, events, Entry.up, post, Entry.incLock, Entry.decLock,
      units_cons]
  omega

/-- Units free, pending and held by clients. -/
def issued (s : Shared ι) : Int :=
  s.entry.sema + tally pendingInc s.calls + tally id fun c => units c s.log

theorem issued_next {a : ι × Act} (h : next .sem tid s a = some t)
    (fits : ∀ c, Fits .sem (tid c) (s.calls c)) : t.issued = s.issued := by
  obtain ⟨c, act⟩ := a
  cases act with
  | request op timeout =>
    obtain ⟨hc, point, hp, rfl⟩ := next_request h
    have hinc := (pending_request ⟨.sem, op, timeout, tid c, point⟩ hc hp).1
    simp only [issued, hinc]
  | access how =>
    obtain ⟨call, e, nx, hc, effect, rfl⟩ := next_access h
    have hunit := unit_effect (c := c) effect (fits c call hc).1 s.log
    simp only [issued, units_update, tally_update, hc, id]
    omega

/-- A client in an unlock holds a unit until it has given it back. -/
def Owes (units : Int) (call : Option Call) : Prop :=
  0 ≤ units ∧ ∀ c, call = some c → c.point = .unlockUp → 0 < units

omit [Fintype ι] in
theorem owes_effect {call : Call} {how : WaitEnd} {e e' : Entry} {nx : Next}
    (h : Effect call how e e' nx) (hk : call.kind = .sem) {log : List (ι × Event)}
    (owes : Owes (units c log) (some call)) :
    Owes (units c ((events call how nx).map (Prod.mk c) ++ log)) (call.advance nx) := by
  obtain ⟨hu, hup⟩ := owes
  cases h with
  | raised hp =>
    have := hup call rfl hp
    refine ⟨?_, ?_⟩
    · simp only [events, hp, hk, ↓reduceIte, List.map_cons, List.map_nil, List.cons_append,
        List.nil_append, units_cons, reduceCtorEq]
      omega
    · rintro _ ⟨⟩ ⟨⟩
  | _ =>
    simp_all [Owes, Call.advance, events, units_cons] <;> omega

omit [Fintype ι] in
theorem owes_next {a : ι × Act} (h : next .sem tid s a = some t) (ok : Disciplined s a)
    (fits : ∀ c, Fits .sem (tid c) (s.calls c)) (owes : ∀ c, Owes (units c s.log) (s.calls c)) :
    ∀ c, Owes (units c t.log) (t.calls c) := by
  obtain ⟨c, act⟩ := a
  cases act with
  | request op timeout =>
    obtain ⟨_, point, hp, rfl⟩ := next_request h
    apply forall_update (p := fun d => Owes (units d s.log)) fun d _ => owes d
    refine ⟨(owes c).1, ?_⟩
    rintro _ ⟨⟩ rfl
    -- Only an unlock begins with `up`.
    cases op with
    | unlock => exact ok rfl
    | _ => cases hp
  | access how =>
    obtain ⟨call, e, nx, hc, effect, rfl⟩ := next_access h
    have hd : ∀ d, d ≠ c → Owes (units d ((events call how nx).map (Prod.mk c) ++ s.log))
        (s.calls d) := fun d hd => (units_other hd _ s.log).symm ▸ owes d
    apply forall_update (p := fun d => Owes (units d _)) hd
    exact owes_effect effect (fits c call hc).1 (hc ▸ owes c)

theorem units_reachable {entry : Entry} {s : Shared ι}
    (h : ((system .sem tid entry []).guard Disciplined).Reachable s) :
    (∀ c, 0 ≤ units c s.log) ∧ s.issued = entry.sema := by
  have hinv : (∀ c, Fits .sem (tid c) (s.calls c)) ∧
      (∀ c, Owes (units c s.log) (s.calls c)) ∧ s.issued = entry.sema := by
    apply h.invariant (I := fun s => (∀ c, Fits .sem (tid c) (s.calls c)) ∧
      (∀ c, Owes (units c s.log) (s.calls c)) ∧ s.issued = entry.sema)
    · rintro s rfl
      refine ⟨fun c call hc => (by cases hc), fun c => ⟨le_refl 0, fun _ hc => (by cases hc)⟩, ?_⟩
      simp [issued, tally, pendingInc, units]
    · rintro s a t - ⟨fits, owes, ih⟩ ⟨ok, hs⟩
      exact ⟨fits_next hs fits, owes_next hs ok fits owes, (issued_next hs fits).trans ih⟩
  exact ⟨fun c => (hinv.2.1 c).1, hinv.2.2⟩

/-- The clients that hold a unit are no more than the units there are. -/
theorem card_holders_le {entry : Entry} (first : 0 ≤ entry.sema) {s : Shared ι}
    (h : ((system .sem tid entry []).guard Disciplined).Reachable s) :
    ((Finset.univ.filter fun c => 0 < units c s.log).card : Int) ≤ entry.sema := by
  obtain ⟨hunits, hissued⟩ := units_reachable h
  have hcard : ((Finset.univ.filter fun c => 0 < units c s.log).card : Int) ≤
      tally id fun c => units c s.log := card_le_tally hunits _ fun c hc => hc
  have hfree := sema_reachable first h
  have hpending : 0 ≤ tally pendingInc s.calls :=
    tally_nonneg s.calls fun c => pendingInc_nonneg (s.calls c)
  simp only [issued] at hissued
  omega

end Shared

section Claims

variable {ι : Type*} [Fintype ι] [DecidableEq ι]

theorem sem_units_conserved (tid : ι → Int32) {param : IpcCreate} (p : Ptr)
    (hv : 0 ≤ param.value) {s : Shared ι}
    (h : (Shared.system .sem tid (semFill param p) []).Reachable s) :
    s.held = param.value.toInt ∧ 0 ≤ s.entry.sema := by
  have hsema : 0 ≤ (semFill param p).sema := Int.natCast_nonneg _
  have hlaw := (Shared.held_reachable (fun _ _ _ => .inl (by decide)) h.guard_true).2
  refine ⟨?_, Shared.sema_reachable hsema h.guard_true⟩
  rw [hlaw, ← semaInit_of_nonneg hv]
  exact add_zero _

theorem event_units_conserved (tid : ι → Int32) (param : IpcCreate) (p : Ptr) {s : Shared ι}
    (h : (Shared.system .event tid (eventFill param p) []).Reachable s) :
    s.held = 1 ∧ 0 ≤ s.entry.sema :=
  ⟨(Shared.held_reachable (fun _ _ _ => .inl (by decide)) h.guard_true).2,
    Shared.sema_reachable (by decide : (0 : Int) ≤ 1) h.guard_true⟩

/-- Semaphores and events keep their units through any interleaving; the clients
of a semaphore that unlock only what they locked never hold more than it has. -/
theorem units_conserved (tid : ι → Int32) (param : IpcCreate) (p : Ptr)
    (hv : 0 ≤ param.value) :
    (∀ s, (Shared.system .sem tid (semFill param p) []).Reachable s →
      s.entry.sema + s.entry.lockCount + tally Shared.pendingInc s.calls -
        tally Shared.pendingDec s.calls = param.value.toInt ∧ 0 ≤ s.entry.sema) ∧
    (∀ s, (Shared.system .event tid (eventFill param p) []).Reachable s →
      s.entry.sema + s.entry.lockCount + tally Shared.pendingInc s.calls -
        tally Shared.pendingDec s.calls = 1 ∧ 0 ≤ s.entry.sema) ∧
    (∀ s, ((Shared.system .sem tid (semFill param p) []).guard Shared.Disciplined).Reachable s →
      ((Finset.univ.filter fun c => 0 < units c s.log).card : Int) ≤ param.value.toInt) := by
  refine ⟨fun s h => sem_units_conserved tid p hv h, fun s h => event_units_conserved tid param p h,
    fun s h => ?_⟩
  rw [← semaInit_of_nonneg hv]
  exact Shared.card_holders_le (Int.natCast_nonneg _) h

/-- Client 0 holds the only unit, the wait of client 1 has timed out. -/
theorem units_conserved_timeout :
    ∃ s : Shared (Fin 2),
      ((Shared.system .sem twoThreads
        (semFill ⟨CStr.x, 1, 0, 1⟩ 4096) []).guard Shared.Disciplined).Reachable s ∧
      (units 0 s.log = 1 ∧ s.entry.sema = 0 ∧ s.calls 1 = none) ∧
      ((Finset.univ.filter fun c => 0 < units c s.log).card : Int) ≤ 1 := by
  refine exists_guarded_of_run _ [(0, .request .lock (-1)), (0, .access .acquired),
    (0, .access .acquired), (1, .request .lock 5), (1, .access .timedOut)]
    (fun s => decide (units 0 s.log = 1 ∧ s.entry.sema = 0 ∧ s.calls 1 = none)) rfl
    (by decide) fun s hs hp => ?_
  exact ⟨of_decide_eq_true hp, (units_conserved _ _ _ (by decide)).2.2 s hs⟩

end Claims

end Gipcy.Linux
