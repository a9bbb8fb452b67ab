import Gipcy.Lib.Clients
import Gipcy.Lib.Transition
import Gipcy.Linux.Accesses

/-! Lock, unlock and reset requests of any number of clients on one live entry,
interleaved access by access. The entry stays live, so the handle check of a
request always passes and its registry lock does not touch the entry: a request
starts at its first access. -/
namespace Gipcy.Linux

open CountingSemaphore Transition Clients

/-- What the history of an entry records: a lock request that returned 0, the
first access of a mutex or semaphore unlock, a `down` that took a unit, an `up`. -/
inductive Event where
  | granted
  | released
  | took
  | raised (op : Op)
deriving DecidableEq

/-- The events of one access, which take place with it. -/
def events (call : Call) (how : WaitEnd) (next : Next) : List Event :=
  match call.point with
  | .lockTest | .lockInc | .lockSet => if next = .ret 0 then [.granted] else []
  | .lockDown => if how = .acquired then [.took] else []
  | .unlockTest => if call.kind = .mutex then [.released] else []
  | .unlockUp => if call.kind = .sem then [.raised call.op, .released] else [.raised call.op]
  | .unlockClear | .unlockDec => []

def Call.advance (call : Call) : Next → Option Call
  | .goto point => some { call with point := point }
  | .ret _ => none

/-- One live entry, the request each client is in, and the history, newest first. -/
structure Shared (ι : Type*) where
  entry : Entry
  calls : ι → Option Call
  log : List (ι × Event)

inductive Act where
  | request (op : Op) (timeout : Int32)
  | access (how : WaitEnd)
deriving DecidableEq

variable {ι : Type*} [DecidableEq ι]

/-- A client between a lock request that returned 0 and its next unlock. -/
def inside (c : ι) : List (ι × Event) → Bool
  | [] => false
  | (d, .granted) :: log => decide (d = c) || inside c log
  | (d, .released) :: log => !decide (d = c) && inside c log
  | (_, .took) :: log => inside c log
  | (_, .raised _) :: log => inside c log

/-- The lock requests of a client that returned 0, less its unlock requests. -/
def units (c : ι) : List (ι × Event) → Int
  | [] => 0
  | (d, .granted) :: log => units c log + if d = c then 1 else 0
  | (d, .released) :: log => units c log - if d = c then 1 else 0
  | (_, .took) :: log => units c log
  | (_, .raised _) :: log => units c log

/-- The waits that have passed. -/
def passes (log : List (ι × Event)) : Nat := log.countP fun e => e.2 = .took

/-- The sets that have raised the event. -/
def sets (log : List (ι × Event)) : Nat := log.countP fun e => e.2 = .raised .unlock

/-- The thread ids of two clients. -/
def twoThreads (c : Fin 2) : Int32 := if c = 0 then 1 else 2

theorem twoThreads_injective : Function.Injective twoThreads := by
  unfold Function.Injective
  decide

theorem twoThreads_ne_zero : ∀ c, twoThreads c ≠ 0 := by
  decide

namespace Shared

/-- One step of client `a.1`: it starts a request, or makes the next access of
the request it is in. -/
def next (k : Kind) (tid : ι → Int32) (s : Shared ι) (a : ι × Act) : Option (Shared ι) :=
  match a.2, s.calls a.1 with
  | .request op timeout, none =>
    (firstPoint k op).map fun point =>
      { s with calls := Function.update s.calls a.1 (some ⟨k, op, timeout, tid a.1, point⟩) }
  | .access how, some call =>
    (access call how s.entry).map fun r =>
      { entry := r.1
        calls := Function.update s.calls a.1 (call.advance r.2)
        log := (events call how r.2).map (Prod.mk a.1) ++ s.log }
  | _, _ => none

/-- The runs on an entry that begins as `entry`, with no request under way. -/
def system (k : Kind) (tid : ι → Int32) (entry : Entry) (log : List (ι × Event)) :
    System (Shared ι) (ι × Act) :=
  .ofNext (fun s => s = ⟨entry, fun _ => none, log⟩) (next k tid)

/-- No wait is interrupted by a signal. -/
def NoSignal (_ : Shared ι) (a : ι × Act) : Prop := a.2 ≠ .access .interrupted

instance (s : Shared ι) (a : ι × Act) : Decidable (NoSignal s a) :=
  inferInstanceAs (Decidable (_ ≠ _))

/-- No call is past its first access and has not yet returned. -/
def Quiet (s : Shared ι) : Prop :=
  ∀ c call, s.calls c = some call → firstPoint call.kind call.op = some call.point

/-- The calls that have done their `down` but not yet their `atomic_inc`. -/
def pendingInc : Option Call → Int
  | some call => if call.point = .lockInc then 1 else 0
  | none => 0

/-- The calls that have done their `up` but not yet their `atomic_dec`. -/
def pendingDec : Option Call → Int
  | some call => if call.point = .unlockDec then 1 else 0
  | none => 0

theorem pendingInc_nonneg (call : Option Call) : 0 ≤ pendingInc call := by
  cases call with
  | none => exact le_refl 0
  | some call =>
    simp only [pendingInc]
    split
    · exact Int.one_nonneg
    · exact le_refl 0

section Step

variable {k : Kind} {tid : ι → Int32} {s t : Shared ι} {c : ι}

theorem next_request {op : Op} {timeout : Int32}
    (h : next k tid s (c, .request op timeout) = some t) :
    s.calls c = none ∧ ∃ point, firstPoint k op = some point ∧
      t = { s with calls := Function.update s.calls c (some ⟨k, op, timeout, tid c, point⟩) } := by
  cases hc : s.calls c with
  | some call => simp [next, hc] at h
  | none =>
    simp only [next, hc] at h
    obtain ⟨point, hp, h⟩ := Option.map_eq_some_iff.mp h
    exact ⟨rfl, point, hp, h.symm⟩

theorem next_access {how : WaitEnd} (h : next k tid s (c, .access how) = some t) :
    ∃ call e nx, s.calls c = some call ∧ Effect call how s.entry e nx ∧
      t = ⟨e, Function.update s.calls c (call.advance nx),
        (events call how nx).map (Prod.mk c) ++ s.log⟩ := by
  cases hc : s.calls c with
  | none => simp [next, hc] at h
  | some call =>
    simp only [next, hc] at h
    obtain ⟨⟨e, nx⟩, ha, h⟩ := Option.map_eq_some_iff.mp h
    exact ⟨call, e, nx, rfl, access_effect ha, h.symm⟩

end Step

/-- A call of a client belongs to it, to the kind of the entry and to a point
that the kind has. -/
def Fits (k : Kind) (lockerid : Int32) (call : Option Call) : Prop :=
  ∀ c, call = some c → c.kind = k ∧ c.lockerid = lockerid ∧ k.has c.point = true

theorem fits_next {k : Kind} {tid : ι → Int32} {s t : Shared ι} {a : ι × Act}
    (h : next k tid s a = some t) (fits : ∀ c, Fits k (tid c) (s.calls c)) :
    ∀ c, Fits k (tid c) (t.calls c) := by
  obtain ⟨c, act⟩ := a
  cases act with
  | request op timeout =>
    obtain ⟨_, point, hp, rfl⟩ := next_request h
    apply forall_update (p := fun d => Fits k (tid d)) (fun d _ => fits d)
    rintro call ⟨⟩
    exact ⟨rfl, rfl, firstPoint_has hp⟩
  | access how =>
    obtain ⟨old, e, nx, hc, effect, rfl⟩ := next_access h
    apply forall_update (p := fun d => Fits k (tid d)) (fun d _ => fits d)
    obtain ⟨hk, hl, hp⟩ := fits c old hc
    intro call hcall
    cases nx with
    | ret error => cases hcall
    | goto point =>
      cases hcall
      exact ⟨hk, hl, hk ▸ effect.has (hk ▸ hp)⟩

end Shared

end Gipcy.Linux
