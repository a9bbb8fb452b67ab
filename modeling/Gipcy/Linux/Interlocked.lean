import Gipcy.Lib.Transition
import Mathlib.Data.BitVec
import Mathlib.Tactic.Ring

/-! `IPC_interlockedIncrement`, `IPC_interlockedDecrement` and
`IPC_interlockedExchangeAdd` of any number of threads on one variable, one load or
store of it a step. -/
namespace Gipcy.Linux.Interlocked

open Transition

abbrev Long := BitVec 64

inductive Call where
  | increment
  | decrement
  | exchangeAdd (val : Long)
deriving DecidableEq

/-- Where a thread is: `tmp` has been loaded, or `*dst` once more for the `+=`. -/
inductive Point where
  | idle
  | loaded (call : Call) (tmp : Long)
  | reloaded (val tmp dst : Long)
deriving DecidableEq

inductive Act where
  /-- The first load of a call. -/
  | load (call : Call)
  | reload
  | store
deriving DecidableEq

/-- The variable, the threads, and the calls that have returned with their results. -/
structure Variable (ι : Type*) where
  val : Long
  points : ι → Point
  returned : List (Call × Long)

section Steps

variable {ι : Type*} [DecidableEq ι]

def Variable.goto (s : Variable ι) (c : ι) (point : Point) : Variable ι :=
  { s with points := Function.update s.points c point }

/-- The last store of a call. -/
def Variable.store (s : Variable ι) (c : ι) (call : Call) (val result : Long) : Variable ι :=
  { s.goto c .idle with val := val, returned := (call, result) :: s.returned }

def Variable.next (s : Variable ι) : ι × Act → Option (Variable ι)
  | (c, act) =>
    match s.points c, act with
    | .idle, .load call => some (s.goto c (.loaded call s.val))
    | .loaded (.exchangeAdd val) tmp, .reload => some (s.goto c (.reloaded val tmp s.val))
    | .loaded .increment tmp, .store => some (s.store c .increment (tmp + 1) (tmp + 1))
    | .loaded .decrement tmp, .store => some (s.store c .decrement (tmp - 1) (tmp - 1))
    | .reloaded val tmp dst, .store => some (s.store c (.exchangeAdd val) (dst + val) tmp)
    | _, _ => none

def start (ι : Type*) (initial : Long) : Variable ι := ⟨initial, fun _ => .idle, []⟩

def system (ι : Type*) [DecidableEq ι] : System (Variable ι) (ι × Act) :=
  .ofNext (fun s => ∃ initial, s = start ι initial) Variable.next

end Steps

def Call.added : Call → Option Long
  | .exchangeAdd val => some val
  | _ => none

/-- The initial value and the increments, less the decrements, and the sum of the
added values. -/
def expected (initial : Long) (calls : List Call) : Long :=
  initial + (calls.count .increment : Long) - (calls.count .decrement : Long) +
    (calls.filterMap Call.added).sum

def Lossless {ι : Type*} (initial : Long) (s : Variable ι) : Prop :=
  s.val = expected initial (s.returned.map Prod.fst)

/-- The value that the thread will store to the variable is computed from this one. -/
def Point.basis : Point → Option Long
  | .idle => none
  | .loaded (.exchangeAdd _) _ => none
  | .loaded _ tmp => some tmp
  | .reloaded _ _ dst => some dst

/-- A store finds the variable as its thread has loaded it. -/
def UpToDate {ι : Type*} (s : Variable ι) : ι × Act → Prop
  | (c, .store) => ∀ basis ∈ (s.points c).basis, s.val = basis
  | _ => True

instance {ι : Type*} (s : Variable ι) (a : ι × Act) : Decidable (UpToDate s a) :=
  match a with
  | (c, .store) =>
    decidable_of_iff ((s.points c).basis.all fun basis => s.val = basis)
      (by simp [UpToDate, Option.all_eq_true])
  | (_, .load _) => inferInstanceAs (Decidable True)
  | (_, .reload) => inferInstanceAs (Decidable True)

def Call.delta : Call → Long
  | .increment => 1
  | .decrement => -1
  | .exchangeAdd val => val

section Loss

variable {ι : Type*} {initial : Long} {s t : Variable ι} {call : Call} {calls : List Call}

theorem expected_cons (initial : Long) (call : Call) (calls : List Call) :
    expected initial (call :: calls) = expected initial calls + call.delta := by
  cases call with
  | increment =>
    have hcount : (Call.increment :: calls).count .increment = calls.count .increment + 1 :=
      List.count_cons_self
    have hother : (Call.increment :: calls).count .decrement = calls.count .decrement :=
      List.count_cons_of_ne (by decide)
    have hsum : (Call.increment :: calls).filterMap Call.added = calls.filterMap Call.added :=
      List.filterMap_cons_none rfl
    rw [expected, expected, hcount, hother, hsum, Nat.cast_succ, Call.delta]
    ring
  | decrement =>
    have hcount : (Call.decrement :: calls).count .decrement = calls.count .decrement + 1 :=
      List.count_cons_self
    have hother : (Call.decrement :: calls).count .increment = calls.count .increment :=
      List.count_cons_of_ne (by decide)
    have hsum : (Call.decrement :: calls).filterMap Call.added = calls.filterMap Call.added :=
      List.filterMap_cons_none rfl
    rw [expected, expected, hcount, hother, hsum, Nat.cast_succ, Call.delta]
    ring
  | exchangeAdd val =>
    have hother : ∀ call, call ≠ .exchangeAdd val →
        (Call.exchangeAdd val :: calls).count call = calls.count call :=
      fun _ hne => List.count_cons_of_ne (Ne.symm hne)
    have hsum : (Call.exchangeAdd val :: calls).filterMap Call.added =
        val :: calls.filterMap Call.added := List.filterMap_cons_some rfl
    rw [expected, expected, hother _ (by simp), hother _ (by simp), hsum, List.sum_cons, Call.delta]
    ring

/-- A store loses nothing iff its thread has computed it from the value that it
overwrites. -/
theorem lossless_cons_iff {basis : Long} (hs : Lossless initial s)
    (hval : t.val = basis + call.delta) {result : Long}
    (hreturned : t.returned = (call, result) :: s.returned) :
    Lossless initial t ↔ s.val = basis := by
  have hs' : s.val = expected initial (s.returned.map Prod.fst) := hs
  unfold Lossless
  rw [hreturned, List.map_cons, expected_cons, ← hs', hval]
  constructor
  · intro h
    exact (add_right_cancel h).symm
  · intro h
    rw [h]

variable [DecidableEq ι]

/-- Loads and stores: what a step does to the variable and to the calls. -/
inductive Moves (s t : Variable ι) (a : ι × Act) : Prop where
  | loads : t.val = s.val → t.returned = s.returned → UpToDate s a → Moves s t a
  | stores {basis result} (call : Call) : t.val = basis + call.delta →
      t.returned = (call, result) :: s.returned → (UpToDate s a ↔ s.val = basis) → Moves s t a

theorem next_moves {a : ι × Act} (step : s.next a = some t) : Moves s t a := by
  obtain ⟨c, act⟩ := a
  have stores : ∀ {basis : Long}, (s.points c).basis = some basis →
      (UpToDate s (c, .store) ↔ s.val = basis) := by
    intro basis hbasis
    show (∀ b ∈ (s.points c).basis, s.val = b) ↔ _
    simp [hbasis]
  cases hc : s.points c with
  | idle =>
    cases act <;> simp [Variable.next, hc] at step
    subst step
    exact .loads rfl rfl trivial
  | loaded call tmp =>
    cases call with
    | increment =>
      cases act <;> simp [Variable.next, hc] at step
      subst step
      exact .stores .increment rfl rfl (stores (by rw [hc]; rfl))
    | decrement =>
      cases act <;> simp [Variable.next, hc] at step
      subst step
      exact .stores .decrement (sub_eq_add_neg tmp 1) rfl (stores (by rw [hc]; rfl))
    | exchangeAdd val =>
      cases act <;> simp [Variable.next, hc] at step
      subst step
      exact .loads rfl rfl trivial
  | reloaded val tmp dst =>
    cases act <;> simp [Variable.next, hc] at step
    subst step
    exact .stores (.exchangeAdd val) rfl rfl (stores (by rw [hc]; rfl))

theorem next_lossless_iff {a : ι × Act} (hs : Lossless initial s) (step : s.next a = some t) :
    Lossless initial t ↔ UpToDate s a := by
  cases next_moves step with
  | loads hval hreturned upToDate =>
    refine iff_of_true ?_ upToDate
    unfold Lossless
    rw [hval, hreturned]
    exact hs
  | stores call hval hreturned upToDate => rw [lossless_cons_iff hs hval hreturned, upToDate]

end Loss

section Claims

/-- A run keeps all updates in every state that it reaches iff every store in it
finds the variable as its thread has loaded it; in its last state the variable has
then the value that the calls add up to. -/
theorem no_update_lost_iff (ι : Type*) [DecidableEq ι] (initial : Long) {labels : List (ι × Act)}
    {t : Variable ι} :
    (((system ι).guard UpToDate).Exec (start ι initial) labels t →
      t.val = expected initial (t.returned.map Prod.fst)) ∧
    (((system ι).confine (Lossless initial)).Exec (start ι initial) labels t ↔
      ((system ι).guard UpToDate).Exec (start ι initial) labels t) := by
  have hstart : Lossless initial (start ι initial) := by
    simp [Lossless, expected, start]
  refine ⟨fun exec => ?_, ?_⟩
  · refine exec.preserves (I := Lossless initial) ?_ hstart
    rintro s a t hs ⟨upToDate, step⟩
    exact (next_lossless_iff hs step).mpr upToDate
  · exact System.exec_confine_iff (I := fun _ => True) (fun _ _ _ _ _ => trivial)
      (fun s a t _ hs step => next_lossless_iff hs step) trivial hstart

/-- Two increments, the second loading what the first has stored. -/
theorem no_update_lost_in_turn : ∃ t : Variable (Fin 2), t.val = 2 ∧
    t.val = expected 0 (t.returned.map Prod.fst) := by
  have hrun : (run (fun s a => if UpToDate s a then Variable.next s a else none) (start (Fin 2) 0)
      [(0, .load .increment), (0, .store), (1, .load .increment), (1, .store)]).any
      (fun t => t.val = 2) = true := by decide
  obtain ⟨t, ht, hval⟩ := (Option.any_eq_true _ _).mp hrun
  exact ⟨t, of_decide_eq_true hval, (no_update_lost_iff (Fin 2) 0).1 (exec_guarded_of_run ht)⟩

/-- Two threads load before either of them stores. -/
theorem update_lost : ¬ ∀ (ι : Type) [DecidableEq ι] (initial : Long) (labels : List (ι × Act))
    (t : Variable ι), (system ι).Exec (start ι initial) labels t → (∀ c, t.points c = .idle) →
    t.val = expected initial (t.returned.map Prod.fst) := by
  intro lossless
  have hrun : (run Variable.next (start (Fin 2) 0)
      [(0, .load .increment), (1, .load .increment), (0, .store), (1, .store)]).any
      (fun t => (∀ c, t.points c = .idle) ∧
        t.val ≠ expected 0 (t.returned.map Prod.fst)) = true := by decide
  obtain ⟨t, ht, hlost⟩ := (Option.any_eq_true _ _).mp hrun
  obtain ⟨hidle, hval⟩ := of_decide_eq_true hlost
  exact hval (lossless (Fin 2) 0 _ t (exec_ofNext_iff.mpr ht) hidle)

end Claims

end Gipcy.Linux.Interlocked
