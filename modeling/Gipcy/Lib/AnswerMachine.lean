import Mathlib.Tactic.Common

/-! Calls one after the other, some of which are answered. A system that tracks a machine
gives the answers of the machine, and two machines whose states stay related answer alike. -/
namespace AnswerMachine

/-- The next state, and the answer if the call has one. -/
abbrev Machine (ρ κ α : Type*) := ρ → κ → ρ × Option α

variable {σ ρ ρ' κ α : Type*} {step : σ → κ → σ → Option α → Prop} {m : Machine ρ κ α}
  {m' : Machine ρ' κ α}

/-- The answers of a machine, from a state on. -/
def answers (m : Machine ρ κ α) : ρ → List κ → List α
  | _, [] => []
  | r, call :: calls => (m r call).2.toList ++ answers m (m r call).1 calls

/-- The calls that a system takes, with its answers. -/
inductive Run (step : σ → κ → σ → Option α → Prop) : σ → List κ → List α → Prop where
  | nil (s) : Run step s [] []
  | cons {s call t answer calls rest} : step s call t answer → Run step t calls rest →
      Run step s (call :: calls) (answer.toList ++ rest)

/-- The system takes every call of a kind, and does with it what the machine does. -/
structure Tracks (step : σ → κ → σ → Option α → Prop) (m : Machine ρ κ α) (R : σ → ρ → Prop)
    (kind : κ → Prop) : Prop where
  takes : ∀ {s r}, R s r → ∀ call, kind call → ∃ t answer, step s call t answer
  keeps : ∀ {s r call t answer}, R s r → kind call → step s call t answer →
    answer = (m r call).2 ∧ R t (m r call).1

variable {R : σ → ρ → Prop} {kind : κ → Prop}

theorem Tracks.run_iff (tracks : Tracks step m R kind) {s : σ} {r : ρ} (h : R s r)
    {calls : List κ} (kinds : ∀ call ∈ calls, kind call) (given : List α) :
    Run step s calls given ↔ given = answers m r calls := by
  induction calls generalizing s r given with
  | nil =>
    constructor
    · rintro ⟨⟩
      rfl
    · rintro rfl
      exact .nil s
  | cons call calls ih =>
    obtain ⟨hcall, hcalls⟩ := List.forall_mem_cons.mp kinds
    constructor
    · intro run
      cases run with
      | cons first rest =>
        obtain ⟨rfl, ht⟩ := tracks.keeps h hcall first
        rw [(ih ht hcalls _).mp rest]
        rfl
    · rintro rfl
      obtain ⟨t, answer, first⟩ := tracks.takes h call hcall
      obtain ⟨rfl, ht⟩ := tracks.keeps h hcall first
      exact .cons first ((ih ht hcalls _).mpr rfl)

/-- The system takes the calls, and whatever it does, these are its answers. -/
def Answered (step : σ → κ → σ → Option α → Prop) (s : σ) (calls : List κ) (given : List α) :
    Prop :=
  (∃ given', Run step s calls given') ∧ ∀ given', Run step s calls given' → given' = given

theorem Tracks.answered_iff (tracks : Tracks step m R kind) {s : σ} {r : ρ} (h : R s r)
    {calls : List κ} (kinds : ∀ call ∈ calls, kind call) (given : List α) :
    Answered step s calls given ↔ answers m r calls = given := by
  simp only [Answered, tracks.run_iff h kinds, forall_eq, exists_eq, true_and]

theorem answers_eq {R : ρ → ρ' → Prop}
    (alike : ∀ {r r'} call, R r r' → (m r call).2 = (m' r' call).2 ∧ R (m r call).1 (m' r' call).1)
    {r : ρ} {r' : ρ'} (h : R r r') (calls : List κ) : answers m r calls = answers m' r' calls := by
  induction calls generalizing r r' with
  | nil => rfl
  | cons call calls ih =>
    obtain ⟨hanswer, hnext⟩ := alike call h
    rw [answers, answers, hanswer, ih hnext]

end AnswerMachine
