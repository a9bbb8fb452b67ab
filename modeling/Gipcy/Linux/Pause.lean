import Gipcy.Lib.Polling

/-! `IPC_pause` for compilers up to GCC 4: a loop that asks for the time until the
delay has passed. -/
namespace Gipcy.Linux

open StateTransition Polling

/-- `struct timeval`. -/
structure Timeval where
  tvSec : Int
  tvUsec : Int
deriving DecidableEq

def Timeval.micros (tv : Timeval) : Int := tv.tvSec * 1000000 + tv.tvUsec

/-- The readings that `gettimeofday` gives, one call after the other. -/
structure Clock where
  read : Nat → Timeval
  normalised : ∀ i, 0 ≤ (read i).tvUsec ∧ (read i).tvUsec < 1000000
  monotone : ∀ i, (read i).micros ≤ (read (i + 1)).micros
  step : ∀ i, (read (i + 1)).micros ≤ (read i).micros + 1
  unbounded : ∀ n, ∃ i, n ≤ (read i).micros

/-- `wait_time` at the end of a round. The seconds of `dt` are not part of it. -/
def waitTime (zeroTime curTime : Timeval) : UInt32 :=
  let dt : Timeval := ⟨curTime.tvSec - zeroTime.tvSec, curTime.tvUsec - zeroTime.tvUsec⟩
  if dt.tvUsec < 0 then
    let dt : Timeval := ⟨dt.tvSec - 1, dt.tvUsec + 1000000⟩
    UInt32.ofInt dt.tvUsec
  else UInt32.ofInt dt.tvUsec

/-- The round that makes reading `i` is the last. -/
def waited (clock : Clock) (mcsec : UInt32) (i : Nat) : Bool :=
  !decide (waitTime (clock.read 0) (clock.read i) < mcsec)

/-- The loop. Reading 0 is `zero_time`, each round makes the next one. -/
def ipcPause (clock : Clock) (mcsec : UInt32) : Part Poll :=
  eval (Poll.next (waited clock mcsec)) (.round 1)

/-- The call returns, at least `mcsec` microseconds after its first reading. -/
def PauseRight (clock : Clock) (mcsec : UInt32) : Prop :=
  ∃ i, .left i ∈ ipcPause clock mcsec ∧
    (mcsec.toNat : Int) ≤ (clock.read i).micros - (clock.read 0).micros

section Pause

variable {clock : Clock} {mcsec : UInt32}

theorem toNat_ofInt_usec {n : Int} (low : 0 ≤ n) (high : n < 1000000) :
    ((UInt32.ofInt n).toNat : Int) = n := by
  have hlt : (n % 2 ^ 32).toNat < UInt32.size := by
    unfold UInt32.size
    omega
  rw [UInt32.ofInt, UInt32.toNat_ofNat_of_lt' hlt]
  omega

/-- The wait time is what has passed since the first reading, less whole seconds. -/
theorem waitTime_toNat (clock : Clock) (i : Nat) :
    ((waitTime (clock.read 0) (clock.read i)).toNat : Int) =
      ((clock.read i).micros - (clock.read 0).micros) % 1000000 := by
  obtain ⟨hlow, hhigh⟩ := clock.normalised i
  obtain ⟨hlow0, hhigh0⟩ := clock.normalised 0
  unfold waitTime Timeval.micros
  by_cases hborrow : (clock.read i).tvUsec - (clock.read 0).tvUsec < 0
  · simp only [if_pos hborrow]
    rw [toNat_ofInt_usec (by omega) (by omega)]
    omega
  · simp only [if_neg hborrow]
    rw [toNat_ofInt_usec (by omega) (by omega)]
    omega

theorem waited_iff (i : Nat) : waited clock mcsec i = true ↔
    (mcsec.toNat : Int) ≤ ((clock.read i).micros - (clock.read 0).micros) % 1000000 := by
  rw [← waitTime_toNat, waited, Bool.not_eq_true', decide_eq_false_iff_not, UInt32.lt_iff_toNat_lt]
  omega

/-- Some reading shows a full second less one microsecond. -/
theorem exists_waited (clock : Clock) (h : mcsec.toNat < 1000000) :
    ∃ i, 1 ≤ i ∧ waited clock mcsec i = true := by
  obtain ⟨i, hi⟩ := exists_eq_of_steps clock.unbounded clock.step
    (v := (clock.read 0).micros + 999999) (by omega)
  have hpos : i ≠ 0 := by
    rintro rfl
    omega
  refine ⟨i, Nat.one_le_iff_ne_zero.mpr hpos, (waited_iff i).mpr ?_⟩
  rw [hi]
  omega

theorem micros_le (clock : Clock) (i : Nat) : (clock.read 0).micros ≤ (clock.read i).micros := by
  induction i with
  | zero => exact Int.le_refl _
  | succ i ih => exact ih.trans (clock.monotone i)

theorem pauseRight_of_lt (h : mcsec.toNat < 1000000) : PauseRight clock mcsec := by
  obtain ⟨i, hi⟩ := exists_left_iff.mpr (exists_waited clock h)
  refine ⟨i, hi, ?_⟩
  have hwaited := (waited_iff i).mp (ready_of_left hi).2
  have hle := micros_le clock i
  omega

/-- A delay of a second or more is never seen to have passed. -/
theorem not_pauseRight (h : 1000000 ≤ mcsec.toNat) : ¬ PauseRight clock mcsec := by
  rintro ⟨i, hi, -⟩
  have hwaited := (waited_iff i).mp (ready_of_left hi).2
  omega

end Pause

section Claims

/-- The loop ends, and late enough, exactly for delays of less than a second. -/
theorem pause_right_iff (clock : Clock) (mcsec : UInt32) :
    PauseRight clock mcsec ↔ mcsec.toNat < 1000000 :=
  ⟨fun h => Nat.lt_of_not_le fun hle => not_pauseRight hle h, pauseRight_of_lt⟩

/-- A clock that is read once a microsecond. -/
def Clock.steady : Clock where
  read i := ⟨i / 1000000, i % 1000000⟩
  normalised i := by
    simp only
    omega
  monotone i := by
    simp only [Timeval.micros]
    omega
  step i := by
    simp only [Timeval.micros]
    omega
  unbounded n := ⟨n.toNat, by
    simp only [Timeval.micros]
    omega⟩

/-- One second on that clock. -/
theorem pause_not_right : ¬ ∀ clock mcsec, PauseRight clock mcsec := fun h =>
  not_pauseRight (by decide) (h Clock.steady 1000000)

end Claims

end Gipcy.Linux
