import Gipcy.Lib.SystemWait
import Gipcy.Linux.Itoa

/-! `ms_to_timespec` of `ipcdrv.cpp`, the deadline of a lock with a time limit. The products
are of type `int`, and nothing is carried from the nanoseconds to the seconds. -/
namespace Gipcy.Qnx

open SystemWait
open Linux.Itoa (int int_eq)

/-- The value of an expression of type `long`, if it does not overflow. -/
def long (n : Int) : Option Int :=
  if -0x8000000000000000 ≤ n ∧ n < 0x8000000000000000 then some n else none

theorem long_eq {n : Int} (low : -0x8000000000000000 ≤ n) (high : n < 0x8000000000000000) :
    long n = some n := if_pos ⟨low, high⟩

/-- What `clock_gettime` stores. -/
def clockReading (s n : Int64) : Timespec := ⟨s.toInt, n.toInt⟩

/-- The conversion to `uint64_t`. -/
def uint64 (n : Int) : Nat := (n % 0x10000000000000000).toNat

/-- Of the C library of QNX. -/
def nsec2timespec (ns : Nat) : Timespec := ⟨ns / 1000000000, ns % 1000000000⟩

def msToTimespec (ms : Int32) (clock : Timespec) : Option Timespec := do
  let product ← int (ms.toInt * 1000)
  let product ← int (product * 1000)
  let tt := nsec2timespec (uint64 product)
  let tvSec ← long (clock.tvSec + tt.tvSec)
  let tvNsec ← long (clock.tvNsec + tt.tvNsec)
  return ⟨tvSec, tvNsec⟩

section Deadline

variable {s n : Int64} {ms : Int32}

theorem int_overflow {n : Int} (h : 0x80000000 ≤ n) : int n = none :=
  if_neg fun hn => absurd hn.2 (Int.not_lt.mpr h)

theorem uint64_eq {n : Int} (low : 0 ≤ n) (high : n < 0x10000000000000000) :
    (uint64 n : Int) = n := by
  rw [uint64, Int.emod_eq_of_lt low high, Int.toNat_of_nonneg low]

/-- From 2148 milliseconds on the products leave the range of `int`. -/
theorem msToTimespec_overflow (h : 2147 < ms.toInt) (clock : Timespec) :
    msToTimespec ms clock = none := by
  have hlt := ms.toInt_lt
  unfold msToTimespec
  by_cases hproduct : ms.toInt * 1000 < 0x80000000
  · rw [int_eq (by omega) hproduct, Option.bind_eq_bind, Option.bind_some,
      int_overflow (by omega)]
    rfl
  · rw [int_overflow (by omega)]
    rfl

/-- Up to there it adds the whole seconds and the rest, each to its part. -/
theorem msToTimespec_eq (low : 0 ≤ ms.toInt) (high : ms.toInt ≤ 2147)
    (hn : 0 ≤ n.toInt ∧ n.toInt < nanosPerSec) :
    msToTimespec ms (clockReading s n) =
      (long (s.toInt + ms.toInt / 1000)).map fun tvSec =>
        ⟨tvSec, n.toInt + ms.toInt % 1000 * nanosPerMsec⟩ := by
  have huint := uint64_eq (n := ms.toInt * 1000 * 1000) (by omega) (by omega)
  have hsec : (uint64 (ms.toInt * 1000 * 1000) : Int) / 1000000000 = ms.toInt / 1000 := by omega
  have hnsec : (uint64 (ms.toInt * 1000 * 1000) : Int) % 1000000000 =
      ms.toInt % 1000 * nanosPerMsec := by
    unfold nanosPerMsec
    omega
  unfold nanosPerSec at hn
  have hlong : long (n.toInt + ms.toInt % 1000 * nanosPerMsec) =
      some (n.toInt + ms.toInt % 1000 * nanosPerMsec) := by
    unfold nanosPerMsec
    exact long_eq (by omega) (by omega)
  simp only [msToTimespec, int_eq (n := ms.toInt * 1000) (by omega) (by omega),
    int_eq (n := ms.toInt * 1000 * 1000) (by omega) (by omega), Option.bind_eq_bind,
    Option.bind_some, nsec2timespec, clockReading, hsec, hnsec, hlong]
  cases long (s.toInt + ms.toInt / 1000) <;> rfl

end Deadline

/-- A reading of the clock that a handler can get: an instant, and not one of the last
seconds of the type. -/
structure Clock where
  sec : Int64
  nsec : Int64
  normal : 0 ≤ nsec.toInt ∧ nsec.toInt < nanosPerSec
  room : sec.toInt + 2 < 0x8000000000000000
deriving DecidableEq

namespace Clock

def reading (clock : Clock) : Timespec := clockReading clock.sec clock.nsec

/-- The milliseconds of a limit do not reach the next second of the clock. -/
def InSecond (clock : Clock) (timeout : Int32) : Prop :=
  clock.nsec.toInt + timeout.toInt % 1000 * nanosPerMsec < nanosPerSec

instance (clock : Clock) (timeout : Int32) : Decidable (clock.InSecond timeout) :=
  inferInstanceAs (Decidable (_ < _))

/-- A limit for which there is a deadline that is an instant; none for a wait without limit. -/
def Takes (clock : Clock) (timeout : Int32) : Prop :=
  ¬ timeout < 0 → timeout.toInt ≤ 2147 ∧ clock.InSecond timeout

/-- A limit of 0 is the reading itself. -/
theorem takes_zero (clock : Clock) : clock.Takes 0 := fun _ =>
  ⟨by decide, by simpa [InSecond] using clock.normal.2⟩

/-- The beginning of a second. -/
def zero : Clock := ⟨0, 0, by decide, by decide⟩

variable (clock : Clock) {timeout : Int32}

/-- A deadline without an overflow is an instant if it needs no carry. -/
theorem msToTimespec_cases (limited : ¬ timeout < 0) :
    (2147 < timeout.toInt ∧ msToTimespec timeout clock.reading = none) ∨
    (timeout.toInt ≤ 2147 ∧ ∃ ts, msToTimespec timeout clock.reading = some ts ∧
      (ts.Normalised ↔ clock.InSecond timeout)) := by
  have low : 0 ≤ timeout.toInt := Int32.le_iff_toInt_le.mp (Int32.not_lt.mp limited)
  rcases Int.lt_or_le 2147 timeout.toInt with high | high
  · exact .inl ⟨high, msToTimespec_overflow high _⟩
  · have hroom := clock.room
    have hmin := clock.sec.le_toInt
    refine .inr ⟨high, ⟨clock.sec.toInt + timeout.toInt / 1000,
      clock.nsec.toInt + timeout.toInt % 1000 * nanosPerMsec⟩, ?_, ?_⟩
    · rw [reading, msToTimespec_eq low high clock.normal, long_eq (by omega) (by omega)]
      rfl
    · have hrest : 0 ≤ timeout.toInt % 1000 * nanosPerMsec := by
        unfold nanosPerMsec
        omega
      exact and_iff_right (Int.add_nonneg clock.normal.1 hrest)

end Clock

end Gipcy.Qnx
