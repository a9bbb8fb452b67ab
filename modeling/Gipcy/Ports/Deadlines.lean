import Gipcy.Linux.Threads
import Gipcy.Qnx.Deadline

/-! Deadlines: the instant up to which a timed lock of the QNX driver waits for its
semaphore, and `IPC_waitThread` of the Linux libraries for its thread. -/
namespace Gipcy.Ports

open SystemWait
open Linux (IpcType ThreadObject IPC_OK IPC_GENERAL_ERROR IPC_INVALID_HANDLE)
open Linux.Itoa (int int_eq)
open Qnx (long long_eq int_overflow clockReading msToTimespec msToTimespec_eq
  msToTimespec_overflow)

def EAGAIN : Int := 11

/-- The join that ends a wait: of the thread 0, of the thread of the handle, or of
this thread up to an instant. -/
inductive Join where
  | null
  | unlimited
  | timed (ts : Timespec)
deriving DecidableEq

/-- `IPC_waitThread` up to its join, or to the error that it returns instead. -/
def waitThreadJoin (handle : Option ThreadObject) (timeout : Int32) (clock : Option Timespec) :
    Option (Except Int Join) :=
  match handle with
  | none => some (.ok .null)
  | some h =>
    if h.ipcType ≠ .thread then some (.error IPC_INVALID_HANDLE)
    else if timeout < 0 then some (.ok .unlimited)
    else
      match clock with
      | none => some (.error (-EAGAIN))
      | some ts => do
        let product ← int (timeout.toInt * 1000000)
        let tvNsec ← long (ts.tvNsec + product)
        return .ok (.timed { ts with tvNsec := tvNsec })

def ipcWaitThread (handle : Option ThreadObject) (timeout : Int32) (clock : Option Timespec)
    (join : Join → Int32) : Option Int :=
  (waitThreadJoin handle timeout clock).map fun
    | .error error => error
    | .ok j => if join j ≠ 0 then IPC_GENERAL_ERROR else IPC_OK

/-! When they are right. -/

/-- The deadline is computed without an overflow and is the right instant. -/
def MsToTimespecRight (clock : Timespec) (ms : Int32) : Prop :=
  ∃ ts, msToTimespec ms clock = some ts ∧ clock.After ms.toInt ts

/-- So it is for the join of a thread. -/
def WaitThreadRight (clock : Timespec) (h : ThreadObject) (timeout : Int32) : Prop :=
  ∃ ts, waitThreadJoin (some h) timeout (some clock) = some (.ok (.timed ts)) ∧
    clock.After timeout.toInt ts

section Deadlines

variable {s n : Int64} {ms : Int32}

theorem msToTimespec_right_iff (low : 0 ≤ ms.toInt) (hn : 0 ≤ n.toInt ∧ n.toInt < nanosPerSec) :
    MsToTimespecRight (clockReading s n) ms ↔
      ms.toInt ≤ 2147 ∧ n.toInt + ms.toInt % 1000 * nanosPerMsec < nanosPerSec ∧
        s.toInt + ms.toInt / 1000 < 0x8000000000000000 := by
  by_cases high : ms.toInt ≤ 2147
  · have hparts : ms.toInt / 1000 * nanosPerSec + ms.toInt % 1000 * nanosPerMsec =
        ms.toInt * nanosPerMsec := by
      unfold nanosPerSec nanosPerMsec
      omega
    have hrest : 0 ≤ ms.toInt % 1000 * nanosPerMsec := by
      unfold nanosPerMsec
      omega
    have hadd : (clockReading s n).After ms.toInt
          ⟨s.toInt + ms.toInt / 1000, n.toInt + ms.toInt % 1000 * nanosPerMsec⟩ ↔
        n.toInt + ms.toInt % 1000 * nanosPerMsec < nanosPerSec :=
      Timespec.after_add_iff hn.1 hrest hparts
    rw [MsToTimespecRight, msToTimespec_eq low high hn]
    by_cases hs : s.toInt + ms.toInt / 1000 < 0x8000000000000000
    · have hmin := s.le_toInt
      rw [long_eq (by omega) hs]
      simpa [high, hs] using hadd
    · simp [high, hs, long]
  · simp [MsToTimespecRight, msToTimespec_overflow (Int.not_le.mp high), high]

section WaitThread

variable {h : ThreadObject} (hh : h.ipcType = .thread) (low : 0 ≤ ms.toInt)
include hh low

/-- A limit is there, so the clock is read. -/
theorem waitThreadJoin_clock (ts : Timespec) :
    waitThreadJoin (some h) ms (some ts) =
      (int (ms.toInt * 1000000)).bind fun product =>
        (long (ts.tvNsec + product)).map fun tvNsec => .ok (.timed ⟨ts.tvSec, tvNsec⟩) := by
  have htimeout : ¬ ms < 0 := by
    rw [Int32.lt_iff_toInt_lt]
    exact Int.not_lt.mpr low
  simp only [waitThreadJoin, hh, ne_eq, not_true_eq_false, ↓reduceIte, htimeout]
  apply congrArg (Option.bind _)
  funext product
  cases long (ts.tvNsec + product) <;> rfl

/-- The milliseconds are added to the nanoseconds, as many as there are. -/
theorem waitThreadJoin_eq (high : ms.toInt * 1000000 < 0x80000000)
    (hn : 0 ≤ n.toInt ∧ n.toInt < nanosPerSec) :
    waitThreadJoin (some h) ms (some (clockReading s n)) =
      some (.ok (.timed ⟨s.toInt, n.toInt + ms.toInt * nanosPerMsec⟩)) := by
  unfold nanosPerSec at hn
  have hlong : long ((clockReading s n).tvNsec + ms.toInt * 1000000) =
      some (n.toInt + ms.toInt * nanosPerMsec) := by
    have hsum : (clockReading s n).tvNsec + ms.toInt * 1000000 =
        n.toInt + ms.toInt * nanosPerMsec := rfl
    rw [hsum]
    unfold nanosPerMsec
    exact long_eq (by omega) (by omega)
  rw [waitThreadJoin_clock hh low, int_eq (by omega) high, Option.bind_some, hlong,
    Option.map_some]
  rfl

theorem waitThread_right_iff (hn : 0 ≤ n.toInt ∧ n.toInt < nanosPerSec) :
    WaitThreadRight (clockReading s n) h ms ↔
      n.toInt + ms.toInt * nanosPerMsec < nanosPerSec := by
  by_cases high : ms.toInt * 1000000 < 0x80000000
  · have hsum : (0 : Int) * nanosPerSec + ms.toInt * nanosPerMsec = ms.toInt * nanosPerMsec := by
      rw [Int.zero_mul, Int.zero_add]
    have hadd : (clockReading s n).After ms.toInt
          ⟨s.toInt + 0, n.toInt + ms.toInt * nanosPerMsec⟩ ↔
        n.toInt + ms.toInt * nanosPerMsec < nanosPerSec :=
      Timespec.after_add_iff hn.1 (Int.mul_nonneg low (by decide)) hsum
    rw [Int.add_zero] at hadd
    simpa [WaitThreadRight, waitThreadJoin_eq hh low high hn] using hadd
  · refine iff_of_false ?_ ?_
    · rintro ⟨ts, hts, -⟩
      rw [waitThreadJoin_clock hh low, int_overflow (Int.not_lt.mp high)] at hts
      cases hts
    · unfold nanosPerSec nanosPerMsec
      omega

/-- A wait that would end in the next clock second fails, since no join takes such an
instant. -/
theorem waitThread_fails (high : ms.toInt * 1000000 < 0x80000000)
    (hn : 0 ≤ n.toInt ∧ n.toInt < nanosPerSec)
    (late : nanosPerSec ≤ n.toInt + ms.toInt * nanosPerMsec) {join : Join → Int32}
    (refuses : ∀ ts : Timespec, ¬ ts.Normalised → join (.timed ts) ≠ 0) :
    ipcWaitThread (some h) ms (some (clockReading s n)) join = some IPC_GENERAL_ERROR := by
  have hlate : ¬ Timespec.Normalised ⟨s.toInt, n.toInt + ms.toInt * nanosPerMsec⟩ :=
    fun hnormal => absurd hnormal.2 (Int.not_lt.mpr late)
  rw [ipcWaitThread, waitThreadJoin_eq hh low high hn, Option.map_some]
  exact congrArg some (if_pos (refuses _ hlate))

end WaitThread

end Deadlines

section Claims

/-- The deadline of a QNX lock is right up to 2147 milliseconds, the one of a thread
wait as far as the clock's second goes; neither carries into the seconds. -/
theorem deadline_right_iff {s n : Int64} {ms : Int32} (hms : 0 ≤ ms)
    (hn : 0 ≤ n.toInt ∧ n.toInt < nanosPerSec) {h : ThreadObject} (hh : h.ipcType = .thread) :
    (MsToTimespecRight (clockReading s n) ms ↔
      ms.toInt ≤ 2147 ∧ n.toInt + ms.toInt % 1000 * nanosPerMsec < nanosPerSec ∧
        s.toInt + ms.toInt / 1000 < 0x8000000000000000) ∧
    (WaitThreadRight (clockReading s n) h ms ↔
      n.toInt + ms.toInt * nanosPerMsec < nanosPerSec) := by
  have low : 0 ≤ ms.toInt := Int32.le_iff_toInt_le.mp hms
  exact ⟨msToTimespec_right_iff low hn, waitThread_right_iff hh low hn⟩

/-- At the start of a clock second, the longest timeout that the driver can take. -/
theorem deadline_right_iff_longest :
    MsToTimespecRight (clockReading 0 0) 2147 ∧
      ¬ WaitThreadRight (clockReading 0 0) ⟨.thread, none⟩ 2147 := by
  constructor
  · apply (deadline_right_iff (by decide) (by decide) (h := ⟨.thread, none⟩) rfl).1.mpr
    decide
  · apply (deadline_right_iff (by decide) (by decide) rfl).2.not.mpr
    decide

/-- One millisecond in the last nanosecond of a clock second. -/
theorem deadline_not_right :
    ¬ ∀ (s n : Int64) (ms : Int32), 0 ≤ ms → 0 ≤ n.toInt ∧ n.toInt < nanosPerSec →
      ∀ h : ThreadObject, h.ipcType = .thread →
        MsToTimespecRight (clockReading s n) ms ∧ WaitThreadRight (clockReading s n) h ms := by
  intro hright
  have h := (hright 0 999999999 1 (by decide) (by decide) ⟨.thread, none⟩ rfl).1
  rw [msToTimespec_right_iff (by decide) (by decide)] at h
  exact absurd h (by decide)

end Claims

end Gipcy.Ports
