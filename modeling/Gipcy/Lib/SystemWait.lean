import Mathlib.Tactic.Common
import Mathlib.Tactic.Ring

/-! The arguments of a wait in the kernel, and how long they ask it to last. -/
namespace SystemWait

/-- `struct timespec`. -/
structure Timespec where
  tvSec : Int
  tvNsec : Int
deriving DecidableEq

def nanosPerSec : Int := 1000000000

def nanosPerMsec : Int := 1000000

/-- The kernel refuses any other with `EINVAL`. -/
def Timespec.Normalised (ts : Timespec) : Prop := 0 ≤ ts.tvNsec ∧ ts.tvNsec < nanosPerSec

instance (ts : Timespec) : Decidable ts.Normalised := inferInstanceAs (Decidable (_ ∧ _))

def Timespec.nanos (ts : Timespec) : Int := ts.tvSec * nanosPerSec + ts.tvNsec

/-- The instant that comes a number of milliseconds after a reading of the clock. -/
def Timespec.After (clock : Timespec) (ms : Int) (ts : Timespec) : Prop :=
  ts.Normalised ∧ ts.nanos = clock.nanos + ms * nanosPerMsec

/-- A sum without a carry is that instant as long as there is nothing to carry. -/
theorem Timespec.after_add_iff {clock : Timespec} {ms sec nsec : Int} (hclock : 0 ≤ clock.tvNsec)
    (hnsec : 0 ≤ nsec) (h : sec * nanosPerSec + nsec = ms * nanosPerMsec) :
    clock.After ms ⟨clock.tvSec + sec, clock.tvNsec + nsec⟩ ↔
      clock.tvNsec + nsec < nanosPerSec := by
  constructor
  · intro hafter
    exact hafter.1.2
  · intro hlt
    refine ⟨⟨Int.add_nonneg hclock hnsec, hlt⟩, ?_⟩
    simp only [Timespec.nanos, ← h]
    ring

inductive Wait where
  | unlimited
  /-- A duration, as for `semtimedop`. -/
  | relative (ts : Timespec)
  /-- An instant, as for `sem_timedwait`. -/
  | absolute (ts : Timespec)
  /-- Ticks of the kernel's timer, as for `down_timeout`. -/
  | jiffies (n : Nat)
deriving DecidableEq

/-- The kernel's timer; `msecs_to_jiffies` rounds up. -/
structure Timer where
  HZ : Nat
  msecsToJiffies : UInt32 → Nat
  rounds_up : ∀ m, m.toNat < 2147483648 → msecsToJiffies m = (m.toNat * HZ + 999) / 1000

/-- A timer with one tick a millisecond. -/
def Timer.msec : Timer where
  HZ := 1000
  msecsToJiffies := UInt32.toNat
  rounds_up := fun m _ => by omega

/-- The wait that begins at `now` lasts for a number of milliseconds. -/
def Wait.Lasts (timer : Timer) (now : Nat) (ms : Int) : Wait → Prop
  | .unlimited => False
  | .relative ts => ts.Normalised ∧ ts.nanos = ms * nanosPerMsec
  | .absolute ts => ts.Normalised ∧ ts.nanos = now + ms * nanosPerMsec
  | .jiffies n => (n : Int) * 1000 = ms * timer.HZ

/-- The meaning of a timeout: no limit below 0, else its milliseconds. -/
def Wait.Means (timer : Timer) (now : Nat) (timeout : Int) (w : Wait) : Prop :=
  if timeout < 0 then w = .unlimited else w.Lasts timer now timeout

section Means

variable (timer : Timer) (now : Nat) {timeout : Int}

theorem means_unlimited_iff : Wait.unlimited.Means timer now timeout ↔ timeout < 0 := by
  by_cases h : timeout < 0 <;> simp [Wait.Means, Wait.Lasts, h]

theorem means_iff_lasts (w : Wait) (h : 0 ≤ timeout) :
    w.Means timer now timeout ↔ w.Lasts timer now timeout := by
  rw [Wait.Means, if_neg (by omega)]

/-- Rounding up is exact where a whole number of ticks fits. -/
theorem lasts_jiffies_iff (m : UInt32) (h : m.toNat < 2147483648) :
    (Wait.jiffies (timer.msecsToJiffies m)).Lasts timer now m.toNat ↔
      1000 ∣ m.toNat * timer.HZ := by
  rw [Wait.Lasts, timer.rounds_up m h, ← Int.natCast_mul]
  generalize m.toNat * timer.HZ = n
  omega

end Means

end SystemWait
