/-
# The timer that is polled (`Timers.cpp`)

The clock reads the ticks of a timer and converts them to nanoseconds.  The three timers have
units of different size, and the conversion rounds down to whole ones.
-/
import Mathlib.Data.Rat.Defs
import Northport.Lib.Word

namespace Northport.Arch

open Lib

/-- `selectedPollTimer`, with what was measured when it was set up. -/
inductive PollTimer where
  | pit
  /-- The period in femtoseconds. -/
  | hpet (hpetPeriod : ℕ)
  | tsc (tscTicksPerMs : ℕ) (calibrated : 0 < tscTicksPerMs)
deriving DecidableEq

def pitPeriod : ℕ := 838

def femtosPerNano : ℕ := 1000000

def nanosPerMilli : ℕ := 1000000

def pollTicksToNanos (timer : PollTimer) (ticks : ℕ) : ℕ :=
  match timer with
  | .pit => mul64 ticks pitPeriod
  | .hpet hpetPeriod => mul64 ticks hpetPeriod / femtosPerNano
  | .tsc tscTicksPerMs _ => mul64 (ticks / tscTicksPerMs) nanosPerMilli

/-! ### What the conversion drops

The result is a number of units, of which each is made of so many parts. -/

namespace PollTimer

/-- The unit that the conversion rounds to, in nanoseconds. -/
def unitNanos : PollTimer → ℕ
  | pit => pitPeriod
  | hpet _ => 1
  | tsc _ _ => nanosPerMilli

/-- The parts of a unit: ticks, or femtoseconds. -/
def unitParts : PollTimer → ℕ
  | pit => 1
  | hpet _ => femtosPerNano
  | tsc tscTicksPerMs _ => tscTicksPerMs

/-- A number of ticks in parts. -/
def parts (ticks : ℕ) : PollTimer → ℕ
  | pit => ticks
  | hpet hpetPeriod => ticks * hpetPeriod
  | tsc _ _ => ticks

/-- The exact time of a number of ticks. -/
def exactNanos (timer : PollTimer) (ticks : ℕ) : ℚ :=
  timer.parts ticks * timer.unitNanos / timer.unitParts

/-- The parts that the conversion drops. -/
def dropped (timer : PollTimer) (ticks : ℕ) : ℕ := timer.parts ticks % timer.unitParts

/-- The multiplication of the conversion does not wrap around. -/
def Fits (ticks : ℕ) : PollTimer → Prop
  | pit => ticks * pitPeriod < wordSize
  | hpet hpetPeriod => ticks * hpetPeriod < wordSize
  | tsc tscTicksPerMs _ => ticks / tscTicksPerMs * nanosPerMilli < wordSize

instance (timer : PollTimer) (ticks : ℕ) : Decidable (timer.Fits ticks) := by
  cases timer <;> exact inferInstanceAs (Decidable (_ < _))

variable {timer : PollTimer} {ticks : ℕ}

lemma unitParts_pos (timer : PollTimer) : 0 < timer.unitParts := by
  cases timer with
  | pit => exact Nat.one_pos
  | hpet _ => exact Nat.succ_pos _
  | tsc _ calibrated => exact calibrated

lemma unitNanos_pos (timer : PollTimer) : 0 < timer.unitNanos := by
  cases timer <;> exact Nat.succ_pos _

lemma parts_add (timer : PollTimer) (a b : ℕ) :
    timer.parts (a + b) = timer.parts a + timer.parts b := by
  cases timer with
  | pit => rfl
  | hpet period => exact add_mul a b period
  | tsc _ _ => rfl

lemma pollTicksToNanos_of_fits (h : timer.Fits ticks) :
    pollTicksToNanos timer ticks = timer.parts ticks / timer.unitParts * timer.unitNanos := by
  cases timer with
  | pit =>
    rw [pollTicksToNanos, mul64, Nat.mod_eq_of_lt h, parts, unitParts, Nat.div_one, unitNanos]
  | hpet period =>
    rw [pollTicksToNanos, mul64, Nat.mod_eq_of_lt h, unitNanos, mul_one, parts, unitParts]
  | tsc ticksPerMs _ => exact Nat.mod_eq_of_lt h

/-- What is converted and what is dropped make up the whole time. -/
lemma parts_of_fits (h : timer.Fits ticks) : timer.parts ticks * timer.unitNanos =
    pollTicksToNanos timer ticks * timer.unitParts + timer.dropped ticks * timer.unitNanos := by
  have hdiv := Nat.div_add_mod (timer.parts ticks) timer.unitParts
  rw [pollTicksToNanos_of_fits h, dropped]
  calc timer.parts ticks * timer.unitNanos
      = (timer.unitParts * (timer.parts ticks / timer.unitParts) +
          timer.parts ticks % timer.unitParts) * timer.unitNanos := by rw [hdiv]
    _ = _ := by ring

/-- A wrap around drops more than a unit. -/
lemma parts_of_not_fits (h : ¬ timer.Fits ticks) :
    (pollTicksToNanos timer ticks + timer.unitNanos) * timer.unitParts <
      timer.parts ticks * timer.unitNanos := by
  cases timer with
  | pit =>
    rw [Fits] at h
    rw [pollTicksToNanos, mul64, unitNanos, unitParts, parts]
    rw [pitPeriod, wordSize] at *
    omega
  | hpet period =>
    rw [Fits] at h
    rw [pollTicksToNanos, mul64, unitNanos, unitParts, parts]
    rw [femtosPerNano, wordSize] at *
    omega
  | tsc ticksPerMs calibrated =>
    rw [Fits] at h
    have hle : ticks / ticksPerMs * ticksPerMs ≤ ticks := Nat.div_mul_le_self _ _
    have hlt : ticks / ticksPerMs * nanosPerMilli % wordSize + nanosPerMilli <
        ticks / ticksPerMs * nanosPerMilli := by
      rw [nanosPerMilli, wordSize] at *
      omega
    calc (ticks / ticksPerMs * nanosPerMilli % wordSize + nanosPerMilli) * ticksPerMs
        < ticks / ticksPerMs * nanosPerMilli * ticksPerMs := Nat.mul_lt_mul_of_pos_right hlt calibrated
      _ = ticks / ticksPerMs * ticksPerMs * nanosPerMilli := by ring
      _ ≤ ticks * nanosPerMilli := Nat.mul_le_mul_right _ hle

/-- A comparison with the exact time. -/
lemma exactNanos_le_iff {n : ℕ} : timer.exactNanos ticks ≤ n ↔
    timer.parts ticks * timer.unitNanos ≤ n * timer.unitParts := by
  have hpos : (0 : ℚ) < timer.unitParts := by exact_mod_cast timer.unitParts_pos
  rw [exactNanos, div_le_iff₀ hpos]
  exact_mod_cast Iff.rfl

lemma le_exactNanos_iff {n : ℕ} : n ≤ timer.exactNanos ticks ↔
    n * timer.unitParts ≤ timer.parts ticks * timer.unitNanos := by
  have hpos : (0 : ℚ) < timer.unitParts := by exact_mod_cast timer.unitParts_pos
  rw [exactNanos, le_div_iff₀ hpos]
  exact_mod_cast Iff.rfl

lemma exactNanos_add (timer : PollTimer) (a b : ℕ) :
    timer.exactNanos (a + b) = timer.exactNanos a + timer.exactNanos b := by
  rw [exactNanos, exactNanos, exactNanos, parts_add]
  push_cast
  ring

end PollTimer

end Northport.Arch
