import Kaka.Limiter
import Mathlib.Algebra.Order.Floor.Ring
import Mathlib.Data.Rat.Floor
import Mathlib.Tactic.Positivity

/-! # Levels and waits of the in-memory buckets

The `float64` levels of the buckets are read as exact rationals, and so is
the conversion of an integer constant to `float64`.
-/

namespace Kaka.Memory

/-- The conversion to `int64` of a value that is not negative.  Out of range
it is implementation-defined in Go; here it is the result on amd64. -/
def int64 (value : ℚ) : Int := if value < 2 ^ 63 then ⌊value⌋ else -2 ^ 63

def remainingFloor (value : ℚ) : Int := if value ≤ 0 then 0 else int64 value

theorem remainingFloor_eq {value : ℚ} (hLow : 0 ≤ value) (hHigh : value < 2 ^ 63) :
    remainingFloor value = ⌊value⌋ := by
  rw [remainingFloor, int64, if_pos hHigh]
  split
  · rename_i hZero
    rw [le_antisymm hZero hLow, Int.floor_zero]
  · rfl

def seconds (d : Int) : ℚ := d / 10 ^ 9

def floatEpsilonNanos : ℚ := 1 / 10 ^ 6

def mathRound (value : ℚ) : Int := ⌊value + 1 / 2⌋ -- of a value that is not negative

def durationFromSecondsCeil (seconds : ℚ) : Int :=
  if seconds ≤ 0 then 0
  else
    let nanos := seconds * 10 ^ 9
    if (maxDuration : ℚ) ≤ nanos then maxDuration
    else
      let rounded := mathRound nanos
      if |nanos - rounded| < floatEpsilonNanos then rounded else ⌈nanos⌉

section Wait

variable {s : ℚ}

theorem floatEpsilonNanos_lt_one : floatEpsilonNanos < 1 := by norm_num [floatEpsilonNanos]

theorem durationFromSecondsCeil_le {n : Int} (hPos : 0 < s) (hCovers : s * 10 ^ 9 ≤ n) :
    durationFromSecondsCeil s ≤ n := by
  simp only [durationFromSecondsCeil, if_neg (not_le.mpr hPos)]
  split
  · rename_i hMax
    exact_mod_cast hMax.trans hCovers
  · split
    · rename_i hNear
      have hBelow := (abs_lt.mp (hNear.trans floatEpsilonNanos_lt_one)).1
      have hLt : (mathRound (s * 10 ^ 9) : ℚ) < (n + 1 : Int) := by
        push_cast
        linarith
      exact Int.lt_add_one_iff.mp (by exact_mod_cast hLt)
    · exact Int.ceil_le.mpr hCovers

/-- The duration falls short of the wait by less than a nanosecond. -/
theorem lt_durationFromSecondsCeil (hPos : 0 < s) (hFits : s * 10 ^ 9 ≤ maxDuration) :
    s * 10 ^ 9 < durationFromSecondsCeil s + 1 := by
  simp only [durationFromSecondsCeil, if_neg (not_le.mpr hPos)]
  split
  · linarith
  · split
    · rename_i hNear
      have hAbove := (abs_lt.mp (hNear.trans floatEpsilonNanos_lt_one)).2
      linarith
    · have := Int.le_ceil (s * 10 ^ 9)
      linarith

theorem lt_durationFromSecondsCeil_add (hPos : 0 < s) (hFits : durationFromSecondsCeil s < maxDuration) :
    s * 10 ^ 9 < durationFromSecondsCeil s + floatEpsilonNanos := by
  simp only [durationFromSecondsCeil, if_neg (not_le.mpr hPos)] at hFits ⊢
  split at hFits
  · exact absurd hFits (lt_irrefl _)
  · rename_i hMax
    rw [if_neg hMax]
    split
    · rename_i hNear
      have hAbove := (abs_lt.mp hNear).2
      linarith
    · have hCeil := Int.le_ceil (s * 10 ^ 9)
      have hTolerance : 0 < floatEpsilonNanos := by norm_num [floatEpsilonNanos]
      linarith

end Wait

end Kaka.Memory
