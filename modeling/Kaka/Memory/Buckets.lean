import Kaka.Memory.Numeric
import Mathlib.Tactic.Linarith
import Mathlib.Tactic.Ring

/-! # The in-memory token bucket and leaky bucket

Both move their level by the time since the last request, which is negative
where the clock reading is earlier than the last one, clamp it on one side
only, and decide.  The leaky bucket is the token bucket seen from the other
end: the room it has left is the tokens.
-/

namespace Kaka.Memory

structure Bucket where
  tokens : ℚ
  lastRefilled : Int
  deriving DecidableEq

structure LeakyState where
  water : ℚ
  lastLeak : Int
  deriving DecidableEq

namespace TokenBucket

variable (tb : Rates)

def create (now : Int) : Bucket := ⟨tb.capacity, now⟩

def refillAndDecide (b : Bucket) (now : Int) : Bucket × Result :=
  let elapsed := seconds (sub now b.lastRefilled)
  let tokens := b.tokens + elapsed * tb.rate
  let tokens := if tb.capacity < tokens then tb.capacity else tokens
  if 1 ≤ tokens then (⟨tokens - 1, now⟩, ⟨true, remainingFloor (tokens - 1), 0⟩)
  else (⟨tokens, now⟩, ⟨false, 0, durationFromSecondsCeil ((1 - tokens) / tb.rate)⟩)

end TokenBucket

namespace LeakyBucket

variable (lb : Rates)

def create (now : Int) : LeakyState := ⟨0, now⟩

def leakAndDecide (b : LeakyState) (now : Int) : LeakyState × Result :=
  let elapsed := seconds (sub now b.lastLeak)
  let leakedWater := elapsed * lb.rate
  let water := b.water - leakedWater
  let water := if water < 0 then 0 else water
  if water + 1 ≤ lb.capacity then
    (⟨water + 1, now⟩, ⟨true, remainingFloor (lb.capacity - (water + 1)), 0⟩)
  else (⟨water, now⟩, ⟨false, 0, durationFromSecondsCeil ((water + 1 - lb.capacity) / lb.rate)⟩)

end LeakyBucket

/-! ## The token bucket -/

namespace TokenBucket

variable (tb : Rates) (b : Bucket) (now : Int)

/-- The tokens before the decision. -/
def refilled : ℚ := min tb.capacity (b.tokens + seconds (sub now b.lastRefilled) * tb.rate)

theorem refillAndDecide_eq : refillAndDecide tb b now =
    if 1 ≤ refilled tb b now then
      (⟨refilled tb b now - 1, now⟩, ⟨true, remainingFloor (refilled tb b now - 1), 0⟩)
    else (⟨refilled tb b now, now⟩,
      ⟨false, 0, durationFromSecondsCeil ((1 - refilled tb b now) / tb.rate)⟩) := by
  have hMin : (if tb.capacity < b.tokens + seconds (sub now b.lastRefilled) * tb.rate then tb.capacity
      else b.tokens + seconds (sub now b.lastRefilled) * tb.rate) = refilled tb b now :=
    (min_def_lt _ _).symm
  rw [refillAndDecide, hMin]

theorem refilled_le : refilled tb b now ≤ tb.capacity := min_le_left _ _

variable {tb b now}

theorem allowed_iff : (refillAndDecide tb b now).2.allowed = true ↔ 1 ≤ refilled tb b now := by
  rw [refillAndDecide_eq]
  split <;> simp_all

theorem tokens_refill : (refillAndDecide tb b now).1.tokens = refilled tb b now -
    if (refillAndDecide tb b now).2.allowed then 1 else 0 := by
  rw [refillAndDecide_eq]
  split <;> simp

theorem lastRefilled_refill : (refillAndDecide tb b now).1.lastRefilled = now := by
  rw [refillAndDecide_eq]
  split <;> rfl

end TokenBucket

/-! ## The leaky bucket seen as a token bucket -/

namespace LeakyBucket

variable (lb : Rates)

def asTokens (b : LeakyState) : Bucket := ⟨lb.capacity - b.water, b.lastLeak⟩

theorem asTokens_create (now : Int) : asTokens lb (create now) = TokenBucket.create lb now := by
  simp [asTokens, create, TokenBucket.create]

theorem refilled_asTokens (b : LeakyState) (now : Int) :
    TokenBucket.refilled lb (asTokens lb b) now =
      lb.capacity - max 0 (b.water - seconds (sub now b.lastLeak) * lb.rate) := by
  simp only [TokenBucket.refilled, asTokens]
  rcases le_total 0 (b.water - seconds (sub now b.lastLeak) * lb.rate) with hWet | hDry
  · rw [max_eq_right hWet, min_eq_right (by linarith)]
    ring
  · rw [max_eq_left hDry, min_eq_left (by linarith), sub_zero]

theorem leakAndDecide_asTokens (b : LeakyState) (now : Int) :
    TokenBucket.refillAndDecide lb (asTokens lb b) now =
      (asTokens lb (leakAndDecide lb b now).1, (leakAndDecide lb b now).2) := by
  have hMax : (if b.water - seconds (sub now b.lastLeak) * lb.rate < 0 then 0
      else b.water - seconds (sub now b.lastLeak) * lb.rate) =
      max 0 (b.water - seconds (sub now b.lastLeak) * lb.rate) := by
    rw [max_comm, max_def_lt]
  rw [TokenBucket.refillAndDecide_eq, refilled_asTokens, leakAndDecide, hMax]
  generalize max 0 (b.water - seconds (sub now b.lastLeak) * lb.rate) = water
  have hIff : 1 ≤ lb.capacity - water ↔ water + 1 ≤ lb.capacity := by
    constructor <;> intro h <;> linarith
  simp only [hIff]
  split
  · simp only [asTokens, sub_sub]
  · have hWait : 1 - (lb.capacity - water) = water + 1 - lb.capacity := by ring
    simp only [asTokens, hWait]

theorem answers_asTokens (readings : List Int) :
    answers create (leakAndDecide lb) readings =
      answers (TokenBucket.create lb) (TokenBucket.refillAndDecide lb) readings := by
  cases readings with
  | nil => rfl
  | cons now rest =>
    rw [answers, answers, ← asTokens_create, serve_map (leakAndDecide_asTokens lb)]

end LeakyBucket

/-- The two buckets answer any readings alike, in any order. -/
theorem buckets_alike (rates : Rates) (readings : List Int) :
    answers (TokenBucket.create rates) (TokenBucket.refillAndDecide rates) readings =
      answers LeakyBucket.create (LeakyBucket.leakAndDecide rates) readings :=
  (LeakyBucket.answers_asTokens rates readings).symm

end Kaka.Memory
