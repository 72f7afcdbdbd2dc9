import Kaka.Base.Metering
import Kaka.Memory.Buckets

/-! # What the in-memory buckets admit

Requests are served one after another with readings in any order, since the
clock is read before the shard lock is taken.  The tokens less what the
rate yields up to the last reading are a credit that no request raises, as
long as `Time.Sub` does not saturate on a step back.
-/

namespace Kaka.Memory

open Metering

/-- Between any two instants the requests allowed are at most the capacity
and what the rate yields in between. -/
def Bounded (capacity rate : ℚ) (history : List (Int × Result)) : Prop :=
  ∀ a b : Int, a ≤ b →
    ((history.countP fun x => x.2.allowed ∧ a ≤ x.1 ∧ x.1 ≤ b : ℕ) : ℚ) ≤
      capacity + rate * seconds (b - a)

/-- No step back is too long for a `time.Duration`. -/
def Near (prev now : Int) : Prop := minDuration ≤ now - prev

namespace TokenBucket

variable {tb : Rates} {b : Bucket} {now : Int}

def tick (x : Int × Bucket × Result) : Tick := ⟨x.1, x.2.1.tokens, x.2.2.allowed⟩

theorem count_ticks (readings : List Int) (x y : Int) :
    count x y ((trace (refillAndDecide tb) b readings).map tick) =
      (serve (refillAndDecide tb) b readings).countP fun z => z.2.allowed ∧ x ≤ z.1 ∧ z.1 ≤ y := by
  rw [count, serve, List.countP_map, List.countP_map]
  refine List.countP_congr fun z _ => ?_
  simp [Tick.Counts, tick]

/-- The refill is at most what the rate yields between the readings. -/
theorem refilled_le_yield (tb : Rates) (hNear : Near b.lastRefilled now) :
    refilled tb b now ≤ b.tokens + tb.rate / 10 ^ 9 * (now - b.lastRefilled) := by
  have hSub : (sub now b.lastRefilled : ℚ) ≤ now - b.lastRefilled := by
    exact_mod_cast sub_le_of_le hNear
  have hRate : 0 ≤ tb.rate / 10 ^ 9 := div_nonneg tb.rate_pos.le (by norm_num)
  have hYield := mul_le_mul_of_nonneg_left hSub hRate
  calc refilled tb b now ≤ b.tokens + seconds (sub now b.lastRefilled) * tb.rate := min_le_right _ _
    _ = b.tokens + tb.rate / 10 ^ 9 * (sub now b.lastRefilled : ℚ) := by
      unfold seconds
      ring
    _ ≤ b.tokens + tb.rate / 10 ^ 9 * (now - b.lastRefilled) := by linarith

theorem pays (hNear : Near b.lastRefilled now) (allowed : Bool) :
    Pays (tb.rate / 10 ^ 9) ⟨b.lastRefilled, b.tokens, allowed⟩
      ⟨now, (refillAndDecide tb b now).1.tokens, (refillAndDecide tb b now).2.allowed⟩ := by
  have hYield := refilled_le_yield tb hNear
  simp only [Pays, Tick.credit, Tick.cost, tokens_refill]
  linarith

theorem metered (tb : Rates) (b : Bucket) (readings : List Int) (allowed : Bool)
    (hCovered : Tick.Covered tb.capacity ⟨b.lastRefilled, b.tokens, allowed⟩)
    (hNear : (b.lastRefilled :: readings).IsChain Near) :
    Metered tb.capacity (tb.rate / 10 ^ 9)
      (⟨b.lastRefilled, b.tokens, allowed⟩ :: (trace (refillAndDecide tb) b readings).map tick) := by
  induction readings generalizing b allowed with
  | nil => exact .single hCovered
  | cons now rest ih =>
    have hNext := ih (refillAndDecide tb b now).1 (refillAndDecide tb b now).2.allowed ?_
      (by rw [lastRefilled_refill]; exact hNear.tail)
    · rw [lastRefilled_refill] at hNext
      exact .cons hCovered (pays hNear.rel allowed) hNext
    · intro hAllowed
      have hOne := allowed_iff.mp hAllowed
      have hCap := refilled_le tb b now
      simp only [tokens_refill, if_pos hAllowed]
      constructor <;> linarith

theorem bounded (readings : List Int) (hNear : readings.IsChain Near) :
    Bounded tb.capacity tb.rate (answers (create tb) (refillAndDecide tb) readings) := by
  intro x y hxy
  have hCapacity : 0 ≤ tb.capacity := le_trans zero_le_one tb.one_le
  have hRate := tb.rate_pos.le
  cases readings with
  | nil =>
    have hSeconds : 0 ≤ tb.rate * seconds (y - x) := by
      refine mul_nonneg hRate (div_nonneg ?_ (by norm_num))
      exact_mod_cast sub_nonneg.mpr hxy
    simp only [answers, List.countP_nil, Nat.cast_zero]
    linarith
  | cons now rest =>
    have hMetered := (metered tb (create tb now) (now :: rest) false
      (Tick.covered_of_denied rfl)
      (List.isChain_cons_cons.mpr ⟨by simp [Near, create, minDuration], hNear⟩)).tail
    have hCount := hMetered.count_le (a := x) (b := y) hCapacity
      (div_nonneg hRate (by norm_num)) (by exact_mod_cast hxy)
    rw [count_ticks] at hCount
    refine hCount.trans (le_of_eq ?_)
    rw [seconds]
    push_cast
    ring

end TokenBucket

theorem admission_bound (rates : Rates) (readings : List Int) (hNear : readings.IsChain Near) :
    Bounded rates.capacity rates.rate
      (answers (TokenBucket.create rates) (TokenBucket.refillAndDecide rates) readings) ∧
    Bounded rates.capacity rates.rate
      (answers LeakyBucket.create (LeakyBucket.leakAndDecide rates) readings) := by
  refine ⟨TokenBucket.bounded readings hNear, ?_⟩
  rw [LeakyBucket.answers_asTokens]
  exact TokenBucket.bounded readings hNear

theorem admission_bound_backwards :
    [5, 3, 9, 0].IsChain Near ∧
    Bounded 2 1 (answers LeakyBucket.create
      (LeakyBucket.leakAndDecide Rates.onePerSecond) [5, 3, 9, 0]) :=
  ⟨by simp [Near, minDuration], (admission_bound Rates.onePerSecond [5, 3, 9, 0]
    (by simp [Near, minDuration])).2⟩

/-- One token for the longest `time.Duration`. -/
def slowest : Rates := ⟨1, 10 ^ 9 / maxDuration, by norm_num, by norm_num [maxDuration]⟩

/-- Twice over the same four instants, each as far from the one before as a
`time.Duration` can say; the step back in between is three times as long. -/
def centuries : List Int :=
  [0, maxDuration, 2 * maxDuration, 3 * maxDuration, 0, maxDuration, 2 * maxDuration,
    3 * maxDuration]

theorem admission_unbounded :
    ¬ Bounded slowest.capacity slowest.rate
      (answers (TokenBucket.create slowest) (TokenBucket.refillAndDecide slowest) centuries) ∧
    ¬ Bounded slowest.capacity slowest.rate
      (answers LeakyBucket.create (LeakyBucket.leakAndDecide slowest) centuries) := by
  have hToken : ¬ Bounded slowest.capacity slowest.rate
      (answers (TokenBucket.create slowest) (TokenBucket.refillAndDecide slowest) centuries) := by
    intro hBounded
    have hFive : ((answers (TokenBucket.create slowest) (TokenBucket.refillAndDecide slowest)
        centuries).countP fun x => x.2.allowed ∧ 0 ≤ x.1 ∧ x.1 ≤ 3 * maxDuration) = 5 := by
      decide +kernel
    have hFour := hBounded 0 (3 * maxDuration) (by decide)
    rw [hFive] at hFour
    norm_num [slowest, seconds, maxDuration] at hFour
  refine ⟨hToken, ?_⟩
  rw [LeakyBucket.answers_asTokens]
  exact hToken

end Kaka.Memory
