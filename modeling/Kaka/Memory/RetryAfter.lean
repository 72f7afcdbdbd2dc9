import Kaka.Memory.BucketAdmission

/-! # The wait a denied request is told

A bucket left alone has a whole token exactly when the exact wait is over.
`durationFromSecondsCeil` rounds the wait up to a nanosecond, except that a
wait less than `floatEpsilonNanos` above a whole number is rounded down to
it; the request is then still denied when it comes back, and allowed one
nanosecond later.
-/

namespace Kaka.Memory

/-- What the wait `d` of a denial says about a request made `e` nanoseconds
later, `nanos` being the exact wait. -/
structure RetryTells (allowedAfter : Int → Bool) (nanos : ℚ) (d : Int) : Prop where
  early : ∀ e, 0 ≤ e → e < d → allowedAfter e = false
  due : allowedAfter d = true ↔ nanos ≤ d
  close : nanos < d + floatEpsilonNanos
  next : allowedAfter (d + 1) = true

namespace TokenBucket

variable {rates : Rates} {b : Bucket} {now : Int}

def wait (rates : Rates) (b : Bucket) : ℚ := (1 - b.tokens) / rates.rate * 10 ^ 9

theorem allowed_later_iff (b : Bucket) {e : Int} (hLow : 0 ≤ e) (hHigh : e ≤ maxDuration) :
    (refillAndDecide rates b (b.lastRefilled + e)).2.allowed = true ↔ wait rates b ≤ e := by
  have hSub : sub (b.lastRefilled + e) b.lastRefilled = e := by
    rw [sub_of_le, add_sub_cancel_left]
    · simp only [minDuration]
      omega
    · omega
  have hLevel : refilled rates b (b.lastRefilled + e) =
      min rates.capacity (b.tokens + seconds e * rates.rate) := by
    rw [refilled, hSub]
  have hRate : wait rates b ≤ e ↔ 1 - b.tokens ≤ seconds e * rates.rate := by
    rw [wait, ← le_div_iff₀ (by norm_num), div_le_iff₀ rates.rate_pos, seconds]
  rw [allowed_iff, hLevel, hRate, le_min_iff]
  constructor
  · rintro ⟨_, hTokens⟩
    linarith
  · intro hTokens
    exact ⟨rates.one_le, by linarith⟩

theorem denied_iff : (refillAndDecide rates b now).2.allowed = false ↔ refilled rates b now < 1 := by
  rw [← not_le, ← allowed_iff, Bool.not_eq_true]

theorem retryAfter_of_denied (hDenied : (refillAndDecide rates b now).2.allowed = false) :
    (refillAndDecide rates b now).2.retryAfter =
        durationFromSecondsCeil ((1 - refilled rates b now) / rates.rate) ∧
      (refillAndDecide rates b now).1 = ⟨refilled rates b now, now⟩ := by
  rw [refillAndDecide_eq, if_neg (not_le.mpr (denied_iff.mp hDenied))]
  exact ⟨rfl, rfl⟩

theorem retryTells (rates : Rates) (b : Bucket) (now : Int)
    (hDenied : (refillAndDecide rates b now).2.allowed = false)
    (hFits : (refillAndDecide rates b now).2.retryAfter < maxDuration) :
    RetryTells
      (fun e => (refillAndDecide rates (refillAndDecide rates b now).1 (now + e)).2.allowed)
      (wait rates (refillAndDecide rates b now).1) (refillAndDecide rates b now).2.retryAfter := by
  obtain ⟨hRetry, hState⟩ := retryAfter_of_denied hDenied
  have hPos : 0 < (1 - refilled rates b now) / rates.rate :=
    div_pos (by linarith [denied_iff.mp hDenied]) rates.rate_pos
  rw [hRetry] at hFits
  rw [hRetry, hState]
  have hClose := lt_durationFromSecondsCeil_add hPos hFits
  have hCovers : ∀ n : Int, wait rates ⟨refilled rates b now, now⟩ ≤ n →
      durationFromSecondsCeil ((1 - refilled rates b now) / rates.rate) ≤ n :=
    fun n => durationFromSecondsCeil_le hPos
  have hNonneg : 0 ≤ durationFromSecondsCeil ((1 - refilled rates b now) / rates.rate) := by
    have hWait : 0 < (1 - refilled rates b now) / rates.rate * 10 ^ 9 :=
      mul_pos hPos (by norm_num)
    have hLt : (-1 : ℚ) < durationFromSecondsCeil ((1 - refilled rates b now) / rates.rate) := by
      linarith [floatEpsilonNanos_lt_one]
    exact_mod_cast hLt
  constructor
  · intro e hLow hEarly
    rw [← Bool.not_eq_true, allowed_later_iff ⟨refilled rates b now, now⟩ hLow (by omega)]
    intro hWait
    have := hCovers e hWait
    omega
  · exact allowed_later_iff ⟨refilled rates b now, now⟩ hNonneg hFits.le
  · exact hClose
  · refine (allowed_later_iff ⟨refilled rates b now, now⟩ (by omega) (by omega)).mpr ?_
    push_cast
    exact (hClose.trans (by linarith [floatEpsilonNanos_lt_one])).le

end TokenBucket

def LeakyBucket.wait (rates : Rates) (b : LeakyState) : ℚ :=
  (b.water + 1 - rates.capacity) / rates.rate * 10 ^ 9

theorem LeakyBucket.wait_asTokens (rates : Rates) (b : LeakyState) :
    TokenBucket.wait rates (asTokens rates b) = wait rates b := by
  have hRoom : 1 - (rates.capacity - b.water) = b.water + 1 - rates.capacity := by ring
  rw [TokenBucket.wait, asTokens, hRoom, wait]

/-- For every state of a bucket and every reading at which it denies. -/
theorem retry_after_exact (rates : Rates) (now : Int) :
    (∀ b, (TokenBucket.refillAndDecide rates b now).2.allowed = false →
      (TokenBucket.refillAndDecide rates b now).2.retryAfter < maxDuration →
      RetryTells
        (fun e => (TokenBucket.refillAndDecide rates
          (TokenBucket.refillAndDecide rates b now).1 (now + e)).2.allowed)
        (TokenBucket.wait rates (TokenBucket.refillAndDecide rates b now).1)
        (TokenBucket.refillAndDecide rates b now).2.retryAfter) ∧
    (∀ b, (LeakyBucket.leakAndDecide rates b now).2.allowed = false →
      (LeakyBucket.leakAndDecide rates b now).2.retryAfter < maxDuration →
      RetryTells
        (fun e => (LeakyBucket.leakAndDecide rates
          (LeakyBucket.leakAndDecide rates b now).1 (now + e)).2.allowed)
        (LeakyBucket.wait rates (LeakyBucket.leakAndDecide rates b now).1)
        (LeakyBucket.leakAndDecide rates b now).2.retryAfter) := by
  constructor
  · exact fun b => TokenBucket.retryTells rates b now
  · intro b hDenied hFits
    have hTokens := LeakyBucket.leakAndDecide_asTokens rates b now
    have hTells := TokenBucket.retryTells rates (LeakyBucket.asTokens rates b) now
      (by rw [hTokens]; exact hDenied) (by rw [hTokens]; exact hFits)
    rw [hTokens, LeakyBucket.wait_asTokens] at hTells
    simpa only [LeakyBucket.leakAndDecide_asTokens] using hTells

def fine : Rates := { slowest with rate := 10 ^ 16 / 10000005, rate_pos := by norm_num }

/-- The second request is told to come back after 1 ns, and the third, which
does, is denied and told to come back at once. -/
theorem retry_after_short :
    (answers (TokenBucket.create fine) (TokenBucket.refillAndDecide fine) [0, 0, 1]).map Prod.snd =
        [⟨true, 0, 0⟩, ⟨false, 0, 1⟩, ⟨false, 0, 0⟩] ∧
      (answers LeakyBucket.create (LeakyBucket.leakAndDecide fine) [0, 0, 1]).map Prod.snd =
        [⟨true, 0, 0⟩, ⟨false, 0, 1⟩, ⟨false, 0, 0⟩] := by
  decide +kernel

theorem retry_after_exact_onePerSecond :
    RetryTells
      (fun e => (TokenBucket.refillAndDecide .onePerSecond
        (TokenBucket.refillAndDecide .onePerSecond ⟨0, 5⟩ 5).1 (5 + e)).2.allowed)
      (TokenBucket.wait .onePerSecond (TokenBucket.refillAndDecide .onePerSecond ⟨0, 5⟩ 5).1)
      (TokenBucket.refillAndDecide .onePerSecond ⟨0, 5⟩ 5).2.retryAfter ∧
    RetryTells
      (fun e => (LeakyBucket.leakAndDecide .onePerSecond
        (LeakyBucket.leakAndDecide .onePerSecond ⟨2, 5⟩ 5).1 (5 + e)).2.allowed)
      (LeakyBucket.wait .onePerSecond (LeakyBucket.leakAndDecide .onePerSecond ⟨2, 5⟩ 5).1)
      (LeakyBucket.leakAndDecide .onePerSecond ⟨2, 5⟩ 5).2.retryAfter :=
  ⟨(retry_after_exact .onePerSecond 5).1 ⟨0, 5⟩ (by decide +kernel) (by decide +kernel),
    (retry_after_exact .onePerSecond 5).2 ⟨2, 5⟩ (by decide +kernel) (by decide +kernel)⟩

end Kaka.Memory
