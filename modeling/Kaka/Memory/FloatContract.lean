import Kaka.Memory.Contract
import Kaka.Memory.FloatBuckets

/-! # The contract of the buckets in `float64`

Readings may come in any order. A level then may fall to minus infinity, or
the water rise to infinity, but a NaN needs an overflow of the refill itself,
which the rate decides: the longest `time.Duration` times the rate. Then three
requests suffice to poison a key, and its denials tell a negative wait.
-/

namespace Kaka.Memory.Floating

open Binary64 Interleaving

/-- The seconds of the longest `time.Duration`, either way. -/
def longest : ℚ := elapsed maxDuration

/-- The refill of the longest duration does not overflow, or is not rounded on its own. -/
def Safe (fused : Bool) (rates : Rates) : Prop :=
  fused = true ∨ rounded (longest * rates.rate) < 2 ^ 1024

variable {fused : Bool} {rates : Rates} {v : Float64} {x : ℚ} {d now : Int}

theorem elapsed_le_longest (hHigh : d ≤ 2 ^ 63) : elapsed d ≤ longest := by
  have hTop : elapsed (2 ^ 63) = longest := by decide +kernel
  exact (elapsed_mono hHigh).trans hTop.le

/-- The seconds between two readings, and how far they can be apart. -/
theorem exists_seconds (t u : Int) : ∃ e, (seconds (sub t u)).Is e ∧ |e| ≤ longest := by
  rcases le_total 0 (sub t u) with hLow | hHigh
  · refine ⟨_, seconds_is hLow (sub_le_pow t u), ?_⟩
    rw [abs_of_nonneg (elapsed_nonneg hLow)]
    exact elapsed_le_longest (sub_le_pow t u)
  · have hBack : -sub t u ≤ 2 ^ 63 := by
      simp only [sub, minDuration, maxDuration]
      omega
    have hIs := seconds_neg_is (neg_nonneg.mpr hHigh) hBack
    rw [neg_neg] at hIs
    refine ⟨_, hIs, ?_⟩
    rw [abs_neg, abs_of_nonneg (elapsed_nonneg (neg_nonneg.mpr hHigh))]
    exact elapsed_le_longest hBack

theorem Safe.fits (h : Safe fused rates) {e : ℚ} (he : |e| ≤ longest) :
    fused = true ∨ |rounded (e * rates.rate)| < 2 ^ 1024 := by
  refine h.imp_right fun hFits => lt_of_le_of_lt ?_ hFits
  obtain ⟨hLow, hHigh⟩ := abs_le.mp he
  have hRate := rates.rate_pos.le
  rw [abs_le, ← rounded_neg, ← neg_mul]
  exact ⟨rounded_mono (mul_le_mul_of_nonneg_right hLow hRate),
    rounded_mono (mul_le_mul_of_nonneg_right hHigh hRate)⟩

/-! ## `numeric.go` -/

theorem remainingFloor_nonneg (hv : v.Is x) (hHigh : x < 2 ^ 63) : 0 ≤ remainingFloor v := by
  rw [remainingFloor, hv.le Float64.zero_is]
  split
  · exact le_rfl
  · rename_i hPos
    have hLow : 0 ≤ x := (not_le.mp fun h => hPos (decide_eq_true h)).le
    rw [hv.toInt64 hLow hHigh]
    exact Int.floor_nonneg.mpr hLow

theorem remainingFloor_overflows (hv : v.Is x) (hLarge : 2 ^ 63 ≤ x) : remainingFloor v < 0 := by
  have hPos : 0 < x := lt_of_lt_of_le (by norm_num) hLarge
  have hFloor : 2 ^ 63 ≤ ⌊x⌋ := Int.le_floor.mpr (by exact_mod_cast hLarge)
  rw [remainingFloor, hv.le Float64.zero_is, if_neg (by simp [hPos])]
  obtain ⟨_, _, rfl⟩ := hv
  rw [Float64.toInt64, if_neg (not_lt.mpr hPos.le), if_neg (by omega)]
  norm_num

theorem durationFromSecondsCeil_nonneg (hv : v.Nonneg) : 0 ≤ durationFromSecondsCeil v := by
  have hNanos := hv.mul (Float64.ofNat_is (n := 1000000000) (by norm_num)) (by norm_num)
  have hMax : (Float64.ofRat maxDuration).Is (rounded maxDuration) :=
    Float64.ofRat_is (by decide +kernel)
  simp only [durationFromSecondsCeil]
  split
  · exact le_rfl
  split
  · decide
  rename_i hLess
  rcases hNanos with ⟨n, hn, hLow⟩ | hInf
  · -- below the longest duration the conversions are in range
    rw [hMax.le hn] at hLess
    have hTop : rounded maxDuration ≤ ((2 ^ 63 : ℤ) : ℚ) := by
      push_cast
      exact rounded_le (represents_zpow (e := 63) (by norm_num)) (by norm_num [maxDuration])
    have hBelow : n < ((2 ^ 63 : ℤ) : ℚ) := (not_le.mp fun h => hLess (decide_eq_true h)).trans_le hTop
    split
    · have hWhole : 0 ≤ ⌊n + 1 / 2⌋ := Int.floor_nonneg.mpr (by linarith)
      rwa [(hn.round hLow).toInt64_int hWhole
        (Float64.whole_round.lt hn.represents (by norm_num) hBelow)]
    · have hWhole : 0 ≤ ⌈n⌉ := Int.ceil_nonneg hLow
      rwa [hn.ceil.toInt64_int hWhole (Float64.whole_ceil.lt hn.represents (by norm_num) hBelow)]
  · obtain ⟨_, _, hEq⟩ := hMax
    rw [hInf, hEq] at hLess
    exact absurd rfl hLess

/-! ## Readings in any order -/

namespace TokenBucket

/-- At most the capacity, or fallen below all numbers. -/
def Tame (rates : Rates) (tokens : Float64) : Prop :=
  (∃ x, tokens.Is x ∧ x ≤ rates.capacity) ∨ tokens = .inf true

theorem Tame.ne_nan (h : Tame rates v) : v ≠ .nan := by
  rcases h with ⟨x, ⟨_, _, rfl⟩, _⟩ | rfl <;> nofun

theorem tame_capped (hv : v ≠ .nan) :
    Tame rates (if rates.capacity64.lt v then rates.capacity64 else v) := by
  have hCapacity := capacity64_is rates
  cases v with
  | finite x hx hSmall =>
    have hIs : (Float64.finite x hx hSmall).Is x := ⟨hx, hSmall, rfl⟩
    rw [hCapacity.lt hIs]
    split
    · exact .inl ⟨_, hCapacity, le_rfl⟩
    · rename_i hLe
      exact .inl ⟨x, hIs, not_lt.mp fun h => hLe (decide_eq_true h)⟩
  | inf negative =>
    cases negative with
    | false => exact .inl ⟨_, hCapacity, le_rfl⟩
    | true => exact .inr rfl
  | nan => exact absurd rfl hv

theorem exists_tame (hSafe : Safe fused rates) {b : Bucket} (hb : Tame rates b.tokens) (now : Int) :
    ∃ t, Tame rates t ∧ refillAndDecide fused rates b now = decided rates t now := by
  obtain ⟨e, he, hLongest⟩ := exists_seconds now b.lastRefilled
  exact ⟨_, tame_capped (Float64.mulAdd_ne_nan hb.ne_nan he (rate64_is rates) (hSafe.fits hLongest)), rfl⟩

theorem decided_inf (rates : Rates) (now : Int) : decided rates (.inf true) now =
    (⟨.inf true, now⟩, ⟨false, 0, durationFromSecondsCeil ((Float64.inf false).div rates.rate64)⟩) := by
  obtain ⟨_, _, hOne⟩ := Float64.one_is
  unfold decided
  rw [hOne]
  rfl

theorem Tame.decided (hv : Tame rates v) (hCapacity : rates.capacity < 2 ^ 63) (now : Int) :
    Tame rates (decided rates v now).1.tokens ∧ WellFormed (decided rates v now).2 := by
  have hWait : ∀ {w : Float64}, w.Nonneg → 0 ≤ durationFromSecondsCeil (w.div rates.rate64) :=
    fun hw => durationFromSecondsCeil_nonneg (hw.div (rate64_is rates) rates.rate_pos)
  rcases hv with ⟨x, hIs, hx⟩ | rfl
  · rcases le_or_gt 1 x with hOne | hLess
    · obtain ⟨hEq, hLeft⟩ := decided_allowed rates now hIs hOne
      have hTop : rounded (x - 1) ≤ x := rounded_le hIs.represents (by linarith)
      rw [hEq]
      exact ⟨.inl ⟨_, hLeft, hTop.trans hx⟩, remainingFloor_nonneg hLeft (hTop.trans_lt (hx.trans_lt hCapacity)),
        le_rfl, fun _ => rfl, (by rintro ⟨⟩)⟩
    · rw [decided_denied rates now hIs hLess]
      refine ⟨.inl ⟨x, hIs, hx⟩, le_rfl, hWait ?_, (by rintro ⟨⟩), fun _ => rfl⟩
      rw [Float64.one_is.sub hIs]
      exact Float64.ofRat_nonneg (by linarith)
  · rw [decided_inf]
    exact ⟨.inr rfl, le_rfl, hWait (.inr rfl), (by rintro ⟨⟩), fun _ => rfl⟩

theorem sound (hSafe : Safe fused rates) (hCapacity : rates.capacity < 2 ^ 63) :
    Sound (create rates) (refillAndDecide fused rates) (fun b => Tame rates b.tokens) WellFormed where
  create _ := .inl ⟨_, capacity64_is rates, le_rfl⟩
  step b now hb := by
    obtain ⟨t, ht, hEq⟩ := exists_tame hSafe hb now
    rw [hEq]
    exact (ht.decided hCapacity now).1
  answer b now hb := by
    obtain ⟨t, ht, hEq⟩ := exists_tame hSafe hb now
    rw [hEq]
    exact (ht.decided hCapacity now).2

end TokenBucket

namespace LeakyBucket

theorem ne_nan_of_nonneg (h : v.Nonneg) : v ≠ .nan := by
  rcases h with ⟨x, ⟨_, _, rfl⟩, _⟩ | rfl <;> nofun

theorem nonneg_emptied (hv : v ≠ .nan) : (if v.lt 0 then 0 else v).Nonneg := by
  cases v with
  | finite x hx hSmall =>
    have hIs : (Float64.finite x hx hSmall).Is x := ⟨hx, hSmall, rfl⟩
    rw [hIs.lt Float64.zero_is]
    split
    · exact .inl ⟨0, Float64.zero_is, le_rfl⟩
    · rename_i hLe
      exact .inl ⟨x, hIs, not_lt.mp fun h => hLe (decide_eq_true h)⟩
  | inf negative =>
    obtain ⟨_, _, hZero⟩ := Float64.zero_is
    rw [hZero]
    cases negative with
    | false => exact .inr rfl
    | true => exact .inl ⟨0, ⟨_, _, rfl⟩, le_rfl⟩
  | nan => exact absurd rfl hv

theorem exists_nonneg (hSafe : Safe fused rates) {b : LeakyState} (hb : b.water.Nonneg) (now : Int) :
    ∃ t : Float64, t.Nonneg ∧ leakAndDecide fused rates b now = decided rates t now := by
  obtain ⟨e, he, hLongest⟩ := exists_seconds now b.lastLeak
  exact ⟨_, nonneg_emptied (Float64.mulSub_ne_nan (ne_nan_of_nonneg hb) he (rate64_is rates)
    (hSafe.fits hLongest)), rfl⟩

theorem decided_wellFormed (hv : v.Nonneg) (hCapacity : rates.capacity < 2 ^ 63) (now : Int) :
    (decided rates v now).1.water.Nonneg ∧ WellFormed (decided rates v now).2 := by
  have hWait : ∀ {w : Float64}, w.Nonneg → 0 ≤ durationFromSecondsCeil (w.div rates.rate64) :=
    fun hw => durationFromSecondsCeil_nonneg (hw.div (rate64_is rates) rates.rate_pos)
  have hSum := hv.add Float64.one_is zero_le_one
  unfold decided
  rcases hSum with ⟨y, hy, hLow⟩ | hInf
  · rw [hy.le (capacity64_is rates)]
    split
    · rename_i hFits
      have hLe : y ≤ rates.capacity := of_decide_eq_true hFits
      have hRoom := (capacity64_is rates).sub_is hy hLow hLe
      have hTop : rounded (rates.capacity - y) ≤ rates.capacity :=
        rounded_le rates.capacity_represents (by linarith)
      exact ⟨.inl ⟨y, hy, hLow⟩, remainingFloor_nonneg hRoom (hTop.trans_lt hCapacity), le_rfl,
        fun _ => rfl, (by rintro ⟨⟩)⟩
    · rename_i hOver
      have hLt : rates.capacity < y := not_le.mp fun h => hOver (decide_eq_true h)
      refine ⟨hv, le_rfl, hWait ?_, (by rintro ⟨⟩), fun _ => rfl⟩
      rw [hy.sub (capacity64_is rates)]
      exact Float64.ofRat_nonneg (by linarith)
  · rw [hInf, if_neg (by exact Bool.false_ne_true)]
    exact ⟨hv, le_rfl, hWait (.inr rfl), (by rintro ⟨⟩), fun _ => rfl⟩

theorem sound (hSafe : Safe fused rates) (hCapacity : rates.capacity < 2 ^ 63) :
    Sound create (leakAndDecide fused rates) (fun b => b.water.Nonneg) WellFormed where
  create _ := .inl ⟨0, Float64.zero_is, le_rfl⟩
  step b now hb := by
    obtain ⟨t, ht, hEq⟩ := exists_nonneg hSafe hb now
    rw [hEq]
    exact (decided_wellFormed ht hCapacity now).1
  answer b now hb := by
    obtain ⟨t, ht, hEq⟩ := exists_nonneg hSafe hb now
    rw [hEq]
    exact (decided_wellFormed ht hCapacity now).2

end LeakyBucket

/-! ## A rate that overflows -/

section Overflow

theorem longest_pos : 0 < longest := by decide +kernel

theorem not_safe_iff : ¬ Safe fused rates ↔ fused = false ∧ 2 ^ 1024 ≤ rounded (longest * rates.rate) := by
  rw [Safe, not_or, not_lt, Bool.not_eq_true]

variable (hOverflow : 2 ^ 1024 ≤ rounded (longest * rates.rate))

include hOverflow

theorem forward_overflows : (seconds maxDuration).mul rates.rate64 = .inf false := by
  have hSeconds : (seconds maxDuration).Is longest := seconds_is (by decide) (by decide)
  have hPos := mul_pos longest_pos rates.rate_pos
  rw [hSeconds.mul (rate64_is rates)]
  rcases Float64.ofRat_nonneg_cases hPos.le with hIs | ⟨hInf, _⟩
  · exact absurd (hOverflow.trans (le_abs_self _)) (not_le.mpr hIs.small)
  · exact hInf

theorem backward_overflows : (seconds minDuration).mul rates.rate64 = .inf true := by
  have hTop : elapsed (2 ^ 63) = longest := by decide +kernel
  have hMin : minDuration = -2 ^ 63 := by decide
  have hSeconds := seconds_neg_is (d := 2 ^ 63) (by norm_num) le_rfl
  have hPos := mul_pos longest_pos rates.rate_pos
  rw [hTop] at hSeconds
  rw [hMin, hSeconds.mul (rate64_is rates), neg_mul]
  rcases Float64.ofRat_cases (-(longest * rates.rate)) with hIs | ⟨hInf, _⟩
  · have hSmall := hIs.small
    rw [rounded_neg, abs_neg] at hSmall
    exact absurd (hOverflow.trans (le_abs_self _)) (not_le.mpr hSmall)
  · rwa [decide_eq_true (neg_lt_zero.mpr hPos)] at hInf

end Overflow

/-- Back and forth again by the longest duration. -/
def backAndForth : List Int := [0, minDuration, -1]

theorem durationFromSecondsCeil_nan : durationFromSecondsCeil .nan = -2 ^ 63 := by
  simp only [durationFromSecondsCeil, Float64.nan_le, Float64.nan_mul, Float64.le_nan, Float64.round,
    Float64.nan_sub, Float64.abs, Float64.nan_lt, Float64.ceil, Float64.toInt64, Bool.false_eq_true, if_false]

namespace TokenBucket

variable {b : Bucket} {w : Float64}

theorem refillAndDecide_of_sum (hElapsed : sub now b.lastRefilled = d)
    (hSum : b.tokens.add ((seconds d).mul rates.rate64) = w) : refillAndDecide false rates b now =
      decided rates (if rates.capacity64.lt w then rates.capacity64 else w) now := by
  rw [← hSum, ← hElapsed]
  rfl

theorem falls (hOverflow : 2 ^ 1024 ≤ rounded (longest * rates.rate)) (hv : v.Is x) :
    refillAndDecide false rates ⟨v, 0⟩ minDuration = decided rates (.inf true) minDuration := by
  have hSum : v.add ((seconds minDuration).mul rates.rate64) = .inf true := by
    rw [backward_overflows hOverflow]
    obtain ⟨_, _, rfl⟩ := hv
    rfl
  exact refillAndDecide_of_sum (b := ⟨v, 0⟩) (show sub minDuration 0 = minDuration by decide) hSum

theorem collides (hOverflow : 2 ^ 1024 ≤ rounded (longest * rates.rate)) :
    refillAndDecide false rates ⟨.inf true, minDuration⟩ (-1) = decided rates .nan (-1) := by
  have hSum : (Float64.inf true).add ((seconds maxDuration).mul rates.rate64) = .nan := by
    rw [forward_overflows hOverflow]
    rfl
  exact refillAndDecide_of_sum (b := ⟨.inf true, minDuration⟩) (by decide) hSum

theorem retryAfter_nan (rates : Rates) (now : Int) : (decided rates .nan now).2.retryAfter = -2 ^ 63 := by
  simp only [decided, Float64.le_nan, Bool.false_eq_true, if_false, Float64.sub_nan, Float64.nan_div,
    durationFromSecondsCeil_nan]

theorem exists_first (fused : Bool) (rates : Rates) (now : Int) :
    ∃ t : Float64, t.Is (rounded (rates.capacity - 1)) ∧
      refillAndDecide fused rates (create rates now) now = (⟨t, now⟩, ⟨true, remainingFloor t, 0⟩) := by
  obtain ⟨t, ht, hFirst⟩ := exists_decided fused rates (b := create rates now)
    (capacity64_is rates) (zero_le_one.trans rates.one_le) (le_refl now)
  rw [show sub now (create rates now).lastRefilled = 0 from sub_self now, refilled, elapsed_zero,
    Float64.raised_zero fused rates.capacity_represents, min_self] at ht
  obtain ⟨hDecided, hLeft⟩ := decided_allowed rates now ht rates.one_le
  exact ⟨_, hLeft, hFirst.trans hDecided⟩

/-- The first request leaves a number, the second one falls below all of
them, and the third adds the two infinities. -/
theorem poisoned (hOverflow : 2 ^ 1024 ≤ rounded (longest * rates.rate)) :
    ∃ x ∈ answers (create rates) (refillAndDecide false rates) backAndForth, x.2.retryAfter < 0 := by
  obtain ⟨t, hLeft, hFirst⟩ := exists_first false rates 0
  refine ⟨(-1, (decided rates .nan (-1)).2), ?_, ?_⟩
  · rw [backAndForth, answers]
    simp only [serve_cons, hFirst, falls hOverflow hLeft, decided_inf, collides hOverflow]
    simp
  · rw [retryAfter_nan]
    norm_num

end TokenBucket

namespace LeakyBucket

variable {b : LeakyState} {w : Float64}

theorem leakAndDecide_of_difference (hElapsed : sub now b.lastLeak = d)
    (hDifference : b.water.sub ((seconds d).mul rates.rate64) = w) :
    leakAndDecide false rates b now = decided rates (if w.lt 0 then 0 else w) now := by
  rw [← hDifference, ← hElapsed]
  rfl

theorem decided_inf (rates : Rates) (now : Int) :
    decided rates (.inf false) now =
      (⟨.inf false, now⟩, ⟨false, 0, durationFromSecondsCeil ((Float64.inf false).div rates.rate64)⟩) := by
  obtain ⟨_, _, hOne⟩ := Float64.one_is
  unfold decided
  rw [hOne]
  rfl

theorem rises (hOverflow : 2 ^ 1024 ≤ rounded (longest * rates.rate)) (hv : v.Is x) :
    leakAndDecide false rates ⟨v, 0⟩ minDuration = decided rates (.inf false) minDuration := by
  have hDifference : v.sub ((seconds minDuration).mul rates.rate64) = .inf false := by
    rw [backward_overflows hOverflow]
    obtain ⟨_, _, rfl⟩ := hv
    rfl
  have hAbove : (Float64.inf false).lt 0 = false := by
    obtain ⟨_, _, hZero⟩ := Float64.zero_is
    rw [hZero]
    rfl
  rw [leakAndDecide_of_difference (b := ⟨v, 0⟩) (show sub minDuration 0 = minDuration by decide) hDifference,
    hAbove]
  rfl

theorem collides (hOverflow : 2 ^ 1024 ≤ rounded (longest * rates.rate)) :
    leakAndDecide false rates ⟨.inf false, minDuration⟩ (-1) = decided rates .nan (-1) := by
  have hDifference : (Float64.inf false).sub ((seconds maxDuration).mul rates.rate64) = .nan := by
    rw [forward_overflows hOverflow]
    rfl
  exact leakAndDecide_of_difference (b := ⟨.inf false, minDuration⟩) (by decide) hDifference

theorem retryAfter_nan (rates : Rates) (now : Int) : (decided rates .nan now).2.retryAfter = -2 ^ 63 := by
  simp only [decided, Float64.nan_add, Float64.nan_le, Bool.false_eq_true, if_false, Float64.nan_sub,
    Float64.nan_div, durationFromSecondsCeil_nan]

theorem exists_first (fused : Bool) (rates : Rates) (now : Int) :
    ∃ t : Float64, t.Is 1 ∧ leakAndDecide fused rates (create now) now =
      (⟨t, now⟩, ⟨true, remainingFloor (rates.capacity64.sub t), 0⟩) := by
  obtain ⟨t, ht, hFirst⟩ := exists_decided fused rates (b := create now) Float64.zero_is (le_refl now)
  rw [show sub now (create now).lastLeak = 0 from sub_self now, leaked, elapsed_zero,
    Float64.lowered_zero fused represents_zero, max_self] at ht
  have hSum : rounded (0 + 1) = 1 := by rw [zero_add, rounded_of_represents represents_one]
  obtain ⟨hDecided, hLeft⟩ := decided_allowed now ht le_rfl (hSum.trans_le rates.one_le)
  rw [hSum] at hLeft
  exact ⟨_, hLeft, hFirst.trans hDecided⟩

theorem poisoned (hOverflow : 2 ^ 1024 ≤ rounded (longest * rates.rate)) :
    ∃ x ∈ answers create (leakAndDecide false rates) backAndForth, x.2.retryAfter < 0 := by
  obtain ⟨t, hLeft, hFirst⟩ := exists_first false rates 0
  refine ⟨(-1, (decided rates .nan (-1)).2), ?_, ?_⟩
  · rw [backAndForth, answers]
    simp only [serve_cons, hFirst, rises hOverflow hLeft, decided_inf, collides hOverflow]
    simp
  · rw [retryAfter_nan]
    norm_num

end LeakyBucket

/-! ## The contract -/

/-- The refill of the longest duration does not overflow, and the capacity fits `int64`. -/
def Fits (fused : Bool) (rates : Rates) : Prop := Safe fused rates ∧ rates.capacity < 2 ^ 63

theorem room_overflows (hLarge : 2 ^ 63 ≤ rates.capacity) : 2 ^ 63 ≤ rounded (rates.capacity - 1) := by
  have hTop : rounded (2 ^ 63 - 1) = 2 ^ 63 := by decide +kernel
  exact hTop.symm.le.trans (rounded_mono (by linarith))

/-- Whatever the order of the readings, every result of the buckets is well
formed, exactly where the rate and the capacity fit. -/
theorem float_contract_iff (fused : Bool) (rates : Rates) :
    ((∀ readings, ∀ x ∈ answers (TokenBucket.create rates) (TokenBucket.refillAndDecide fused rates) readings,
      WellFormed x.2) ↔ Fits fused rates) ∧
    ((∀ readings, ∀ x ∈ answers LeakyBucket.create (LeakyBucket.leakAndDecide fused rates) readings,
      WellFormed x.2) ↔ Fits fused rates) := by
  refine ⟨⟨fun hAll => ⟨?_, ?_⟩, fun hFits => (TokenBucket.sound hFits.1 hFits.2).answers⟩,
    ⟨fun hAll => ⟨?_, ?_⟩, fun hFits => (LeakyBucket.sound hFits.1 hFits.2).answers⟩⟩
  · by_contra hUnsafe
    obtain ⟨rfl, hOverflow⟩ := not_safe_iff.mp hUnsafe
    obtain ⟨x, hx, hNeg⟩ := TokenBucket.poisoned hOverflow
    exact absurd (hAll _ x hx).wait (not_le.mpr hNeg)
  · by_contra hLarge
    obtain ⟨t, ht, hFirst⟩ := TokenBucket.exists_first fused rates 0
    have hFormed := hAll [0] (0, _) List.mem_cons_self
    rw [hFirst] at hFormed
    exact absurd hFormed.remaining
      (not_le.mpr (remainingFloor_overflows ht (room_overflows (not_lt.mp hLarge))))
  · by_contra hUnsafe
    obtain ⟨rfl, hOverflow⟩ := not_safe_iff.mp hUnsafe
    obtain ⟨x, hx, hNeg⟩ := LeakyBucket.poisoned hOverflow
    exact absurd (hAll _ x hx).wait (not_le.mpr hNeg)
  · by_contra hLarge
    obtain ⟨t, ht, hFirst⟩ := LeakyBucket.exists_first fused rates 0
    have hFormed := hAll [0] (0, _) List.mem_cons_self
    rw [hFirst] at hFormed
    have hRoom := (capacity64_is rates).sub_is ht zero_le_one rates.one_le
    exact absurd hFormed.remaining
      (not_le.mpr (remainingFloor_overflows hRoom (room_overflows (not_lt.mp hLarge))))

/-! ## Every interleaving -/

/-- The store of `NewTokenBucket`. -/
def TokenBucket.params (tb : Rates) (opts : Options) (shardCount : Nat)
    (power : ∃ k, shardCount = 2 ^ k) : Params Bucket where
  opts := opts
  shardCount := shardCount
  power := power
  create := TokenBucket.create tb

/-- The store of `NewLeakyBucket`. -/
def LeakyBucket.params (opts : Options) (shardCount : Nat) (power : ∃ k, shardCount = 2 ^ k) :
    Params LeakyState where
  opts := opts
  shardCount := shardCount
  power := power
  create := LeakyBucket.create

/-- In every reachable configuration the results returned have the property. -/
def ReturnsOnly {σ : Type} (P : Params σ) (fn : σ → Int → σ × Result) (Q : Result → Prop) : Prop :=
  ∀ g : P.State Result, (P.requests fn).Reachable g → ∀ t ∈ g.threads, ∀ r, t.pc = .done (.ok r) → Q r

theorem returnsOnly {σ : Type} {P : Params σ} {fn : σ → Int → σ × Result} {I : σ → Prop} {Q : Result → Prop}
    (h : Sound P.create fn I Q) : ReturnsOnly P fn Q :=
  fun _ hReach _ ht _ hDone => (Params.contracted h hReach).outcome ht hDone

/-- Whatever the options, the interleaving and the readings, every result that
a call on an in-memory limiter returns is well formed, and a denial of the
sliding window tells a wait. -/
theorem results_well_formed (opts : Options) (shardCount : Nat) (power : ∃ k, shardCount = 2 ^ k)
    (fused : Bool) (rates : Rates) (hFits : Fits fused rates) (sw : SlidingWindow) :
    ReturnsOnly (TokenBucket.params rates opts shardCount power) (TokenBucket.refillAndDecide fused rates)
      WellFormed ∧
    ReturnsOnly (LeakyBucket.params opts shardCount power) (LeakyBucket.leakAndDecide fused rates)
      WellFormed ∧
    ReturnsOnly (SlidingWindow.params opts shardCount power) sw.recordAndDecide
      (fun r => WellFormed r ∧ (r.allowed = false → 0 < r.retryAfter)) :=
  ⟨returnsOnly (TokenBucket.sound hFits.1 hFits.2), returnsOnly (LeakyBucket.sound hFits.1 hFits.2),
    returnsOnly sw.sound⟩

/-- One request a second, two at once. -/
def Rates.onePerSecond : Rates :=
  { Kaka.Rates.onePerSecond with
    capacity_represents := represents_zpow (e := 1) (by norm_num)
    capacity_small := by decide +kernel
    rate_represents := represents_one
    rate_small := by decide +kernel }

theorem results_well_formed_onePerSecond :
    Fits false .onePerSecond ∧
    ReturnsOnly (LeakyBucket.params { } 16 ⟨4, rfl⟩) (LeakyBucket.leakAndDecide false .onePerSecond)
      WellFormed := by
  have hFits : Fits false .onePerSecond := ⟨.inr (by decide +kernel), by decide +kernel⟩
  exact ⟨hFits, (results_well_formed { } 16 ⟨4, rfl⟩ false .onePerSecond hFits ⟨1, 1, one_pos, one_pos⟩).2.1⟩

end Kaka.Memory.Floating
