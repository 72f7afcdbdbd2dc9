import Kaka.Base.Float64
import Kaka.Memory.Buckets

/-! # The in-memory buckets in `float64`

The levels of the buckets as the code computes them: every operation rounds,
and large ones overflow.  `fused` is whether the compiler fuses the
multiplication by the rate into the addition that follows, as Go allows it to.

On a clock that does not go back a level stays a number between zero and the
capacity, whatever the rate, and every result is well formed.
-/

namespace Kaka.Memory.Floating

open Binary64

/-- What the constructors accept, as values of `float64`. -/
structure Rates extends Kaka.Rates where
  capacity_represents : Represents capacity
  capacity_small : |capacity| < 2 ^ 1024
  rate_represents : Represents rate
  rate_small : |rate| < 2 ^ 1024

namespace Rates

variable (rates : Rates)

def capacity64 : Float64 := .finite rates.capacity rates.capacity_represents rates.capacity_small

def rate64 : Float64 := .finite rates.rate rates.rate_represents rates.rate_small

end Rates

/-! ## `numeric.go` -/

/-- `Duration.Seconds` -/
def seconds (d : Int) : Float64 :=
  (Float64.ofRat (d.tdiv 1000000000)).add ((Float64.ofRat (d.tmod 1000000000)).div 1000000000)

def remainingFloor (value : Float64) : Int := if value.le 0 then 0 else value.toInt64

def durationFromSecondsCeil (seconds : Float64) : Int :=
  if seconds.le 0 then 0
  else
    let nanos := seconds.mul 1000000000
    if (Float64.ofRat maxDuration).le nanos then maxDuration
    else
      let rounded := nanos.round
      if (nanos.sub rounded).abs.lt (.ofRat floatEpsilonNanos) then rounded.toInt64
      else nanos.ceil.toInt64

structure Bucket where
  tokens : Float64
  lastRefilled : Int
  deriving DecidableEq

structure LeakyState where
  water : Float64
  lastLeak : Int
  deriving DecidableEq

namespace TokenBucket

variable (fused : Bool) (tb : Rates)

def create (now : Int) : Bucket := ⟨tb.capacity64, now⟩

/-- The second half of `refillAndDecide`, from `b.tokens >= 1.0` on. -/
def decided (tokens : Float64) (now : Int) : Bucket × Result :=
  if Float64.le 1 tokens then (⟨tokens.sub 1, now⟩, ⟨true, remainingFloor (tokens.sub 1), 0⟩)
  else (⟨tokens, now⟩, ⟨false, 0, durationFromSecondsCeil ((Float64.sub 1 tokens).div tb.rate64)⟩)

def refillAndDecide (b : Bucket) (now : Int) : Bucket × Result :=
  let elapsed := seconds (sub now b.lastRefilled)
  let tokens := Float64.mulAdd fused b.tokens elapsed tb.rate64
  let tokens := if tb.capacity64.lt tokens then tb.capacity64 else tokens
  decided tb tokens now

end TokenBucket

namespace LeakyBucket

variable (fused : Bool) (lb : Rates)

def create (now : Int) : LeakyState := ⟨0, now⟩

/-- The second half of `leakAndDecide`, from `b.water+1 <= lb.capacity` on. -/
def decided (water : Float64) (now : Int) : LeakyState × Result :=
  if (water.add 1).le lb.capacity64 then
    (⟨water.add 1, now⟩, ⟨true, remainingFloor (lb.capacity64.sub (water.add 1)), 0⟩)
  else
    let overflow := (water.add 1).sub lb.capacity64
    (⟨water, now⟩, ⟨false, 0, durationFromSecondsCeil (overflow.div lb.rate64)⟩)

def leakAndDecide (b : LeakyState) (now : Int) : LeakyState × Result :=
  let elapsed := seconds (sub now b.lastLeak)
  let water := Float64.mulSub fused b.water elapsed lb.rate64
  let water := if water.lt 0 then 0 else water
  decided lb water now

end LeakyBucket

/-! ## The seconds of a duration -/

/-- `seconds` in the rationals. -/
def elapsed (d : Int) : ℚ :=
  rounded ((d / 1000000000 : Int) + rounded ((d % 1000000000 : Int) / 1000000000))

section Seconds

variable {d : Int}

theorem rest_le (d : Int) : 0 ≤ ((d % 1000000000 : Int) : ℚ) / 1000000000 ∧
    ((d % 1000000000 : Int) : ℚ) / 1000000000 ≤ 1 := by
  have hLow : 0 ≤ d % 1000000000 := Int.emod_nonneg d (by norm_num)
  have hHigh : d % 1000000000 < 1000000000 := Int.emod_lt_of_pos d (by norm_num)
  constructor
  · exact div_nonneg (by exact_mod_cast hLow) (by norm_num)
  · rw [div_le_one (by norm_num)]
    exact_mod_cast hHigh.le

theorem elapsed_nonneg (hLow : 0 ≤ d) : 0 ≤ elapsed d := by
  refine rounded_nonneg (add_nonneg ?_ (rounded_nonneg (rest_le d).1))
  exact_mod_cast Int.ediv_nonneg hLow (by norm_num)

@[simp] theorem elapsed_zero : elapsed 0 = 0 := by simp [elapsed]

/-- The seconds of whole and split nanoseconds, both of one sign. -/
theorem seconds_parts {whole rest : Int} (hWhole : |whole| ≤ 2 ^ 52) (hRest : |rest| ≤ 1000000000) :
    ((Float64.ofRat whole).add ((Float64.ofRat rest).div 1000000000)).Is
      (rounded (whole + rounded (rest / 1000000000))) := by
  have hPart : |(rest : ℚ) / 1000000000| ≤ 1 := by
    rw [abs_div, div_le_one (by norm_num)]
    exact_mod_cast hRest
  obtain ⟨hLow, hHigh⟩ := abs_le.mp hPart
  have hRounded : |rounded ((rest : ℚ) / 1000000000)| ≤ 1 :=
    abs_le.mpr ⟨le_rounded (represents_neg represents_one) hLow, rounded_le represents_one hHigh⟩
  have hSum : |(whole : ℚ)| ≤ 2 ^ 52 := by exact_mod_cast hWhole
  rw [(Float64.intCast_is (hRest.trans (by norm_num))).div (Float64.ofNat_is (by norm_num)) (by norm_num),
    (Float64.intCast_is (hWhole.trans (by norm_num))).add
      (Float64.ofRat_is_of_le (hPart.trans (by norm_num)))]
  refine Float64.ofRat_is_of_le ((abs_add_le _ _).trans ?_)
  linarith

theorem seconds_is (hLow : 0 ≤ d) (hHigh : d ≤ 2 ^ 63) : (seconds d).Is (elapsed d) := by
  rw [seconds, Int.tdiv_eq_ediv_of_nonneg hLow, Int.tmod_eq_emod_of_nonneg hLow]
  refine seconds_parts ?_ ?_
  · rw [abs_le]
    omega
  · rw [abs_le]
    omega

theorem seconds_neg_is (hLow : 0 ≤ d) (hHigh : d ≤ 2 ^ 63) : (seconds (-d)).Is (-elapsed d) := by
  have hNeg : -elapsed d = rounded ((-(d / 1000000000) : Int) +
      rounded ((-(d % 1000000000) : Int) / 1000000000)) := by
    push_cast
    rw [elapsed, neg_div, rounded_neg, ← neg_add, rounded_neg]
  rw [hNeg, seconds, Int.neg_tdiv, Int.neg_tmod, Int.tdiv_eq_ediv_of_nonneg hLow,
    Int.tmod_eq_emod_of_nonneg hLow]
  refine seconds_parts ?_ ?_
  · rw [abs_le]
    omega
  · rw [abs_le]
    omega

theorem elapsed_mono {d d' : Int} (hLe : d ≤ d') : elapsed d ≤ elapsed d' := by
  refine rounded_mono ?_
  rcases (Int.ediv_le_ediv (show (0 : Int) < 1000000000 by norm_num) hLe).eq_or_lt with hSame | hLess
  · have hRest : d % 1000000000 ≤ d' % 1000000000 := by omega
    rw [hSame]
    refine add_le_add_right (rounded_mono (div_le_div_of_nonneg_right ?_ (by norm_num))) _
    exact_mod_cast hRest
  · have hNext : ((d / 1000000000 : Int) : ℚ) + 1 ≤ (d' / 1000000000 : Int) := by exact_mod_cast hLess
    linarith [rounded_le represents_one (rest_le d).2, rounded_nonneg (rest_le d').1]

/-- The seconds are rounded twice. -/
theorem elapsed_le (hLow : 0 ≤ d) : elapsed d ≤ Memory.seconds d * (1 + unit) ^ 2 := by
  have hUnit : 0 < unit := by norm_num [unit]
  have hNormal : (2 : ℚ) ^ (-1022 : ℤ) ≤ 2 ^ (-30 : ℤ) := zpow_le_zpow_right₀ one_le_two (by norm_num)
  have hWhole : (0 : ℚ) ≤ (d / 1000000000 : Int) := by exact_mod_cast Int.ediv_nonneg hLow (by norm_num)
  have hSplit : Memory.seconds d = (d / 1000000000 : Int) + (d % 1000000000 : Int) / 1000000000 := by
    have hd : (d : ℚ) = 1000000000 * (d / 1000000000 : Int) + (d % 1000000000 : Int) := by
      exact_mod_cast (Int.mul_ediv_add_emod d 1000000000).symm
    rw [Memory.seconds, hd]
    ring
  -- the part below a second is zero or far from the smallest numbers
  have hPart : ((d % 1000000000 : Int) : ℚ) / 1000000000 = 0 ∨
      2 ^ (-30 : ℤ) ≤ ((d % 1000000000 : Int) : ℚ) / 1000000000 := by
    rcases (Int.emod_nonneg d (show (1000000000 : Int) ≠ 0 by norm_num)).eq_or_lt with hZero | hPos
    · exact .inl (by rw [← hZero]; simp)
    · have hOne : (1 : ℚ) ≤ (d % 1000000000 : Int) := by exact_mod_cast hPos
      exact .inr (le_trans (by norm_num) (div_le_div_of_nonneg_right hOne (by norm_num)))
  have hRest := rounded_le_mul (hPart.imp_right hNormal.trans)
  have hSum : ((d / 1000000000 : Int) : ℚ) + rounded ((d % 1000000000 : Int) / 1000000000) = 0 ∨
      2 ^ (-1022 : ℤ) ≤ ((d / 1000000000 : Int) : ℚ) + rounded ((d % 1000000000 : Int) / 1000000000) := by
    rcases hPart with hZero | hLarge
    · rw [hZero, rounded_zero, add_zero]
      rcases (Int.ediv_nonneg hLow (show (0 : Int) ≤ 1000000000 by norm_num)).eq_or_lt with hNone | hPos
      · exact .inl (by rw [← hNone]; simp)
      · have hOne : (1 : ℚ) ≤ (d / 1000000000 : Int) := by exact_mod_cast hPos
        exact .inr (hNormal.trans (le_trans (by norm_num) hOne))
    · have hRounded := le_rounded (represents_zpow (e := -30) (by norm_num)) hLarge
      exact .inr (hNormal.trans (by linarith))
  calc elapsed d ≤ ((d / 1000000000 : Int) + rounded ((d % 1000000000 : Int) / 1000000000)) * (1 + unit) :=
        rounded_le_mul hSum
    _ ≤ Memory.seconds d * (1 + unit) * (1 + unit) := by
        refine mul_le_mul_of_nonneg_right ?_ (by linarith)
        rw [hSplit]
        linarith [mul_nonneg hWhole hUnit.le]
    _ = Memory.seconds d * (1 + unit) ^ 2 := by ring

end Seconds

/-! ## One request -/

variable {fused : Bool} {rates : Rates} {v : Float64} {x : ℚ} {d now : Int}

theorem capacity64_is (rates : Rates) : rates.capacity64.Is rates.capacity := ⟨_, _, rfl⟩

theorem rate64_is (rates : Rates) : rates.rate64.Is rates.rate := ⟨_, _, rfl⟩

/-- The cap brings an overflow back. -/
theorem Rates.capped_is (rates : Rates) (hv : v.Is x ∨ v = .inf false ∧ rates.capacity ≤ x) :
    (if rates.capacity64.lt v then rates.capacity64 else v).Is (min rates.capacity x) := by
  rcases hv with hIs | ⟨rfl, hOver⟩
  · rw [(capacity64_is rates).lt hIs, min_def_lt]
    by_cases hOver : rates.capacity < x
    · rw [if_pos (decide_eq_true hOver), if_pos hOver]
      exact capacity64_is rates
    · rw [if_neg (by simp [hOver]), if_neg hOver]
      exact hIs
  · rw [min_eq_left hOver]
    exact capacity64_is rates

/-- As zero does one downwards. -/
theorem emptied_is (hv : v.Is x ∨ v = .inf true ∧ x ≤ 0) : (if v.lt 0 then 0 else v).Is (max 0 x) := by
  rcases hv with hIs | ⟨rfl, hBelow⟩
  · rw [hIs.lt Float64.zero_is, max_comm, max_def_lt]
    by_cases hUnder : x < 0
    · rw [if_pos (decide_eq_true hUnder), if_pos hUnder]
      exact Float64.zero_is
    · rw [if_neg (by simp [hUnder]), if_neg hUnder]
      exact hIs
  · rw [max_eq_left hBelow]
    obtain ⟨_, _, hZero⟩ := Float64.zero_is
    rw [hZero]
    exact ⟨_, _, rfl⟩

theorem sub_le_pow (t u : Int) : sub t u ≤ 2 ^ 63 := by
  simp only [sub, minDuration, maxDuration]
  omega

theorem gain_nonneg (rates : Rates) (hLow : 0 ≤ d) : 0 ≤ elapsed d * rates.rate :=
  mul_nonneg (elapsed_nonneg hLow) rates.rate_pos.le

namespace TokenBucket

/-- The tokens before the decision. -/
def refilled (fused : Bool) (rates : Rates) (x : ℚ) (d : Int) : ℚ :=
  min rates.capacity (Float64.raised fused x (elapsed d) rates.rate)

theorem refilled_le (fused : Bool) (rates : Rates) (x : ℚ) (d : Int) :
    refilled fused rates x d ≤ rates.capacity :=
  min_le_left _ _

theorem refilled_nonneg (fused : Bool) (rates : Rates) (hv : v.Is x) (hx : 0 ≤ x) (hLow : 0 ≤ d) :
    0 ≤ refilled fused rates x d :=
  le_min (zero_le_one.trans rates.one_le)
    (hx.trans (Float64.le_raised fused hv.represents (gain_nonneg rates hLow)))

theorem capped_is (hv : v.Is x) (hx : 0 ≤ x) (hLow : 0 ≤ d) (hHigh : d ≤ 2 ^ 63) :
    (if rates.capacity64.lt (.mulAdd fused v (seconds d) rates.rate64) then rates.capacity64
      else .mulAdd fused v (seconds d) rates.rate64).Is (refilled fused rates x d) := by
  refine rates.capped_is ?_
  refine (Float64.mulAdd_cases fused hv (seconds_is hLow hHigh) (rate64_is rates) hx
    (gain_nonneg rates hLow)).imp_right fun ⟨hInf, hLarge⟩ => ⟨hInf, ?_⟩
  exact (le_abs_self _).trans (rates.capacity_small.le.trans hLarge)

theorem lastRefilled_decided (rates : Rates) (tokens : Float64) (now : Int) :
    (decided rates tokens now).1.lastRefilled = now := by
  unfold decided
  split <;> rfl

variable {b : Bucket}

theorem exists_decided (fused : Bool) (rates : Rates) (hb : b.tokens.Is x) (hx : 0 ≤ x)
    (hClock : b.lastRefilled ≤ now) :
    ∃ t : Float64, t.Is (refilled fused rates x (sub now b.lastRefilled)) ∧
      refillAndDecide fused rates b now = decided rates t now :=
  ⟨_, capped_is hb hx (sub_nonneg_of_le hClock) (sub_le_pow now b.lastRefilled), rfl⟩

theorem decided_allowed (rates : Rates) (now : Int) (hv : v.Is x) (hOne : 1 ≤ x) :
    decided rates v now = (⟨v.sub 1, now⟩, ⟨true, remainingFloor (v.sub 1), 0⟩) ∧
      (v.sub 1).Is (rounded (x - 1)) := by
  refine ⟨if_pos ?_, hv.sub_is Float64.one_is zero_le_one hOne⟩
  rw [Float64.one_is.le hv]
  exact decide_eq_true hOne

theorem decided_denied (rates : Rates) (now : Int) (hv : v.Is x) (hLess : x < 1) : decided rates v now =
    (⟨v, now⟩, ⟨false, 0, durationFromSecondsCeil ((Float64.sub 1 v).div rates.rate64)⟩) := by
  refine if_neg ?_
  rw [Float64.one_is.le hv]
  simp [hLess]

end TokenBucket

namespace LeakyBucket

/-- The water before the decision. -/
def leaked (fused : Bool) (rates : Rates) (x : ℚ) (d : Int) : ℚ :=
  max 0 (Float64.lowered fused x (elapsed d) rates.rate)

theorem leaked_nonneg (fused : Bool) (rates : Rates) (x : ℚ) (d : Int) : 0 ≤ leaked fused rates x d :=
  le_max_left _ _

theorem leaked_le (hv : v.Is x) (hx : 0 ≤ x) (hLow : 0 ≤ d) : leaked fused rates x d ≤ x :=
  max_le hx (Float64.lowered_le fused hv.represents (gain_nonneg rates hLow))

theorem emptied_is (hv : v.Is x) (hLow : 0 ≤ d) (hHigh : d ≤ 2 ^ 63) :
    (if (Float64.mulSub fused v (seconds d) rates.rate64).lt 0 then 0
      else Float64.mulSub fused v (seconds d) rates.rate64).Is (leaked fused rates x d) :=
  Floating.emptied_is (Float64.mulSub_cases fused hv (seconds_is hLow hHigh) (rate64_is rates)
    (gain_nonneg rates hLow))

theorem lastLeak_decided (rates : Rates) (water : Float64) (now : Int) :
    (decided rates water now).1.lastLeak = now := by
  unfold decided
  split <;> rfl

variable {b : LeakyState}

theorem exists_decided (fused : Bool) (rates : Rates) (hb : b.water.Is x)
    (hClock : b.lastLeak ≤ now) :
    ∃ t : Float64, t.Is (leaked fused rates x (sub now b.lastLeak)) ∧
      leakAndDecide fused rates b now = decided rates t now :=
  ⟨_, emptied_is hb (sub_nonneg_of_le hClock) (sub_le_pow now b.lastLeak), rfl⟩

theorem add_one_cases (hv : v.Is x) (hx : 0 ≤ x) : (v.add 1).Is (rounded (x + 1)) ∨
    v.add 1 = .inf false ∧ 2 ^ 1024 ≤ rounded (x + 1) := by
  rw [hv.add Float64.one_is]
  exact Float64.ofRat_nonneg_cases (add_nonneg hx zero_le_one)

theorem decided_allowed (now : Int) (hv : v.Is x) (hx : 0 ≤ x) (hFits : rounded (x + 1) ≤ rates.capacity) :
    decided rates v now =
        (⟨v.add 1, now⟩, ⟨true, remainingFloor (rates.capacity64.sub (v.add 1)), 0⟩) ∧
      (v.add 1).Is (rounded (x + 1)) := by
  rcases add_one_cases hv hx with hIs | ⟨_, hLarge⟩
  · refine ⟨if_pos ?_, hIs⟩
    rw [hIs.le (capacity64_is rates)]
    exact decide_eq_true hFits
  · exact absurd (hLarge.trans (hFits.trans (le_abs_self _))) (not_le.mpr rates.capacity_small)

theorem decided_denied (now : Int) (hv : v.Is x) (hx : 0 ≤ x) (hOver : rates.capacity < rounded (x + 1)) :
    decided rates v now = (⟨v, now⟩,
      ⟨false, 0, durationFromSecondsCeil (((v.add 1).sub rates.capacity64).div rates.rate64)⟩) := by
  refine if_neg ?_
  rcases add_one_cases hv hx with hIs | ⟨hInf, _⟩
  · rw [hIs.le (capacity64_is rates)]
    simp [hOver]
  · rw [hInf]
    exact Bool.false_ne_true

end LeakyBucket

end Kaka.Memory.Floating
