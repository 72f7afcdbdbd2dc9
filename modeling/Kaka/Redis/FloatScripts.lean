import Kaka.Memory.FloatAdmission
import Kaka.Redis.BucketClock

/-! # The bucket scripts in Lua numbers

A number of Lua is a `double`.  `HSET` writes one with seventeen digits and the
client sends one with as many as it needs, so `tonumber` reads the same number
back.  Milliseconds stay below 53 bits, and a difference of them is exact.

Here too the guard keeps the stored time from going back, whatever the server's
clock does, and the roundings of a request move a level by no more than a drift.
-/

namespace Kaka.Redis.Floating

open Binary64 Memory.Floating Metering

/-- The constructors accept what those in memory do. -/
abbrev Rates := Memory.Floating.Rates

/-- `elapsed * rate / 1000` -/
def gain (rates : Rates) (elapsed : Int) : Float64 :=
  ((Float64.ofRat elapsed).mul rates.rate64).div 1000

/-- `math.ceil(missing * 1000 / rate)`, as the reply sends it. -/
def wait (rates : Rates) (missing : Float64) : Int :=
  ((missing.mul 1000).div rates.rate64).ceil.toInt64

structure TokenHash where
  tokens : Float64
  lastRefilledMs : Int
  deriving DecidableEq

structure LeakyHash where
  water : Float64
  lastLeakMs : Int
  deriving DecidableEq

namespace TokenBucket

variable (tb : Rates)

def refill (tokens : Float64) (elapsed : Int) : Float64 :=
  if 0 < elapsed then
    let tokens := tokens.add (gain tb elapsed)
    if tb.capacity64.lt tokens then tb.capacity64 else tokens
  else tokens

def decide (tokens : Float64) (now : Int) : TokenHash × Reply :=
  if Float64.le 1 tokens then (⟨tokens.sub 1, now⟩, ⟨1, (tokens.sub 1).floor.toInt64, 0⟩)
  else (⟨tokens, now⟩, ⟨0, 0, wait tb (Float64.sub 1 tokens)⟩)

/-- `token_bucket.lua` -/
def body (fields : Option TokenHash) (serverNow : Int) : TokenHash × Reply :=
  let (tokens, last, now) :=
    match fields with
    | none => (tb.capacity64, serverNow, serverNow)
    | some h => (h.tokens, h.lastRefilledMs, guarded h.lastRefilledMs serverNow)
  let elapsed := now - last
  decide tb (refill tb tokens elapsed) now

def script (ttlMs : Int) : Option (Entry TokenHash) → Int → Option (Entry TokenHash) × Reply :=
  hashScript (body tb) ttlMs

end TokenBucket

namespace LeakyBucket

variable (lb : Rates)

def leak (water : Float64) (elapsed : Int) : Float64 :=
  if 0 < elapsed then
    let water := water.sub (gain lb elapsed)
    if water.lt 0 then 0 else water
  else water

def decide (water : Float64) (now : Int) : LeakyHash × Reply :=
  if (water.add 1).le lb.capacity64 then
    (⟨water.add 1, now⟩, ⟨1, (lb.capacity64.sub (water.add 1)).floor.toInt64, 0⟩)
  else
    let overflow := (water.add 1).sub lb.capacity64
    (⟨water, now⟩, ⟨0, 0, wait lb overflow⟩)

/-- `leaky_bucket.lua` -/
def body (fields : Option LeakyHash) (serverNow : Int) : LeakyHash × Reply :=
  let (water, last, now) :=
    match fields with
    | none => (0, serverNow, serverNow)
    | some h => (h.water, h.lastLeakMs, guarded h.lastLeakMs serverNow)
  let elapsed := now - last
  decide lb (leak lb water elapsed) now

def script (ttlMs : Int) : Option (Entry LeakyHash) → Int → Option (Entry LeakyHash) × Reply :=
  hashScript (body lb) ttlMs

end LeakyBucket

/-! ## Numbers -/

variable {rates : Rates} {v : Float64} {x y : ℚ} {d now : Int}

/-- `gain` in the rationals. -/
def gained (rates : Rates) (d : Int) : ℚ := rounded (rounded (d * rates.rate) * (1 / 1000))

theorem product_nonneg (rates : Rates) (hLow : 0 ≤ d) : 0 ≤ (d : ℚ) * rates.rate :=
  mul_nonneg (by exact_mod_cast hLow) rates.rate_pos.le

theorem gained_nonneg (rates : Rates) (hLow : 0 ≤ d) : 0 ≤ gained rates d :=
  rounded_nonneg (mul_nonneg (rounded_nonneg (product_nonneg rates hLow)) (by norm_num))

@[simp] theorem gained_zero (rates : Rates) : gained rates 0 = 0 := by simp [gained]

/-- An overflow is far above every capacity that `Remaining` has room for. -/
theorem gain_cases (rates : Rates) (hLow : 0 ≤ d) (hHigh : d ≤ 2 ^ 53) :
    (gain rates d).Is (gained rates d) ∨ gain rates d = .inf false ∧ 2 ^ 63 ≤ gained rates d := by
  have hElapsed : (Float64.ofRat d).Is d := Float64.intCast_is (by rwa [abs_of_nonneg hLow])
  have hThousand : Float64.Is 1000 1000 := Float64.ofNat_is (by norm_num)
  have hNonneg := gained_nonneg rates hLow
  have hTop : Represents (2 ^ 63 : ℚ) := represents_zpow (e := 63) (by norm_num)
  have hFar : (2 : ℚ) ^ 63 * 1000 ≤ 2 ^ 1024 :=
    (show (2 : ℚ) ^ 63 * 1000 ≤ 2 ^ 73 by norm_num).trans (pow_le_pow_right₀ one_le_two (by norm_num))
  rw [gain, hElapsed.mul (rate64_is rates)]
  rcases Float64.ofRat_nonneg_cases (product_nonneg rates hLow) with hIs | ⟨hInf, hLarge⟩
  · rw [hIs.div hThousand (by norm_num), div_eq_mul_one_div]
    rcases Float64.ofRat_nonneg_cases (x := rounded (d * rates.rate) * (1 / 1000))
      (mul_nonneg (rounded_nonneg (product_nonneg rates hLow)) (by norm_num)) with hGain | ⟨hInf, hLarge⟩
    · exact .inl hGain
    · exact .inr ⟨hInf, (pow_le_pow_right₀ one_le_two (by norm_num)).trans hLarge⟩
  · obtain ⟨_, _, hEq⟩ := hThousand
    rw [hInf, hEq]
    refine .inr ⟨rfl, le_rounded hTop ?_⟩
    rw [← div_eq_mul_one_div, le_div_iff₀ (by norm_num)]
    exact hFar.trans hLarge

/-- The product and the quotient are rounded. -/
theorem product_le (rates : Rates) (hLow : 0 ≤ d) :
    rounded (d * rates.rate) * (1 / 1000) * (1 + unit) ≤ effectiveRate rates / 1000 * d + tiny := by
  have hProduct := product_nonneg rates hLow
  have hUnit := Float64.unit_pos
  have hTiny := Float64.tiny_pos
  have hSmall : unit ≤ 1 := by norm_num [unit]
  have hFactor : 0 ≤ 1 / 1000 * (1 + unit) := by linarith
  calc rounded (d * rates.rate) * (1 / 1000) * (1 + unit)
      ≤ (d * rates.rate * (1 + unit) + tiny) * (1 / 1000 * (1 + unit)) := by
        rw [mul_assoc]
        exact mul_le_mul_of_nonneg_right (Float64.rounded_le_add hProduct) hFactor
    _ ≤ d * rates.rate * (1 + unit) ^ 2 / 1000 + tiny := by
        have hLess : tiny * (1 / 1000 * (1 + unit)) ≤ tiny :=
          mul_le_of_le_one_right hTiny.le (by linarith)
        linarith
    _ ≤ effectiveRate rates / 1000 * d + tiny := by
        have hPower : (1 + unit) ^ 2 ≤ (1 + unit) ^ 3 := pow_le_pow_right₀ (by linarith) (by norm_num)
        have hMore := mul_le_mul_of_nonneg_left hPower hProduct
        rw [effectiveRate]
        linarith

/-- No wait is rounded to nothing: what is missing is a unit at least, and no
rate is large enough to bring its share below all numbers. -/
theorem wait_pos (rates : Rates) (hv : v.Is x) (hMissing : unit ≤ x) :
    1 ≤ wait rates v ∨ wait rates v = -2 ^ 63 := by
  have hThousand : Float64.Is 1000 1000 := Float64.ofNat_is (by norm_num)
  have hPos : 0 < x := Float64.unit_pos.trans_le hMissing
  rw [wait, hv.mul hThousand]
  rcases Float64.ofRat_nonneg_cases (x := x * 1000) (by linarith) with hIs | ⟨hInf, _⟩
  · have hLow : (2 : ℚ) ^ (-44 : ℤ) ≤ rounded (x * 1000) := by
      refine le_rounded (represents_zpow (by norm_num)) ?_
      have hStart : (2 : ℚ) ^ (-44 : ℤ) ≤ unit * 1000 := by norm_num [unit]
      linarith
    have hShare : (2 : ℚ) ^ (-1068 : ℤ) ≤ rounded (x * 1000) / rates.rate := by
      rw [le_div_iff₀ rates.rate_pos]
      calc (2 : ℚ) ^ (-1068 : ℤ) * rates.rate ≤ 2 ^ (-1068 : ℤ) * 2 ^ (1024 : ℤ) :=
            mul_le_mul_of_nonneg_left ((le_abs_self _).trans rates.rate_small.le) (two_zpow_pos _).le
        _ = 2 ^ (-44 : ℤ) := by
            rw [← zpow_add₀ two_ne_zero]
            norm_num
        _ ≤ rounded (x * 1000) := hLow
    rw [hIs.div (rate64_is rates) rates.rate_pos.ne']
    rcases Float64.ofRat_nonneg_cases ((two_zpow_pos _).le.trans hShare) with hWait | ⟨hInf, _⟩
    · have hCeil : 1 ≤ ⌈rounded (rounded (x * 1000) / rates.rate)⌉ := by
        refine Int.one_le_ceil_iff.mpr ((two_zpow_pos (-1068)).trans_le ?_)
        exact le_rounded (represents_zpow (by norm_num)) hShare
      rcases hWait.ceil.toInt64_cases (by omega) with hEq | hEq
      · exact .inl (hEq ▸ hCeil)
      · exact .inr hEq
    · rw [hInf]
      exact .inr rfl
  · obtain ⟨_, _, hRate⟩ := rate64_is rates
    rw [hInf, hRate]
    exact .inr rfl

/-! ## One request -/

/-- What a script may answer.  A wait that no `int64` holds is sent as the
least one. -/
def Sane (rates : Rates) (r : Reply) : Prop :=
  r.allowed = 1 ∧ 0 ≤ r.remaining ∧ (r.remaining : ℚ) ≤ rates.capacity ∧ r.retryAfterMs = 0 ∨
    r.allowed = 0 ∧ r.remaining = 0 ∧ (1 ≤ r.retryAfterMs ∨ r.retryAfterMs = -2 ^ 63)

theorem cost_allow (remaining retryAfterMs : Int) : cost (decode ⟨1, remaining, retryAfterMs⟩) = 1 :=
  if_pos (by simp [decode, toInt64])

theorem cost_deny (remaining retryAfterMs : Int) : cost (decode ⟨0, remaining, retryAfterMs⟩) = 0 :=
  if_neg (by simp [decode, toInt64])

theorem unit_le_rounded (hLe : unit ≤ x) : unit ≤ rounded x := by
  have hUnit : unit = 2 ^ (-53 : ℤ) := by norm_num [unit]
  rw [hUnit] at hLe ⊢
  exact le_rounded (represents_zpow (by norm_num)) hLe

/-- The whole part of a number up to the capacity. -/
theorem floor_toInt64 (hCapacity : rates.capacity < 2 ^ 63) (hv : v.Is x) (hLow : 0 ≤ x)
    (hHigh : x ≤ rates.capacity) :
    0 ≤ v.floor.toInt64 ∧ (v.floor.toInt64 : ℚ) ≤ rates.capacity := by
  have hFloor : 0 ≤ ⌊x⌋ := Int.floor_nonneg.mpr hLow
  have hSmall : ⌊x⌋ < 2 ^ 63 := Int.floor_lt.mpr (by exact_mod_cast hHigh.trans_lt hCapacity)
  rw [hv.floor.toInt64_int hFloor hSmall]
  exact ⟨hFloor, (Int.floor_le x).trans hHigh⟩

theorem units_le_drift (rates : Rates) : 2 * (rates.capacity * unit) + 4 * tiny ≤ drift rates := by
  have hUnit : unit ≤ rates.capacity * unit := le_mul_of_one_le_left Float64.unit_pos.le rates.one_le
  have hTiny : tiny ≤ unit := by
    unfold tiny unit
    exact one_div_le_one_div_of_le (by positivity) (pow_le_pow_right₀ one_le_two (by norm_num))
  unfold drift
  linarith

/-- A reading that a server's clock can have after another. -/
def SoonAfter (last now : Int) : Prop := last ≤ now ∧ now - last ≤ 2 ^ 53

namespace TokenBucket

def create (rates : Rates) (now : Int) : TokenHash := ⟨rates.capacity64, now⟩

def step (rates : Rates) (h : TokenHash) (now : Int) : TokenHash × Reply := body rates (some h) now

theorem body_none (rates : Rates) (now : Int) : body rates none now = step rates (create rates now) now := by
  simp [step, body, create, guarded]

theorem step_eq (rates : Rates) (h : TokenHash) (now : Int) : step rates h now =
    decide rates (refill rates h.tokens (max h.lastRefilledMs now - h.lastRefilledMs))
      (max h.lastRefilledMs now) := by
  simp only [step, body, guarded_eq_max]

theorem lastRefilledMs_step (rates : Rates) (h : TokenHash) (now : Int) :
    (step rates h now).1.lastRefilledMs = max h.lastRefilledMs now := by
  rw [step_eq, decide]
  split <;> rfl

/-- The tokens before the decision. -/
def refilled (rates : Rates) (x : ℚ) (d : Int) : ℚ := min rates.capacity (rounded (x + gained rates d))

theorem refilled_nonneg (rates : Rates) (hLow : 0 ≤ d) (hx : 0 ≤ x) : 0 ≤ refilled rates x d :=
  le_min (zero_le_one.trans rates.one_le) (rounded_nonneg (add_nonneg hx (gained_nonneg rates hLow)))

theorem refilled_le (rates : Rates) (hLow : 0 ≤ d) (hx : 0 ≤ x) :
    refilled rates x d ≤ x + effectiveRate rates / 1000 * d + (rates.capacity * unit + 3 * tiny) := by
  have hRaised := Float64.min_raised_le false hx
    (mul_nonneg (rounded_nonneg (product_nonneg rates hLow)) (show (0 : ℚ) ≤ 1 / 1000 by norm_num))
    (zero_le_one.trans rates.one_le)
  have hProduct := product_le rates hLow
  rw [Float64.raised, if_neg Bool.false_ne_true] at hRaised
  rw [refilled, gained]
  linarith

theorem refill_is (hCapacity : rates.capacity < 2 ^ 63) (hv : v.Is x) (hx : 0 ≤ x)
    (hFull : x ≤ rates.capacity) (hLow : 0 ≤ d) (hHigh : d ≤ 2 ^ 53) :
    (refill rates v d).Is (refilled rates x d) := by
  rcases hLow.eq_or_lt with rfl | hPos
  · rw [refill, if_neg (lt_irrefl 0), refilled, gained_zero, add_zero, rounded_of_represents hv.represents,
      min_eq_right hFull]
    exact hv
  · simp only [refill, if_pos hPos]
    refine rates.capped_is ?_
    rcases gain_cases rates hLow hHigh with hGain | ⟨hInf, hLarge⟩
    · rw [hv.add hGain]
      refine (Float64.ofRat_nonneg_cases (add_nonneg hx (gained_nonneg rates hLow))).imp_right
        fun ⟨hInf, hLarge⟩ => ⟨hInf, ?_⟩
      exact (le_abs_self _).trans (rates.capacity_small.le.trans hLarge)
    · rw [hInf]
      obtain ⟨_, _, rfl⟩ := hv
      refine .inr ⟨rfl, le_rounded rates.capacity_represents ?_⟩
      linarith

theorem decide_allowed (now : Int) (hv : v.Is x) (hOne : 1 ≤ x) :
    decide rates v now = (⟨v.sub 1, now⟩, ⟨1, (v.sub 1).floor.toInt64, 0⟩) := by
  refine if_pos ?_
  rw [Float64.one_is.le hv]
  exact decide_eq_true hOne

theorem decide_denied (now : Int) (hv : v.Is x) (hLess : x < 1) :
    decide rates v now = (⟨v, now⟩, ⟨0, 0, wait rates (Float64.sub 1 v)⟩) := by
  refine if_neg ?_
  rw [Float64.one_is.le hv]
  simp [hLess]

theorem decided (hCapacity : rates.capacity < 2 ^ 63) (now : Int) (hv : v.Is x) (hx : 0 ≤ x)
    (hFull : x ≤ rates.capacity) :
    Sane rates (decide rates v now).2 ∧
    ∃ y, (decide rates v now).1.tokens.Is y ∧ 0 ≤ y ∧ y ≤ rates.capacity ∧
      y + cost (decode (decide rates v now).2) ≤ x + (rates.capacity * unit + tiny) := by
  have hUnit := mul_nonneg (zero_le_one.trans rates.one_le) Float64.unit_pos.le
  have hTiny := Float64.tiny_pos
  rcases le_or_gt 1 x with hOne | hLess
  · have hLeft : (v.sub 1).Is (rounded (x - 1)) := hv.sub_is Float64.one_is zero_le_one hOne
    have hLow : 0 ≤ rounded (x - 1) := rounded_nonneg (by linarith)
    have hHigh : rounded (x - 1) ≤ rates.capacity := rounded_le rates.capacity_represents (by linarith)
    have hNear := (Float64.rounded_near (show 0 ≤ x - 1 by linarith) (show x - 1 ≤ rates.capacity by linarith)).1
    obtain ⟨hNonneg, hRoom⟩ := floor_toInt64 hCapacity hLeft hLow hHigh
    rw [decide_allowed now hv hOne]
    refine ⟨.inl ⟨rfl, hNonneg, hRoom, rfl⟩, _, hLeft, hLow, hHigh, ?_⟩
    rw [cost_allow]
    linarith
  · have hMissing : (Float64.sub 1 v).Is (rounded (1 - x)) := Float64.one_is.sub_is hv hx hLess.le
    have hWait := unit_le_rounded (represents_one.unit_le_sub hv.represents le_rfl hLess)
    rw [decide_denied now hv hLess]
    refine ⟨.inr ⟨rfl, rfl, wait_pos rates hMissing hWait⟩, x, hv, hx, hFull, ?_⟩
    rw [cost_deny]
    linarith

theorem request (hCapacity : rates.capacity < 2 ^ 63) {h : TokenHash} (hh : h.tokens.Is x) (hx : 0 ≤ x)
    (hFull : x ≤ rates.capacity) (hClock : SoonAfter h.lastRefilledMs now) :
    Sane rates (step rates h now).2 ∧
    ∃ y, (step rates h now).1.tokens.Is y ∧ 0 ≤ y ∧ y ≤ rates.capacity ∧
      y + cost (decode (step rates h now).2) ≤
        min rates.capacity (x + effectiveRate rates / 1000 * (now - h.lastRefilledMs)) + drift rates := by
  have hLow : 0 ≤ now - h.lastRefilledMs := sub_nonneg.mpr hClock.1
  have hIs := refill_is hCapacity hh hx hFull hLow hClock.2
  have hTop : refilled rates x (now - h.lastRefilledMs) ≤ rates.capacity := min_le_left _ _
  have hRefilled := refilled_le rates hLow hx
  have hSlack := units_le_drift rates
  have hUnit := mul_nonneg (zero_le_one.trans rates.one_le) Float64.unit_pos.le
  have hTiny := Float64.tiny_pos
  rw [step_eq, max_eq_right hClock.1]
  obtain ⟨hSane, y, hy, hNonneg, hHigh, hPaid⟩ :=
    decided hCapacity now hIs (refilled_nonneg rates hLow hx) hTop
  refine ⟨hSane, y, hy, hNonneg, hHigh, ?_⟩
  rw [← min_add_add_right]
  push_cast at hRefilled
  exact le_min (by linarith) (by linarith)

theorem drifts (hCapacity : rates.capacity < 2 ^ 63) :
    Drifts (create rates) (fun h now => ((step rates h now).1, decode (step rates h now).2))
      TokenHash.lastRefilledMs (fun h => h.tokens.toRat) (fun h => Level rates h.tokens) SoonAfter
      (rates.capacity + drift rates) (effectiveRate rates / 1000) (drift rates) where
  fresh now := ⟨⟨_, capacity64_is rates, zero_le_one.trans rates.one_le, le_rfl⟩, rfl⟩
  stamped h now hClock := (lastRefilledMs_step rates h now).trans (max_eq_right hClock.1)
  keeps := by
    rintro h now ⟨x, hx, hLow, hHigh⟩ hClock
    obtain ⟨-, y, hy, hNonneg, hTop, -⟩ := request hCapacity hx hLow hHigh hClock
    exact ⟨y, hy, hNonneg, hTop⟩
  pays := by
    rintro h now ⟨x, hx, hLow, hHigh⟩ hClock
    obtain ⟨-, y, hy, -, -, hPaid⟩ := request hCapacity hx hLow hHigh hClock
    rw [hy.toRat, hx.toRat]
    exact hPaid.trans (add_le_add_left (min_le_right _ _) _)
  covered := by
    rintro h now ⟨x, hx, hLow, hHigh⟩ hClock hAllowed
    obtain ⟨-, y, hy, hNonneg, -, hPaid⟩ := request hCapacity hx hLow hHigh hClock
    rw [cost, if_pos hAllowed] at hPaid
    rw [hy.toRat]
    exact ⟨hNonneg, hPaid.trans (add_le_add_left (min_le_left _ _) _)⟩

end TokenBucket

namespace LeakyBucket

def create (now : Int) : LeakyHash := ⟨0, now⟩

def step (rates : Rates) (h : LeakyHash) (now : Int) : LeakyHash × Reply := body rates (some h) now

theorem body_none (rates : Rates) (now : Int) : body rates none now = step rates (create now) now := by
  simp [step, body, create, guarded]

theorem step_eq (rates : Rates) (h : LeakyHash) (now : Int) : step rates h now =
    decide rates (leak rates h.water (max h.lastLeakMs now - h.lastLeakMs)) (max h.lastLeakMs now) := by
  simp only [step, body, guarded_eq_max]

theorem lastLeakMs_step (rates : Rates) (h : LeakyHash) (now : Int) :
    (step rates h now).1.lastLeakMs = max h.lastLeakMs now := by
  rw [step_eq, decide]
  split <;> rfl

/-- The water before the decision. -/
def leaked (rates : Rates) (x : ℚ) (d : Int) : ℚ := max 0 (rounded (x - gained rates d))

theorem leaked_le (rates : Rates) (hLow : 0 ≤ d) (hv : v.Is x) (hx : 0 ≤ x) : leaked rates x d ≤ x :=
  max_le hx (rounded_le hv.represents (sub_le_self x (gained_nonneg rates hLow)))

theorem le_leaked (rates : Rates) (hLow : 0 ≤ d) (hFull : x ≤ rates.capacity) :
    x - effectiveRate rates / 1000 * d - (rates.capacity * unit + 3 * tiny) ≤ leaked rates x d := by
  have hLowered := Float64.le_max_lowered false hFull
    (mul_nonneg (rounded_nonneg (product_nonneg rates hLow)) (show (0 : ℚ) ≤ 1 / 1000 by norm_num))
    (zero_le_one.trans rates.one_le)
  have hProduct := product_le rates hLow
  rw [Float64.lowered, if_neg Bool.false_ne_true] at hLowered
  rw [leaked, gained]
  linarith

theorem leak_is (hCapacity : rates.capacity < 2 ^ 63) (hv : v.Is x) (hx : 0 ≤ x)
    (hFull : x ≤ rates.capacity) (hLow : 0 ≤ d) (hHigh : d ≤ 2 ^ 53) :
    (leak rates v d).Is (leaked rates x d) := by
  rcases hLow.eq_or_lt with rfl | hPos
  · rw [leak, if_neg (lt_irrefl 0), leaked, gained_zero, sub_zero, rounded_of_represents hv.represents,
      max_eq_right hx]
    exact hv
  · simp only [leak, if_pos hPos]
    refine emptied_is ?_
    rcases gain_cases rates hLow hHigh with hGain | ⟨hInf, hLarge⟩
    · rw [hv.sub hGain]
      exact hv.ofRat_sub_cases (gained_nonneg rates hLow)
    · rw [hInf]
      obtain ⟨_, _, rfl⟩ := hv
      refine .inr ⟨rfl, rounded_le represents_zero ?_⟩
      linarith

theorem decide_allowed (now : Int) (hSum : (v.add 1).Is y) (hFits : y ≤ rates.capacity) :
    decide rates v now =
      (⟨v.add 1, now⟩, ⟨1, (rates.capacity64.sub (v.add 1)).floor.toInt64, 0⟩) := by
  refine if_pos ?_
  rw [hSum.le (capacity64_is rates)]
  exact decide_eq_true hFits

theorem decide_denied (now : Int) (hSum : (v.add 1).Is y) (hOver : rates.capacity < y) :
    decide rates v now = (⟨v, now⟩, ⟨0, 0, wait rates ((v.add 1).sub rates.capacity64)⟩) := by
  refine if_neg ?_
  rw [hSum.le (capacity64_is rates)]
  simp [hOver]

theorem add_one_is (hCapacity : rates.capacity < 2 ^ 63) (hv : v.Is x) (hx : 0 ≤ x)
    (hFull : x ≤ rates.capacity) : (v.add 1).Is (rounded (x + 1)) := by
  rcases Memory.Floating.LeakyBucket.add_one_cases hv hx with hIs | ⟨-, hLarge⟩
  · exact hIs
  · have hTop : rounded (x + 1) ≤ 2 ^ 64 := rounded_le (represents_zpow (e := 64) (by norm_num)) (by
      norm_num at hCapacity ⊢
      linarith)
    have hFar : (2 : ℚ) ^ 64 < 2 ^ 1024 := pow_lt_pow_right₀ one_lt_two (by norm_num)
    exact absurd (hLarge.trans hTop) (not_le.mpr hFar)

/-- The sum with one is a normal number. -/
theorem add_one_le (hx : 0 ≤ x) (hFull : x ≤ rates.capacity) :
    x + 1 ≤ rounded (x + 1) + 2 * (rates.capacity * unit) := by
  have hNormal : (2 : ℚ) ^ (-1022 : ℤ) ≤ |x + 1| := by
    rw [abs_of_nonneg (by linarith)]
    exact (zpow_le_one_of_nonpos₀ one_le_two (by norm_num)).trans (by linarith)
  have hError := (abs_le.mp (abs_rounded_sub_le_unit hNormal)).1
  have hUnit := mul_le_mul_of_nonneg_right
    (show x + 1 ≤ 2 * rates.capacity by linarith [rates.one_le]) Float64.unit_pos.le
  rw [abs_of_nonneg (by linarith)] at hError
  linarith

theorem decided (hCapacity : rates.capacity < 2 ^ 63) (now : Int) (hv : v.Is x) (hx : 0 ≤ x)
    (hFull : x ≤ rates.capacity) :
    Sane rates (decide rates v now).2 ∧
    ∃ y, (decide rates v now).1.water.Is y ∧ 0 ≤ y ∧ y ≤ rates.capacity ∧
      x + cost (decode (decide rates v now).2) ≤ y + 2 * (rates.capacity * unit) ∧
      ((decode (decide rates v now).2).allowed = true → 1 ≤ y) := by
  have hSum : (v.add 1).Is (rounded (x + 1)) := add_one_is hCapacity hv hx hFull
  have hOne : 1 ≤ rounded (x + 1) := le_rounded represents_one (by linarith)
  have hCap := rates.one_le
  rcases le_or_gt (rounded (x + 1)) rates.capacity with hFits | hOver
  · have hLeft : (rates.capacity64.sub (v.add 1)).Is (rounded (rates.capacity - rounded (x + 1))) :=
      (capacity64_is rates).sub_is hSum (by linarith) hFits
    obtain ⟨hNonneg, hRoom⟩ := floor_toInt64 hCapacity hLeft (rounded_nonneg (by linarith))
      (rounded_le rates.capacity_represents (by linarith))
    rw [decide_allowed now hSum hFits]
    refine ⟨.inl ⟨rfl, hNonneg, hRoom, rfl⟩, _, hSum, by linarith, hFits, ?_, fun _ => hOne⟩
    rw [cost_allow]
    exact add_one_le hx hFull
  · have hOverflow : ((v.add 1).sub rates.capacity64).Is (rounded (rounded (x + 1) - rates.capacity)) :=
      hSum.sub_is (capacity64_is rates) (by linarith) hOver.le
    have hWait := unit_le_rounded
      ((represents_rounded (x + 1)).unit_le_sub rates.capacity_represents hOne hOver)
    have hUnit := mul_nonneg (zero_le_one.trans rates.one_le) Float64.unit_pos.le
    rw [decide_denied now hSum hOver]
    refine ⟨.inr ⟨rfl, rfl, wait_pos rates hOverflow hWait⟩, x, hv, hx, hFull, ?_, ?_⟩
    · rw [cost_deny]
      linarith
    · simp [decode, toInt64]

theorem request (hCapacity : rates.capacity < 2 ^ 63) {h : LeakyHash} (hh : h.water.Is x) (hx : 0 ≤ x)
    (hFull : x ≤ rates.capacity) (hClock : SoonAfter h.lastLeakMs now) :
    Sane rates (step rates h now).2 ∧
    ∃ y, (step rates h now).1.water.Is y ∧ 0 ≤ y ∧ y ≤ rates.capacity ∧
      x + cost (decode (step rates h now).2) ≤
        y + effectiveRate rates / 1000 * (now - h.lastLeakMs) + drift rates ∧
      ((decode (step rates h now).2).allowed = true → 1 ≤ y) := by
  have hLow : 0 ≤ now - h.lastLeakMs := sub_nonneg.mpr hClock.1
  have hIs := leak_is hCapacity hh hx hFull hLow hClock.2
  have hLeaked := le_leaked rates hLow hFull
  rw [step_eq, max_eq_right hClock.1]
  obtain ⟨hSane, y, hy, hNonneg, hHigh, hPaid, hOne⟩ :=
    decided hCapacity now hIs (le_max_left _ _) ((leaked_le rates hLow hh hx).trans hFull)
  refine ⟨hSane, y, hy, hNonneg, hHigh, ?_, hOne⟩
  push_cast at hLeaked
  unfold drift
  linarith

theorem drifts (hCapacity : rates.capacity < 2 ^ 63) :
    Drifts create (fun h now => ((step rates h now).1, decode (step rates h now).2)) LeakyHash.lastLeakMs
      (fun h => rates.capacity - h.water.toRat) (fun h => Level rates h.water) SoonAfter
      (rates.capacity + drift rates) (effectiveRate rates / 1000) (drift rates) where
  fresh now := ⟨⟨0, Float64.zero_is, le_rfl, zero_le_one.trans rates.one_le⟩, rfl⟩
  stamped h now hClock := (lastLeakMs_step rates h now).trans (max_eq_right hClock.1)
  keeps := by
    rintro h now ⟨x, hx, hLow, hHigh⟩ hClock
    obtain ⟨-, y, hy, hNonneg, hTop, -⟩ := request hCapacity hx hLow hHigh hClock
    exact ⟨y, hy, hNonneg, hTop⟩
  pays := by
    rintro h now ⟨x, hx, hLow, hHigh⟩ hClock
    obtain ⟨-, y, hy, -, -, hPaid, -⟩ := request hCapacity hx hLow hHigh hClock
    rw [hy.toRat, hx.toRat]
    linarith
  covered := by
    rintro h now ⟨x, hx, hLow, hHigh⟩ hClock hAllowed
    obtain ⟨-, y, hy, -, hTop, -, hOne⟩ := request hCapacity hx hLow hHigh hClock
    have hDrift := drift_nonneg rates
    rw [hy.toRat]
    constructor <;> linarith [hOne hAllowed]

end LeakyBucket

/-! ## Any server clock -/

/-- The readings as the guard of the scripts lets them through. -/
def guards (last : Int) : List Int → List Int
  | [] => []
  | now :: rest => max last now :: guards (max last now) rest

theorem getElem_guards {last t : Int} {readings : List Int} {k : Nat}
    (hk : (guards last readings)[k]? = some t) : t = (readings.take (k + 1)).foldl max last := by
  induction readings generalizing last k with
  | nil => cases hk
  | cons now rest ih =>
    cases k with
    | zero =>
      cases hk
      rfl
    | succ k => exact ih hk

theorem length_guards (last : Int) (readings : List Int) : (guards last readings).length = readings.length := by
  induction readings generalizing last with
  | nil => rfl
  | cons now rest ih => rw [guards, List.length_cons, ih, List.length_cons]

theorem soonAfter_guards {last : Int} {readings : List Int} (hLast : |last| ≤ 2 ^ 52)
    (hClock : ∀ t ∈ readings, |t| ≤ 2 ^ 52) : (last :: guards last readings).IsChain SoonAfter := by
  induction readings generalizing last with
  | nil => exact .singleton _
  | cons now rest ih =>
    have hNow := abs_le.mp (hClock now List.mem_cons_self)
    have hLow := abs_le.mp hLast
    refine .cons_cons ⟨le_max_left _ _, by omega⟩ (ih (abs_le.mpr (by omega)) ?_)
    exact fun t ht => hClock t (List.mem_cons_of_mem _ ht)

section Runs

variable {σ : Type} {step : σ → Int → σ × Reply} {create : Int → σ} {time : σ → Int} {level : σ → ℚ}
  {valid : σ → Prop}

theorem trace_guards (hGuard : ∀ h now, step h now = step h (max (time h) now))
    (hTime : ∀ h now, time (step h now).1 = max (time h) now) (h : σ) (readings : List Int) :
    (trace step h readings).map Prod.snd = (trace step h (guards (time h) readings)).map Prod.snd := by
  induction readings generalizing h with
  | nil => rfl
  | cons now rest ih =>
    rw [trace, List.map_cons, ih, hTime, guards, trace, List.map_cons, ← hGuard]

theorem trace_decode (h : σ) (readings : List Int) :
    trace (fun h now => ((step h now).1, decode (step h now).2)) h readings =
      (trace step h readings).map fun x => (x.1, x.2.1, decode x.2.2) := by
  induction readings generalizing h with
  | nil => rfl
  | cons now rest ih => rw [trace, ih, trace, List.map_cons]

theorem time_ticks (level : σ → ℚ) (drift : ℚ) (runs : List (Int × σ × Result)) :
    (ticks level drift runs).map Tick.time = runs.map fun x => (x.1 : ℚ) := by
  induction runs with
  | nil => rfl
  | cons x rest ih => rw [ticks, List.map_cons, ih, List.map_cons]

theorem allowed_ticks (level : σ → ℚ) (drift : ℚ) (runs : List (Int × σ × Result)) :
    (ticks level drift runs).map Tick.allowed = runs.map fun x => x.2.2.allowed := by
  induction runs with
  | nil => rfl
  | cons x rest ih => rw [ticks, List.map_cons, ih, List.map_cons]

/-- Of the requests from one number to another no more are allowed than the
capacity, the time that the stored one gains and the drift pay for. -/
def Granted (rates : Rates) (readings : List Int) (allowed : List Bool) : Prop :=
  ∀ i j, i ≤ j → j < allowed.length →
    ((((allowed.drop i).take (j + 1 - i)).count true : ℕ) : ℚ) ≤
      rates.capacity + (readings.length + 1) * drift rates +
        effectiveRate rates * (peak readings j - peak readings i) / 1000

/-- A metered run whose ticks have the latest reading as their time. -/
theorem granted_of_metered {readings : List Int} {ticks : List Tick} {allowed : List Bool}
    (hMetered : Metered (rates.capacity + (readings.length + 1) * drift rates)
      (effectiveRate rates / 1000) ticks)
    (hLatest : ∀ (k : Nat) (x : Tick), ticks[k]? = some x → x.time = (peak readings k : ℚ))
    (hAllowed : ticks.map Tick.allowed = allowed) : Granted rates readings allowed := by
  intro i j hij _
  have hPart : (ticks.drop i).take (j + 1 - i) <:+: ticks :=
    (List.take_prefix _ _).isInfix.trans (List.drop_suffix _ _).isInfix
  have hTimes : ∀ x ∈ (ticks.drop i).take (j + 1 - i),
      (peak readings i : ℚ) ≤ x.time ∧ x.time ≤ peak readings j := by
    intro x hx
    obtain ⟨k, hik, hkj, hk⟩ := mem_segment hx
    rw [hLatest k x hk]
    exact ⟨by exact_mod_cast peak_mono readings hik, by exact_mod_cast peak_mono readings hkj⟩
  have hDrift := drift_nonneg rates
  have hCapacity : 0 ≤ rates.capacity + (readings.length + 1) * drift rates :=
    add_nonneg (zero_le_one.trans rates.one_le) (mul_nonneg (by positivity) hDrift)
  have hRate : 0 ≤ effectiveRate rates / 1000 :=
    div_nonneg (mul_nonneg rates.rate_pos.le (pow_nonneg (by linarith [Float64.unit_pos]) 3)) (by norm_num)
  have hCount := (hMetered.of_isInfix hPart).countP_le hCapacity hRate
    (by exact_mod_cast peak_mono readings hij) hTimes
  rw [← hAllowed, ← List.map_drop, ← List.map_take, List.count, List.countP_map]
  refine le_trans (le_of_eq ?_) (hCount.trans (le_of_eq (by ring)))
  congr 2
  funext x
  simp

theorem granted (h : Drifts create (fun h now => ((step h now).1, decode (step h now).2)) time level valid
      SoonAfter (rates.capacity + drift rates) (effectiveRate rates / 1000) (drift rates))
    (hGuard : ∀ h now, step h now = step h (max (time h) now))
    (hTime : ∀ h now, time (step h now).1 = max (time h) now) {now : Int} {rest : List Int}
    (hClock : ∀ t ∈ now :: rest, |t| ≤ 2 ^ 52) :
    Granted rates (now :: rest) ((serve step (create now) (now :: rest)).map fun x => (decode x.2).allowed) := by
  obtain ⟨hFresh, hNow⟩ := h.fresh now
  have hChain : (time (create now) :: guards now (now :: rest)).IsChain SoonAfter := by
    rw [hNow]
    exact soonAfter_guards (hClock now List.mem_cons_self) hClock
  have hLength : (guards now (now :: rest)).length = (now :: rest).length := length_guards _ _
  have hMetered := (h.metered (drift_nonneg rates) hFresh hLength.le hChain false (by rintro ⟨⟩)).tail
  rw [trace_decode] at hMetered
  have hCapacity : rates.capacity + drift rates + ((now :: rest).length : ℚ) * drift rates =
      rates.capacity + ((now :: rest).length + 1) * drift rates := by ring
  rw [hCapacity] at hMetered
  refine granted_of_metered hMetered ?_ ?_
  · intro k x hk
    have hTimes := time_ticks level (drift rates)
      ((trace step (create now) (guards now (now :: rest))).map fun x => (x.1, x.2.1, decode x.2.2))
    have hLabels := map_fst_serve step (create now) (guards now (now :: rest))
    rw [serve, List.map_map] at hLabels
    rw [List.map_map] at hTimes
    have hLabel := congrArg (fun times => times[k]?) hTimes
    have hReading := congrArg (fun times => times[k]?) hLabels
    simp only [List.getElem?_map, hk, Option.map_some] at hLabel hReading
    obtain ⟨y, hy, hTime⟩ := Option.map_eq_some_iff.mp hLabel.symm
    rw [hy, Option.map_some] at hReading
    rw [← hTime, peak_cons]
    have hGuarded := getElem_guards hReading.symm
    rw [List.take_succ_cons, List.foldl_cons, max_self] at hGuarded
    exact congrArg Int.cast hGuarded
  · have hReplies := trace_guards hGuard hTime (create now) (now :: rest)
    rw [hNow] at hReplies
    have hAllowed := congrArg (List.map fun x => (decode x.2).allowed) hReplies
    rw [List.map_map, List.map_map] at hAllowed
    rw [allowed_ticks, List.map_map, serve, List.map_map]
    exact hAllowed.symm

theorem sane (h : Drifts create (fun h now => ((step h now).1, decode (step h now).2)) time level valid
      SoonAfter (rates.capacity + drift rates) (effectiveRate rates / 1000) (drift rates))
    (hGuard : ∀ h now, step h now = step h (max (time h) now))
    (hTime : ∀ h now, time (step h now).1 = max (time h) now)
    (hSane : ∀ h now, valid h → SoonAfter (time h) now → Sane rates (step h now).2) {v : σ} (hv : valid v)
    (hLast : |time v| ≤ 2 ^ 52) {readings : List Int} (hClock : ∀ t ∈ readings, |t| ≤ 2 ^ 52) :
    ∀ x ∈ serve step v readings, Sane rates x.2 := by
  induction readings generalizing v with
  | nil => rintro x ⟨⟩
  | cons now rest ih =>
    obtain ⟨hNow, hRest⟩ := List.forall_mem_cons.mp hClock
    have hLater : |max (time v) now| ≤ 2 ^ 52 := by
      rw [abs_le] at hLast hNow ⊢
      omega
    have hSoon : SoonAfter (time v) (max (time v) now) := by
      rw [abs_le] at hLast hLater
      exact ⟨le_max_left _ _, by omega⟩
    have hNext : valid (step v now).1 := hGuard v now ▸ h.keeps v _ hv hSoon
    refine List.forall_mem_cons.mpr ⟨hGuard v now ▸ hSane v _ hv hSoon, ih hNext ?_ hRest⟩
    rwa [hTime]

/-- What the scripts keep to on a run that does not lose its key. -/
def Kept (rates : Rates) (readings : List Int) (replies : List (Int × Reply)) : Prop :=
  Granted rates readings (replies.map fun x => (decode x.2).allowed) ∧ ∀ x ∈ replies, Sane rates x.2

theorem kept_script {body : Option σ → Int → σ × Reply}
    (h : Drifts create (fun h now => ((body (some h) now).1, decode (body (some h) now).2)) time level valid
      SoonAfter (rates.capacity + drift rates) (effectiveRate rates / 1000) (drift rates))
    (hGuard : ∀ h now, body (some h) now = body (some h) (max (time h) now))
    (hTime : ∀ h now, time (body (some h) now).1 = max (time h) now)
    (hSane : ∀ h now, valid h → SoonAfter (time h) now → Sane rates (body (some h) now).2)
    (hNew : ∀ now, body none now = body (some (create now)) now) {ttlMs : Int} {readings : List Int}
    (hLive : Unexpired ttlMs readings) (hClock : ∀ t ∈ readings, |t| ≤ 2 ^ 52) :
    Kept rates readings (serve (hashScript body ttlMs) none readings) := by
  cases readings with
  | nil =>
    refine ⟨fun i j _ hj => absurd hj (Nat.not_lt_zero j), ?_⟩
    rintro x ⟨⟩
  | cons now rest =>
    obtain ⟨hFresh, hNow⟩ := h.fresh now
    rw [serve_hashScript hNew now rest hLive]
    refine ⟨granted h hGuard hTime hClock, sane h hGuard hTime hSane hFresh ?_ hClock⟩
    rw [hNow]
    exact hClock now List.mem_cons_self

end Runs

/-- Whatever the server's clock does, and although every number is rounded: the
scripts allow no more than the exact ones, but for the drift, and a denial
tells to wait unless its wait overflows. -/
theorem float_scripts_kept (rates : Rates) (hCapacity : rates.capacity < 2 ^ 63) {ttlMs : Int}
    {readings : List Int} (hLive : Unexpired ttlMs readings) (hClock : ∀ t ∈ readings, |t| ≤ 2 ^ 52) :
    Kept rates readings (serve (TokenBucket.script rates ttlMs) none readings) ∧
    Kept rates readings (serve (LeakyBucket.script rates ttlMs) none readings) := by
  constructor
  · refine kept_script (TokenBucket.drifts hCapacity) ?_ (TokenBucket.lastRefilledMs_step rates) ?_
      (TokenBucket.body_none rates) hLive hClock
    · intro h now
      have hSame := TokenBucket.step_eq rates h (max h.lastRefilledMs now)
      rw [← max_assoc, max_self] at hSame
      exact (TokenBucket.step_eq rates h now).trans hSame.symm
    · rintro h now ⟨x, hx, hLow, hHigh⟩ hSoon
      exact (TokenBucket.request hCapacity hx hLow hHigh hSoon).1
  · refine kept_script (LeakyBucket.drifts hCapacity) ?_ (LeakyBucket.lastLeakMs_step rates) ?_
      (LeakyBucket.body_none rates) hLive hClock
    · intro h now
      have hSame := LeakyBucket.step_eq rates h (max h.lastLeakMs now)
      rw [← max_assoc, max_self] at hSame
      exact (LeakyBucket.step_eq rates h now).trans hSame.symm
    · rintro h now ⟨x, hx, hLow, hHigh⟩ hSoon
      exact (LeakyBucket.request hCapacity hx hLow hHigh hSoon).1

/-- The clock goes back by a second, and nothing is granted for it. -/
theorem float_scripts_kept_rollback :
    (serve (TokenBucket.script Memory.Floating.Rates.onePerSecond 5000) none [0, 1000, 0, 0, 1500]).map
        (fun x => (x.2.allowed, x.2.retryAfterMs)) = [(1, 0), (1, 0), (1, 0), (0, 1000), (0, 500)] ∧
    Kept Memory.Floating.Rates.onePerSecond [0, 1000, 0, 0, 1500]
      (serve (TokenBucket.script Memory.Floating.Rates.onePerSecond 5000) none [0, 1000, 0, 0, 1500]) :=
  ⟨by decide +kernel, (float_scripts_kept Memory.Floating.Rates.onePerSecond (by decide +kernel) (fun _ => by simp)
    (by decide)).1⟩

end Kaka.Redis.Floating
