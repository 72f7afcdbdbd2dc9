import Kaka.Memory.BucketLimit
import Kaka.Memory.FloatContract

/-! # What the buckets admit in `float64`

On a clock that does not go back the roundings of a request move a level by no
more than a drift that the capacity decides, and the seconds and the product
are off by three units in the last place. So the exact bound holds with a rate
that much larger and one drift for each request.
-/

namespace Kaka.Memory.Floating

open Binary64 Interleaving Metering

/-! ## A meter that drifts -/

section Drifts

variable {σ : Type} {create : Int → σ} {fn : σ → Int → σ × Result} {time : σ → Int} {level : σ → ℚ}
  {valid : σ → Prop} {follows : Int → Int → Prop} {capacity rate drift : ℚ}

def cost (r : Result) : ℚ := if r.allowed then 1 else 0

/-- A request whose reading follows the time of the state pays for itself from
the level, the yield of the time since the last one and a drift. -/
structure Drifts (create : Int → σ) (fn : σ → Int → σ × Result) (time : σ → Int) (level : σ → ℚ)
    (valid : σ → Prop) (follows : Int → Int → Prop) (capacity rate drift : ℚ) : Prop where
  fresh : ∀ now, valid (create now) ∧ time (create now) = now
  keeps : ∀ v now, valid v → follows (time v) now → valid (fn v now).1
  stamped : ∀ v now, follows (time v) now → time (fn v now).1 = now
  pays : ∀ v now, valid v → follows (time v) now →
    level (fn v now).1 + cost (fn v now).2 ≤ level v + rate * (now - time v) + drift
  covered : ∀ v now, valid v → follows (time v) now → (fn v now).2.allowed = true →
    0 ≤ level (fn v now).1 ∧ level (fn v now).1 + 1 ≤ capacity

def ticks (level : σ → ℚ) (drift : ℚ) : List (Int × σ × Result) → List Tick
  | [] => []
  | x :: rest => ⟨x.1, level x.2.1 + rest.length * drift, x.2.2.allowed⟩ :: ticks level drift rest

theorem count_ticks (level : σ → ℚ) (drift : ℚ) (trace : List (Int × σ × Result)) (a b : Int) :
    count a b (ticks level drift trace) =
      (trace.map fun x => (x.1, x.2.2)).countP fun x => x.2.allowed ∧ a ≤ x.1 ∧ x.1 ≤ b := by
  induction trace with
  | nil => rfl
  | cons x rest ih =>
    rw [ticks, count_cons, ih, List.map_cons, List.countP_cons]
    simp [Tick.Counts]

theorem Drifts.metered (h : Drifts create fn time level valid follows capacity rate drift) (hDrift : 0 ≤ drift)
    {n : Nat} {v : σ} (hv : valid v) {readings : List Int} (hLength : readings.length ≤ n)
    (hClock : (time v :: readings).IsChain follows) (allowed : Bool)
    (hCovered : allowed = true → 0 ≤ level v ∧ level v + 1 ≤ capacity) :
    Metered (capacity + n * drift) rate
      (⟨time v, level v + readings.length * drift, allowed⟩ :: ticks level drift (trace fn v readings)) := by
  induction readings generalizing v allowed with
  | nil =>
    refine .single fun hAllowed => ?_
    obtain ⟨hLow, hHigh⟩ := hCovered hAllowed
    have hSlack : 0 ≤ (n : ℚ) * drift := mul_nonneg (Nat.cast_nonneg n) hDrift
    simp only [List.length_nil, Nat.cast_zero, zero_mul, add_zero]
    constructor <;> linarith
  | cons now rest ih =>
    have hNow : follows (time v) now := hClock.rel
    have hStamped := h.stamped v now hNow
    have hNext := ih (h.keeps v now hv hNow) ((Nat.le_succ _).trans hLength)
      (by rw [hStamped]; exact hClock.tail) _ (h.covered v now hv hNow)
    rw [hStamped] at hNext
    refine .cons (fun hAllowed => ?_) ?_ (by simpa [trace, ticks, length_trace] using hNext)
    · obtain ⟨hLow, hHigh⟩ := hCovered hAllowed
      have hSlack : (0 : ℚ) ≤ (now :: rest).length * drift := mul_nonneg (Nat.cast_nonneg _) hDrift
      have hTotal : ((now :: rest).length : ℚ) * drift ≤ n * drift :=
        mul_le_mul_of_nonneg_right (by exact_mod_cast hLength) hDrift
      dsimp only
      constructor <;> linarith
    · have hPays := h.pays v now hv hNow
      simp only [Pays, Tick.credit, Tick.cost, List.length_cons, length_trace]
      unfold cost at hPays
      push_cast
      linarith

theorem Drifts.bounded (h : Drifts create fn time level valid (· ≤ ·) capacity (rate / 10 ^ 9) drift)
    (hDrift : 0 ≤ drift) (hCapacity : 0 ≤ capacity) (hRate : 0 ≤ rate) {readings : List Int}
    (hClock : readings.IsChain (· ≤ ·)) :
    Bounded (capacity + readings.length * drift) rate (answers create fn readings) := by
  intro a b hab
  have hLevel : 0 ≤ capacity + readings.length * drift :=
    add_nonneg hCapacity (mul_nonneg (Nat.cast_nonneg _) hDrift)
  cases readings with
  | nil =>
    have hYield : 0 ≤ rate * Memory.seconds (b - a) := by
      refine mul_nonneg hRate (div_nonneg ?_ (by norm_num))
      exact_mod_cast sub_nonneg.mpr hab
    simp only [answers, List.countP_nil, Nat.cast_zero]
    linarith
  | cons now rest =>
    obtain ⟨hFresh, hNow⟩ := h.fresh now
    have hStart : (time (create now) :: now :: rest).IsChain (· ≤ ·) := by
      rw [hNow]
      exact .cons_cons le_rfl hClock
    have hMetered := h.metered hDrift hFresh (le_refl (now :: rest).length) hStart false (by rintro ⟨⟩)
    have hCount := hMetered.tail.count_le (a := a) (b := b) hLevel (div_nonneg hRate (by norm_num))
      (by exact_mod_cast hab)
    rw [count_ticks] at hCount
    refine hCount.trans (le_of_eq ?_)
    rw [Memory.seconds]
    push_cast
    ring

end Drifts

/-! ## The buckets -/

variable {fused : Bool} {rates : Rates} {v : Float64} {x : ℚ} {d now : Int}

/-- What the roundings of one request can move a level by. -/
def drift (rates : Rates) : ℚ := 3 * (rates.capacity * unit + tiny)

def effectiveRate (rates : Rates) : ℚ := rates.rate * (1 + unit) ^ 3

theorem gain_le (rates : Rates) {last : Int} (hClock : last ≤ now) :
    elapsed (sub now last) * rates.rate * (1 + unit) ≤ effectiveRate rates / 10 ^ 9 * (now - last) := by
  have hSub : (sub now last : ℚ) ≤ now - last := by
    have hLow : minDuration ≤ now - last := by
      simp only [minDuration]
      omega
    exact_mod_cast sub_le_of_le hLow
  have hFactor : 0 ≤ rates.rate * (1 + unit) :=
    mul_nonneg rates.rate_pos.le (by linarith [Float64.unit_pos])
  have hSeconds : Memory.seconds (sub now last) ≤ (now - last) / 10 ^ 9 :=
    div_le_div_of_nonneg_right hSub (by norm_num)
  have hSquare : 0 ≤ (1 + unit) ^ 2 := sq_nonneg _
  calc elapsed (sub now last) * rates.rate * (1 + unit)
      = elapsed (sub now last) * (rates.rate * (1 + unit)) := by ring
    _ ≤ Memory.seconds (sub now last) * (1 + unit) ^ 2 * (rates.rate * (1 + unit)) :=
      mul_le_mul_of_nonneg_right (elapsed_le (sub_nonneg_of_le hClock)) hFactor
    _ ≤ (now - last) / 10 ^ 9 * (1 + unit) ^ 2 * (rates.rate * (1 + unit)) :=
      mul_le_mul_of_nonneg_right (mul_le_mul_of_nonneg_right hSeconds hSquare) hFactor
    _ = effectiveRate rates / 10 ^ 9 * (now - last) := by
      rw [effectiveRate]
      ring

def Level (rates : Rates) (v : Float64) : Prop := ∃ x, v.Is x ∧ 0 ≤ x ∧ x ≤ rates.capacity

theorem drift_nonneg (rates : Rates) : 0 ≤ drift rates := by
  have hUnit := mul_nonneg (zero_le_one.trans rates.one_le) Float64.unit_pos.le
  have hTiny := Float64.tiny_pos
  unfold drift
  linarith

namespace TokenBucket

/-- One request on a number of tokens: the tokens that are left pay for it, up
to the rounding of the subtraction. -/
theorem request (fused : Bool) {b : Bucket} (hb : b.tokens.Is x) (hLow : 0 ≤ x)
    (hClock : b.lastRefilled ≤ now) :
    ∃ y, (refillAndDecide fused rates b now).1.tokens.Is y ∧ 0 ≤ y ∧ y ≤ rates.capacity ∧
      y + cost (refillAndDecide fused rates b now).2 ≤
        refilled fused rates x (sub now b.lastRefilled) + (rates.capacity * unit + tiny) := by
  obtain ⟨t, ht, hEq⟩ := exists_decided fused rates hb hLow hClock
  have hNonneg := refilled_nonneg fused rates hb hLow (sub_nonneg_of_le hClock)
  have hTop := refilled_le fused rates x (sub now b.lastRefilled)
  have hUnit := mul_nonneg (zero_le_one.trans rates.one_le) Float64.unit_pos.le
  have hTiny := Float64.tiny_pos
  rw [hEq]
  rcases le_or_gt 1 (refilled fused rates x (sub now b.lastRefilled)) with hOne | hLess
  · obtain ⟨hDecided, hLeft⟩ := decided_allowed rates now ht hOne
    have hNear := (Float64.rounded_near (sub_nonneg.mpr hOne)
      (show refilled fused rates x (sub now b.lastRefilled) - 1 ≤ rates.capacity by linarith)).1
    rw [hDecided]
    refine ⟨_, hLeft, rounded_nonneg (sub_nonneg.mpr hOne),
      rounded_le rates.capacity_represents (by linarith), ?_⟩
    rw [cost, if_pos rfl]
    linarith
  · rw [decided_denied rates now ht hLess]
    refine ⟨_, ht, hNonneg, hTop, ?_⟩
    rw [cost, if_neg Bool.false_ne_true]
    linarith

theorem drifts (fused : Bool) (rates : Rates) :
    Drifts (create rates) (refillAndDecide fused rates) Bucket.lastRefilled (fun b => b.tokens.toRat)
      (fun b => Level rates b.tokens) (· ≤ ·) (rates.capacity + drift rates) (effectiveRate rates / 10 ^ 9)
      (drift rates) where
  fresh now := ⟨⟨_, capacity64_is rates, zero_le_one.trans rates.one_le, le_rfl⟩, rfl⟩
  stamped b now _ := lastRefilled_decided rates _ now
  keeps := by
    rintro b now ⟨x, hb, hLow, hHigh⟩ hClock
    obtain ⟨y, hy, hNonneg, hTop, _⟩ := request fused hb hLow hClock
    exact ⟨y, hy, hNonneg, hTop⟩
  pays := by
    rintro b now ⟨x, hb, hLow, hHigh⟩ hClock
    obtain ⟨y, hy, _, _, hPaid⟩ := request fused hb hLow hClock
    have hRaised := Float64.min_raised_le fused hLow (gain_nonneg rates (sub_nonneg_of_le hClock))
      (zero_le_one.trans rates.one_le)
    have hGain := gain_le rates hClock
    have hUnit := mul_nonneg (zero_le_one.trans rates.one_le) Float64.unit_pos.le
    rw [refilled] at hPaid
    rw [hy.toRat, hb.toRat, drift]
    linarith
  covered := by
    rintro b now ⟨x, hb, hLow, hHigh⟩ hClock hAllowed
    obtain ⟨y, hy, hNonneg, _, hPaid⟩ := request fused hb hLow hClock
    have hTop := refilled_le fused rates x (sub now b.lastRefilled)
    have hUnit := mul_nonneg (zero_le_one.trans rates.one_le) Float64.unit_pos.le
    have hTiny := Float64.tiny_pos
    rw [cost, if_pos hAllowed] at hPaid
    rw [hy.toRat, drift]
    exact ⟨hNonneg, by linarith⟩

end TokenBucket

namespace LeakyBucket

theorem request (fused : Bool) {b : LeakyState} (hb : b.water.Is x) (hLow : 0 ≤ x)
    (hHigh : x ≤ rates.capacity) (hClock : b.lastLeak ≤ now) :
    ∃ y, (leakAndDecide fused rates b now).1.water.Is y ∧ 0 ≤ y ∧ y ≤ rates.capacity ∧
      leaked fused rates x (sub now b.lastLeak) + cost (leakAndDecide fused rates b now).2 ≤
        y + (2 * (rates.capacity * unit) + tiny) ∧
      ((leakAndDecide fused rates b now).2.allowed = true → 1 ≤ y) := by
  obtain ⟨t, ht, hEq⟩ := exists_decided fused rates hb hClock
  have hNonneg := leaked_nonneg fused rates x (sub now b.lastLeak)
  have hTop : leaked fused rates x (sub now b.lastLeak) ≤ rates.capacity :=
    (leaked_le hb hLow (sub_nonneg_of_le hClock)).trans hHigh
  have hOne := rates.one_le
  have hUnit := mul_nonneg (zero_le_one.trans rates.one_le) Float64.unit_pos.le
  have hTiny := Float64.tiny_pos
  rw [hEq]
  rcases le_or_gt (rounded (leaked fused rates x (sub now b.lastLeak) + 1)) rates.capacity with
    hFits | hOver
  · obtain ⟨hDecided, hSum⟩ := decided_allowed now ht hNonneg hFits
    have hNear := (Float64.rounded_near (add_nonneg hNonneg zero_le_one)
      (show leaked fused rates x (sub now b.lastLeak) + 1 ≤ 2 * rates.capacity by linarith)).2
    rw [hDecided]
    refine ⟨_, hSum, rounded_nonneg (by linarith), hFits, ?_, fun _ => ?_⟩
    · rw [cost, if_pos rfl]
      linarith
    · exact le_rounded represents_one (by linarith)
  · rw [decided_denied now ht hNonneg hOver]
    refine ⟨_, ht, hNonneg, hTop, ?_, (by rintro ⟨⟩)⟩
    rw [cost, if_neg Bool.false_ne_true]
    linarith

theorem drifts (fused : Bool) (rates : Rates) :
    Drifts create (leakAndDecide fused rates) LeakyState.lastLeak (fun b => rates.capacity - b.water.toRat)
      (fun b => Level rates b.water) (· ≤ ·) (rates.capacity + drift rates) (effectiveRate rates / 10 ^ 9)
      (drift rates) where
  fresh now := ⟨⟨0, Float64.zero_is, le_rfl, zero_le_one.trans rates.one_le⟩, rfl⟩
  stamped b now _ := lastLeak_decided rates _ now
  keeps := by
    rintro b now ⟨x, hb, hLow, hHigh⟩ hClock
    obtain ⟨y, hy, hNonneg, hTop, _⟩ := request fused hb hLow hHigh hClock
    exact ⟨y, hy, hNonneg, hTop⟩
  pays := by
    rintro b now ⟨x, hb, hLow, hHigh⟩ hClock
    obtain ⟨y, hy, _, _, hPaid, _⟩ := request fused hb hLow hHigh hClock
    have hLowered := Float64.le_max_lowered fused hHigh (gain_nonneg rates (sub_nonneg_of_le hClock))
      (zero_le_one.trans rates.one_le)
    have hGain := gain_le rates hClock
    rw [leaked] at hPaid
    rw [hy.toRat, hb.toRat, drift]
    linarith
  covered := by
    rintro b now ⟨x, hb, hLow, hHigh⟩ hClock hAllowed
    obtain ⟨y, hy, _, hTop, _, hOne⟩ := request fused hb hLow hHigh hClock
    have hDrift := drift_nonneg rates
    rw [hy.toRat]
    constructor <;> linarith [hOne hAllowed]

end LeakyBucket

/-! ## Every interleaving -/

/-- What the requests of a key can take from `float64` levels. -/
def Limited (rates : Rates) (history : List (Int × Result)) : Prop :=
  Bounded (rates.capacity + (history.length + 1) * drift rates) (effectiveRate rates) history

theorem Drifts.limited {σ : Type} {P : Params σ} {fn : σ → Int → σ × Result} {time : σ → Int} {level : σ → ℚ}
    {valid : σ → Prop} (h : Drifts P.create fn time level valid (· ≤ ·) (rates.capacity + drift rates)
      (effectiveRate rates / 10 ^ 9) (drift rates)) (hStamped : ∀ v now, time (fn v now).1 = now)
    (hKeeps : P.Keeps) {g : P.State Result}
    (hReach : (P.requests fn).Reach (Params.ServedWhen fun v now => time v ≤ now) g) (key : Key) :
    Limited rates (Params.answered g key) := by
  obtain ⟨readings, hChain, hPerm⟩ := Params.answers_of_reach hKeeps hStamped hReach key
  have hDrift := drift_nonneg rates
  have hBounded := h.bounded hDrift (add_nonneg (zero_le_one.trans rates.one_le) hDrift)
    (mul_nonneg rates.rate_pos.le (pow_nonneg (by linarith [Float64.unit_pos]) 3)) hChain
  have hLength : (Params.answered g key).length = readings.length := by
    rw [← hPerm.length_eq, length_answers]
  intro a b hab
  rw [← hPerm.countP_eq, hLength]
  refine (hBounded a b hab).trans (le_of_eq ?_)
  ring

/-- On a clock that no callback sees go back, whatever the rounding: what the
buckets of a key admit in a span of time. -/
theorem float_admission (fused : Bool) (rates : Rates) (opts : Options) (shardCount : Nat)
    (power : ∃ k, shardCount = 2 ^ k) (hTTL : opts.keyTTL ≤ 0)
    (hEvicts : opts.eviction = .evictReject ∨ opts.maxKeys ≤ 0) (key : Key) :
    (∀ g, ((TokenBucket.params rates opts shardCount power).requests
      (TokenBucket.refillAndDecide fused rates)).Reach
        (Params.ServedWhen fun b now => b.lastRefilled ≤ now) g → Limited rates (Params.answered g key)) ∧
    (∀ g, ((LeakyBucket.params opts shardCount power).requests
      (LeakyBucket.leakAndDecide fused rates)).Reach
        (Params.ServedWhen fun b now => b.lastLeak ≤ now) g → Limited rates (Params.answered g key)) :=
  ⟨fun _ hReach => (TokenBucket.drifts fused rates).limited
      (fun _ now => TokenBucket.lastRefilled_decided rates _ now) ⟨hTTL, hEvicts⟩ hReach key,
    fun _ hReach => (LeakyBucket.drifts fused rates).limited
      (fun _ now => LeakyBucket.lastLeak_decided rates _ now) ⟨hTTL, hEvicts⟩ hReach key⟩

def spacedRun : List (Act (Key × Int) (List Key)) :=
  [.start ([97], 0), .start ([97], 500000000)] ++ Params.steps 0 7 ++ Params.steps 1 5

theorem float_admission_spacedRun :
    let P := LeakyBucket.params {} 2 Params.two_shards
    let g := (P.requests (LeakyBucket.leakAndDecide false .onePerSecond)).final
      (Params.ServedWhen fun b now => b.lastLeak ≤ now) spacedRun
    (Params.answered g [97]).length = 2 ∧ Limited .onePerSecond (Params.answered g [97]) :=
  ⟨by decide +kernel, (float_admission false .onePerSecond {} 2 Params.two_shards (by decide) (.inl rfl) [97]).2 _
    (.final spacedRun (by decide +kernel))⟩

end Kaka.Memory.Floating
