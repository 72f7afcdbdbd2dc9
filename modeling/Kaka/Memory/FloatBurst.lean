import Kaka.Memory.BurstService
import Kaka.Memory.FloatAdmission
import Kaka.Memory.Remaining
import Mathlib.Data.ENat.Lattice

/-! # Bursts on a `float64` level

A token is taken by a subtraction that rounds.  Up to `2 ^ 53` it is exact and
a burst finds the whole part of the capacity; from `2 ^ 53 + 4` on it gives the
level back, and a burst never ends.  The water of a leaky bucket stops rising
at `2 ^ 53`.
-/

namespace Kaka.Memory.Floating

open Binary64 Interleaving

section Spends

variable {σ : Type} {fn : σ → Int → σ × Result} {now : Int} {valid : σ → Prop} {left : σ → ℕ∞}

/-- At this instant a request takes one of what is left, if anything is. -/
def Spends (fn : σ → Int → σ × Result) (now : Int) (valid : σ → Prop) (left : σ → ℕ∞) : Prop :=
  ∀ v, valid v → valid (fn v now).1 ∧ ((fn v now).2.allowed = true ↔ left v ≠ 0) ∧
    left (fn v now).1 = left v - 1

theorem min_pred_add (k : ℕ) (m : ℕ∞) : min (k : ℕ∞) (m - 1) + (if m ≠ 0 then 1 else 0) =
    min ((k + 1 : ℕ) : ℕ∞) m := by
  induction m using ENat.recTopCoe with
  | top => simp
  | coe m =>
    cases m with
    | zero => simp
    | succ m =>
      rw [if_pos (by simp), Nat.cast_add_one, Nat.cast_add_one, min_add_add_right]
      rfl

theorem Spends.count (h : Spends fn now valid left) {v : σ} (hv : valid v) (k : ℕ) :
    ((serve fn v (List.replicate k now)).countP (fun x => x.2.allowed) : ℕ∞) = min (k : ℕ∞) (left v) := by
  induction k generalizing v with
  | zero => simp [serve, trace]
  | succ k ih =>
    obtain ⟨hNext, hAllowed, hLeft⟩ := h v hv
    rw [List.replicate_succ, serve_cons, List.countP_cons, Nat.cast_add, ih hNext, hLeft, ← min_pred_add]
    congr 1
    simp only [hAllowed]
    split <;> rfl

end Spends

variable {fused : Bool} {rates : Rates} {v : Float64} {x : ℚ} {now : Int}

namespace TokenBucket

/-- The requests that a number of tokens is good for. -/
def good (x : ℚ) : ℕ∞ :=
  if 2 ^ 53 + 4 ≤ x then ⊤ else if 1 ≤ x then ((⌊rounded (x - 1)⌋₊ + 1 : ℕ) : ℕ∞) else 0

theorem good_of_le (hx : Represents x) (hHigh : x ≤ 2 ^ 53) : good x = (⌊x⌋₊ : ℕ∞) := by
  rw [good, if_neg (by linarith)]
  split
  · rename_i hOne
    rw [rounded_of_represents (represents_sub_one hx hOne hHigh), Nat.floor_sub_one]
    congr 1
    exact Nat.sub_add_cancel (Nat.one_le_floor_iff _ |>.mpr hOne)
  · rename_i hLess
    rw [Nat.floor_eq_zero.mpr (not_le.mp hLess)]
    rfl

theorem good_sub_one (hx : Represents x) (hOne : 1 ≤ x) : good (rounded (x - 1)) = good x - 1 := by
  rcases le_or_gt (2 ^ 53 + 4) x with hLarge | hSmall
  · have hBack : rounded (2 ^ 53 + 3) = 2 ^ 53 + 4 := by decide +kernel
    have hStuck : 2 ^ 53 + 4 ≤ rounded (x - 1) := hBack.symm.le.trans (rounded_mono (by linarith))
    rw [good, good, if_pos hStuck, if_pos hLarge]
    rfl
  · have hEven : x ≤ 2 ^ 53 + 2 := by
      rcases hx.le_or_even with hLe | ⟨n, rfl⟩
      · linarith
      · have hn : n * 2 < 2 ^ 53 + 4 := by exact_mod_cast hSmall
        have hn' : n * 2 ≤ 2 ^ 53 + 2 := by omega
        exact_mod_cast hn'
    have hTie : rounded (2 ^ 53 + 1) = 2 ^ 53 := by decide +kernel
    have hLeft : rounded (x - 1) ≤ 2 ^ 53 := (rounded_mono (by linarith)).trans hTie.le
    rw [good_of_le (represents_rounded _) hLeft, good, if_neg (not_le.mpr hSmall), if_pos hOne]
    norm_cast

theorem good_eq_zero_iff : good x = 0 ↔ x < 1 := by
  unfold good
  split
  · rename_i hLarge
    simp only [ENat.top_ne_zero, false_iff, not_lt]
    linarith
  · split
    · rename_i hOne
      simp [hOne]
    · rename_i hLess
      simpa using hLess

theorem refilled_zero (fused : Bool) (hx : Represents x) (hHigh : x ≤ rates.capacity) :
    refilled fused rates x 0 = x := by
  rw [refilled, elapsed_zero, Float64.raised_zero fused hx, min_eq_right hHigh]

def Fresh (rates : Rates) (now : Int) (b : Bucket) : Prop :=
  b.lastRefilled = now ∧ Level rates b.tokens

theorem frozen (fused : Bool) {b : Bucket} (hNow : b.lastRefilled = now) (hb : b.tokens.Is x) (hLow : 0 ≤ x)
    (hHigh : x ≤ rates.capacity) :
    ∃ t : Float64, t.Is x ∧ refillAndDecide fused rates b now = decided rates t now := by
  obtain ⟨t, ht, hEq⟩ := exists_decided fused rates hb hLow hNow.le
  rw [hNow, sub_self, refilled_zero fused hb.represents hHigh] at ht
  exact ⟨t, ht, hEq⟩

theorem spends (fused : Bool) (rates : Rates) (now : Int) :
    Spends (refillAndDecide fused rates) now (Fresh rates now) (fun b => good b.tokens.toRat) := by
  rintro b ⟨hNow, x, hb, hLow, hHigh⟩
  obtain ⟨t, ht, hEq⟩ := frozen fused hNow hb hLow hHigh
  dsimp only
  rw [hEq, hb.toRat, Ne, good_eq_zero_iff]
  rcases le_or_gt 1 x with hOne | hLess
  · obtain ⟨hDecided, hLeft⟩ := decided_allowed rates now ht hOne
    rw [hDecided]
    refine ⟨⟨rfl, _, hLeft, rounded_nonneg (sub_nonneg.mpr hOne), ?_⟩, by simp [hOne], ?_⟩
    · exact rounded_le rates.capacity_represents (by linarith)
    · rw [hLeft.toRat, good_sub_one hb.represents hOne]
  · rw [decided_denied rates now ht hLess]
    refine ⟨⟨rfl, x, ht, hLow, hHigh⟩, by simp [hLess], ?_⟩
    rw [ht.toRat, good_eq_zero_iff.mpr hLess]
    rfl

end TokenBucket

namespace LeakyBucket

def good (rates : Rates) (k : ℕ) : ℕ∞ :=
  if 2 ^ 53 ≤ rates.capacity then ⊤ else ((⌊rates.capacity⌋₊ - k : ℕ) : ℕ∞)

def raised (k : ℕ) : ℕ := min (k + 1) (2 ^ 53)

theorem rounded_add_one {k : ℕ} (hk : k ≤ 2 ^ 53) : rounded ((k : ℚ) + 1) = raised k := by
  rcases hk.lt_or_eq with hLt | rfl
  · have hInt : |((k + 1 : ℕ) : ℤ)| ≤ 2 ^ 53 := by
      rw [abs_of_nonneg (Int.natCast_nonneg _)]
      exact_mod_cast hLt
    rw [raised, min_eq_left hLt, ← Nat.cast_add_one, ← Int.cast_natCast,
      rounded_of_represents (represents_int hInt)]
  · decide +kernel

variable {k : ℕ}

theorem good_ne_zero_iff (hk : k ≤ 2 ^ 53) : good rates k ≠ 0 ↔ (raised k : ℚ) ≤ rates.capacity := by
  have hRaised : raised k ≤ 2 ^ 53 := min_le_right _ _
  rw [good]
  split
  · rename_i hLarge
    have hLe : (raised k : ℚ) ≤ 2 ^ 53 := by exact_mod_cast hRaised
    simp [hLe.trans hLarge]
  · rename_i hSmall
    have hFloor : ⌊rates.capacity⌋₊ < 2 ^ 53 :=
      (Nat.floor_lt (zero_le_one.trans rates.one_le)).mpr (by exact_mod_cast not_le.mp hSmall)
    rw [← Nat.le_floor_iff (zero_le_one.trans rates.one_le), Ne, Nat.cast_eq_zero, raised]
    omega

theorem good_raised (rates : Rates) (hk : k ≤ 2 ^ 53) : good rates (raised k) = good rates k - 1 := by
  simp only [good]
  split
  · rfl
  · rename_i hSmall
    have hFloor : ⌊rates.capacity⌋₊ < 2 ^ 53 :=
      (Nat.floor_lt (zero_le_one.trans rates.one_le)).mpr (by exact_mod_cast not_le.mp hSmall)
    rw [← Nat.cast_one, ← ENat.natCast_sub, raised]
    congr 1
    omega

def Whole (now : Int) (b : LeakyState) : Prop :=
  b.lastLeak = now ∧ ∃ k : ℕ, b.water.Is k ∧ k ≤ 2 ^ 53

theorem leaked_zero (fused : Bool) (rates : Rates) (hx : Represents x) (hLow : 0 ≤ x) :
    leaked fused rates x 0 = x := by
  rw [leaked, elapsed_zero, Float64.lowered_zero fused hx, max_eq_right hLow]

theorem spends (fused : Bool) (rates : Rates) (now : Int) :
    Spends (leakAndDecide fused rates) now (Whole now) (fun b => good rates ⌊b.water.toRat⌋₊) := by
  rintro b ⟨hNow, k, hb, hk⟩
  have hLow : (0 : ℚ) ≤ k := Nat.cast_nonneg k
  obtain ⟨t, ht, hEq⟩ := exists_decided fused rates hb hNow.le
  rw [hNow, sub_self, leaked_zero fused rates hb.represents hLow] at ht
  dsimp only
  rw [hEq, hb.toRat, Nat.floor_natCast, good_ne_zero_iff hk]
  rcases le_or_gt (raised k : ℚ) rates.capacity with hFits | hOver
  · obtain ⟨hDecided, hSum⟩ := decided_allowed now ht hLow (by rwa [rounded_add_one hk])
    rw [rounded_add_one hk] at hSum
    rw [hDecided]
    refine ⟨⟨rfl, raised k, hSum, min_le_right _ _⟩, by simp [hFits], ?_⟩
    rw [hSum.toRat, Nat.floor_natCast, good_raised rates hk]
  · rw [decided_denied now ht hLow (by rwa [rounded_add_one hk])]
    have hNone : good rates k = 0 := not_not.mp (mt (good_ne_zero_iff hk).mp (not_le.mpr hOver))
    refine ⟨⟨rfl, k, ht, hk⟩, by simp [hOver], ?_⟩
    rw [ht.toRat, Nat.floor_natCast, hNone]
    rfl

end LeakyBucket

/-! ## Every interleaving -/

theorem Spends.allowedOn {σ : Type} {P : Params σ} {fn : σ → Int → σ × Result} {time : σ → Int}
    {valid : Int → σ → Prop} {left : σ → ℕ∞} {m : ℕ∞} (h : ∀ now, Spends fn now (valid now) left)
    (hFresh : ∀ now, valid now (P.create now) ∧ left (P.create now) = m)
    (hTime : ∀ v now, time (fn v now).1 = now) (hKeeps : P.Keeps) {g : P.State Result}
    (hReach : (P.requests fn).Reach (Params.ServedWhen fun v now => time v = now) g) (key : Key) :
    (Params.allowedOn g key : ℕ∞) = min ((Params.answered g key).length : ℕ∞) m := by
  obtain ⟨readings, hChain, hPerm⟩ := Params.answers_of_reach hKeeps hTime hReach key
  rw [Params.allowedOn, ← hPerm.countP_eq, ← hPerm.length_eq, length_answers]
  cases readings with
  | nil => simp [answers]
  | cons now rest =>
    obtain ⟨hValid, hLeft⟩ := hFresh now
    have hFrozen : now :: rest = List.replicate (rest.length + 1) now := by
      rw [List.replicate_succ, ← List.isChain_cons_eq_iff_eq_replicate.mp hChain]
    rw [answers, hFrozen, (h now).count hValid, hLeft, List.length_replicate]

/-- On a frozen clock a bucket admits the requests its capacity is good for, in
whatever order the calls run: no end of them where the roundings give the
level back. -/
theorem float_burst (fused : Bool) (rates : Rates) (opts : Options) (shardCount : Nat)
    (power : ∃ k, shardCount = 2 ^ k) (hTTL : opts.keyTTL ≤ 0)
    (hEvicts : opts.eviction = .evictReject ∨ opts.maxKeys ≤ 0) (key : Key) :
    (∀ g, ((TokenBucket.params rates opts shardCount power).requests
      (TokenBucket.refillAndDecide fused rates)).Reach
        (Params.ServedWhen fun b now => b.lastRefilled = now) g →
      (Params.allowedOn g key : ℕ∞) =
        min ((Params.answered g key).length : ℕ∞) (TokenBucket.good rates.capacity)) ∧
    (∀ g, ((LeakyBucket.params opts shardCount power).requests
      (LeakyBucket.leakAndDecide fused rates)).Reach
        (Params.ServedWhen fun b now => b.lastLeak = now) g →
      (Params.allowedOn g key : ℕ∞) =
        min ((Params.answered g key).length : ℕ∞) (LeakyBucket.good rates 0)) := by
  constructor
  · intro g hReach
    refine Spends.allowedOn (TokenBucket.spends fused rates) (fun now => ⟨⟨rfl, ?_⟩, ?_⟩)
      (fun b now => TokenBucket.lastRefilled_decided rates _ now) ⟨hTTL, hEvicts⟩ hReach key
    · exact ⟨_, capacity64_is rates, zero_le_one.trans rates.one_le, le_rfl⟩
    · exact congrArg TokenBucket.good (capacity64_is rates).toRat
  · intro g hReach
    have hEmpty : Float64.Is 0 ((0 : ℕ) : ℚ) := by simpa using Float64.zero_is
    refine Spends.allowedOn (LeakyBucket.spends fused rates)
      (fun now => ⟨⟨rfl, 0, hEmpty, Nat.zero_le _⟩, congrArg (LeakyBucket.good rates) ?_⟩)
      (fun b now => LeakyBucket.lastLeak_decided rates _ now) ⟨hTTL, hEvicts⟩ hReach key
    exact (congrArg Nat.floor hEmpty.toRat).trans (Nat.floor_natCast 0)

def tiedRun : List (Act (Key × Int) (List Key)) :=
  [.start ([97], 0), .start ([97], 0), .start ([97], 0)] ++ Params.steps 2 7 ++ Params.steps 0 5 ++
    Params.steps 1 5

theorem float_burst_tiedRun :
    let P := TokenBucket.params .onePerSecond {} 2 Params.two_shards
    let g := (P.requests (TokenBucket.refillAndDecide true .onePerSecond)).final
      (Params.ServedWhen fun b now => b.lastRefilled = now) tiedRun
    (Params.answered g [97]).length = 3 ∧ (Params.allowedOn g [97] : ℕ∞) =
      min ((Params.answered g [97]).length : ℕ∞) (TokenBucket.good Rates.onePerSecond.capacity) :=
  ⟨by decide +kernel, (float_burst true .onePerSecond {} 2 Params.two_shards (by decide) (.inl rfl) [97]).1 _
    (.final tiedRun (by decide +kernel))⟩

/-! ## The remainder -/

theorem remainingFloor_is (hv : v.Is x) (hLow : 0 ≤ x) (hHigh : x < 2 ^ 63) : remainingFloor v = ⌊x⌋ := by
  rw [remainingFloor, hv.le Float64.zero_is]
  split
  · rename_i hZero
    rw [le_antisymm (of_decide_eq_true hZero) hLow, Int.floor_zero]
  · exact hv.toInt64 hLow hHigh

namespace TokenBucket

def HasTokens (rates : Rates) (now : Int) (b : Bucket) (m : Int) : Prop :=
  b.lastRefilled = now ∧ ∃ x, b.tokens.Is x ∧ 0 ≤ x ∧ x ≤ rates.capacity ∧ m = ⌊x⌋

/-- Up to `2 ^ 53` the subtraction is exact. -/
theorem hasTokens_sub_one (hCapacity : rates.capacity ≤ 2 ^ 53) (now : Int) (hv : v.Is x) (hOne : 1 ≤ x)
    (hHigh : x ≤ rates.capacity) :
    (decided rates v now).2.allowed = true ∧ (decided rates v now).2.remaining = ⌊x⌋ - 1 ∧
      HasTokens rates now (decided rates v now).1 (⌊x⌋ - 1) := by
  obtain ⟨hDecided, hLeft⟩ := decided_allowed rates now hv hOne
  rw [rounded_of_represents (represents_sub_one hv.represents hOne (hHigh.trans hCapacity))] at hLeft
  rw [hDecided, ← Int.floor_sub_one]
  refine ⟨rfl, remainingFloor_is hLeft (by linarith) ?_, rfl, _, hLeft, by linarith, by linarith, rfl⟩
  exact lt_of_le_of_lt (by linarith : x - 1 ≤ 2 ^ 53) (by norm_num)

theorem counts (fused : Bool) (hCapacity : rates.capacity ≤ 2 ^ 53) (now : Int) :
    Counts (refillAndDecide fused rates) now (HasTokens rates now) where
  nonneg := by
    rintro b m ⟨_, x, _, hLow, _, rfl⟩
    exact Int.floor_nonneg.mpr hLow
  room := by
    rintro b m ⟨hNow, x, hb, hLow, hHigh, rfl⟩ hPos
    obtain ⟨t, ht, hEq⟩ := frozen fused hNow hb hLow hHigh
    rw [hEq]
    exact hasTokens_sub_one hCapacity now ht (Int.floor_pos.mp hPos) hHigh
  full := by
    rintro b ⟨hNow, x, hb, hLow, hHigh, hZero⟩
    obtain ⟨t, ht, hEq⟩ := frozen fused hNow hb hLow hHigh
    have hLess : x < 1 := by
      have hFloor := Int.lt_floor_add_one x
      rwa [← hZero, Int.cast_zero, zero_add] at hFloor
    rw [hEq, decided_denied rates now ht hLess]
    exact ⟨rfl, rfl, rfl, x, ht, hLow, hHigh, hZero⟩

theorem hasTokens_of_allowed (hCapacity : rates.capacity ≤ 2 ^ 53) {b : Bucket} (hLevel : Level rates b.tokens)
    (hClock : b.lastRefilled ≤ now) (hAllowed : (refillAndDecide fused rates b now).2.allowed = true) :
    HasTokens rates now (refillAndDecide fused rates b now).1 (refillAndDecide fused rates b now).2.remaining := by
  obtain ⟨x, hb, hLow, _⟩ := hLevel
  obtain ⟨t, ht, hEq⟩ := exists_decided fused rates hb hLow hClock
  rw [hEq] at hAllowed ⊢
  rcases le_or_gt 1 (refilled fused rates x (sub now b.lastRefilled)) with hOne | hLess
  · obtain ⟨_, hRemaining, hHas⟩ := hasTokens_sub_one hCapacity now ht hOne (refilled_le _ _ _ _)
    exact hRemaining ▸ hHas
  · rw [decided_denied rates now ht hLess] at hAllowed
    cases hAllowed

theorem keepsPromise (fused : Bool) (hCapacity : rates.capacity ≤ 2 ^ 53) :
    KeepsPromise (create rates) (refillAndDecide fused rates) := by
  intro before now hClock out hAllowed
  have hDrifts := drifts fused rates
  obtain ⟨last, hLast, rfl, hLevel⟩ := found_induct
    (I := fun b last => b.lastRefilled = last ∧ Level rates b.tokens)
    (fun now => ⟨rfl, (hDrifts.fresh now).1⟩)
    (fun b last now hb hle => ⟨hDrifts.stamped b now (hb.1.trans_le hle), hDrifts.keeps b now hb.2 (hb.1.trans_le hle)⟩) hClock
  exact (counts fused hCapacity now).serve (hasTokens_of_allowed hCapacity hLevel hLast hAllowed)

end TokenBucket

def Rates.belowOne : Rates where
  capacity := 3
  rate := 1 - 1 / 2 ^ 52
  one_le := by norm_num
  rate_pos := by norm_num
  capacity_represents := represents_int (n := 3) (by norm_num)
  capacity_small := by decide +kernel
  rate_represents := ⟨2 ^ 52 - 1, -52, by norm_num, by norm_num, by norm_num⟩
  rate_small := by decide +kernel

/-- The tokens keep the promise of a remainder as long as they are counted
exactly.  The water does not: a sum that rounds down makes room. -/
theorem float_promise (fused : Bool) :
    (∀ rates : Rates, rates.capacity ≤ 2 ^ 53 →
      KeepsPromise (TokenBucket.create rates) (TokenBucket.refillAndDecide fused rates)) ∧
    ∃ rates : Rates, rates.capacity = 3 ∧
      ¬ KeepsPromise LeakyBucket.create (LeakyBucket.leakAndDecide fused rates) := by
  refine ⟨fun rates => TokenBucket.keepsPromise fused, .belowOne, rfl, fun hKeeps => ?_⟩
  have hTwo := hKeeps [0] 1000000000 (by decide)
  cases fused
  · exact absurd (hTwo (by decide +kernel) 1) (by decide +kernel)
  · exact absurd (hTwo (by decide +kernel) 1) (by decide +kernel)

/-- At the rates that the water fails for, a second after a first request. -/
theorem float_promise_belowOne :
    let fn := TokenBucket.refillAndDecide false .belowOne
    let out := fn (found (TokenBucket.create .belowOne) fn [0] 1000000000) 1000000000
    Rates.belowOne.capacity ≤ 2 ^ 53 ∧ out.2.allowed = true ∧ out.2.remaining = 2 ∧ ∀ k,
      (serve fn out.1 (List.replicate k 1000000000)).map (fun x => (x.2.allowed, x.2.remaining)) =
        countdown out.2.remaining k := by
  have hSmall : Rates.belowOne.capacity ≤ 2 ^ 53 := by norm_num [Rates.belowOne]
  have hAllowed : (TokenBucket.refillAndDecide false .belowOne (found (TokenBucket.create .belowOne)
      (TokenBucket.refillAndDecide false .belowOne) [0] 1000000000) 1000000000).2.allowed = true := by
    decide +kernel
  exact ⟨hSmall, hAllowed, by decide +kernel,
    (float_promise false).1 .belowOne hSmall [0] 1000000000 (by decide) hAllowed⟩

end Kaka.Memory.Floating
