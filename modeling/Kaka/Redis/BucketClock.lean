import Kaka.Base.Metering
import Kaka.Redis.Buckets
import Mathlib.Data.List.TakeDrop

/-! # The Redis buckets under any server clock

Whatever the readings of `TIME`, also where they go back, the level stays in
its range, the stored time is the latest reading so far, and the requests
allowed are paid by the capacity and the time that the stored one gains.
-/

namespace Kaka.Redis

open Metering

/-- The latest of the readings up to number `k`. -/
def peak (readings : List Int) (k : Nat) : Int := (readings.take (k + 1)).max?.getD 0

/-- What the runs of a bucket script leave at the key, and which requests they allow. -/
def history {α : Type} (level : α → ℚ) (time : α → Int)
    (runs : List (Int × Option (Entry α) × Reply)) : List Tick :=
  runs.filterMap fun x => x.2.1.map fun e => ⟨time e.value, level e.value, x.2.2.allowed == 1⟩

structure Steady (rates : Rates) (readings : List Int) (ticks : List Tick) : Prop where
  length : ticks.length = readings.length
  range : ∀ x ∈ ticks, 0 ≤ x.level ∧ x.level ≤ rates.capacity
  latest : ∀ (k : Nat) (x : Tick), ticks[k]? = some x → x.time = (peak readings k : ℚ)
  rising : ∀ (i j : Nat) (x y : Tick), i ≤ j → ticks[i]? = some x → ticks[j]? = some y →
    x.time ≤ y.time
  granted : ∀ i j, i ≤ j → j < ticks.length →
    ((((ticks.drop i).take (j + 1 - i)).countP Tick.allowed : ℕ) : ℚ) ≤
      rates.capacity + rates.rate * (peak readings j - peak readings i) / 1000

theorem peak_cons (now : Int) (rest : List Int) (k : Nat) :
    peak (now :: rest) k = (rest.take k).foldl max now := by
  rw [peak, List.take_succ_cons, List.max?_cons', Option.getD_some]

theorem le_foldl_max (readings : List Int) (t : Int) : t ≤ readings.foldl max t := by
  induction readings generalizing t with
  | nil => exact le_rfl
  | cons u rest ih => exact (le_max_left t u).trans (ih (max t u))

theorem peak_mono (readings : List Int) {i j : Nat} (hij : i ≤ j) :
    peak readings i ≤ peak readings j := by
  cases readings with
  | nil => simp [peak]
  | cons now rest =>
    obtain ⟨n, rfl⟩ := Nat.exists_eq_add_of_le hij
    rw [peak_cons, peak_cons, List.take_add, List.foldl_append]
    exact le_foldl_max _ _

theorem mem_segment {ticks : List Tick} {i j : Nat} {x : Tick}
    (hMem : x ∈ (ticks.drop i).take (j + 1 - i)) : ∃ k, i ≤ k ∧ k ≤ j ∧ ticks[k]? = some x := by
  obtain ⟨n, hn⟩ := List.mem_iff_getElem?.mp hMem
  rw [List.getElem?_take] at hn
  split at hn
  · rename_i hLt
    rw [List.getElem?_drop] at hn
    exact ⟨i + n, by omega, by omega, hn⟩
  · cases hn

/-- A metered run that stores the latest reading grants no more than the time
gained pays for. -/
theorem Steady.of_metered {rates : Rates} {readings : List Int} {ticks : List Tick}
    (hMetered : Metered rates.capacity (rates.rate / 1000) ticks)
    (hLength : ticks.length = readings.length)
    (hRange : ∀ x ∈ ticks, 0 ≤ x.level ∧ x.level ≤ rates.capacity)
    (hLatest : ∀ (k : Nat) (x : Tick), ticks[k]? = some x → x.time = (peak readings k : ℚ)) :
    Steady rates readings ticks := by
  refine ⟨hLength, hRange, hLatest, fun i j x y hij hx hy => ?_, fun i j hij _ => ?_⟩
  · rw [hLatest i x hx, hLatest j y hy]
    exact_mod_cast peak_mono readings hij
  · have hPart : (ticks.drop i).take (j + 1 - i) <:+: ticks :=
      (List.take_prefix _ _).isInfix.trans (List.drop_suffix _ _).isInfix
    have hTimes : ∀ x ∈ (ticks.drop i).take (j + 1 - i),
        (peak readings i : ℚ) ≤ x.time ∧ x.time ≤ peak readings j := by
      intro x hx
      obtain ⟨k, hik, hkj, hk⟩ := mem_segment hx
      rw [hLatest k x hk]
      exact ⟨by exact_mod_cast peak_mono readings hik, by exact_mod_cast peak_mono readings hkj⟩
    have hCount := (hMetered.of_isInfix hPart).countP_le (zero_le_one.trans rates.one_le)
      (div_nonneg rates.rate_pos.le (by norm_num))
      (by exact_mod_cast peak_mono readings hij) hTimes
    refine hCount.trans (le_of_eq ?_)
    ring

/-! ## The token bucket -/

namespace TokenBucket

variable {tb : Rates} {h : TokenHash} {now : Int}

def InRange (tb : Rates) (h : TokenHash) : Prop := 0 ≤ h.tokens ∧ h.tokens ≤ tb.capacity

theorem refilled_nonneg (hRange : InRange tb h) (now : Int) : 0 ≤ refilled tb h now := by
  have hGain : (0 : ℚ) ≤ (max h.lastRefilledMs now - h.lastRefilledMs : Int) := by
    exact_mod_cast (by omega : 0 ≤ max h.lastRefilledMs now - h.lastRefilledMs)
  have hYield := mul_nonneg hGain tb.rate_pos.le
  refine le_min (zero_le_one.trans tb.one_le) ?_
  linarith [hRange.1]

theorem refilled_le (tb : Rates) (h : TokenHash) (now : Int) : refilled tb h now ≤ tb.capacity :=
  min_le_left _ _

theorem allowed_step (hRange : InRange tb h) :
    ((step tb h now).2.allowed == 1) = true ↔ 1 ≤ refilled tb h now := by
  rw [step_eq hRange.2, decide]
  split <;> simp_all

theorem tokens_step (hRange : InRange tb h) : (step tb h now).1.tokens = refilled tb h now -
    if (step tb h now).2.allowed == 1 then 1 else 0 := by
  rw [step_eq hRange.2, decide]
  split <;> simp

theorem lastRefilledMs_step : (step tb h now).1.lastRefilledMs = max h.lastRefilledMs now := by
  rw [step, body, decide, ← guarded_eq_max]
  split <;> rfl

theorem inRange_create (tb : Rates) (now : Int) : InRange tb (create tb now) :=
  ⟨zero_le_one.trans tb.one_le, le_rfl⟩

theorem inRange_step (hRange : InRange tb h) : InRange tb (step tb h now).1 := by
  have hLow := refilled_nonneg hRange now
  have hHigh := refilled_le tb h now
  rw [InRange, tokens_step hRange]
  split
  · rename_i hAllowed
    have := (allowed_step hRange).mp hAllowed
    constructor <;> linarith
  · simpa using ⟨hLow, hHigh⟩

def tick (x : TokenHash × Reply) : Tick := ⟨x.1.lastRefilledMs, x.1.tokens, x.2.allowed == 1⟩

/-- What the step adds is what the rate yields in the time that the stored one gains. -/
theorem pays (hRange : InRange tb h) (reply : Reply) :
    Pays (tb.rate / 1000) (tick (h, reply)) (tick (step tb h now)) := by
  have hRefill : refilled tb h now ≤ h.tokens +
      (max h.lastRefilledMs now - h.lastRefilledMs : Int) * tb.rate / 1000 := min_le_right _ _
  simp only [Pays, tick, Tick.credit, Tick.cost, tokens_step hRange, lastRefilledMs_step]
  push_cast at hRefill ⊢
  linarith

theorem covered (hRange : InRange tb h) : (tick (step tb h now)).Covered tb.capacity := by
  intro hAllowed
  have hOne := (allowed_step hRange).mp hAllowed
  have hHigh := refilled_le tb h now
  simp only [tick, tokens_step hRange] at hAllowed ⊢
  rw [if_pos hAllowed]
  constructor <;> linarith

theorem metered (hRange : InRange tb h) (reply : Reply)
    (hCovered : (tick (h, reply)).Covered tb.capacity) (readings : List Int) :
    Metered tb.capacity (tb.rate / 1000)
      (tick (h, reply) :: (trace (step tb) h readings).map fun x => tick x.2) := by
  induction readings generalizing h reply with
  | nil => exact .single hCovered
  | cons now rest ih =>
    exact .cons hCovered (pays hRange reply) (ih (inRange_step hRange) _ (covered hRange))

theorem range (hRange : InRange tb h) (readings : List Int) :
    ∀ x ∈ trace (step tb) h readings, InRange tb x.2.1 := by
  induction readings generalizing h with
  | nil => simp [trace]
  | cons now rest ih =>
    exact List.forall_mem_cons.mpr ⟨inRange_step hRange, ih (inRange_step hRange)⟩

theorem latest (h : TokenHash) (readings : List Int) (k : Nat) (x : Int × TokenHash × Reply)
    (hx : (trace (step tb) h readings)[k]? = some x) :
    x.2.1.lastRefilledMs = (readings.take (k + 1)).foldl max h.lastRefilledMs := by
  induction readings generalizing h k with
  | nil => simp [trace] at hx
  | cons now rest ih =>
    cases k with
    | zero =>
      obtain rfl : (now, step tb h now) = x := by simpa [trace] using hx
      simp [lastRefilledMs_step]
    | succ k =>
      rw [ih _ k (by simpa [trace] using hx), lastRefilledMs_step]
      rfl

theorem steady_steps (tb : Rates) (now : Int) (rest : List Int) : Steady tb (now :: rest)
    ((trace (step tb) (create tb now) (now :: rest)).map fun x => tick x.2) := by
  refine .of_metered ?_ ?_ ?_ ?_
  · exact (metered (inRange_create tb now) ⟨0, 0, 0⟩ (Tick.covered_of_denied rfl)
      (now :: rest)).tail
  · rw [List.length_map, length_trace]
  · intro y hy
    obtain ⟨x, hx, rfl⟩ := List.mem_map.mp hy
    exact range (inRange_create tb now) _ x hx
  · intro k y hy
    rw [List.getElem?_map] at hy
    obtain ⟨x, hx, rfl⟩ := Option.map_eq_some_iff.mp hy
    have hLatest := latest _ _ k x hx
    simp only [create, List.take_succ_cons, List.foldl_cons, max_self] at hLatest
    simp [tick, hLatest, peak_cons]

end TokenBucket

/-! ## Both buckets -/

theorem history_eq {α : Type} {body : Option α → Int → α × Reply} {create : Int → α} {ttlMs now : Int}
    {rest : List Int} (hNew : ∀ now, body none now = body (some (create now)) now)
    (hLive : Unexpired ttlMs (now :: rest)) (level : α → ℚ) (time : α → Int) :
    history level time (trace (hashScript body ttlMs) none (now :: rest)) =
      (trace (fun v => body (some v)) (create now) (now :: rest)).map
        fun x => ⟨time x.2.1, level x.2.1, x.2.2.allowed == 1⟩ := by
  have hRuns := congrArg (List.filterMap fun x => x.2.1.map fun v : α =>
    (⟨time v, level v, x.2.2.allowed == 1⟩ : Tick)) (trace_hashScript hNew now rest hLive)
  rw [List.filterMap_map, List.filterMap_map] at hRuns
  rw [history, ← List.filterMap_eq_map]
  refine Eq.trans (List.filterMap_congr fun x _ => ?_) hRuns
  simp [Function.comp_def]

theorem map_allowed_history {α : Type} (body : Option α → Int → α × Reply) (ttlMs : Int) (level : α → ℚ)
    (time : α → Int) (key : Option (Entry α)) (readings : List Int) :
    (history level time (trace (hashScript body ttlMs) key readings)).map Tick.allowed =
      (serve (hashScript body ttlMs) key readings).map fun x => x.2.allowed == 1 := by
  induction readings generalizing key with
  | nil => rfl
  | cons now rest ih =>
    rw [serve_cons, List.map_cons, ← ih]
    rfl

/-- The same run seen from the other end of the bucket. -/
theorem Steady.mirror {rates : Rates} {readings : List Int} {ticks : List Tick}
    (h : Steady rates readings ticks) : Steady rates readings
      (ticks.map fun x => ⟨x.time, rates.capacity - x.level, x.allowed⟩) := by
  refine ⟨by rw [List.length_map, h.length], ?_, ?_, ?_, ?_⟩
  · intro y hy
    obtain ⟨x, hx, rfl⟩ := List.mem_map.mp hy
    obtain ⟨hLow, hHigh⟩ := h.range x hx
    constructor <;> dsimp only <;> linarith
  · intro k y hy
    rw [List.getElem?_map] at hy
    obtain ⟨x, hx, rfl⟩ := Option.map_eq_some_iff.mp hy
    exact h.latest k x hx
  · intro i j y y' hij hy hy'
    rw [List.getElem?_map] at hy hy'
    obtain ⟨x, hx, rfl⟩ := Option.map_eq_some_iff.mp hy
    obtain ⟨x', hx', rfl⟩ := Option.map_eq_some_iff.mp hy'
    exact h.rising i j x x' hij hx hx'
  · intro i j hij hj
    rw [← List.map_drop, ← List.map_take, List.countP_map]
    exact h.granted i j hij (by simpa using hj)

theorem TokenBucket.steady_script (tb : Rates) (ttlMs : Int) (readings : List Int)
    (hLive : Unexpired ttlMs readings) :
    Steady tb readings (history TokenHash.tokens TokenHash.lastRefilledMs
      (trace (TokenBucket.script tb ttlMs) none readings)) := by
  cases readings with
  | nil => refine .of_metered ⟨.nil, ?_⟩ rfl ?_ ?_ <;> simp [history, trace]
  | cons now rest =>
    rw [TokenBucket.script, history_eq (TokenBucket.body_none tb) hLive]
    exact TokenBucket.steady_steps tb now rest

theorem steady (rates : Rates) (ttlMs : Int) (readings : List Int)
    (hLive : Unexpired ttlMs readings) :
    Steady rates readings (history TokenHash.tokens TokenHash.lastRefilledMs
      (trace (TokenBucket.script rates ttlMs) none readings)) ∧
    Steady rates readings (history LeakyHash.water LeakyHash.lastLeakMs
      (trace (LeakyBucket.script rates ttlMs) none readings)) := by
  cases readings with
  | nil =>
    have hNil : Steady rates [] [] := by
      refine .of_metered ⟨.nil, ?_⟩ rfl ?_ ?_ <;> simp
    exact ⟨hNil, hNil⟩
  | cons now rest =>
    have hToken := TokenBucket.steady_steps rates now rest
    refine ⟨?_, ?_⟩
    · rw [TokenBucket.script, history_eq (TokenBucket.body_none rates) hLive]
      exact hToken
    · rw [LeakyBucket.script, history_eq (LeakyBucket.body_none rates) hLive]
      rw [← LeakyBucket.asTokens_create, trace_map (LeakyBucket.step_asTokens rates),
        List.map_map] at hToken
      have hLeaky := hToken.mirror
      simp only [List.map_map, Function.comp_def, TokenBucket.tick, LeakyBucket.asTokens,
        sub_sub_cancel] at hLeaky
      exact hLeaky

/-- The clock steps back by a second and the bucket grants nothing more for it. -/
theorem steady_rollback :
    Unexpired 5000 [0, 1000, 0, 0, 1500] ∧
    Steady Rates.onePerSecond [0, 1000, 0, 0, 1500]
      (history TokenHash.tokens TokenHash.lastRefilledMs
        (trace (TokenBucket.script Rates.onePerSecond 5000) none [0, 1000, 0, 0, 1500])) :=
  ⟨fun _ => by simp, (steady Rates.onePerSecond 5000 _ fun _ => by simp).1⟩

end Kaka.Redis
