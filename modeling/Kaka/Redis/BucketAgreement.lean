import Kaka.Memory.Buckets
import Kaka.Redis.BucketClock

/-! # The Redis and the in-memory buckets agree

On whole milliseconds that do not go back, both hold the same tokens at the
same time, in milliseconds on one side and in nanoseconds on the other; they
differ in how they round a wait.
-/

namespace Kaka.Redis

def instant (epoch ms : Int) : Int := epoch + ms * 1000000

theorem instant_mono (epoch : Int) {t u : Int} (hLe : t ≤ u) : instant epoch t ≤ instant epoch u := by
  unfold instant
  omega

/-- The next reading is not earlier, and no more than a `time.Duration` later. -/
def Paced (t u : Int) : Prop := t ≤ u ∧ (u - t) * 1000000 ≤ maxDuration

theorem paced_self (t : Int) : Paced t t := by simp [Paced, maxDuration]

/-- A reply, as the client decodes it, against a result of the in-memory limiter. -/
structure Agrees (reply : Reply) (result : Result) : Prop where
  allowed : (decode reply).allowed = result.allowed
  remaining : (decode reply).remaining = result.remaining
  wait : (decode reply).allowed = false → reply.retryAfterMs * 1000000 ≤ maxDuration →
    result.retryAfter ≤ (decode reply).retryAfter ∧
      (decode reply).retryAfter ≤ result.retryAfter + 1000000

theorem wait_agrees {s : ℚ} (hPos : 0 < s) (hFits : ⌈s * 1000⌉ * 1000000 ≤ maxDuration) :
    Memory.durationFromSecondsCeil s ≤ ⌈s * 1000⌉ * 1000000 ∧
      ⌈s * 1000⌉ * 1000000 ≤ Memory.durationFromSecondsCeil s + 1000000 := by
  have hUp : s * 1000 ≤ ⌈s * 1000⌉ := Int.le_ceil _
  have hDown : (⌈s * 1000⌉ : ℚ) < s * 1000 + 1 := Int.ceil_lt_add_one _
  have hCovers : s * 10 ^ 9 ≤ (⌈s * 1000⌉ * 1000000 : Int) := by
    push_cast
    linarith
  refine ⟨Memory.durationFromSecondsCeil_le hPos hCovers, ?_⟩
  have hShort := Memory.lt_durationFromSecondsCeil hPos
    (hCovers.trans (by exact_mod_cast hFits))
  have hLt : ((⌈s * 1000⌉ * 1000000 : Int) : ℚ) <
      (Memory.durationFromSecondsCeil s + 1000000 + 1 : Int) := by
    push_cast
    linarith
  exact Int.lt_add_one_iff.mp (by exact_mod_cast hLt)

namespace TokenBucket

variable {tb : Rates} {epoch : Int}

/-- The in-memory bucket that holds the same tokens at the same time. -/
def inMemory (epoch : Int) (h : TokenHash) : Memory.Bucket :=
  ⟨h.tokens, instant epoch h.lastRefilledMs⟩

theorem refilled_inMemory {h : TokenHash} {now : Int} (hPaced : Paced h.lastRefilledMs now) :
    Memory.TokenBucket.refilled tb (inMemory epoch h) (instant epoch now) = refilled tb h now := by
  obtain ⟨hLe, hGap⟩ := hPaced
  have hSub : sub (instant epoch now) (instant epoch h.lastRefilledMs) =
      (now - h.lastRefilledMs) * 1000000 := by
    have hDiff : instant epoch now - instant epoch h.lastRefilledMs =
        (now - h.lastRefilledMs) * 1000000 := by
      unfold instant
      ring
    rw [← hDiff] at hGap ⊢
    refine sub_of_le ?_ hGap
    unfold minDuration
    omega
  simp only [Memory.TokenBucket.refilled, refilled, inMemory, hSub, max_eq_right hLe,
    Memory.seconds]
  push_cast
  congr 2
  ring

theorem decide_agrees {tokens : ℚ} (hHigh : tokens ≤ tb.capacity)
    (hCapacity : tb.capacity < 2 ^ 63) (now : Int) :
    Agrees (decide tb tokens now).2
      (if 1 ≤ tokens then ⟨true, Memory.remainingFloor (tokens - 1), 0⟩
        else ⟨false, 0, Memory.durationFromSecondsCeil ((1 - tokens) / tb.rate)⟩) := by
  unfold decide
  split
  · rename_i hOne
    have hSmall : tokens - 1 < 2 ^ 63 := by linarith
    have hFloor : ⌊tokens - 1⌋ = Memory.remainingFloor (tokens - 1) :=
      (Memory.remainingFloor_eq (by linarith) hSmall).symm
    have hDecode := decode_allow (Int.floor_nonneg.mpr (by linarith : 0 ≤ tokens - 1))
      (Int.floor_lt.mpr (by exact_mod_cast hSmall))
    refine ⟨?_, ?_, ?_⟩ <;> rw [hDecode]
    · exact hFloor
    · exact nofun
  · rename_i hShort
    have hPos : 0 < (1 - tokens) / tb.rate := div_pos (by linarith) tb.rate_pos
    have hScale : (1 - tokens) * 1000 / tb.rate = (1 - tokens) / tb.rate * 1000 := by ring
    rw [hScale]
    refine ⟨rfl, rfl, fun _ hFits => ?_⟩
    rw [decode_deny (Int.ceil_nonneg (by linarith)) hFits]
    exact wait_agrees hPos hFits

theorem inMemory_step (epoch : Int) {h : TokenHash} {now : Int} (hRange : InRange tb h)
    (hPaced : Paced h.lastRefilledMs now) : inMemory epoch (step tb h now).1 =
      (Memory.TokenBucket.refillAndDecide tb (inMemory epoch h) (instant epoch now)).1 := by
  rw [Memory.TokenBucket.refillAndDecide_eq, refilled_inMemory hPaced, step_eq hRange.2,
    max_eq_right hPaced.1, decide]
  split <;> rfl

theorem step_agrees (epoch : Int) {h : TokenHash} {now : Int} (hRange : InRange tb h)
    (hPaced : Paced h.lastRefilledMs now) (hCapacity : tb.capacity < 2 ^ 63) :
    inMemory epoch (step tb h now).1 =
        (Memory.TokenBucket.refillAndDecide tb (inMemory epoch h) (instant epoch now)).1 ∧
      Agrees (step tb h now).2
        (Memory.TokenBucket.refillAndDecide tb (inMemory epoch h) (instant epoch now)).2 := by
  have hDecision := decide_agrees (refilled_le tb h now) hCapacity (max h.lastRefilledMs now)
  refine ⟨inMemory_step epoch hRange hPaced, ?_⟩
  rw [Memory.TokenBucket.refillAndDecide_eq, refilled_inMemory hPaced, step_eq hRange.2]
  split <;> rename_i hOne
  · rwa [if_pos hOne] at hDecision
  · rwa [if_neg hOne] at hDecision

theorem steps_agree (epoch : Int) (hCapacity : tb.capacity < 2 ^ 63) {h : TokenHash} (hRange : InRange tb h)
    (readings : List Int) (hPaced : (h.lastRefilledMs :: readings).IsChain Paced) :
    List.Forall₂ (fun x y => Agrees x.2 y.2) (serve (step tb) h readings)
      (serve (Memory.TokenBucket.refillAndDecide tb) (inMemory epoch h)
        (readings.map (instant epoch))) := by
  induction readings generalizing h with
  | nil => exact .nil
  | cons now rest ih =>
    obtain ⟨hState, hReply⟩ := step_agrees epoch hRange hPaced.rel hCapacity
    have hLast : (step tb h now).1.lastRefilledMs = now := by
      rw [lastRefilledMs_step, max_eq_right hPaced.rel.1]
    rw [List.map_cons, serve_cons, serve_cons, ← hState]
    exact .cons hReply (ih (inRange_step hRange) (by rw [hLast]; exact hPaced.tail))

end TokenBucket

theorem buckets_agree (rates : Rates) (hCapacity : rates.capacity < 2 ^ 63) (epoch ttlMs : Int)
    (readings : List Int) (hPaced : readings.IsChain Paced) (hLive : Unexpired ttlMs readings) :
    List.Forall₂ (fun x y => Agrees x.2 y.2)
      (serve (TokenBucket.script rates ttlMs) none readings)
      (answers (Memory.TokenBucket.create rates) (Memory.TokenBucket.refillAndDecide rates)
        (readings.map (instant epoch))) ∧
    List.Forall₂ (fun x y => Agrees x.2 y.2)
      (serve (LeakyBucket.script rates ttlMs) none readings)
      (answers Memory.LeakyBucket.create (Memory.LeakyBucket.leakAndDecide rates)
        (readings.map (instant epoch))) := by
  rw [Memory.LeakyBucket.answers_asTokens]
  cases readings with
  | nil => exact ⟨.nil, .nil⟩
  | cons now rest =>
    have hToken := TokenBucket.steps_agree epoch hCapacity
      (TokenBucket.inRange_create rates now) (now :: rest)
      (List.isChain_cons_cons.mpr ⟨paced_self now, hPaced⟩)
    refine ⟨?_, ?_⟩
    · rw [TokenBucket.script, serve_hashScript (TokenBucket.body_none rates) now rest hLive]
      exact hToken
    · rw [LeakyBucket.script, serve_hashScript (LeakyBucket.body_none rates) now rest hLive]
      exact LeakyBucket.serve_step rates now (now :: rest) ▸ hToken

def thirds : Rates := ⟨3 / 2, 1 / 3, by norm_num, by norm_num⟩

theorem buckets_agree_thirds :
    [0, 100, 100, 450, 5000].IsChain Paced ∧
    List.Forall₂ (fun x y => Agrees x.2 y.2)
      (serve (LeakyBucket.script thirds 0) none [0, 100, 100, 450, 5000])
      (answers Memory.LeakyBucket.create (Memory.LeakyBucket.leakAndDecide thirds)
        ([0, 100, 100, 450, 5000].map (instant 7))) :=
  ⟨by simp [Paced, maxDuration], (buckets_agree thirds (by norm_num [thirds]) 7 0 _
    (by simp [Paced, maxDuration]) (unexpired_of_le le_rfl _)).2⟩

end Kaka.Redis
