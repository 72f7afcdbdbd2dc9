import Kaka.Layered.Shield
import Kaka.Redis.BucketAgreement

/-! # The in-memory buckets in front of the Redis ones

Both layers have the same rates and read the same milliseconds.  The remote
bucket misses the refills of the requests that the local one denies, and the
next request makes up for them: a refill in two steps is a refill in one.
-/

namespace Kaka.Layered

open Forgetting Shielding Redis

def replying {α : Type} (script : Option (Entry α) → Int → Option (Entry α) × Reply)
    (key : Option (Entry α)) (now : Int) : Option (Entry α) × Option Reply :=
  ((script key now).1, some (script key now).2)

def PacedAfter (past : List Int) (now : Int) : Prop := ∀ last ∈ past.getLast?, Paced last now

/-! ## The token bucket -/

namespace TokenBucket

open Redis.TokenBucket

variable {rates : Rates} {epoch now : Int} {v : Memory.Bucket} {a b : TokenHash}

/-- `b` is the bucket after all the requests, `a` the one that missed the denied ones. -/
structure Lagging (rates : Rates) (epoch : Int) (v : Memory.Bucket) (a b : TokenHash) : Prop where
  memory : v = inMemory epoch b
  range : InRange rates b
  behind_range : InRange rates a
  behind : a.lastRefilledMs ≤ b.lastRefilledMs
  level : ∀ now, b.lastRefilledMs ≤ now → refilled rates a now = refilled rates b now

theorem refilled_refilled {u : Int} (hTime : b.lastRefilledMs ≤ now) (hLater : now ≤ u) :
    refilled rates ⟨refilled rates b now, now⟩ u = refilled rates b u := by
  have hGap : (0 : ℚ) ≤ (u - now : Int) * rates.rate / 1000 := by
    have hTimes : (0 : ℚ) ≤ (u - now : Int) := by exact_mod_cast sub_nonneg.mpr hLater
    exact div_nonneg (mul_nonneg hTimes rates.rate_pos.le) (by norm_num)
  simp only [refilled, max_eq_right hTime, max_eq_right hLater, max_eq_right (hTime.trans hLater)]
  rw [min_min_add hGap]
  congr 2
  push_cast
  ring

theorem Lagging.create (rates : Rates) (epoch now : Int) :
    Lagging rates epoch (Memory.TokenBucket.create rates (instant epoch now))
      (Redis.TokenBucket.create rates now) (Redis.TokenBucket.create rates now) :=
  ⟨rfl, inRange_create rates now, inRange_create rates now, le_rfl, fun _ _ => rfl⟩

variable (h : Lagging rates epoch v a b) (hPaced : Paced b.lastRefilledMs now)
include h hPaced

theorem Lagging.allowed_iff :
    (Memory.TokenBucket.refillAndDecide rates v (instant epoch now)).2.allowed = true ↔
      1 ≤ refilled rates b now := by
  rw [Memory.TokenBucket.allowed_iff, h.memory, refilled_inMemory hPaced]

theorem Lagging.memory_step :
    (Memory.TokenBucket.refillAndDecide rates v (instant epoch now)).1 =
      inMemory epoch (step rates b now).1 := by
  rw [h.memory, inMemory_step epoch h.range hPaced]

/-- What the local layer denies the script would have denied, and only the
refill is lost on the bucket that missed it. -/
theorem Lagging.stop
    (hDenied : (Memory.TokenBucket.refillAndDecide rates v (instant epoch now)).2.allowed = false) :
    Refuses (Memory.TokenBucket.refillAndDecide rates v (instant epoch now)).2
        (some (step rates b now).2) ∧
      Lagging rates epoch (Memory.TokenBucket.refillAndDecide rates v (instant epoch now)).1 a
        (step rates b now).1 := by
  have hShort : ¬ 1 ≤ refilled rates b now := by
    rw [← h.allowed_iff hPaced, hDenied]
    exact Bool.false_ne_true
  have hStep : step rates b now = (⟨refilled rates b now, now⟩,
      ⟨0, 0, ⌈(1 - refilled rates b now) * 1000 / rates.rate⌉⟩) := by
    rw [step_eq h.range.2, max_eq_right hPaced.1, Redis.TokenBucket.decide, if_neg hShort]
  constructor
  · constructor
    · rw [Memory.TokenBucket.refillAndDecide_eq, h.memory, refilled_inMemory hPaced, if_neg hShort]
    · exact ⟨_, congrArg (fun x => some x.2) hStep⟩
  · constructor
    · exact h.memory_step hPaced
    · exact inRange_step h.range
    · exact h.behind_range
    · rw [hStep]
      exact h.behind.trans hPaced.1
    · intro u hLater
      rw [hStep] at hLater ⊢
      rw [refilled_refilled hPaced.1 hLater, h.level u (hPaced.1.trans hLater)]

theorem Lagging.pass :
    (step rates a now).2 = (step rates b now).2 ∧
      Lagging rates epoch (Memory.TokenBucket.refillAndDecide rates v (instant epoch now)).1
        (step rates a now).1 (step rates b now).1 := by
  -- by `now` both have the same level, and both move to this time
  have hSame : step rates a now = step rates b now := by
    rw [step_eq h.behind_range.2, step_eq h.range.2, h.level now hPaced.1,
      max_eq_right (h.behind.trans hPaced.1), max_eq_right hPaced.1]
  refine ⟨by rw [hSame], ?_⟩
  rw [hSame]
  exact ⟨h.memory_step hPaced, inRange_step h.range, inRange_step h.range, le_rfl, fun _ _ => rfl⟩

omit h hPaced

inductive Lags (rates : Rates) (epoch ttlMs : Int) : List Int → Option (Memory.Bucket × Int) →
    Option (Entry TokenHash) → Option (Entry TokenHash) → Prop
  | absent : Lags rates epoch ttlMs [] none none none
  | present {past used v a b last last'} (h : Lagging rates epoch v a b) :
      Lags rates epoch ttlMs (past ++ [b.lastRefilledMs]) (some (v, used))
        (some ⟨a, deadlineAfter ttlMs last⟩) (some ⟨b, deadlineAfter ttlMs last'⟩)

variable {ttlMs : Int}

theorem script_none : replying (script rates ttlMs) none now =
    (some ⟨(step rates (create rates now) now).1, deadlineAfter ttlMs now⟩,
      some (step rates (create rates now) now).2) := by
  rw [replying, script, hashScript_none, body_none]

theorem script_some (hTtl : ttlMs ≤ 0) (last : Int) :
    replying (script rates ttlMs) (some ⟨a, deadlineAfter ttlMs last⟩) now =
      (some ⟨(step rates a now).1, deadlineAfter ttlMs now⟩, some (step rates a now).2) := by
  rw [replying, script, hashScript_some _ _ fun hPos => absurd hPos (not_lt.mpr hTtl)]
  rfl

theorem Lags.snoc {past : List Int} {used last last' : Int} (hTime : b.lastRefilledMs = now)
    (h : Lagging rates epoch v a b) : Lags rates epoch ttlMs (past ++ [now]) (some (v, used))
      (some ⟨a, deadlineAfter ttlMs last⟩) (some ⟨b, deadlineAfter ttlMs last'⟩) :=
  hTime ▸ .present h

theorem shields (rates : Rates) (epoch : Int) (hTtl : ttlMs ≤ 0) (opts : Memory.Options) (n : Nat)
    (power : ∃ k, n = 2 ^ k) :
    Shields (onKey (Memory.TokenBucket.params rates opts n power)
        (Memory.TokenBucket.refillAndDecide rates) (instant epoch))
      (replying (script rates ttlMs)) id id Result.allowed Refuses PacedAfter
      (Lags rates epoch ttlMs) where
  stop {past s a b now} hLags hOk hDenied := by
    cases hLags with
    | absent =>
      -- a fresh bucket has a token
      have hFull : 1 ≤ refilled rates (create rates now) now := by
        rw [refilled_create]
        exact rates.one_le
      have hAllowed := ((Lagging.create rates epoch now).allowed_iff (paced_self now)).mpr hFull
      exact absurd (hAllowed.symm.trans hDenied) Bool.noConfusion
    | present h =>
      have hPaced := hOk _ List.getLast?_concat
      obtain ⟨hRefuses, hNext⟩ := h.stop hPaced hDenied
      rw [id, script_some hTtl]
      refine ⟨hRefuses, .snoc ?_ hNext⟩
      rw [lastRefilledMs_step, max_eq_right hPaced.1]
  pass {past s a b now} hLags hOk _ := by
    cases hLags with
    | absent =>
      obtain ⟨_, hNext⟩ := (Lagging.create rates epoch now).pass (paced_self now)
      rw [id, script_none]
      refine ⟨rfl, .snoc ?_ hNext⟩
      rw [lastRefilledMs_step]
      exact max_self now
    | present h =>
      have hPaced := hOk _ List.getLast?_concat
      obtain ⟨hReply, hNext⟩ := h.pass hPaced
      rw [id, script_some hTtl, script_some hTtl]
      refine ⟨congrArg some hReply, .snoc ?_ hNext⟩
      rw [lastRefilledMs_step, max_eq_right hPaced.1]

end TokenBucket

/-! ## The leaky bucket -/

namespace LeakyBucket

open Redis.LeakyBucket

/-- The leaky bucket as a token bucket, on either side. -/
theorem shields (rates : Rates) (epoch : Int) {ttlMs : Int} (hTtl : ttlMs ≤ 0) (opts : Memory.Options)
    (n : Nat) (power : ∃ k, n = 2 ^ k) :
    Shields (onKey (Memory.LeakyBucket.params opts n power)
        (Memory.LeakyBucket.leakAndDecide rates) (instant epoch))
      (replying (script rates ttlMs)) id id Result.allowed Refuses PacedAfter
      (fun past s a b => TokenBucket.Lags rates epoch ttlMs past
        (s.map (Prod.map (Memory.LeakyBucket.asTokens rates) id))
        (a.map (Entry.map (asTokens rates))) (b.map (Entry.map (asTokens rates)))) := by
  apply (TokenBucket.shields rates epoch hTtl opts n power).comap
  · intro s now
    cases s with
    | none =>
      have hNew := Memory.LeakyBucket.leakAndDecide_asTokens rates
        (Memory.LeakyBucket.create (instant epoch now)) (instant epoch now)
      rw [Memory.LeakyBucket.asTokens_create] at hNew
      exact congrArg (fun out => (some (out.1, instant epoch now), out.2)) hNew
    | some b =>
      exact congrArg (fun out => (some (out.1, instant epoch now), out.2))
        (Memory.LeakyBucket.leakAndDecide_asTokens rates b.1 (instant epoch now))
  · intro a now
    exact congrArg (fun out => (out.1, some out.2))
      (script_asTokens rates ttlMs a now)

end LeakyBucket

end Kaka.Layered
