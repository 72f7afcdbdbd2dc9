import Kaka.Base.Forgetting
import Kaka.Memory.Buckets
import Kaka.Memory.SlidingWindow
import Mathlib.Data.Int.ConditionallyCompleteOrder

/-! # How long a limiter's state recovers

A bucket is full again after `capacity / rate` seconds, and a window's log is
empty after one window.  From then on a request is answered as the first
one of a fresh state.
-/

namespace Kaka.Memory

open Forgetting

/-- The key has been idle for `ttl`. -/
def Idle (ttl last now : Int) : Prop := 0 < ttl ∧ ttl ≤ sub now last

theorem Idle.later {ttl last now now' : Int} (h : Idle ttl last now) (hTime : now ≤ now') :
    Idle ttl last now' :=
  ⟨h.1, h.2.trans (sub_le_sub_left hTime last)⟩

theorem Idle.earlier {ttl last last' now : Int} (h : Idle ttl last' now) (hTime : last ≤ last') :
    Idle ttl last now :=
  ⟨h.1, h.2.trans (sub_le_sub_right hTime now)⟩

theorem seconds_le_seconds {d d' : Int} (hLe : d ≤ d') : seconds d ≤ seconds d' := by
  have hCast : (d : ℚ) ≤ d' := by exact_mod_cast hLe
  simp only [seconds]
  linarith

theorem seconds_nonneg {d : Int} (hNonneg : 0 ≤ d) : 0 ≤ seconds d := by
  have hLe := seconds_le_seconds hNonneg
  simpa [seconds] using hLe

namespace TokenBucket

variable {tb : Rates} {b : Bucket} {last now : Int}

/-- A bucket on a clock that did not run backwards. -/
structure InRange (b : Bucket) (last : Int) : Prop where
  nonneg : 0 ≤ b.tokens
  last_eq : b.lastRefilled = last

theorem InRange.refilled_nonneg (h : InRange b last) (hTime : last ≤ now) : 0 ≤ refilled tb b now := by
  have hGain : 0 ≤ seconds (sub now b.lastRefilled) * tb.rate := by
    rw [h.last_eq]
    exact mul_nonneg (seconds_nonneg (sub_nonneg_of_le hTime)) tb.rate_pos.le
  have hTokens := h.nonneg
  refine le_min ?_ (by linarith)
  linarith [tb.one_le]

theorem InRange.refill (h : InRange b last) (hTime : last ≤ now) :
    InRange (refillAndDecide tb b now).1 now := by
  constructor
  · rw [tokens_refill]
    split
    · rename_i hAllowed
      have := allowed_iff.mp hAllowed
      linarith
    · rw [sub_zero]
      exact h.refilled_nonneg hTime
  · exact lastRefilled_refill

theorem inRange_create (now : Int) : InRange (create tb now) now where
  nonneg := zero_le_one.trans tb.one_le
  last_eq := rfl

theorem InRange.full (h : InRange b last) {ttl : Int} (hIdle : Idle ttl last now)
    (hTTL : tb.capacity / tb.rate ≤ seconds ttl) : refilled tb b now = tb.capacity := by
  have hCovers : tb.capacity ≤ seconds ttl * tb.rate := (div_le_iff₀ tb.rate_pos).mp hTTL
  have hGain : seconds ttl * tb.rate ≤ seconds (sub now b.lastRefilled) * tb.rate := by
    rw [h.last_eq]
    exact mul_le_mul_of_nonneg_right (seconds_le_seconds hIdle.2) tb.rate_pos.le
  have hTokens := h.nonneg
  exact min_eq_left (by linarith)

theorem refilled_create (now : Int) : refilled tb (create tb now) now = tb.capacity := by
  simp [refilled, create, seconds]

theorem refill_congr {b' : Bucket} (hLevel : refilled tb b now = refilled tb b' now) :
    refillAndDecide tb b now = refillAndDecide tb b' now := by
  rw [refillAndDecide_eq, refillAndDecide_eq, hLevel]

theorem recovers {ttl : Int} (hTTL : 0 < ttl → tb.capacity / tb.rate ≤ seconds ttl) :
    Recovers ⟨create tb, refillAndDecide tb, id⟩ (Idle ttl) InRange Eq where
  later := Idle.later
  refl _ := rfl
  first now := (inRange_create now).refill le_rfl
  next h hTime := h.refill hTime
  same hSame _ _ := by
    subst hSame
    exact ⟨rfl, rfl⟩
  idle {b last now} h hTime hIdle := by
    have hFull : refilled tb b now = tb.capacity := h.full hIdle (hTTL hIdle.1)
    have hLevel : refilled tb (create tb now) now = refilled tb b now :=
      (refilled_create now).trans hFull.symm
    have hEq := refill_congr hLevel
    exact ⟨congrArg Prod.snd hEq, congrArg Prod.fst hEq⟩

end TokenBucket

theorem LeakyBucket.recovers {lb : Rates} {ttl : Int}
    (hTTL : 0 < ttl → lb.capacity / lb.rate ≤ seconds ttl) :
    Recovers ⟨create, leakAndDecide lb, id⟩ (Idle ttl)
      (fun b last => TokenBucket.InRange (asTokens lb b) last)
      (fun b b' => asTokens lb b = asTokens lb b') :=
  (TokenBucket.recovers hTTL).comap (asTokens lb) rfl (fun now => (asTokens_create lb now).symm)
    (leakAndDecide_asTokens lb)

namespace SlidingWindow

variable {sw : SlidingWindow} {state : WindowState} {last now : Int}

/-- After a whole window no entry counts. -/
theorem Ordered.filter_eq_nil (h : Ordered state last) (hFar : sw.window ≤ now - last) :
    state.logs.filter (fun x => now - sw.window < x) = [] := by
  refine List.filter_eq_nil_iff.mpr fun x hx => ?_
  have := h.le_last x hx
  simp only [decide_eq_true_eq]
  omega

theorem record_eq_of_filter_nil (hSorted : state.logs.Pairwise (· ≤ ·))
    (hNil : state.logs.filter (fun x => now - sw.window < x) = []) :
    (sw.recordAndDecide state now).2 = ⟨true, sw.limit - 1, 0⟩ ∧
      (sw.recordAndDecide state now).1.logs = [now] := by
  have hRoom : ((state.logs.filter fun x => now - sw.window < x).length : Int) < sw.limit := by
    rw [hNil]
    exact sw.limit_pos
  obtain ⟨hLogs, hResult⟩ := record_allow hSorted hRoom
  rw [hLogs, hResult, hNil]
  simp

theorem recovers {ttl : Int} (hTTL : 0 < ttl → sw.window ≤ ttl) :
    Recovers ⟨fun _ => .new, sw.recordAndDecide, id⟩ (Idle ttl) Ordered
      (fun state state' => state.logs = state'.logs) where
  later := Idle.later
  refl _ := rfl
  first now := (Ordered.new now).record le_rfl
  next h hTime := h.record hTime
  same hSame _ _ := record_congr hSame
  idle {state last now} h hTime hIdle := by
    have hFar : sw.window ≤ now - last := by
      have hWindow := hTTL hIdle.1
      have hLong := hIdle.2
      simp only [id, sub, minDuration, maxDuration] at hTime hLong
      omega
    obtain ⟨hResult, hLogs⟩ := record_eq_of_filter_nil h.sorted (h.filter_eq_nil hFar)
    have hFirst : (sw.recordAndDecide .new now).2 = ⟨true, sw.limit - 1, 0⟩ ∧
        (sw.recordAndDecide .new now).1.logs = [now] :=
      record_eq_of_filter_nil (Ordered.new now).sorted rfl
    obtain ⟨hFresh, hNew⟩ := hFirst
    exact ⟨hFresh.trans hResult.symm, hNew.trans hLogs.symm⟩

end SlidingWindow

end Kaka.Memory
