import Kaka.Memory.BucketAdmission
import Kaka.Memory.Recovery

/-! # Denied requests are not charged

A denial writes the state: it refills the bucket and moves its time, or
prunes the log.  A run without some of its denied requests leaves a state
that lags; the next request catches up with it, since a refill in two steps
is a refill in one and a later pruning removes all that an earlier one did.
-/

namespace Kaka.Memory

inductive Thinned : List (Int × Result) → List (Int × Result) → Prop
  | nil : Thinned [] []
  | keep {history kept} (x : Int × Result) (hRest : Thinned history kept) :
      Thinned (x :: history) (x :: kept)
  | drop {history kept} {x : Int × Result} (hDenied : x.2.allowed = false)
      (hRest : Thinned history kept) : Thinned (x :: history) kept

section Runs

variable {σ : Type} {create : Int → σ} {fn : σ → Int → σ × Result} {Ok : Int → Int → Prop}

/-- The requests that are left, where each may follow the one before, are
answered as they were in the whole run. -/
def Uncharged (Ok : Int → Int → Prop) (create : Int → σ) (fn : σ → Int → σ × Result) : Prop :=
  ∀ readings : List Int, readings.Pairwise (· ≤ ·) →
    ∀ kept, Thinned (answers create fn readings) kept → (kept.map Prod.fst).IsChain Ok →
      answers create fn (kept.map Prod.fst) = kept

/-- `L last seen v w`: the whole run is at `v` after a request at `last`, the
thinned one at `w` after one at `seen`. -/
structure CatchesUp (Ok : Int → Int → Prop) (create : Int → σ) (fn : σ → Int → σ × Result)
    (L : Int → Int → σ → σ → Prop) : Prop where
  first (now) : (fn (create now) now).2.allowed = true ∧
    L now now (fn (create now) now).1 (fn (create now) now).1
  drop {last seen v w now} : L last seen v w → last ≤ now → (fn v now).2.allowed = false →
    L now seen (fn v now).1 w
  keep {last seen v w now} : L last seen v w → last ≤ now → Ok seen now →
    (fn w now).2 = (fn v now).2 ∧ L now now (fn v now).1 (fn w now).1

theorem CatchesUp.serve {L : Int → Int → σ → σ → Prop} (h : CatchesUp Ok create fn L) {last seen : Int} {v w : σ}
    (hBehind : L last seen v w) {readings : List Int} (hClock : (last :: readings).Pairwise (· ≤ ·))
    {kept : List (Int × Result)} (hThin : Thinned (serve fn v readings) kept)
    (hOk : (seen :: kept.map Prod.fst).IsChain Ok) : serve fn w (kept.map Prod.fst) = kept := by
  induction readings generalizing last seen v w kept with
  | nil =>
    cases hThin
    rfl
  | cons now rest ih =>
    obtain ⟨hFirst, hRest⟩ := List.pairwise_cons.mp hClock
    have hTime : last ≤ now := hFirst now List.mem_cons_self
    rw [serve_cons] at hThin
    cases hThin with
    | keep _ hThin =>
      obtain ⟨hSame, hNext⟩ := h.keep hBehind hTime hOk.rel
      rw [List.map_cons, serve_cons, ih hNext hRest hThin hOk.tail, hSame]
    | drop hDenied hThin => exact ih (h.drop hBehind hTime hDenied) hRest hThin hOk

theorem CatchesUp.uncharged {L : Int → Int → σ → σ → Prop} (h : CatchesUp Ok create fn L) :
    Uncharged Ok create fn := by
  intro readings hClock kept hThin hOk
  cases readings with
  | nil =>
    cases hThin
    rfl
  | cons now rest =>
    obtain ⟨hAllowed, hStart⟩ := h.first now
    rw [answers, serve_cons] at hThin
    cases hThin with
    | keep _ hThin =>
      rw [List.map_cons, answers, serve_cons, h.serve hStart hClock hThin hOk]
    | drop hDenied =>
      rw [hAllowed] at hDenied
      cases hDenied

end Runs

/-! ## The buckets -/

def Within (t u : Int) : Prop := u - t ≤ maxDuration

namespace TokenBucket

variable {tb : Rates} {b : Bucket} {now later : Int}

theorem refilled_refilled (hTime : b.lastRefilled ≤ now) (hLater : now ≤ later)
    (hWithin : Within b.lastRefilled later) :
    refilled tb ⟨refilled tb b now, now⟩ later = refilled tb b later := by
  have hExact : ∀ {t u : Int}, b.lastRefilled ≤ u → u ≤ t → t ≤ later → sub t u = t - u := by
    intro t u hu htu ht
    unfold Within at hWithin
    apply sub_of_le
    · unfold minDuration
      omega
    · omega
  have hGap : 0 ≤ seconds (later - now) * tb.rate :=
    mul_nonneg (seconds_nonneg (by omega)) tb.rate_pos.le
  simp only [refilled, hExact hTime hLater le_rfl, hExact le_rfl hTime hLater,
    hExact le_rfl (hTime.trans hLater) le_rfl]
  rw [min_min_add hGap, ← add_mul]
  congr 3
  simp only [seconds]
  push_cast
  ring

/-- The bucket `w` missed the refills of denied requests since `seen`. -/
structure Missed (tb : Rates) (last seen : Int) (v w : Bucket) : Prop where
  last_eq : v.lastRefilled = last
  seen_eq : w.lastRefilled = seen
  seen_le : seen ≤ last
  level : ∀ now, last ≤ now → Within seen now → refilled tb w now = refilled tb v now

theorem Missed.refl (b : Bucket) (now : Int) :
    Missed tb now now (refillAndDecide tb b now).1 (refillAndDecide tb b now).1 :=
  ⟨lastRefilled_refill, lastRefilled_refill, le_rfl, fun _ _ _ => rfl⟩

theorem catchesUp (tb : Rates) : CatchesUp Within (create tb) (refillAndDecide tb) (Missed tb) where
  first now := by
    refine ⟨allowed_iff.mpr ?_, .refl _ now⟩
    rw [refilled_create]
    exact tb.one_le
  -- the refill that `w` misses here it makes up for at `later`
  drop {last seen v w now} h hTime hDenied := by
    have hLess : ¬ 1 ≤ refilled tb v now := by
      rw [← allowed_iff, hDenied]
      exact Bool.false_ne_true
    rw [refillAndDecide_eq, if_neg hLess]
    refine ⟨rfl, h.seen_eq, h.seen_le.trans hTime, fun later hLater hWithin => ?_⟩
    have hLast := h.last_eq
    have hSeen := h.seen_le
    rw [h.level later (hTime.trans hLater) hWithin, refilled_refilled (by omega) hLater]
    unfold Within at hWithin ⊢
    omega
  keep {last seen v w now} h hTime hOk := by
    rw [refill_congr (h.level now hTime hOk)]
    exact ⟨rfl, .refl v now⟩

end TokenBucket

/-! ## The sliding window -/

namespace SlidingWindow

variable {sw : SlidingWindow}

structure Missed (sw : SlidingWindow) (last seen : Int) (v w : WindowState) : Prop where
  ordered : Ordered v last
  seen_ordered : Ordered w seen
  seen_le : seen ≤ last
  logs : ∀ now, last ≤ now → w.logs.filter (fun x => now - sw.window < x) =
    v.logs.filter (fun x => now - sw.window < x)

theorem record_filter_congr {v w : WindowState} {now : Int} (hv : v.logs.Pairwise (· ≤ ·))
    (hw : w.logs.Pairwise (· ≤ ·)) (hLogs : w.logs.filter (fun x => now - sw.window < x) =
      v.logs.filter (fun x => now - sw.window < x)) :
    (sw.recordAndDecide w now).2 = (sw.recordAndDecide v now).2 ∧
      (sw.recordAndDecide w now).1.logs = (sw.recordAndDecide v now).1.logs := by
  rcases lt_or_ge ((v.logs.filter fun x => now - sw.window < x).length : Int) sw.limit with
    hRoom | hFull
  · obtain ⟨hNext, hResult⟩ := record_allow hv hRoom
    obtain ⟨hNext', hResult'⟩ := record_allow hw (hLogs ▸ hRoom)
    rw [hNext, hResult, hNext', hResult', hLogs]
    exact ⟨rfl, rfl⟩
  · obtain ⟨hNext, hResult⟩ := record_deny hv hFull
    obtain ⟨hNext', hResult'⟩ := record_deny hw (hLogs ▸ hFull)
    rw [hNext, hResult, hNext', hResult', hLogs]
    exact ⟨rfl, rfl⟩

theorem catchesUp (sw : SlidingWindow) :
    CatchesUp (fun _ _ => True) (fun _ => .new) sw.recordAndDecide (Missed sw) where
  first now := by
    have hOrdered : Ordered (sw.recordAndDecide .new now).1 now := (Ordered.new now).record le_rfl
    have hResult : (sw.recordAndDecide .new now).2 = ⟨true, sw.limit - 1, 0⟩ :=
      (record_eq_of_filter_nil (Ordered.new now).sorted rfl).1
    exact ⟨by rw [hResult], hOrdered, hOrdered, le_rfl, fun _ _ => rfl⟩
  -- what this pruning takes from `v` alone a later one takes from `w` too
  drop {last seen v w now} h hTime hDenied := by
    have hFull : sw.limit ≤ (v.logs.filter fun x => now - sw.window < x).length := by
      rw [← not_lt, ← allowed_iff h.ordered.sorted, hDenied]
      exact Bool.false_ne_true
    obtain ⟨hLogs, _⟩ := record_deny h.ordered.sorted hFull
    refine ⟨h.ordered.record hTime, h.seen_ordered, h.seen_le.trans hTime, fun later hLater => ?_⟩
    rw [h.logs later (hTime.trans hLater), hLogs, List.filter_filter]
    apply List.filter_congr
    intro x _
    rw [← Bool.decide_and, decide_eq_decide]
    omega
  keep {last seen v w now} h hTime _ := by
    obtain ⟨hResult, hLogs⟩ := record_filter_congr h.ordered.sorted h.seen_ordered.sorted
      (h.logs now hTime)
    refine ⟨hResult, h.ordered.record hTime, h.seen_ordered.record (h.seen_le.trans hTime), le_rfl, ?_⟩
    intro later _
    rw [hLogs]

end SlidingWindow

theorem denials_uncharged :
    (∀ rates : Rates,
      Uncharged Within (TokenBucket.create rates) (TokenBucket.refillAndDecide rates) ∧
      Uncharged Within LeakyBucket.create (LeakyBucket.leakAndDecide rates)) ∧
    ∀ sw : SlidingWindow, Uncharged (fun _ _ => True) (fun _ => .new) sw.recordAndDecide := by
  constructor
  · intro rates
    have hToken := (TokenBucket.catchesUp rates).uncharged
    refine ⟨hToken, ?_⟩
    simp only [Uncharged, LeakyBucket.answers_asTokens]
    exact hToken
  · exact fun sw => (SlidingWindow.catchesUp sw).uncharged

theorem denials_uncharged_onePerSecond :
    answers (TokenBucket.create .onePerSecond) (TokenBucket.refillAndDecide .onePerSecond)
        [0, 0, 0, 10 ^ 9] =
        [(0, ⟨true, 1, 0⟩), (0, ⟨true, 0, 0⟩), (0, ⟨false, 0, 10 ^ 9⟩), (10 ^ 9, ⟨true, 0, 0⟩)] ∧
      answers (TokenBucket.create .onePerSecond) (TokenBucket.refillAndDecide .onePerSecond)
        [0, 0, 10 ^ 9] = [(0, ⟨true, 1, 0⟩), (0, ⟨true, 0, 0⟩), (10 ^ 9, ⟨true, 0, 0⟩)] := by
  have hRun : answers (TokenBucket.create .onePerSecond) (TokenBucket.refillAndDecide .onePerSecond)
      [0, 0, 0, 10 ^ 9] =
        [(0, ⟨true, 1, 0⟩), (0, ⟨true, 0, 0⟩), (0, ⟨false, 0, 10 ^ 9⟩), (10 ^ 9, ⟨true, 0, 0⟩)] := by
    decide +kernel
  refine ⟨hRun, (denials_uncharged.1 .onePerSecond).1 [0, 0, 0, 10 ^ 9] (by decide)
    [(0, ⟨true, 1, 0⟩), (0, ⟨true, 0, 0⟩), (10 ^ 9, ⟨true, 0, 0⟩)] ?_ (by simp [Within, maxDuration])⟩
  rw [hRun]
  exact .keep _ (.keep _ (.drop rfl (.keep _ .nil)))

def halfSlowest : Rates :=
  { slowest with rate := 10 ^ 9 / (2 * maxDuration), rate_pos := by norm_num [maxDuration] }

/-- Without the denied request in the middle `Time.Sub` saturates, and the
bucket misses half of its token. -/
theorem denials_charged :
    ¬ Uncharged (fun _ _ => True) (TokenBucket.create halfSlowest)
        (TokenBucket.refillAndDecide halfSlowest) ∧
      ¬ Uncharged (fun _ _ => True) LeakyBucket.create (LeakyBucket.leakAndDecide halfSlowest) := by
  have hRun : answers (TokenBucket.create halfSlowest) (TokenBucket.refillAndDecide halfSlowest)
      [0, maxDuration, 2 * maxDuration] =
        [(0, ⟨true, 0, 0⟩), (maxDuration, ⟨false, 0, maxDuration⟩), (2 * maxDuration, ⟨true, 0, 0⟩)] := by
    decide +kernel
  have hThinned : answers (TokenBucket.create halfSlowest) (TokenBucket.refillAndDecide halfSlowest)
      [0, 2 * maxDuration] = [(0, ⟨true, 0, 0⟩), (2 * maxDuration, ⟨false, 0, maxDuration⟩)] := by
    decide +kernel
  have hToken : ¬ Uncharged (fun _ _ => True) (TokenBucket.create halfSlowest)
      (TokenBucket.refillAndDecide halfSlowest) := by
    intro hUncharged
    have hSame := hUncharged [0, maxDuration, 2 * maxDuration] (by decide)
      [(0, ⟨true, 0, 0⟩), (2 * maxDuration, ⟨true, 0, 0⟩)]
      (by rw [hRun]; exact .keep _ (.drop rfl (.keep _ .nil))) (by simp)
    rw [List.map_cons, List.map_cons, List.map_nil, hThinned] at hSame
    exact absurd hSame (by decide)
  refine ⟨hToken, ?_⟩
  simp only [Uncharged, LeakyBucket.answers_asTokens]
  exact hToken

end Kaka.Memory
