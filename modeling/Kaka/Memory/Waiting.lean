import Kaka.Memory.RetryAfter
import Kaka.Memory.WindowReference

/-! # A key that waits

A denied key opens again at one instant: no later than a nanosecond after the
wait it was told, and whatever it is denied until then does not move it.
-/

namespace Kaka.Memory

/-- What a limiter owes a key on a clock that does not go back.  `Closed due v
last` says that the key, last asked for at `last`, is denied until `due`. -/
structure Reopens {σ : Type} (create : Int → σ) (fn : σ → Int → σ × Result) (valid : σ → Int → Prop)
    (Closed : ℚ → σ → Int → Prop) : Prop where
  fresh : ∀ now, valid (create now) now
  keeps : ∀ {v last now}, valid v last → last ≤ now → valid (fn v now).1 now
  fits : ∀ {v last now}, valid v last → last ≤ now → (fn v now).2.retryAfter ≤ maxDuration
  closes : ∀ {v last now}, valid v last → last ≤ now → (fn v now).2.allowed = false →
    (fn v now).2.retryAfter < maxDuration →
    ∃ due : ℚ, due < now + (fn v now).2.retryAfter + 1 ∧ Closed due (fn v now).1 now
  opens : ∀ {due v last now}, Closed due v last → last ≤ now →
    ((fn v now).2.allowed = true ↔ due ≤ now)
  stays : ∀ {due v last now}, Closed due v last → last ≤ now → (fn v now).2.allowed = false →
    Closed due (fn v now).1 now

theorem durationFromSecondsCeil_le_maxDuration (s : ℚ) : durationFromSecondsCeil s ≤ maxDuration := by
  rcases le_or_gt s 0 with hNone | hPos
  · rw [durationFromSecondsCeil, if_pos hNone]
    decide
  · rcases le_or_gt (maxDuration : ℚ) (s * 10 ^ 9) with hMax | hFits
    · simp only [durationFromSecondsCeil, if_neg (not_le.mpr hPos), if_pos hMax]
      exact le_rfl
    · exact durationFromSecondsCeil_le hPos hFits.le

namespace TokenBucket

variable {rates : Rates} {b : Bucket} {due : ℚ} {last now : Int}

/-- Less than a token, refilled at `last`. -/
structure Closed (rates : Rates) (due : ℚ) (b : Bucket) (last : Int) : Prop where
  last_eq : b.lastRefilled = last
  short : b.tokens < 1
  due_eq : due = last + wait rates b
  within : wait rates b ≤ maxDuration

theorem allowed_iff_wait (hClock : b.lastRefilled ≤ now) :
    (refillAndDecide rates b now).2.allowed = true ↔ wait rates b ≤ sub now b.lastRefilled := by
  have hNonneg := sub_nonneg_of_le hClock
  have hFits : sub now b.lastRefilled ≤ maxDuration := by
    simp only [sub, minDuration, maxDuration]
    omega
  have hSame : sub (b.lastRefilled + sub now b.lastRefilled) b.lastRefilled = sub now b.lastRefilled := by
    rw [sub_of_le] <;> simp only [minDuration, maxDuration] at * <;> omega
  rw [← allowed_later_iff b hNonneg hFits, allowed_iff, allowed_iff, refilled, refilled, hSame]

theorem Closed.opens (h : Closed rates due b last) (hClock : last ≤ now) :
    (refillAndDecide rates b now).2.allowed = true ↔ due ≤ now := by
  obtain ⟨rfl, _, hDue, hWithin⟩ := h
  rw [allowed_iff_wait hClock, hDue]
  rcases le_or_gt (now - b.lastRefilled) maxDuration with hNear | hFar
  · have hSub : sub now b.lastRefilled = now - b.lastRefilled := by
      rw [sub_of_le _ hNear]
      simp only [minDuration]
      omega
    rw [hSub]
    push_cast
    constructor <;> intro hLe <;> linarith
  · have hSub : sub now b.lastRefilled = maxDuration := by
      simp only [sub, minDuration, maxDuration] at *
      omega
    have hLate : (maxDuration : ℚ) < now - b.lastRefilled := by exact_mod_cast hFar
    rw [hSub]
    constructor
    · intro _
      linarith
    · exact fun _ => hWithin

/-- What is below a token is not capped. -/
theorem refilled_eq_of_lt (hLess : refilled rates b now < 1) :
    refilled rates b now = b.tokens + seconds (sub now b.lastRefilled) * rates.rate := by
  have hOne := rates.one_le
  rcases min_choice rates.capacity (b.tokens + seconds (sub now b.lastRefilled) * rates.rate) with
    hCap | hFree
  · rw [refilled, hCap] at hLess
    linarith
  · exact hFree

theorem Closed.stays (h : Closed rates due b last) (hClock : last ≤ now)
    (hDenied : (refillAndDecide rates b now).2.allowed = false) :
    Closed rates due (refillAndDecide rates b now).1 now := by
  have hEarly : (now : ℚ) < due := by
    rw [← not_le, ← h.opens hClock, hDenied]
    exact Bool.false_ne_true
  obtain ⟨rfl, _, hDue, hWithin⟩ := h
  have hLess := denied_iff.mp hDenied
  have hGap : (now : ℚ) - b.lastRefilled ≤ maxDuration := by linarith
  have hSub : sub now b.lastRefilled = now - b.lastRefilled := by
    rw [sub_of_le]
    · simp only [minDuration]
      omega
    · exact_mod_cast hGap
  have hWait : wait rates ⟨refilled rates b now, now⟩ = wait rates b - (now - b.lastRefilled) := by
    have hRate := rates.rate_pos.ne'
    rw [wait, wait, refilled_eq_of_lt hLess, hSub, seconds]
    push_cast
    field_simp
    ring
  have hTime : (b.lastRefilled : ℚ) ≤ now := by exact_mod_cast hClock
  rw [(retryAfter_of_denied hDenied).2]
  refine ⟨rfl, hLess, ?_, ?_⟩
  · rw [hWait, hDue]
    ring
  · rw [hWait]
    linarith

theorem closed_of_denied (hDenied : (refillAndDecide rates b now).2.allowed = false)
    (hFits : (refillAndDecide rates b now).2.retryAfter < maxDuration) :
    ∃ due : ℚ, due < now + (refillAndDecide rates b now).2.retryAfter + 1 ∧
      Closed rates due (refillAndDecide rates b now).1 now := by
  obtain ⟨hRetry, hState⟩ := retryAfter_of_denied hDenied
  have hLess := denied_iff.mp hDenied
  have hPos : 0 < (1 - refilled rates b now) / rates.rate := div_pos (by linarith) rates.rate_pos
  have hClose := lt_durationFromSecondsCeil_add hPos (hRetry ▸ hFits)
  rw [← hRetry] at hClose
  have hTolerance := floatEpsilonNanos_lt_one
  have hWhole : ((refillAndDecide rates b now).2.retryAfter : ℚ) + 1 ≤ maxDuration := by exact_mod_cast hFits
  refine ⟨now + wait rates ⟨refilled rates b now, now⟩, ?_, ?_⟩
  · rw [wait]
    linarith
  · rw [hState]
    refine ⟨rfl, hLess, rfl, ?_⟩
    rw [wait]
    linarith

theorem reopens (rates : Rates) :
    Reopens (create rates) (refillAndDecide rates) (fun _ _ => True) (Closed rates) where
  fresh _ := trivial
  keeps _ _ := trivial
  fits {b last now} _ _ := by
    rw [refillAndDecide_eq]
    split
    · show 0 ≤ maxDuration
      decide
    · exact durationFromSecondsCeil_le_maxDuration _
  closes _ _ := closed_of_denied
  opens := Closed.opens
  stays := Closed.stays

end TokenBucket

theorem LeakyBucket.reopens (rates : Rates) : Reopens create (leakAndDecide rates) (fun _ _ => True)
    (fun due b last => TokenBucket.Closed rates due (asTokens rates b) last) := by
  have hTokens := leakAndDecide_asTokens rates
  have hReopens := TokenBucket.reopens rates
  constructor
  · exact fun _ => trivial
  · exact fun _ _ => trivial
  · intro b last now _ hClock
    have hFits := hReopens.fits (v := asTokens rates b) trivial hClock
    rwa [hTokens] at hFits
  · intro b last now _ hClock
    have hCloses := hReopens.closes (v := asTokens rates b) trivial hClock
    rwa [hTokens] at hCloses
  · intro due b last now hClosed hClock
    have hOpens := hReopens.opens hClosed hClock
    rwa [hTokens] at hOpens
  · intro due b last now hClosed hClock
    have hStays := hReopens.stays hClosed hClock
    rwa [hTokens] at hStays

namespace SlidingWindow

variable {sw : SlidingWindow} {state : WindowState} {due : ℚ} {last now : Int}

/-- A full window that opens when its oldest entry leaves. -/
structure Closed (sw : SlidingWindow) (due : ℚ) (state : WindowState) (last : Int) : Prop where
  ordered : Ordered state last
  inside : ∀ x ∈ state.logs, last - sw.window < x
  full : (state.logs.length : Int) = sw.limit
  due_eq : due = (state.logs.getD 0 0 + sw.window : Int)

theorem Closed.opens (h : Closed sw due state last) :
    (sw.recordAndDecide state now).2.allowed = true ↔ due ≤ now := by
  obtain ⟨hOrdered, _, hFull, rfl⟩ := h
  have hPos := sw.limit_pos
  obtain ⟨oldest, rest, hLogs⟩ : ∃ oldest rest, state.logs = oldest :: rest :=
    List.exists_cons_of_length_pos (by omega)
  have hSorted := hOrdered.sorted
  rw [allowed_iff hSorted, ← hFull, hLogs, List.getD_cons_zero, Int.cast_le, Nat.cast_lt,
    List.length_filter_lt_length_iff_exists]
  rw [hLogs] at hSorted
  constructor
  · rintro ⟨x, hx, hOut⟩
    have hLe : oldest ≤ x := by
      rcases List.mem_cons.mp hx with rfl | hRest
      · exact le_rfl
      · exact (List.pairwise_cons.mp hSorted).1 x hRest
    simp only [decide_eq_true_eq] at hOut
    omega
  · intro hLe
    refine ⟨oldest, List.mem_cons_self, ?_⟩
    simp only [decide_eq_true_eq]
    omega

/-- The log that a denial leaves is full of what is in its window. -/
theorem closed_of_denied {allowed : List Int} (hWindow : sw.window ≤ maxDuration)
    (h : sw.Reflects allowed state last) (hClock : last ≤ now)
    (hDenied : (sw.recordAndDecide state now).2.allowed = false) :
    Closed sw (now + (sw.recordAndDecide state now).2.retryAfter) (sw.recordAndDecide state now).1 now := by
  have hSorted := h.ordered.sorted
  have hFull := not_lt.mp (mt (allowed_iff hSorted).mpr (by rw [hDenied]; exact Bool.false_ne_true))
  obtain ⟨hLogs, hResult⟩ := record_deny hSorted hFull
  have hAfter := h.record hClock
  have hInside : ∀ x ∈ (sw.recordAndDecide state now).1.logs, now - sw.window < x := by
    rw [hLogs]
    intro x hx
    simpa using (List.mem_filter.mp hx).2
  have hLength : ((sw.recordAndDecide state now).1.logs.length : Int) = sw.limit := by
    have hShort := hAfter.short
    rw [hLogs] at hShort ⊢
    omega
  refine ⟨hAfter.ordered, hInside, hLength, ?_⟩
  have hPos := sw.limit_pos
  obtain ⟨oldest, rest, hCons⟩ : ∃ oldest rest, (sw.recordAndDecide state now).1.logs = oldest :: rest :=
    List.exists_cons_of_length_pos (by omega)
  have hIn := hInside oldest (by simp [hCons])
  have hLe := hAfter.ordered.le_last oldest (by simp [hCons])
  have hRetry : (sw.recordAndDecide state now).2.retryAfter = oldest + sw.window - now := by
    rw [hResult, ← hLogs, hCons, List.getD_cons_zero]
    refine sub_of_le ?_ ?_
    · simp only [minDuration]
      omega
    · omega
  rw [hRetry, hCons, List.getD_cons_zero]
  push_cast
  ring

theorem Closed.stays (h : Closed sw due state last) (hClock : last ≤ now)
    (hDenied : (sw.recordAndDecide state now).2.allowed = false) :
    Closed sw due (sw.recordAndDecide state now).1 now := by
  have hSorted := h.ordered.sorted
  have hRoom : ¬ ((state.logs.filter fun x => now - sw.window < x).length : Int) < sw.limit := by
    rw [← allowed_iff hSorted, hDenied]
    exact Bool.false_ne_true
  have hAll : state.logs.filter (fun x => now - sw.window < x) = state.logs := by
    refine List.filter_eq_self.mpr (List.length_filter_eq_length_iff.mp ?_)
    have hLe := List.length_filter_le (fun x => decide (now - sw.window < x)) state.logs
    have hFull := h.full
    omega
  have hLogs : (sw.recordAndDecide state now).1.logs = state.logs :=
    (record_deny hSorted (not_lt.mp hRoom)).1.trans hAll
  refine ⟨h.ordered.record hClock, ?_, by rw [hLogs]; exact h.full, by rw [hLogs]; exact h.due_eq⟩
  rw [hLogs]
  intro x hx
  simpa using List.filter_eq_self.mp hAll x hx

theorem reopens (sw : SlidingWindow) (hWindow : sw.window ≤ maxDuration) :
    Reopens (fun _ => .new) sw.recordAndDecide (fun state last => ∃ allowed, sw.Reflects allowed state last)
      (Closed sw) where
  fresh now := ⟨[], .new now⟩
  keeps := by
    rintro state last now ⟨allowed, hCovers⟩ hClock
    exact ⟨_, hCovers.record hClock⟩
  fits {state last now} _ _ := by
    dsimp only [recordAndDecide]
    split
    · show 0 ≤ maxDuration
      decide
    · simp only [sub, minDuration, maxDuration]
      omega
  closes := by
    rintro state last now ⟨allowed, hCovers⟩ hClock hDenied _
    exact ⟨_, lt_add_one _, closed_of_denied hWindow hCovers hClock hDenied⟩
  opens h _ := h.opens
  stays := Closed.stays

end SlidingWindow

end Kaka.Memory
