import Kaka.Memory.SlidingWindowLimit
import Mathlib.Order.Bounds.Basic

/-! # The sliding window against its definition

On readings that do not decrease the log is the list of the allowed readings
in the window of the last request, so the decision is the one the
definition of the limiter asks for, and a denied request is told the first
instant at which it would be allowed.
-/

namespace Kaka.Memory.SlidingWindow

variable {sw : SlidingWindow} {allowed : List Int} {state : WindowState} {last now : Int}

def inWindow (sw : SlidingWindow) (allowed : List Int) (now : Int) : List Int :=
  allowed.filter fun x => now - sw.window < x ∧ x ≤ now

/-- The log after a request at `last`. -/
structure Reflects (sw : SlidingWindow) (allowed : List Int) (state : WindowState) (last : Int) :
    Prop where
  ordered : Ordered state last
  logs : state.logs = allowed.filter fun x => last - sw.window < x
  le_last : ∀ x ∈ allowed, x ≤ last
  short : state.logs.length ≤ sw.limit

theorem Reflects.new (last : Int) : sw.Reflects [] .new last where
  ordered := .new last
  logs := rfl
  le_last := by simp
  short := sw.limit_pos.le

theorem Reflects.filter_logs (h : sw.Reflects allowed state last) (hTime : last ≤ now) :
    state.logs.filter (fun x => now - sw.window < x) =
      allowed.filter fun x => now - sw.window < x := by
  rw [h.logs, List.filter_filter]
  refine List.filter_congr fun x _ => ?_
  rw [← Bool.decide_and, decide_eq_decide]
  omega

theorem Reflects.filter_eq_inWindow (h : sw.Reflects allowed state last) (hTime : last ≤ now) :
    state.logs.filter (fun x => now - sw.window < x) = sw.inWindow allowed now := by
  rw [h.filter_logs hTime, inWindow]
  refine List.filter_congr fun x hx => ?_
  have := h.le_last x hx
  rw [decide_eq_decide]
  omega

theorem Reflects.record (h : sw.Reflects allowed state last) (hTime : last ≤ now) :
    sw.Reflects (allowed ++ if (sw.recordAndDecide state now).2.allowed then [now] else [])
      (sw.recordAndDecide state now).1 now := by
  have hOrdered : Ordered (sw.recordAndDecide state now).1 now := h.ordered.record hTime
  have hPast : ∀ x ∈ allowed, x ≤ now := fun x hx => (h.le_last x hx).trans hTime
  rcases lt_or_ge ((state.logs.filter fun x => now - sw.window < x).length : Int) sw.limit with
    hRoom | hFull
  · obtain ⟨hLogs, hResult⟩ := record_allow h.ordered.sorted hRoom
    rw [hResult, if_pos rfl]
    refine ⟨hOrdered, ?_, ?_, ?_⟩
    · have hNow : [now].filter (fun x => now - sw.window < x) = [now] := by
        simp [sw.window_pos]
      rw [hLogs, h.filter_logs hTime, List.filter_append, hNow]
    · intro x hx
      rcases List.mem_append.mp hx with hOld | hNew
      · exact hPast x hOld
      · exact (List.mem_singleton.mp hNew).le
    · rw [hLogs, List.length_append, List.length_singleton]
      omega
  · obtain ⟨hLogs, hResult⟩ := record_deny h.ordered.sorted hFull
    rw [hResult, if_neg Bool.false_ne_true, List.append_nil]
    refine ⟨hOrdered, hLogs.trans (h.filter_logs hTime), hPast, ?_⟩
    have hSub := List.length_filter_le (fun x => decide (now - sw.window < x)) state.logs
    have hShort := h.short
    rw [hLogs]
    omega

theorem reflects_after (sw : SlidingWindow) (before : List Int) (hClock : (before ++ [now]).Pairwise (· ≤ ·)) :
    ∃ last ≤ now, sw.Reflects (allowedReadings (serve sw.recordAndDecide .new before))
      (after sw.recordAndDecide .new before) last := by
  induction before using List.reverseRecOn generalizing now with
  | nil => exact ⟨now, le_rfl, .new now⟩
  | append_singleton before x ih =>
    rw [List.append_assoc, List.pairwise_append] at hClock
    obtain ⟨hBefore, hLast, hOrder⟩ := hClock
    have hPrefix : (before ++ [x]).Pairwise (· ≤ ·) := by
      refine List.pairwise_append.mpr ⟨hBefore, List.pairwise_singleton _ _, ?_⟩
      intro y hy z hz
      exact hOrder y hy z (List.mem_append_left _ hz)
    obtain ⟨last, hTime, hReflects⟩ := ih hPrefix
    refine ⟨x, (List.pairwise_cons.mp hLast).1 now (by simp), ?_⟩
    rw [serve_snoc, allowedReadings_snoc, after_snoc]
    exact hReflects.record hTime

/-! ## The wait of a denied request -/

/-- A full log makes room when its oldest entry leaves the window, and not before. -/
theorem isLeast_wait (h : Ordered state now) (hIn : ∀ x ∈ state.logs, now - sw.window < x)
    (hFull : (state.logs.length : Int) = sw.limit) (hWindow : sw.window ≤ maxDuration) :
    IsLeast {d : Int | 0 < d ∧ (sw.recordAndDecide state (now + d)).2.allowed = true}
      (sub (state.logs.getD 0 0 + sw.window) now) := by
  have hPos := sw.limit_pos
  obtain ⟨oldest, rest, hLogs⟩ : ∃ oldest rest, state.logs = oldest :: rest :=
    List.exists_cons_of_length_pos (by omega)
  have hSorted := h.sorted
  rw [hLogs] at hSorted
  have hOldest : now - sw.window < oldest ∧ oldest ≤ now :=
    ⟨hIn oldest (by simp [hLogs]), h.le_last oldest (by simp [hLogs])⟩
  have hWait : sub (state.logs.getD 0 0 + sw.window) now = oldest + sw.window - now := by
    rw [hLogs, List.getD_cons_zero]
    refine sub_of_le ?_ ?_
    · simp only [minDuration]
      omega
    · omega
  rw [hWait]
  constructor
  · refine ⟨by omega, (allowed_iff h.sorted).mpr ?_⟩
    rw [hLogs, List.filter_cons_of_neg (by simp)]
    have hRest := List.length_filter_le
      (fun x => decide (now + (oldest + sw.window - now) - sw.window < x)) rest
    rw [hLogs, List.length_cons] at hFull
    omega
  · rintro d ⟨_, hAllowed⟩
    by_contra hEarly
    have hRoom := (allowed_iff h.sorted).mp hAllowed
    rw [List.filter_eq_self.mpr, hFull] at hRoom
    · omega
    · intro x hx
      rw [hLogs] at hx
      have hLe : oldest ≤ x := by
        rcases List.mem_cons.mp hx with rfl | hx
        · exact le_rfl
        · exact (List.pairwise_cons.mp hSorted).1 x hx
      simp only [decide_eq_true_eq]
      omega

theorem matches_reference (sw : SlidingWindow) (hWindow : sw.window ≤ maxDuration)
    (before : List Int) (now : Int) (hClock : (before ++ [now]).Pairwise (· ≤ ·)) :
    let inWindow := sw.inWindow (allowedReadings (serve sw.recordAndDecide .new before)) now
    let out := sw.recordAndDecide (after sw.recordAndDecide .new before) now
    (out.2.allowed = true ↔ (inWindow.length : Int) < sw.limit) ∧
      (out.2.allowed = true →
        out.2.remaining = sw.limit - inWindow.length - 1 ∧ out.2.retryAfter = 0) ∧
      (out.2.allowed = false → out.2.remaining = 0 ∧
        IsLeast {d : Int | 0 < d ∧ (sw.recordAndDecide out.1 (now + d)).2.allowed = true}
          out.2.retryAfter) := by
  obtain ⟨last, hTime, hReflects⟩ := reflects_after sw before hClock
  have hSorted := hReflects.ordered.sorted
  have hAfter := hReflects.record hTime
  have hCount := hReflects.filter_eq_inWindow hTime
  simp only [← hCount]
  refine ⟨allowed_iff hSorted, ?_, ?_⟩
  · intro hAllowed
    rw [(record_allow hSorted ((allowed_iff hSorted).mp hAllowed)).2]
    exact ⟨rfl, rfl⟩
  · intro hDenied
    have hFull := not_lt.mp (mt (allowed_iff hSorted).mpr (by rw [hDenied]; exact Bool.false_ne_true))
    obtain ⟨hLogs, hResult⟩ := record_deny hSorted hFull
    rw [hResult, ← hLogs]
    refine ⟨rfl, isLeast_wait hAfter.ordered ?_ ?_ hWindow⟩
    · rw [hLogs]
      intro x hx
      simpa using (List.mem_filter.mp hx).2
    · have hShort := hAfter.short
      rw [hLogs] at hShort ⊢
      omega

theorem matches_reference_two :
    let out := two.recordAndDecide (after two.recordAndDecide .new [1, 1]) 2
    out.2 = ⟨false, 0, 4⟩ ∧
      IsLeast {d : Int | 0 < d ∧ (two.recordAndDecide out.1 (2 + d)).2.allowed = true} 4 := by
  have hDenied : (two.recordAndDecide (after two.recordAndDecide .new [1, 1]) 2).2 =
      ⟨false, 0, 4⟩ := by
    decide +kernel
  obtain ⟨_, _, hWait⟩ := matches_reference two (by decide) [1, 1] 2 (by decide)
  have hLeast := (hWait (by rw [hDenied])).2
  rw [hDenied] at hLeast
  exact ⟨hDenied, hLeast⟩

end Kaka.Memory.SlidingWindow
