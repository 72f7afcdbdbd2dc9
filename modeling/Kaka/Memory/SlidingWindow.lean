import Kaka.Limiter
import Mathlib.Data.List.GetD
import Mathlib.Data.List.Pairwise

/-! # The in-memory sliding window log

The state of a key is the log of its allowed requests, a slice with a
length and a capacity.  The log is pruned by a binary search, which finds
the first entry inside the window only where the log is sorted.
-/

namespace Kaka.Memory

/-- `NewSlidingWindow` panics on any other limit or window. -/
structure SlidingWindow where
  limit : Int
  window : Int
  limit_pos : 0 < limit
  window_pos : 0 < window

structure WindowState where
  logs : List Int
  cap : Nat
  deriving DecidableEq

def WindowState.new : WindowState := ⟨[], 0⟩

/-- The loop of `recordAndDecide`; `stop` is `right + 1`. -/
def search (logs : List Int) (windowStart : Int) (left stop validIndex : Nat) : Nat :=
  if left < stop then
    let mid := left + (stop - 1 - left) / 2
    if windowStart < logs.getD mid 0 then search logs windowStart left mid mid
    else search logs windowStart (mid + 1) stop validIndex
  else validIndex
termination_by stop - left

def appendWindowLog (state : WindowState) (now limit : Int) : WindowState :=
  if state.logs.length < state.cap then ⟨state.logs ++ [now], state.cap⟩
  else
    let newCap := state.cap * 2
    let newCap := if newCap < 1 then 1 else newCap
    let newCap := if limit < newCap then limit.toNat else newCap
    let newCap := if newCap < state.logs.length + 1 then state.logs.length + 1 else newCap
    ⟨state.logs ++ [now], newCap⟩

namespace SlidingWindow

/-- The entries from the first valid index on, copied to the front of the
same backing array. -/
def prune (state : WindowState) (windowStart : Int) : WindowState :=
  let validIndex := search state.logs windowStart 0 state.logs.length state.logs.length
  ⟨state.logs.drop validIndex, state.cap⟩

def recordAndDecide (sw : SlidingWindow) (state : WindowState) (now : Int) :
    WindowState × Result :=
  let state := prune state (now - sw.window)
  if state.logs.length < sw.limit then
    let state := appendWindowLog state now sw.limit
    (state, ⟨true, sw.limit - state.logs.length, 0⟩)
  else (state, ⟨false, 0, sub (state.logs.getD 0 0 + sw.window) now⟩)

end SlidingWindow

@[simp] theorem appendWindowLog_logs (state : WindowState) (now limit : Int) :
    (appendWindowLog state now limit).logs = state.logs ++ [now] := by
  unfold appendWindowLog
  split <;> rfl

/-! ## The binary search on a sorted log -/

section Search

variable {logs : List Int} {windowStart : Int}

/-- `k` separates the entries outside the window from those inside it. -/
structure Separates (logs : List Int) (windowStart : Int) (k : Nat) : Prop where
  below : ∀ i < k, ∀ x, logs[i]? = some x → x ≤ windowStart
  above : ∀ i, k ≤ i → ∀ x, logs[i]? = some x → windowStart < x

theorem search_separates (hSorted : logs.Pairwise (· ≤ ·)) {left stop : Nat}
    (hStop : stop ≤ logs.length) (hLeft : left ≤ stop)
    (hBelow : ∀ i < left, ∀ x, logs[i]? = some x → x ≤ windowStart)
    (hAbove : ∀ i, stop ≤ i → ∀ x, logs[i]? = some x → windowStart < x) :
    Separates logs windowStart (search logs windowStart left stop stop) := by
  -- the valid index is `stop` all along; the interval between the bounds shrinks
  induction hGap : stop - left using Nat.strong_induction_on generalizing left stop with
  | _ gap ih =>
    unfold search
    split
    · rename_i hLt
      have hMid : left + (stop - 1 - left) / 2 < logs.length := by omega
      have hGet : logs.getD (left + (stop - 1 - left) / 2) 0 =
          logs.get ⟨left + (stop - 1 - left) / 2, hMid⟩ := by
        rw [List.getD_eq_getElem _ _ hMid]
        rfl
      dsimp only
      split
      · rename_i hAfter
        refine ih _ (by omega) (by omega) (by omega) hBelow ?_ rfl
        intro i hi x hx
        obtain ⟨hLength, rfl⟩ := List.getElem?_eq_some_iff.mp hx
        rw [hGet] at hAfter
        exact lt_of_lt_of_le hAfter (hSorted.rel_get_of_le hi)
      · rename_i hNot
        refine ih _ (by omega) hStop (by omega) ?_ hAbove rfl
        intro i hi x hx
        obtain ⟨hLength, rfl⟩ := List.getElem?_eq_some_iff.mp hx
        rw [hGet, not_lt] at hNot
        exact le_trans (hSorted.rel_get_of_le (Nat.lt_succ_iff.mp hi)) hNot
    · obtain rfl : left = stop := by omega
      exact ⟨hBelow, hAbove⟩

theorem Separates.filter {k : Nat} (h : Separates logs windowStart k) :
    logs.drop k = logs.filter fun x => windowStart < x := by
  have hTake : (logs.take k).filter (fun x => windowStart < x) = [] := by
    refine List.filter_eq_nil_iff.mpr fun x hx => ?_
    obtain ⟨i, hi⟩ := List.mem_iff_getElem?.mp hx
    rw [List.getElem?_take] at hi
    split at hi
    · have := h.below i ‹_› x hi
      simpa using this
    · cases hi
  have hDrop : (logs.drop k).filter (fun x => windowStart < x) = logs.drop k := by
    refine List.filter_eq_self.mpr fun x hx => ?_
    obtain ⟨i, hi⟩ := List.mem_iff_getElem?.mp hx
    rw [List.getElem?_drop] at hi
    simpa using h.above (k + i) (by omega) x hi
  calc logs.drop k = (logs.take k ++ logs.drop k).filter fun x => windowStart < x := by
        rw [List.filter_append, hTake, hDrop, List.nil_append]
    _ = logs.filter fun x => windowStart < x := by rw [List.take_append_drop]

theorem prune_logs {state : WindowState} (hSorted : state.logs.Pairwise (· ≤ ·))
    (windowStart : Int) :
    (SlidingWindow.prune state windowStart).logs = state.logs.filter fun x => windowStart < x := by
  refine (search_separates hSorted le_rfl (Nat.zero_le _) ?_ ?_).filter
  · intro i hi
    omega
  · intro i hi x hx
    rw [List.getElem?_eq_none hi] at hx
    cases hx

end Search

/-! ## The decision -/

namespace SlidingWindow

variable {sw : SlidingWindow} {state : WindowState} {now : Int}

theorem record_allow (hSorted : state.logs.Pairwise (· ≤ ·))
    (hRoom : ((state.logs.filter fun x => now - sw.window < x).length : Int) < sw.limit) :
    (sw.recordAndDecide state now).1.logs =
        (state.logs.filter fun x => now - sw.window < x) ++ [now] ∧
      (sw.recordAndDecide state now).2 =
        ⟨true, sw.limit - (state.logs.filter fun x => now - sw.window < x).length - 1, 0⟩ := by
  have hPrune := prune_logs hSorted (now - sw.window)
  have hBranch : ((prune state (now - sw.window)).logs.length : Int) < sw.limit := by
    rw [hPrune]
    exact hRoom
  rw [recordAndDecide, if_pos hBranch]
  simp only [appendWindowLog_logs, hPrune, List.length_append, List.length_singleton, Nat.cast_add,
    Nat.cast_one, true_and]
  congr 1
  omega

theorem record_deny (hSorted : state.logs.Pairwise (· ≤ ·))
    (hFull : sw.limit ≤ (state.logs.filter fun x => now - sw.window < x).length) :
    (sw.recordAndDecide state now).1.logs = (state.logs.filter fun x => now - sw.window < x) ∧
      (sw.recordAndDecide state now).2 =
        ⟨false, 0, sub ((state.logs.filter fun x => now - sw.window < x).getD 0 0 + sw.window) now⟩ := by
  have hPrune := prune_logs hSorted (now - sw.window)
  have hBranch : ¬ ((prune state (now - sw.window)).logs.length : Int) < sw.limit := by
    rw [hPrune]
    omega
  rw [recordAndDecide, if_neg hBranch]
  exact ⟨hPrune, by rw [hPrune]⟩

theorem allowed_iff (hSorted : state.logs.Pairwise (· ≤ ·)) :
    (sw.recordAndDecide state now).2.allowed = true ↔
      ((state.logs.filter fun x => now - sw.window < x).length : Int) < sw.limit := by
  constructor
  · intro hAllowed
    by_contra hFull
    rw [(record_deny hSorted (not_lt.mp hFull)).2] at hAllowed
    cases hAllowed
  · intro hRoom
    rw [(record_allow hSorted hRoom).2]

/-- Only the log decides, not the capacity of its backing array. -/
theorem record_congr {state' : WindowState} (hLogs : state.logs = state'.logs) :
    (sw.recordAndDecide state now).2 = (sw.recordAndDecide state' now).2 ∧
      (sw.recordAndDecide state now).1.logs = (sw.recordAndDecide state' now).1.logs := by
  have hPrune : (prune state (now - sw.window)).logs = (prune state' (now - sw.window)).logs := by
    simp only [prune, hLogs]
  simp only [recordAndDecide, hPrune]
  split
  · simp only [appendWindowLog_logs, hPrune, and_self]
  · exact ⟨rfl, hPrune⟩

/-- The log of requests served in the order of their readings, the last of
them at `last`. -/
structure Ordered (state : WindowState) (last : Int) : Prop where
  sorted : state.logs.Pairwise (· ≤ ·)
  le_last : ∀ x ∈ state.logs, x ≤ last

theorem Ordered.new (last : Int) : Ordered .new last where
  sorted := .nil
  le_last := by simp [WindowState.new]

theorem Ordered.record {last : Int} (h : Ordered state last) (hTime : last ≤ now) :
    Ordered (sw.recordAndDecide state now).1 now := by
  have hKept : ∀ x ∈ state.logs.filter (fun x => now - sw.window < x), x ≤ now :=
    fun x hx => (h.le_last x (List.mem_filter.mp hx).1).trans hTime
  rcases lt_or_ge ((state.logs.filter fun x => now - sw.window < x).length : Int) sw.limit with
    hRoom | hFull
  · obtain ⟨hLogs, _⟩ := record_allow h.sorted hRoom
    constructor
    · rw [hLogs]
      refine List.pairwise_append.mpr ⟨h.sorted.filter _, List.pairwise_singleton _ _, ?_⟩
      intro x hx y hy
      rw [List.mem_singleton.mp hy]
      exact hKept x hx
    · rw [hLogs]
      intro x hx
      rcases List.mem_append.mp hx with hOld | hNew
      · exact hKept x hOld
      · exact (List.mem_singleton.mp hNew).le
  · obtain ⟨hLogs, _⟩ := record_deny h.sorted hFull
    constructor
    · rw [hLogs]
      exact h.sorted.filter _
    · rw [hLogs]
      exact hKept

end SlidingWindow

end Kaka.Memory
