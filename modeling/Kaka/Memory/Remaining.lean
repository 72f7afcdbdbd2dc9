import Kaka.Memory.Recovery

/-! # What the remaining allowance says

After an allowed request `Remaining` is the number of requests that the same
instant still has room for.  The three limiters round it in their own way:
the token bucket and the leaky bucket take the whole part of a level, the
sliding window counts its log.  The conversion of a level to `int64` is
only defined below `2 ^ 63`, which the capacity decides.
-/

namespace Kaka.Memory

/-! ## The promise to the next requests -/

section Promise

variable {σ : Type} {create : Int → σ} {fn : σ → Int → σ × Result}

/-- `k` requests at one instant with room for `m`: decisions and remainders. -/
def countdown (m : Int) (k : Nat) : List (Bool × Int) :=
  (List.range k).map fun i : Nat => if i < m then (true, m - 1 - i) else (false, 0)

/-- After an allowed request the next ones at its instant count its remainder down. -/
def KeepsPromise (create : Int → σ) (fn : σ → Int → σ × Result) : Prop :=
  ∀ (before : List Int) (now : Int), (before ++ [now]).Pairwise (· ≤ ·) →
    let out := fn (found create fn before now) now
    out.2.allowed = true → ∀ k, (serve fn out.1 (List.replicate k now)).map
      (fun x => (x.2.allowed, x.2.remaining)) = countdown out.2.remaining k

/-- In a state with `C v m` the instant has room for `m` more requests. -/
structure Counts (fn : σ → Int → σ × Result) (now : Int) (C : σ → Int → Prop) : Prop where
  nonneg {v m} : C v m → 0 ≤ m
  room {v m} : C v m → 0 < m → (fn v now).2.allowed = true ∧ (fn v now).2.remaining = m - 1 ∧
    C (fn v now).1 (m - 1)
  full {v} : C v 0 → (fn v now).2.allowed = false ∧ (fn v now).2.remaining = 0 ∧ C (fn v now).1 0

theorem countdown_succ {m : Int} (hPos : 0 < m) (k : Nat) :
    countdown m (k + 1) = (true, m - 1) :: countdown (m - 1) k := by
  rw [countdown, List.range_succ_eq_map, List.map_cons, List.map_map]
  congr 1
  · simp [hPos]
  · apply List.map_congr_left
    intro i _
    have hIff : ((i + 1 : Nat) : Int) < m ↔ (i : Int) < m - 1 := by omega
    have hRest : m - 1 - ((i + 1 : Nat) : Int) = m - 1 - 1 - i := by omega
    simp only [Function.comp, Nat.succ_eq_add_one, hIff, hRest]

theorem countdown_zero_succ (k : Nat) : countdown 0 (k + 1) = (false, 0) :: countdown 0 k := by
  have hNone : ∀ k, countdown 0 k = List.replicate k (false, 0) := by
    intro k
    have hNot : ∀ i : Nat, ¬ (i : Int) < 0 := by omega
    simp only [countdown, hNot, if_false, List.map_const', List.length_range]
  rw [hNone, hNone, List.replicate_succ]

theorem Counts.serve {now : Int} {C : σ → Int → Prop} (h : Counts fn now C) {v : σ} {m : Int}
    (hCount : C v m) (k : Nat) :
    (serve fn v (List.replicate k now)).map (fun x => (x.2.allowed, x.2.remaining)) =
      countdown m k := by
  induction k generalizing v m with
  | zero => rfl
  | succ k ih =>
    rw [List.replicate_succ, serve_cons, List.map_cons]
    rcases (h.nonneg hCount).eq_or_lt with rfl | hPos
    · obtain ⟨hDenied, hRemaining, hNext⟩ := h.full hCount
      rw [ih hNext, countdown_zero_succ, hDenied, hRemaining]
    · obtain ⟨hAllowed, hRemaining, hNext⟩ := h.room hCount hPos
      rw [ih hNext, countdown_succ hPos, hAllowed, hRemaining]

end Promise

/-! ## The buckets -/

namespace TokenBucket

variable {tb : Rates} {b : Bucket} {now : Int}

/-- A refilled bucket holds `m` whole tokens. -/
structure HasTokens (tb : Rates) (now : Int) (b : Bucket) (m : Int) : Prop where
  last_eq : b.lastRefilled = now
  nonneg : 0 ≤ b.tokens
  le_capacity : b.tokens ≤ tb.capacity
  floor_eq : ⌊b.tokens⌋ = m

theorem HasTokens.refilled_eq {m : Int} (h : HasTokens tb now b m) : refilled tb b now = b.tokens := by
  rw [refilled, h.last_eq, sub_self, seconds, Int.cast_zero, zero_div, zero_mul, add_zero,
    min_eq_right h.le_capacity]

theorem remaining_of_allowed (hCapacity : tb.capacity < 2 ^ 63 + 1)
    (hAllowed : (refillAndDecide tb b now).2.allowed = true) :
    (refillAndDecide tb b now).2.remaining = ⌊(refillAndDecide tb b now).1.tokens⌋ := by
  have hOne := allowed_iff.mp hAllowed
  have hCap := refilled_le tb b now
  rw [refillAndDecide_eq, if_pos hOne]
  exact remainingFloor_eq (by linarith) (by linarith)

theorem hasTokens_of_allowed (hCapacity : tb.capacity < 2 ^ 63 + 1)
    (hAllowed : (refillAndDecide tb b now).2.allowed = true) :
    HasTokens tb now (refillAndDecide tb b now).1 (refillAndDecide tb b now).2.remaining := by
  have hOne := allowed_iff.mp hAllowed
  have hCap := refilled_le tb b now
  have hTokens : (refillAndDecide tb b now).1.tokens = refilled tb b now - 1 := by
    rw [tokens_refill, if_pos hAllowed]
  refine ⟨lastRefilled_refill, ?_, ?_, (remaining_of_allowed hCapacity hAllowed).symm⟩
  · linarith
  · linarith

theorem counts (hCapacity : tb.capacity < 2 ^ 63 + 1) (now : Int) :
    Counts (refillAndDecide tb) now (HasTokens tb now) where
  nonneg h := h.floor_eq ▸ Int.floor_nonneg.mpr h.nonneg
  room {b m} h hPos := by
    have hOne : 1 ≤ b.tokens := by
      have hFloor : 1 ≤ ⌊b.tokens⌋ := by
        rw [h.floor_eq]
        omega
      exact_mod_cast Int.le_floor.mp hFloor
    have hAllowed : (refillAndDecide tb b now).2.allowed = true :=
      allowed_iff.mpr (h.refilled_eq ▸ hOne)
    have hHas := hasTokens_of_allowed hCapacity hAllowed
    have hRemaining : (refillAndDecide tb b now).2.remaining = m - 1 := by
      rw [remaining_of_allowed hCapacity hAllowed, tokens_refill, if_pos hAllowed, h.refilled_eq,
        Int.floor_sub_one, h.floor_eq]
    exact ⟨hAllowed, hRemaining, hRemaining ▸ hHas⟩
  full {b} h := by
    have hLess : b.tokens < 1 := by
      have hFloor : ⌊b.tokens⌋ < 1 := by
        rw [h.floor_eq]
        exact zero_lt_one
      exact_mod_cast Int.floor_lt.mp hFloor
    rw [refillAndDecide_eq, h.refilled_eq, if_neg (not_le.mpr hLess)]
    exact ⟨rfl, rfl, rfl, h.nonneg, h.le_capacity, h.floor_eq⟩

theorem keepsPromise (hCapacity : tb.capacity < 2 ^ 63 + 1) :
    KeepsPromise (create tb) (refillAndDecide tb) := by
  intro before now _ out hAllowed
  exact (counts hCapacity now).serve (hasTokens_of_allowed hCapacity hAllowed)

end TokenBucket

theorem LeakyBucket.keepsPromise {lb : Rates} (hCapacity : lb.capacity < 2 ^ 63 + 1) :
    KeepsPromise create (leakAndDecide lb) := by
  intro before now _ out hAllowed k
  have hTokens := leakAndDecide_asTokens lb (found create (leakAndDecide lb) before now) now
  rw [← serve_map (leakAndDecide_asTokens lb)]
  have hHas := TokenBucket.hasTokens_of_allowed hCapacity
    (b := asTokens lb (found create (leakAndDecide lb) before now)) (by rw [hTokens]; exact hAllowed)
  rw [hTokens] at hHas
  exact (TokenBucket.counts hCapacity now).serve hHas k

/-! ## The sliding window -/

namespace SlidingWindow

variable {sw : SlidingWindow} {state : WindowState} {now : Int}

/-- The log lies in the window of `now` and has room for `m` entries. -/
structure Room (sw : SlidingWindow) (now : Int) (state : WindowState) (m : Int) : Prop where
  ordered : Ordered state now
  inside : ∀ x ∈ state.logs, now - sw.window < x
  nonneg : 0 ≤ m
  length_eq : state.logs.length = sw.limit - m

theorem Room.filter_eq {m : Int} (h : Room sw now state m) :
    state.logs.filter (fun x => now - sw.window < x) = state.logs :=
  List.filter_eq_self.mpr fun x hx => decide_eq_true (h.inside x hx)

theorem room_of_allowed {last : Int} (h : Ordered state last) (hTime : last ≤ now)
    (hAllowed : (sw.recordAndDecide state now).2.allowed = true) :
    Room sw now (sw.recordAndDecide state now).1 (sw.recordAndDecide state now).2.remaining := by
  have hRoom := (allowed_iff h.sorted).mp hAllowed
  obtain ⟨hLogs, hResult⟩ := record_allow h.sorted hRoom
  have hWindow := sw.window_pos
  refine ⟨h.record hTime, ?_, ?_, ?_⟩
  · rw [hLogs]
    intro x hx
    rcases List.mem_append.mp hx with hOld | hNew
    · simpa using (List.mem_filter.mp hOld).2
    · rw [List.mem_singleton.mp hNew]
      omega
  · rw [hResult]
    dsimp only
    omega
  · rw [hLogs, hResult, List.length_append, List.length_singleton]
    push_cast
    ring

theorem counts (sw : SlidingWindow) (now : Int) :
    Counts sw.recordAndDecide now (Room sw now) where
  nonneg h := h.nonneg
  room {state m} h hPos := by
    have hLength := h.length_eq
    have hRoom : ((state.logs.filter fun x => now - sw.window < x).length : Int) < sw.limit := by
      rw [h.filter_eq]
      omega
    obtain ⟨_, hResult⟩ := record_allow h.ordered.sorted hRoom
    have hAllowed : (sw.recordAndDecide state now).2.allowed = true := by rw [hResult]
    have hRemaining : (sw.recordAndDecide state now).2.remaining = m - 1 := by
      rw [hResult, h.filter_eq]
      dsimp only
      omega
    exact ⟨hAllowed, hRemaining, hRemaining ▸ room_of_allowed h.ordered le_rfl hAllowed⟩
  full {state} h := by
    have hLength := h.length_eq
    have hFull : sw.limit ≤ (state.logs.filter fun x => now - sw.window < x).length := by
      rw [h.filter_eq]
      omega
    obtain ⟨hLogs, hResult⟩ := record_deny h.ordered.sorted hFull
    rw [h.filter_eq] at hLogs
    refine ⟨by rw [hResult], by rw [hResult], h.ordered.record le_rfl, ?_, le_rfl, ?_⟩
    · rw [hLogs]
      exact h.inside
    · rw [hLogs]
      exact hLength

theorem keepsPromise (sw : SlidingWindow) : KeepsPromise (fun _ => .new) sw.recordAndDecide := by
  intro before now hClock out hAllowed
  obtain ⟨last, hTime, hOrdered⟩ := found_induct (I := Ordered) Ordered.new
    (fun _ _ _ h hTime => h.record hTime) hClock
  exact (counts sw now).serve (room_of_allowed hOrdered hTime hAllowed)

end SlidingWindow

/-- Of the requests that follow an allowed one at its instant exactly as many are
allowed as it said. -/
theorem remaining_truthful :
    (∀ rates : Rates, rates.capacity < 2 ^ 63 →
      KeepsPromise (TokenBucket.create rates) (TokenBucket.refillAndDecide rates) ∧
      KeepsPromise LeakyBucket.create (LeakyBucket.leakAndDecide rates)) ∧
    ∀ sw : SlidingWindow, KeepsPromise (fun _ => .new) sw.recordAndDecide := by
  constructor
  · intro rates hCapacity
    have hWide : rates.capacity < 2 ^ 63 + 1 := by linarith
    exact ⟨TokenBucket.keepsPromise hWide, LeakyBucket.keepsPromise hWide⟩
  · exact SlidingWindow.keepsPromise

/-- A bucket of two tokens: after the first request one more is allowed. -/
theorem remaining_truthful_onePerSecond :
    (serve (TokenBucket.refillAndDecide .onePerSecond)
        (TokenBucket.refillAndDecide .onePerSecond (TokenBucket.create .onePerSecond 5) 5).1
        [5, 5, 5]).map (fun x => (x.2.allowed, x.2.remaining)) =
      [(true, 0), (false, 0), (false, 0)] := by
  have hSmall : Rates.onePerSecond.capacity < 2 ^ 63 := by norm_num [Rates.onePerSecond]
  have hRemaining : (TokenBucket.refillAndDecide .onePerSecond
      (TokenBucket.create .onePerSecond 5) 5).2 = ⟨true, 1, 0⟩ := by
    decide +kernel
  have hCount := ((remaining_truthful.1 .onePerSecond hSmall).1 [] 5 (by simp)
    (by rw [found, hRemaining]) 3)
  rw [found, hRemaining] at hCount
  exact hCount

/-! ## The range of the conversion -/

/-- Every level that `remainingFloor` converts is in the range of `int64`, and
what comes out is between zero and the capacity. -/
def TokenBucket.RemainingFits (tb : Rates) : Prop :=
  ∀ now rest, ∀ x ∈ trace (refillAndDecide tb) (create tb now) (now :: rest),
    (x.2.2.allowed = true → x.2.1.tokens < 2 ^ 63) ∧
      0 ≤ x.2.2.remaining ∧ (x.2.2.remaining : ℚ) ≤ tb.capacity

def LeakyBucket.RemainingFits (lb : Rates) : Prop :=
  ∀ now rest, ∀ x ∈ trace (leakAndDecide lb) (create now) (now :: rest),
    (x.2.2.allowed = true → lb.capacity - x.2.1.water < 2 ^ 63) ∧
      0 ≤ x.2.2.remaining ∧ (x.2.2.remaining : ℚ) ≤ lb.capacity

namespace TokenBucket

variable {tb : Rates}

theorem remaining_mem (hCapacity : tb.capacity < 2 ^ 63 + 1) (b : Bucket) (now : Int) :
    ((refillAndDecide tb b now).2.allowed = true → (refillAndDecide tb b now).1.tokens < 2 ^ 63) ∧
      0 ≤ (refillAndDecide tb b now).2.remaining ∧
      ((refillAndDecide tb b now).2.remaining : ℚ) ≤ tb.capacity := by
  rcases hAllowed : (refillAndDecide tb b now).2.allowed with _ | _
  · have hLess : ¬ 1 ≤ refilled tb b now := by
      rw [← allowed_iff, hAllowed]
      exact Bool.false_ne_true
    have hZero : (refillAndDecide tb b now).2.remaining = 0 := by
      rw [refillAndDecide_eq, if_neg hLess]
    rw [hZero]
    exact ⟨nofun, le_rfl, by exact_mod_cast zero_le_one.trans tb.one_le⟩
  · have hHas := hasTokens_of_allowed hCapacity hAllowed
    have hTokens : (refillAndDecide tb b now).1.tokens = refilled tb b now - 1 := by
      rw [tokens_refill, if_pos hAllowed]
    have hCap := refilled_le tb b now
    refine ⟨fun _ => by linarith, (counts hCapacity now).nonneg hHas, ?_⟩
    rw [← hHas.floor_eq]
    exact (Int.floor_le _).trans hHas.le_capacity

theorem remainingFits_iff : RemainingFits tb ↔ tb.capacity < 2 ^ 63 + 1 := by
  constructor
  · intro h
    -- the first request leaves the capacity less one token
    obtain ⟨hFits, _⟩ := h 0 [] _ (List.mem_singleton.mpr rfl)
    have hFull : refilled tb (create tb 0) 0 = tb.capacity := refilled_create 0
    have hAllowed : (refillAndDecide tb (create tb 0) 0).2.allowed = true :=
      allowed_iff.mpr (hFull ▸ tb.one_le)
    have hLevel := hFits hAllowed
    simp only [tokens_refill, if_pos hAllowed, hFull] at hLevel
    linarith
  · intro hCapacity now rest x hx
    obtain ⟨b, hStep⟩ := exists_of_mem_trace hx
    rw [hStep]
    exact remaining_mem hCapacity b x.1

end TokenBucket

theorem LeakyBucket.remainingFits_iff {lb : Rates} :
    RemainingFits lb ↔ lb.capacity < 2 ^ 63 + 1 := by
  rw [← TokenBucket.remainingFits_iff, TokenBucket.RemainingFits, RemainingFits]
  refine forall₂_congr fun now rest => ?_
  rw [← asTokens_create, trace_map (leakAndDecide_asTokens lb), List.forall_mem_map]
  rfl

/-- The constructors take any capacity; the conversion is defined for those
below `2 ^ 63 + 1`. -/
theorem remaining_fits_iff (rates : Rates) :
    (TokenBucket.RemainingFits rates ∧ LeakyBucket.RemainingFits rates) ↔
      rates.capacity < 2 ^ 63 + 1 := by
  rw [TokenBucket.remainingFits_iff, LeakyBucket.remainingFits_iff, and_self]

def vast : Rates := { Rates.onePerSecond with capacity := 10 ^ 19, one_le := by norm_num }

/-- The first request finds `10 ^ 19` tokens. -/
theorem remaining_overflows :
    (answers (TokenBucket.create vast) (TokenBucket.refillAndDecide vast) [0]).map Prod.snd =
        [⟨true, -2 ^ 63, 0⟩] ∧
      (answers LeakyBucket.create (LeakyBucket.leakAndDecide vast) [0]).map Prod.snd =
        [⟨true, -2 ^ 63, 0⟩] ∧
      ¬ TokenBucket.RemainingFits vast ∧ ¬ LeakyBucket.RemainingFits vast := by
  have hVast : ¬ vast.capacity < 2 ^ 63 + 1 := by norm_num [vast]
  refine ⟨by decide +kernel, by decide +kernel, ?_, ?_⟩
  · exact mt TokenBucket.remainingFits_iff.mp hVast
  · exact mt LeakyBucket.remainingFits_iff.mp hVast

end Kaka.Memory
