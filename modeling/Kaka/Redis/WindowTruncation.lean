import Kaka.Redis.WindowLimit

/-! # Windows that are not whole milliseconds

The client passes the window to the script in whole milliseconds, rounded
down.  The script keeps the limit for that shorter window only: requests at
its two ends still share a window of the length that was asked for.
-/

namespace Kaka.Redis.SlidingWindow

def withinNanos (window : Int) (times : List Int) (t : Int) : Nat :=
  times.countP fun x => t - window < x * 1000000 ∧ x * 1000000 ≤ t

/-- No window of the full length holds more than `limit` allowed requests. -/
def HonoursWindow (sw : Memory.SlidingWindow) (opts : Options) : Prop :=
  ∀ (M : Type) [LinearOrder M] (requests : List (Int × M)),
    Proper (milliseconds sw.window) requests →
    ∀ t, withinNanos sw.window (allowedTimes (serve (script sw.limit
      (milliseconds sw.window) (milliseconds opts.keyTTL)) none requests)) t ≤ sw.limit

theorem withinNanos_whole (windowMs : Int) (times : List Int) (t : Int) :
    withinNanos (1000000 * windowMs) times t = within windowMs times (t / 1000000) := by
  rw [withinNanos, within]
  congr 1
  funext x
  rw [decide_eq_decide]
  omega

section Truncated

variable {M : Type} [LinearOrder M] {windowMs ttlMs : Int} {limit : Nat}

/-! ## Windows of less than a millisecond -/

theorem script_empty_window (hLimit : 0 < limit) (member : M) {key : Key M}
    (hPast : ∀ x ∈ (contents key).scores, x ≤ 0) :
    granted (script limit 0 ttlMs key (0, member)).2 = true ∧
      ∀ x ∈ (contents (script limit 0 ttlMs key (0, member)).1).scores, x ≤ 0 := by
  have hZero : luaNumber 0 = 0 := rfl
  have hFound : ∀ x ∈ (contents (find 0 key)).scores, x ≤ 0 := by
    cases hFind : find 0 key with
    | none => simp [contents, SortedSet.empty, SortedSet.scores]
    | some e =>
      obtain rfl := mem_of_mem_find hFind
      exact hPast
  have hScores : (live 0 key 0).scores = [] := by
    rw [live, SortedSet.scores_removeUpTo]
    exact List.filter_eq_nil_iff.mpr fun x hx => by simpa using hFound x hx
  have hCard : (live 0 key 0).card = 0 := by rw [SortedSet.card_eq, hScores, List.length_nil]
  have hRoom : luaNumber (0 : Nat) < luaNumber limit := luaNumber_lt le_rfl (by omega) (by omega)
  rw [script, scriptOn_eq_live hZero hZero hZero, hCard, if_pos hRoom]
  refine ⟨rfl, ?_⟩
  intro x hx
  rw [contents_pexpire, contents_zadd, contents_pruned] at hx
  cases SortedSet.mem_scores_add _ hx with
  | inl hEq => exact hEq.le
  | inr hOld =>
    rw [hScores] at hOld
    cases hOld

theorem allowedTimes_empty_window (hLimit : 0 < limit) (members : List M) {key : Key M}
    (hPast : ∀ x ∈ (contents key).scores, x ≤ 0) :
    allowedTimes (serve (script limit 0 ttlMs) key (members.map fun m => (0, m))) =
      List.replicate members.length 0 := by
  induction members generalizing key with
  | nil => rfl
  | cons member rest ih =>
    obtain ⟨hGranted, hNext⟩ := script_empty_window hLimit member hPast
    rw [List.map_cons, serve_cons, allowedTimes_cons, if_pos hGranted, ih hNext]
    rfl

/-! ## Longer windows -/

theorem allowedTimes_ends (hTtl : ttlMs ≤ 0) (hWindow : 0 < windowMs) (hFits : windowMs + windowMs ≤ 2 ^ 53)
    (hLimit : 0 < limit) :
    allowedTimes (serve (script limit windowMs ttlMs) none (pausedRequests limit windowMs)) =
      List.replicate (limit / 2 + 1) 0 ++ List.replicate (limit / 2 + 1) windowMs := by
  have hNever : ∀ t u, Lapsed ttlMs t u → windowMs ≤ ttlMs := fun _ _ hLapsed =>
    absurd hLapsed.1 (not_lt.mpr hTtl)
  obtain ⟨hFirst, last, _, hHigh, hLogged⟩ := listed_batch hWindow (by simp; omega) hLimit
    (List.range (limit / 2 + 1)) (Listed.none (M := Nat) windowMs ttlMs 0) le_rfl (hNever 0 0)
    (by simpa using List.nodup_range) (by simp; omega)
  have hMembers : ((pausedRequests limit windowMs).map Prod.snd).Nodup :=
    (proper_pausedRequests hWindow.le hFits).members
  obtain ⟨hSecond, _⟩ := listed_batch hWindow (by rw [abs_of_pos hWindow]; exact hFits) hLimit
    (List.range' (limit / 2 + 1) (limit / 2 + 1)) hLogged (hHigh.trans hWindow.le) (hNever _ _)
    (by simpa [pausedRequests, Function.comp_def] using hMembers) (by simp; omega)
  rw [List.length_range] at hFirst
  rw [List.length_range'] at hSecond
  rw [pausedRequests, serve_append, allowedTimes_append, hFirst, hSecond]

end Truncated

/-! ## The windows that are honoured -/

theorem not_honours_short {sw : Memory.SlidingWindow} {opts : Options} (hShort : sw.window < 1000000) :
    ¬ HonoursWindow sw opts := by
  have hPos := sw.window_pos
  obtain ⟨limit, hLimit⟩ := Int.eq_ofNat_of_zero_le sw.limit_pos.le
  have hLimitPos := sw.limit_pos
  have hMilliseconds : milliseconds sw.window = 0 := by
    rw [milliseconds, Int.tdiv_eq_ediv_of_nonneg hPos.le]
    omega
  intro hHonours
  rw [HonoursWindow, hMilliseconds, hLimit] at hHonours
  have hProper : Proper 0 ((List.range (limit + 1)).map fun m => ((0 : Int), m)) := by
    constructor
    · simp [Function.comp_def, List.map_const', List.pairwise_replicate]
    · simpa [Function.comp_def] using List.nodup_range
    · simp
  have hMost := hHonours Nat _ hProper 0
  rw [allowedTimes_empty_window (by omega) _ (by simp [contents, SortedSet.empty, SortedSet.scores]),
    withinNanos, List.countP_replicate, if_pos (by simpa using hPos), List.length_range] at hMost
  omega

theorem not_honours_ragged {sw : Memory.SlidingWindow} {opts : Options}
    (hTtl : milliseconds opts.keyTTL ≤ 0) (hDuration : sw.window ≤ maxDuration)
    (hLong : 1000000 ≤ sw.window) (hRagged : ¬ 1000000 ∣ sw.window) : ¬ HonoursWindow sw opts := by
  obtain ⟨limit, hLimit⟩ := Int.eq_ofNat_of_zero_le sw.limit_pos.le
  have hLimitPos := sw.limit_pos
  have hMilliseconds : milliseconds sw.window = sw.window / 1000000 :=
    Int.tdiv_eq_ediv_of_nonneg sw.window_pos.le
  have hFits : sw.window / 1000000 + sw.window / 1000000 ≤ 2 ^ 53 := by
    unfold maxDuration at hDuration
    omega
  intro hHonours
  rw [HonoursWindow, hMilliseconds, hLimit] at hHonours
  have hMost := hHonours Nat (pausedRequests limit (sw.window / 1000000))
    (proper_pausedRequests (by omega) hFits) (sw.window / 1000000 * 1000000)
  rw [allowedTimes_ends hTtl (by omega) hFits (by omega), withinNanos, List.countP_append,
    List.countP_replicate, List.countP_replicate, if_pos (by simp; omega), if_pos (by simp; omega)]
    at hMost
  omega

/-- The limit holds for the window asked for exactly where it is a whole
number of milliseconds. -/
theorem honours_window_iff (sw : Memory.SlidingWindow) (opts : Options)
    (hTtl : milliseconds opts.keyTTL ≤ 0) (hDuration : sw.window ≤ maxDuration) :
    HonoursWindow sw opts ↔ 1000000 ∣ sw.window := by
  constructor
  · intro hHonours
    by_contra hRagged
    rcases lt_or_ge sw.window 1000000 with hShort | hLong
    · exact not_honours_short hShort hHonours
    · exact not_honours_ragged hTtl hDuration hLong hRagged hHonours
  · intro hWhole M _ requests hProper t
    have hWithin := (withinLimit_iff sw opts hWhole hDuration).mpr fun hPos =>
      absurd hPos (not_lt.mpr hTtl)
    obtain ⟨windowMs, hWindow⟩ := hWhole
    have hMilliseconds : milliseconds sw.window = windowMs := by
      rw [milliseconds, hWindow, Int.mul_tdiv_cancel_left _ (by decide)]
    have hMost := hWithin M requests hProper (t / 1000000)
    rw [hMilliseconds] at hMost ⊢
    rwa [hWindow, withinNanos_whole]

theorem honours_window_perSecond : HonoursWindow perSecond { keyTTL := 0 } :=
  (honours_window_iff perSecond { keyTTL := 0 } le_rfl (by decide)).mpr ⟨1000, rfl⟩

def oneAndAHalf : Memory.SlidingWindow :=
  { perMillisecond with window := 1500000, window_pos := by decide }

/-- One request in a millisecond and a half: the second is a millisecond after the first. -/
theorem window_truncated : ¬ HonoursWindow oneAndAHalf { keyTTL := 0 } := by
  intro hHonours
  have hMost := hHonours Nat [(0, 0), (1, 1)] ⟨by decide, by decide, by decide⟩ 1000000
  have hTwo : withinNanos oneAndAHalf.window (allowedTimes (serve (script oneAndAHalf.limit
      (milliseconds oneAndAHalf.window) (milliseconds ({ keyTTL := 0 } : Options).keyTTL)) none
        [(0, 0), (1, 1)])) 1000000 = 2 := by
    decide +kernel
  rw [hTwo] at hMost
  exact absurd hMost (by decide)

end Kaka.Redis.SlidingWindow
