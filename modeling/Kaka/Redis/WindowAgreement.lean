import Kaka.Memory.SlidingWindow
import Kaka.Redis.BucketAgreement
import Kaka.Redis.SlidingWindow

/-! # The Redis and the in-memory sliding windows agree

On whole milliseconds that do not go back, the scores of the sorted set are
the entries of the log.  The script counts in `double`s: a limit of more than
53 bits is rounded, and the remaining requests with it.
-/

namespace Kaka.Redis.SlidingWindow

variable {M : Type} [LinearOrder M]

/-- No request that is allowed draws the member of a live entry. -/
def Distinct (limit windowMs ttlMs : Int) : Key M → List (Int × M) → Prop
  | _, [] => True
  | key, x :: rest =>
    (∀ reply ∈ (script limit windowMs ttlMs key x).2, reply.allowed = 1 →
      x.2 ∉ (live windowMs key x.1).members) ∧
    Distinct limit windowMs ttlMs (script limit windowMs ttlMs key x).1 rest

instance decidableDistinct (limit windowMs ttlMs : Int) :
    (key : Key M) → (requests : List (Int × M)) → Decidable (Distinct limit windowMs ttlMs key requests)
  | _, [] => isTrue trivial
  | key, x :: rest =>
    have := decidableDistinct limit windowMs ttlMs (script limit windowMs ttlMs key x).1 rest
    inferInstanceAs (Decidable (_ ∧ _))

/-- Request by request, the script's reply decodes to the in-memory result. -/
def Agree (sw : Memory.SlidingWindow) (ttlMs epoch : Int) (requests : List (Int × M)) : Prop :=
  (serve (script sw.limit (milliseconds sw.window) ttlMs) none requests).map
      (fun x => x.2.map decode) =
    (answers (fun _ => Memory.WindowState.new) sw.recordAndDecide
      (requests.map fun x => instant epoch x.1)).map fun x => some x.2

instance (sw : Memory.SlidingWindow) (ttlMs epoch : Int) (requests : List (Int × M)) :
    Decidable (Agree sw ttlMs epoch requests) := inferInstanceAs (Decidable (_ = _))

/-! ## The script on exact numbers -/

structure Pruned (limit windowMs epoch now : Int) (set : SortedSet Int M) (logs : List Int) :
    Prop where
  logs : logs = set.scores.map (instant epoch)
  inside : ∀ x ∈ set.scores, now - windowMs < x ∧ x ≤ now
  few : (set.card : Int) ≤ limit

section Script

variable {limit windowMs ttlMs epoch now : Int} {key : Key M} {logs : List Int} {member : M}

theorem script_eq (hLimit : limit ≤ 2 ^ 53) (hWindow : 0 < windowMs)
    (hFits : |now| + windowMs ≤ 2 ^ 53)
    (hPruned : Pruned limit windowMs epoch now (live windowMs key now) logs) :
    script limit windowMs ttlMs key (now, member) =
      if (live windowMs key now).card < limit then
        ((zadd now member (zremrangebyscore (now - windowMs) (find now key))).map
          (pexpire ttlMs now), some ⟨1, limit - (live windowMs key now).card - 1, 0⟩)
      else ((zremrangebyscore (now - windowMs) (find now key)).map (pexpire ttlMs now),
        (live windowMs key now).first?.map fun oldest => ⟨0, 0, oldest + windowMs - now⟩) := by
  have hFew := hPruned.few
  obtain ⟨hLow, hHigh⟩ := abs_le.mp (by omega : |now| ≤ 2 ^ 53 - windowMs)
  have hExact : ∀ x : Int, -2 ^ 53 ≤ x → x ≤ 2 ^ 53 → luaNumber x = x := fun x h h' =>
    luaNumber_of_le (abs_le.mpr ⟨h, h'⟩)
  have hOldest : ∀ x ∈ (live windowMs key now).first?,
      luaNumber (luaNumber (x + windowMs) - now) = x + windowMs - now := by
    intro x hx
    rw [SortedSet.first?_eq] at hx
    obtain ⟨hAfter, hBefore⟩ := hPruned.inside x (List.mem_of_mem_head? hx)
    rw [hExact (x + windowMs) (by omega) (by omega), hExact _ (by omega) (by omega)]
  rw [script, scriptOn_eq_live (hExact now (by omega) (by omega))
    (hExact windowMs (by omega) (by omega)) (hExact (now - windowMs) (by omega) (by omega)),
    hExact limit (by omega) hLimit, hExact _ (by omega) (by omega)]
  split
  · rename_i hRoom
    rw [hExact (limit - (live windowMs key now).card) (by omega) (by omega),
      hExact _ (by omega) (by omega)]
  · refine Prod.ext rfl (Option.map_congr fun x hx => ?_)
    rw [hOldest x hx]

end Script

/-! ## The set and the log -/

theorem filter_instant {window windowMs : Int} (hWindow : window = windowMs * 1000000) (epoch now : Int)
    (times : List Int) :
    (times.map (instant epoch)).filter (fun t => instant epoch now - window < t) =
      (times.filter (now - windowMs < ·)).map (instant epoch) := by
  rw [List.filter_map]
  congr 1
  apply List.filter_congr
  intro t _
  rw [Function.comp_apply, decide_eq_decide, instant, instant, hWindow]
  omega

/-- After a request at `prev`: the scores are the entries of the log. -/
structure Mirrors (limit ttlMs epoch prev : Int) (key : Key M) (state : Memory.WindowState) :
    Prop where
  logs : state.logs = (contents key).scores.map (instant epoch)
  old : ∀ x ∈ (contents key).scores, x ≤ prev
  few : ((contents key).card : Int) ≤ limit
  deadline : ∀ e ∈ key, e.deadline = deadlineAfter ttlMs prev

section Step

variable {sw : Memory.SlidingWindow} {windowMs ttlMs epoch prev now : Int} {key : Key M}
  {state : Memory.WindowState} {member : M}

theorem mirrors_new (limit ttlMs epoch prev : Int) (hLimit : 0 < limit) :
    Mirrors limit ttlMs epoch prev (none : Key M) .new :=
  ⟨rfl, by simp [contents, SortedSet.empty, SortedSet.scores], hLimit.le, nofun⟩

theorem Mirrors.find (h : Mirrors sw.limit ttlMs epoch prev key state)
    (hLive : 0 < ttlMs → now < prev + ttlMs) : find now key = key :=
  find_of_not_lapsed h.deadline fun hLapsed => not_lt.mpr hLapsed.2 (hLive hLapsed.1)

theorem Mirrors.timed (h : Mirrors sw.limit ttlMs epoch prev key state) : Timed ttlMs key := by
  intro e he hTtl
  rw [h.deadline e he, deadlineAfter_of_le hTtl]

theorem Mirrors.sorted (h : Mirrors sw.limit ttlMs epoch prev key state) :
    state.logs.Pairwise (· ≤ ·) := by
  rw [h.logs, List.pairwise_map]
  exact (SortedSet.sorted_scores _).imp (instant_mono epoch)

theorem Mirrors.pruned (h : Mirrors sw.limit ttlMs epoch prev key state)
    (hWindow : sw.window = windowMs * 1000000) (hLe : prev ≤ now) (hFind : Redis.find now key = key) :
    Pruned sw.limit windowMs epoch now (live windowMs key now)
      (state.logs.filter fun x => instant epoch now - sw.window < x) := by
  have hScores : (live windowMs key now).scores =
      (contents key).scores.filter (now - windowMs < ·) := by
    rw [live, hFind, SortedSet.scores_removeUpTo]
  refine ⟨?_, ?_, ?_⟩
  · rw [h.logs, hScores, filter_instant hWindow]
  · intro x hx
    rw [hScores] at hx
    obtain ⟨hMem, hAfter⟩ := List.mem_filter.mp hx
    exact ⟨by simpa using hAfter, (h.old x hMem).trans hLe⟩
  · have hLength := List.length_filter_le (now - windowMs < ·) (contents key).scores
    have hFew := h.few
    rw [SortedSet.card_eq] at hFew ⊢
    rw [hScores]
    omega

theorem sub_instant {oldest : Int} (hWindow : sw.window = windowMs * 1000000)
    (hDuration : sw.window ≤ maxDuration) (hAfter : now - windowMs < oldest) (hBefore : oldest ≤ now) :
    sub (instant epoch oldest + sw.window) (instant epoch now) =
      (oldest + windowMs - now) * 1000000 := by
  have hDiff : instant epoch oldest + sw.window - instant epoch now =
      (oldest + windowMs - now) * 1000000 := by
    rw [hWindow]
    unfold instant
    ring
  rw [← hDiff]
  refine sub_of_le ?_ ?_ <;> rw [hDiff]
  · unfold minDuration
    omega
  · omega

theorem Mirrors.allow (h : Mirrors sw.limit ttlMs epoch prev key state) (hLimit : sw.limit ≤ 2 ^ 53)
    (hPruned : Pruned sw.limit windowMs epoch now (live windowMs key now)
      (state.logs.filter fun x => instant epoch now - sw.window < x))
    (hFind : Redis.find now key = key) (hRoom : ((live windowMs key now).card : Int) < sw.limit)
    (hNew : member ∉ (live windowMs key now).members) :
    Mirrors sw.limit ttlMs epoch now
        ((zadd now member (zremrangebyscore (now - windowMs) (Redis.find now key))).map
          (pexpire ttlMs now)) (sw.recordAndDecide state (instant epoch now)).1 ∧
      decode ⟨1, sw.limit - (live windowMs key now).card - 1, 0⟩ =
        (sw.recordAndDecide state (instant epoch now)).2 := by
  have hScores := SortedSet.scores_add _ hNew fun x hx => (hPruned.inside x hx).2
  have hSet : contents ((zadd now member (zremrangebyscore (now - windowMs) (Redis.find now key))).map
      (pexpire ttlMs now)) = (live windowMs key now).add now member := by
    rw [contents_pexpire, contents_zadd, contents_zremrangebyscore, live]
  obtain ⟨hLogs, hResult⟩ := Memory.SlidingWindow.record_allow h.sorted
    (by rw [hPruned.logs, List.length_map, ← SortedSet.card_eq]; exact hRoom)
  refine ⟨⟨?_, ?_, ?_, ?_⟩, ?_⟩
  · rw [hLogs, hPruned.logs, hSet, hScores, List.map_append]
    rfl
  · rw [hSet, hScores]
    intro x hx
    rcases List.mem_append.mp hx with hMem | hLast
    · exact (hPruned.inside x hMem).2
    · exact (List.mem_singleton.mp hLast).le
  · rw [hSet, SortedSet.card_eq, hScores, List.length_append, ← SortedSet.card_eq,
      List.length_singleton]
    omega
  · rw [hFind]
    exact ((h.timed.zremrangebyscore _).zadd now member).pexpire now
  · rw [hResult, hPruned.logs, List.length_map, ← SortedSet.card_eq]
    exact decode_allow (by omega) (by omega)

theorem Mirrors.deny (h : Mirrors sw.limit ttlMs epoch prev key state)
    (hWindow : sw.window = windowMs * 1000000) (hDuration : sw.window ≤ maxDuration)
    (hPruned : Pruned sw.limit windowMs epoch now (live windowMs key now)
      (state.logs.filter fun x => instant epoch now - sw.window < x))
    (hFind : Redis.find now key = key) (hFull : sw.limit ≤ (live windowMs key now).card) :
    Mirrors sw.limit ttlMs epoch now
        ((zremrangebyscore (now - windowMs) (Redis.find now key)).map (pexpire ttlMs now))
        (sw.recordAndDecide state (instant epoch now)).1 ∧
      ((live windowMs key now).first?.map fun oldest =>
          decode ⟨0, 0, oldest + windowMs - now⟩) =
        some (sw.recordAndDecide state (instant epoch now)).2 := by
  have hSet : contents ((zremrangebyscore (now - windowMs) (Redis.find now key)).map
      (pexpire ttlMs now)) = live windowMs key now := by
    rw [contents_pexpire, contents_zremrangebyscore, live]
  obtain ⟨hLogs, hResult⟩ := Memory.SlidingWindow.record_deny h.sorted
    (by rw [hPruned.logs, List.length_map, ← SortedSet.card_eq]; exact hFull)
  refine ⟨⟨?_, ?_, ?_, ?_⟩, ?_⟩
  · rw [hLogs, hPruned.logs, hSet]
  · rw [hSet]
    exact fun x hx => (hPruned.inside x hx).2
  · rw [hSet]
    exact hPruned.few
  · rw [hFind]
    exact (h.timed.zremrangebyscore _).pexpire now
  · rw [hResult, hPruned.logs, SortedSet.first?_eq]
    have hLimit := sw.limit_pos
    rw [SortedSet.card_eq] at hFull
    cases hScores : (live windowMs key now).scores with
    | nil =>
      rw [hScores, List.length_nil] at hFull
      omega
    | cons oldest rest =>
      -- the set is full, so there is an oldest entry to wait for
      obtain ⟨hAfter, hBefore⟩ := hPruned.inside oldest (by rw [hScores]; exact List.mem_cons_self)
      rw [List.head?_cons, Option.map_some, List.map_cons, List.getD_cons_zero,
        sub_instant hWindow hDuration hAfter hBefore, decode_deny (by omega) (by omega)]

theorem step_agrees (hWindow : sw.window = windowMs * 1000000) (hDuration : sw.window ≤ maxDuration)
    (hLimit : sw.limit ≤ 2 ^ 53) (h : Mirrors sw.limit ttlMs epoch prev key state)
    (hLe : prev ≤ now) (hFits : |now| + windowMs ≤ 2 ^ 53)
    (hLive : 0 < ttlMs → now < prev + ttlMs)
    (hNew : ∀ reply ∈ (script sw.limit windowMs ttlMs key (now, member)).2, reply.allowed = 1 →
      member ∉ (live windowMs key now).members) :
    Mirrors sw.limit ttlMs epoch now (script sw.limit windowMs ttlMs key (now, member)).1
        (sw.recordAndDecide state (instant epoch now)).1 ∧
      (script sw.limit windowMs ttlMs key (now, member)).2.map decode =
        some (sw.recordAndDecide state (instant epoch now)).2 := by
  have hFind := h.find hLive
  have hPruned := h.pruned hWindow hLe hFind
  have hWindowPos : 0 < windowMs := by
    have := sw.window_pos
    omega
  rw [script_eq hLimit hWindowPos hFits hPruned] at hNew ⊢
  split
  · rename_i hRoom
    rw [if_pos hRoom] at hNew
    obtain ⟨hNext, hDecode⟩ := h.allow hLimit hPruned hFind hRoom (hNew _ rfl rfl)
    exact ⟨hNext, congrArg some hDecode⟩
  · rename_i hFull
    obtain ⟨hNext, hDecode⟩ := h.deny hWindow hDuration hPruned hFind (not_lt.mp hFull)
    exact ⟨hNext, by rw [Option.map_map]; exact hDecode⟩

theorem steps_agree (hWindow : sw.window = windowMs * 1000000) (hDuration : sw.window ≤ maxDuration)
    (hLimit : sw.limit ≤ 2 ^ 53) (requests : List (Int × M))
    (h : Mirrors sw.limit ttlMs epoch prev key state)
    (hClock : (prev :: requests.map Prod.fst).IsChain (· ≤ ·))
    (hFits : ∀ x ∈ requests, |x.1| + windowMs ≤ 2 ^ 53)
    (hLive : Unexpired ttlMs (prev :: requests.map Prod.fst))
    (hDistinct : Distinct sw.limit windowMs ttlMs key requests) :
    (serve (script sw.limit windowMs ttlMs) key requests).map (fun x => x.2.map decode) =
      (serve sw.recordAndDecide state (requests.map fun x => instant epoch x.1)).map
        fun x => some x.2 := by
  induction requests generalizing key state prev with
  | nil => rfl
  | cons x rest ih =>
    obtain ⟨now, member⟩ := x
    obtain ⟨hNow, hRest⟩ := List.forall_mem_cons.mp hFits
    obtain ⟨hNext, hReply⟩ := step_agrees hWindow hDuration hLimit h hClock.rel hNow
      (fun hTtl => (hLive hTtl).rel) hDistinct.1
    rw [List.map_cons, serve_cons, serve_cons, List.map_cons, List.map_cons, hReply,
      ih hNext hClock.tail hRest hLive.tail hDistinct.2]

end Step

theorem windows_agree (sw : Memory.SlidingWindow) (windowMs ttlMs epoch : Int)
    (requests : List (Int × M)) (hWindow : sw.window = windowMs * 1000000)
    (hDuration : sw.window ≤ maxDuration) (hLimit : sw.limit ≤ 2 ^ 53)
    (hFits : ∀ x ∈ requests, |x.1| + windowMs ≤ 2 ^ 53)
    (hClock : (requests.map Prod.fst).IsChain (· ≤ ·))
    (hLive : Unexpired ttlMs (requests.map Prod.fst))
    (hDistinct : Distinct sw.limit windowMs ttlMs none requests) : Agree sw ttlMs epoch requests := by
  have hMilliseconds : milliseconds sw.window = windowMs := by
    rw [milliseconds, hWindow, Int.mul_tdiv_cancel _ (by decide)]
  rw [Agree, hMilliseconds]
  cases requests with
  | nil => rfl
  | cons x rest =>
    refine steps_agree hWindow hDuration hLimit (x :: rest)
      (mirrors_new sw.limit ttlMs epoch x.1 sw.limit_pos)
      (List.isChain_cons_cons.mpr ⟨le_rfl, hClock⟩) hFits ?_ hDistinct
    exact fun hTtl => List.isChain_cons_cons.mpr ⟨by omega, hLive hTtl⟩

def perSecond : Memory.SlidingWindow := ⟨3, 1000000000, by decide, by decide⟩

/-- Three requests in one millisecond, one denied, one at the end of the window. -/
def burst : List (Int × Nat) := [(5, 1), (5, 0), (5, 4), (900, 2), (1005, 1)]

theorem windows_agree_burst : Distinct 3 1000 0 none burst ∧ Agree perSecond 0 7 burst :=
  ⟨by decide +kernel, windows_agree perSecond 1000 0 7 burst rfl (by decide) (by decide)
    (by simp [burst]) (by simp [burst]) (unexpired_of_le le_rfl _) (by decide +kernel)⟩

def large : Memory.SlidingWindow := ⟨2 ^ 53 + 1, 1000000, by decide, by decide⟩

def perMillisecond : Memory.SlidingWindow := ⟨1, 1000000, by decide, by decide⟩

/-- The second time is rounded to the first. -/
def late : List (Int × Nat) := [(2 ^ 53, 0), (2 ^ 53 + 1, 1)]

/-- The script answers that one request less remains; and it denies a request
whose time no `double` holds. -/
theorem windows_differ :
    (Distinct large.limit 1 0 none [((0 : Int), 0)] ∧ ¬ Agree large 0 0 [((0 : Int), 0)]) ∧
    (Distinct perMillisecond.limit 1 0 none late ∧ ¬ Agree perMillisecond 0 0 late) :=
  ⟨⟨by decide +kernel, by decide +kernel⟩, by decide +kernel, by decide +kernel⟩

end Kaka.Redis.SlidingWindow
