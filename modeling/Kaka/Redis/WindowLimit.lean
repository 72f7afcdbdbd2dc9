import Kaka.Redis.Client
import Kaka.Redis.WindowAgreement
import Kaka.Redis.WindowLog

/-! # The Redis sliding window limit

The log lives in a key with a TTL of its own.  While the TTL covers the
window an expired key has only lost entries that no window needs; where it
is shorter, a pause of one TTL inside a window makes the script forget the
requests before it.
-/

namespace Kaka.Redis.SlidingWindow

variable {M : Type}

def granted (reply : Option Reply) : Bool := reply.any fun r => (decode r).allowed

def allowedTimes (runs : List ((Int × M) × Option Reply)) : List Int :=
  (runs.filter fun x => granted x.2).map fun x => x.1.1

theorem allowedTimes_cons (x : Int × M) (reply : Option Reply)
    (rest : List ((Int × M) × Option Reply)) :
    allowedTimes ((x, reply) :: rest) =
      (if granted reply then [x.1] else []) ++ allowedTimes rest := by
  rw [allowedTimes, List.filter_cons]
  split <;> rfl

theorem allowedTimes_append (runs runs' : List ((Int × M) × Option Reply)) :
    allowedTimes (runs ++ runs') = allowedTimes runs ++ allowedTimes runs' := by
  rw [allowedTimes, List.filter_append, List.map_append, allowedTimes, allowedTimes]

variable [LinearOrder M]

def within (windowMs : Int) (times : List Int) (t : Int) : Nat :=
  times.countP fun x => t - windowMs < x ∧ x ≤ t

/-- The server clock does not go back, each request has a member of its own,
and the times are numbers that a `double` holds. -/
structure Proper (windowMs : Int) (requests : List (Int × M)) : Prop where
  clock : (requests.map Prod.fst).Pairwise (· ≤ ·)
  members : (requests.map Prod.snd).Nodup
  fits : ∀ x ∈ requests, |x.1| + windowMs ≤ 2 ^ 53

/-- No window holds more than `limit` allowed requests. -/
def WithinLimit (sw : Memory.SlidingWindow) (opts : Options) : Prop :=
  ∀ (M : Type) [LinearOrder M] (requests : List (Int × M)),
    Proper (milliseconds sw.window) requests →
    ∀ t, within (milliseconds sw.window) (allowedTimes (serve (script sw.limit
      (milliseconds sw.window) (milliseconds opts.keyTTL)) none requests)) t ≤ sw.limit

theorem Listed.script (limit : Int) {windowMs ttlMs last now : Int} {allowed : List Int}
    {past : List (Int × M)} {key : Key M} {member : M} (h : Listed windowMs ttlMs allowed past last key)
    (hTime : last ≤ now) (hCovers : Lapsed ttlMs last now → windowMs ≤ ttlMs) (hWindow : 0 < windowMs)
    (hFits : |now| + windowMs ≤ 2 ^ 53) (hFresh : Fresh windowMs past (now, member)) :
    let out := script limit windowMs ttlMs key (now, member)
    (granted out.2 = true ↔
        luaNumber (allowed.filter (now - windowMs < ·)).length < luaNumber limit) ∧
      Listed windowMs ttlMs (allowed ++ if granted out.2 then [now] else []) (past ++ [(now, member)])
        now out.1 := by
  have hExact := Exact.luaNumber hWindow hFits
  dsimp only
  rw [SlidingWindow.script]
  rcases lt_or_ge (luaNumber (allowed.filter (now - windowMs < ·)).length) (luaNumber limit) with
    hRoom | hFull
  · obtain ⟨hReply, hNext⟩ := h.script_allow hTime hCovers hWindow hExact hFresh hRoom
    have hGranted : granted (scriptOn luaNumber limit windowMs ttlMs key (now, member)).2 = true := by
      rw [hReply]
      rfl
    rw [hGranted, if_pos rfl]
    exact ⟨iff_of_true rfl hRoom, hNext⟩
  · obtain ⟨hReply, hNext⟩ := h.script_deny member hTime hCovers hExact hFull
    have hDenied : granted (scriptOn luaNumber limit windowMs ttlMs key (now, member)).2 = false := by
      rw [hReply]
      cases (allowed.filter (now - windowMs < ·)).head? <;> rfl
    rw [hDenied, if_neg Bool.false_ne_true, List.append_nil]
    exact ⟨iff_of_false Bool.false_ne_true (not_lt.mpr hFull), hNext⟩

/-! ## A TTL that covers the window -/

section Covered

variable {windowMs ttlMs : Int} {limit : Nat}

theorem within_snoc_le {allowed : List Int} {now : Int} (hBound : ∀ t, within windowMs allowed t ≤ limit)
    (hRoom : (allowed.filter (now - windowMs < ·)).length < limit) (t : Int) :
    within windowMs (allowed ++ [now]) t ≤ limit := by
  rw [within, List.countP_append, List.countP_singleton]
  simp only [decide_eq_true_eq]
  split
  · rename_i hIn
    have hFewer : within windowMs allowed t ≤ (allowed.filter (now - windowMs < ·)).length := by
      rw [within, ← List.countP_eq_length_filter]
      apply List.countP_mono_left
      intro x _ hx
      simp only [decide_eq_true_eq] at hx ⊢
      omega
    exact Nat.succ_le_of_lt (hFewer.trans_lt hRoom)
  · exact hBound t

theorem within_run (hTTL : 0 < ttlMs → windowMs ≤ ttlMs) (hWindow : 0 < windowMs) {key : Key M}
    {allowed : List Int} {past : List (Int × M)} {last : Int} (requests : List (Int × M))
    (h : Listed windowMs ttlMs allowed past last key) (hBound : ∀ t, within windowMs allowed t ≤ limit)
    (hClock : (last :: requests.map Prod.fst).Pairwise (· ≤ ·))
    (hMembers : ((past ++ requests).map Prod.snd).Nodup)
    (hFits : ∀ x ∈ requests, |x.1| + windowMs ≤ 2 ^ 53) (t : Int) :
    within windowMs (allowed ++ allowedTimes (serve (script limit windowMs ttlMs) key requests)) t ≤
      limit := by
  induction requests generalizing key allowed past last with
  | nil =>
    rw [show allowedTimes (serve (script limit windowMs ttlMs) key []) = [] from rfl, List.append_nil]
    exact hBound t
  | cons x rest ih =>
    obtain ⟨now, member⟩ := x
    obtain ⟨hNow, hRest⟩ := List.forall_mem_cons.mp hFits
    obtain ⟨hFirst, hLater⟩ := List.pairwise_cons.mp hClock
    obtain ⟨hGranted, hNext⟩ := h.script limit (hFirst now List.mem_cons_self)
      (fun hLapsed => hTTL hLapsed.1) hWindow hNow (fresh_of_nodup windowMs hMembers)
    rw [serve_cons, allowedTimes_cons, ← List.append_assoc]
    apply ih hNext ?_ hLater ?_ hRest
    · intro t
      split
      · rename_i hRoom
        apply within_snoc_le hBound
        by_contra hFull
        exact absurd (hGranted.mp hRoom) (not_lt.mpr (luaNumber_mono (by exact_mod_cast not_lt.mp hFull)))
      · rw [List.append_nil]
        exact hBound t
    · rwa [List.append_assoc]

end Covered

/-! ## A TTL shorter than the window -/

section Uncovered

variable {windowMs ttlMs now : Int} {limit : Nat}

/-- Requests at one time are all allowed while twice their number, but for one
request, is within the limit, however the script rounds. -/
theorem listed_batch (hWindow : 0 < windowMs) (hFits : |now| + windowMs ≤ 2 ^ 53) (hLimit : 0 < limit)
    {key : Key M} {allowed : List Int} {past : List (Int × M)} {last : Int} (members : List M)
    (h : Listed windowMs ttlMs allowed past last key) (hTime : last ≤ now)
    (hCovers : Lapsed ttlMs last now → windowMs ≤ ttlMs)
    (hMembers : (past.map Prod.snd ++ members).Nodup)
    (hFew : 2 * ((allowed.filter (now - windowMs < ·)).length + members.length) ≤ limit + 2) :
    let batch := members.map fun m => (now, m)
    allowedTimes (serve (script limit windowMs ttlMs) key batch) = List.replicate members.length now ∧
      ∃ last', last ≤ last' ∧ last' ≤ now ∧
        Listed windowMs ttlMs (allowed ++ List.replicate members.length now) (past ++ batch) last'
          (after (script limit windowMs ttlMs) key batch) := by
  induction members generalizing key allowed past last with
  | nil => exact ⟨rfl, last, le_rfl, hTime, by simpa [after] using h⟩
  | cons member rest ih =>
    have hAll : ((past ++ (now, member) :: rest.map fun m => (now, m)).map Prod.snd).Nodup := by
      simpa [Function.comp_def] using hMembers
    obtain ⟨hGranted, hNext⟩ := h.script limit hTime hCovers hWindow hFits
      (fresh_of_nodup windowMs hAll)
    rw [List.length_cons] at hFew
    have hAllowed := hGranted.mpr (luaNumber_lt (by omega) (by omega) (by omega))
    rw [hAllowed, if_pos rfl] at hNext
    have hLive : ¬ Lapsed ttlMs now now := by
      rintro ⟨hPos, hLate⟩
      omega
    have hMore : ((allowed ++ [now]).filter (now - windowMs < ·)).length =
        (allowed.filter (now - windowMs < ·)).length + 1 := by
      simp [List.filter_append, hWindow]
    obtain ⟨hTimes, last', hLow, hHigh, hAfter⟩ := ih hNext le_rfl
      (fun hLapsed => absurd hLapsed hLive) (by simpa using hMembers) (by omega)
    refine ⟨?_, last', hTime.trans hLow, hHigh, ?_⟩
    · rw [List.map_cons, serve_cons, allowedTimes_cons, if_pos hAllowed, hTimes, List.length_cons,
        List.replicate_succ]
      rfl
    · rw [List.append_assoc, List.append_assoc] at hAfter
      exact hAfter

theorem serve_gone {key : Key M} {x : Int × M} (hGone : find x.1 key = none) (rest : List (Int × M)) :
    serve (script limit windowMs ttlMs) key (x :: rest) =
      serve (script limit windowMs ttlMs) none (x :: rest) := by
  have hStep : script limit windowMs ttlMs key x = script limit windowMs ttlMs none x := by
    simp only [script, scriptOn, hGone]
    rfl
  rw [serve_cons, serve_cons, hStep]

def pausedRequests (limit : Nat) (ttlMs : Int) : List (Int × Nat) :=
  (List.range (limit / 2 + 1)).map (fun m => (0, m)) ++
    (List.range' (limit / 2 + 1) (limit / 2 + 1)).map fun m => (ttlMs, m)

theorem proper_pausedRequests (hTTL : 0 ≤ ttlMs) (hFits : ttlMs + windowMs ≤ 2 ^ 53) :
    Proper windowMs (pausedRequests limit ttlMs) := by
  have hTimes : (pausedRequests limit ttlMs).map Prod.fst =
      List.replicate (limit / 2 + 1) 0 ++ List.replicate (limit / 2 + 1) ttlMs := by
    simp [pausedRequests, Function.comp_def, List.map_const']
  constructor
  · rw [hTimes, List.pairwise_append]
    refine ⟨by simp [List.pairwise_replicate], by simp [List.pairwise_replicate], ?_⟩
    intro x hx y hy
    rw [List.eq_of_mem_replicate hx, List.eq_of_mem_replicate hy]
    exact hTTL
  · have hMembers : (pausedRequests limit ttlMs).map Prod.snd =
        List.range' 0 (limit / 2 + 1 + (limit / 2 + 1)) := by
      rw [← List.range'_append_1]
      simp [pausedRequests, Function.comp_def, List.range_eq_range']
    rw [hMembers]
    exact List.nodup_range'
  · intro x hx
    have hTime : x.1 ∈ (pausedRequests limit ttlMs).map Prod.fst := List.mem_map_of_mem hx
    rw [hTimes] at hTime
    rcases List.mem_append.mp hTime with hEarly | hLate
    · rw [List.eq_of_mem_replicate hEarly, abs_zero]
      omega
    · rw [List.eq_of_mem_replicate hLate, abs_of_nonneg hTTL]
      exact hFits

theorem allowedTimes_pausedRequests (hTTL : 0 < ttlMs) (hWindow : 0 < windowMs)
    (hFits : ttlMs + windowMs ≤ 2 ^ 53) (hLimit : 0 < limit) :
    allowedTimes (serve (script limit windowMs ttlMs) none (pausedRequests limit ttlMs)) =
      List.replicate (limit / 2 + 1) 0 ++ List.replicate (limit / 2 + 1) ttlMs := by
  have hNone := Listed.none (M := Nat) windowMs ttlMs
  have hLive : ∀ t, Lapsed ttlMs t t → windowMs ≤ ttlMs := by
    rintro t ⟨hPos, hLate⟩
    omega
  obtain ⟨hFirst, last, hLow, hHigh, hLogged⟩ := listed_batch hWindow (by simp; omega) hLimit
    (List.range (limit / 2 + 1)) (hNone 0) le_rfl (hLive 0) (by simpa using List.nodup_range)
    (by simp; omega)
  obtain rfl := le_antisymm hHigh hLow
  obtain ⟨hSecond, _⟩ := listed_batch hWindow (by rw [abs_of_pos hTTL]; exact hFits) hLimit
    (List.range' (limit / 2 + 1) (limit / 2 + 1)) (hNone ttlMs) le_rfl (hLive ttlMs)
    (by simpa using List.nodup_range') (by simp; omega)
  rw [List.length_range] at hFirst
  rw [List.length_range'] at hSecond
  have hGone := find_of_lapsed hLogged.deadline ⟨hTTL, (zero_add ttlMs).le⟩
  rw [pausedRequests, serve_append, allowedTimes_append, hFirst, ← hSecond, List.range'_succ,
    List.map_cons, serve_gone hGone]

theorem within_pausedRequests (hTTL : 0 < ttlMs) (hShort : ttlMs < windowMs)
    (hFits : ttlMs + windowMs ≤ 2 ^ 53) (hLimit : 0 < limit) :
    limit < within windowMs
      (allowedTimes (serve (script limit windowMs ttlMs) none (pausedRequests limit ttlMs))) ttlMs := by
  rw [allowedTimes_pausedRequests hTTL (by omega) hFits hLimit, within, List.countP_append,
    List.countP_replicate, List.countP_replicate, if_pos (by simp; omega), if_pos (by simp; omega)]
  omega

end Uncovered

theorem withinLimit_iff (sw : Memory.SlidingWindow) (opts : Options) (hWhole : 1000000 ∣ sw.window)
    (hDuration : sw.window ≤ maxDuration) :
    WithinLimit sw opts ↔ (0 < milliseconds opts.keyTTL → milliseconds sw.window ≤
      milliseconds opts.keyTTL) := by
  obtain ⟨windowMs, hWindow⟩ := hWhole
  have hMilliseconds : milliseconds sw.window = windowMs := by
    rw [milliseconds, hWindow, Int.mul_tdiv_cancel_left _ (by decide)]
  have hPos : 0 < windowMs := by
    have := sw.window_pos
    omega
  obtain ⟨limit, hLimit⟩ := Int.eq_ofNat_of_zero_le sw.limit_pos.le
  have hLimitPos := sw.limit_pos
  rw [WithinLimit, hMilliseconds, hLimit]
  constructor
  · intro hWithin hTTL
    by_contra hShort
    have hFits : milliseconds opts.keyTTL + windowMs ≤ 2 ^ 53 := by
      unfold maxDuration at hDuration
      omega
    have hMore := within_pausedRequests hTTL (not_le.mp hShort) hFits (by omega : 0 < limit)
    have hMost := hWithin Nat (pausedRequests limit (milliseconds opts.keyTTL))
      (proper_pausedRequests hTTL.le hFits) (milliseconds opts.keyTTL)
    exact absurd (Int.ofNat_le.mp hMost) (not_le.mpr hMore)
  · intro hTTL M _ requests hProper t
    cases requests with
    | nil => exact hLimit ▸ hLimitPos.le
    | cons x rest =>
      have hStart : (x.1 :: (x :: rest).map Prod.fst).Pairwise (· ≤ ·) := by
        have hLater := (List.pairwise_cons.mp hProper.clock).1
        exact List.pairwise_cons.mpr ⟨List.forall_mem_cons.mpr ⟨le_rfl, hLater⟩, hProper.clock⟩
      have hRun := within_run hTTL hPos (x :: rest) (Listed.none windowMs _ x.1)
        (fun _ => Nat.zero_le limit) hStart (by simpa using hProper.members) hProper.fits t
      rw [List.nil_append] at hRun
      exact_mod_cast hRun

/-- Under the default options the limit holds for the windows of at most 30 minutes. -/
theorem default_limit_iff (sw : Memory.SlidingWindow) (hWhole : 1000000 ∣ sw.window)
    (hDuration : sw.window ≤ maxDuration) :
    WithinLimit sw {} ↔ sw.window ≤ 30 * 60 * 1000000000 := by
  have hDefault : milliseconds ({} : Options).keyTTL = 1800000 := rfl
  rw [withinLimit_iff sw {} hWhole hDuration, hDefault]
  obtain ⟨windowMs, hWindow⟩ := hWhole
  rw [milliseconds, hWindow, Int.mul_tdiv_cancel_left _ (by decide)]
  omega

theorem default_limit_perSecond : WithinLimit perSecond {} :=
  (default_limit_iff perSecond ⟨1000, rfl⟩ (by decide)).mpr (by decide)

def hourly : Memory.SlidingWindow :=
  { perMillisecond with window := 3600000000000, window_pos := by decide }

/-- One request an hour: the second is half an hour after the first. -/
theorem default_limit_exceeded : ¬ WithinLimit hourly {} := by
  intro hWithin
  have hMost := hWithin Nat [(0, 0), (1800000, 1)] ⟨by decide, by decide, by decide⟩ 1800000
  have hTwo : within (milliseconds hourly.window) (allowedTimes (serve (script hourly.limit
      (milliseconds hourly.window) (milliseconds ({} : Options).keyTTL)) none
        [(0, 0), (1800000, 1)])) 1800000 = 2 := by
    decide +kernel
  rw [hTwo] at hMost
  exact absurd hMost (by decide)

end Kaka.Redis.SlidingWindow
