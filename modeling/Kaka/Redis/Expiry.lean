import Kaka.Base.Forgetting
import Kaka.Redis.BucketClock
import Kaka.Redis.SlidingWindow
import Mathlib.Data.Int.ConditionallyCompleteOrder

/-! # Keys that expire

Each script sets the TTL anew, also when it denies, so a key is gone only a
whole TTL after the last request on it.  If the limiter has recovered by
then, no reply shows that the key expired.
-/

namespace Kaka.Redis

open Forgetting

section Expiring

variable {α ι ρ : Type}

/-- A machine whose state is kept at a key with a TTL. -/
def expiring (M : Machine α ι ρ Int) (ttlMs : Int) (key : Option (Entry α)) (x : ι) :
    Option (Entry α) × ρ :=
  let out := M.fn (M.found ((find (M.time x) key).map Entry.value) x) x
  (some ⟨out.1, deadlineAfter ttlMs (M.time x)⟩, out.2)

variable {M : Machine α ι ρ Int} {ttlMs : Int} {Inv : α → Int → Prop} {Same : α → α → Prop}

theorem tracks_written (hRecovers : Recovers M (Lapsed ttlMs) Inv Same) {last : Int} {v : α}
    {b : Option (α × Int)} (h : Tracks (Lapsed ttlMs) Inv Same last (some v) b)
    (hLast : ∀ w ∈ b, w.2 = last) {t : Int} (hTime : last ≤ t) :
    Tracks (Lapsed ttlMs) Inv Same t
      ((find t (some ⟨v, deadlineAfter ttlMs last⟩)).map Entry.value) b := by
  have hLater := h.later hRecovers hTime
  have hKey : ∀ e ∈ some (⟨v, deadlineAfter ttlMs last⟩ : Entry α),
      e.deadline = deadlineAfter ttlMs last := by
    rintro e ⟨⟩
    rfl
  rcases em (Lapsed ttlMs last t) with hLapsed | hLive
  · rw [find_of_lapsed hKey hLapsed]
    refine hLater.forget fun w hw => ?_
    rw [hLast w hw]
    exact hLapsed
  · rw [find_of_not_lapsed hKey hLive]
    exact hLater

theorem serve_expiring (hRecovers : Recovers M (Lapsed ttlMs) Inv Same) {start : Int}
    {key : Option (Entry α)} {b : Option (α × Int)}
    (hKey : ∀ t, start ≤ t → Tracks (Lapsed ttlMs) Inv Same t ((find t key).map Entry.value) b)
    (requests : List ι) (hClock : (start :: requests.map M.time).IsChain (· ≤ ·)) :
    serve (expiring M ttlMs) key requests = serve M.single b requests := by
  induction requests generalizing start key b with
  | nil => rfl
  | cons x rest ih =>
    have hFound := hKey (M.time x) hClock.rel
    have hReply : (expiring M ttlMs key x).2 = (M.single b x).2 := (hFound.alike hRecovers).1
    rw [serve_cons, serve_cons, hReply, ih ?_ hClock.tail]
    intro t hTime
    refine tracks_written hRecovers (hFound.request hRecovers) ?_ hTime
    rintro w ⟨⟩
    rfl

/-- The TTL does not show where the machine recovers within it. -/
theorem expiry_invisible_of_recovers (hRecovers : Recovers M (Lapsed ttlMs) Inv Same)
    (hForever : Recovers M (Lapsed 0) Inv Same) (requests : List ι)
    (hClock : (requests.map M.time).IsChain (· ≤ ·)) :
    serve (expiring M ttlMs) none requests = serve (expiring M 0) none requests := by
  cases requests with
  | nil => rfl
  | cons x rest =>
    have hStart : (M.time x :: (x :: rest).map M.time).IsChain (· ≤ ·) :=
      List.isChain_cons_cons.mpr ⟨le_rfl, hClock⟩
    rw [serve_expiring hRecovers (fun _ _ => .absent) (x :: rest) hStart,
      serve_expiring hForever (fun _ _ => .absent) (x :: rest) hStart]

end Expiring

/-! ## The buckets -/

theorem serve_hashScript_expiring {α : Type} {body : Option α → Int → α × Reply} {create : Int → α}
    (hNew : ∀ now, body none now = body (some (create now)) now) (ttlMs : Int) (readings : List Int) :
    serve (hashScript body ttlMs) none readings =
      serve (expiring ⟨create, fun v => body (some v), id⟩ ttlMs) none readings := by
  -- without a TTL no key has a deadline that `HSET` could keep
  refine serve_congr (I := fun key => ∀ e ∈ key, ttlMs ≤ 0 → e.deadline = none) ?_ (by simp) readings
  intro key now hTimed
  have hStep : hashScript body ttlMs key now =
      expiring ⟨create, fun v => body (some v), id⟩ ttlMs key now := by
    cases hFind : find now key with
    | none =>
      simp only [hashScript, expiring, hFind, Option.map_none, Option.bind_none, hNew, Machine.found,
        Option.getD_none, id]
      rw [pexpire_eq fun _ => rfl]
    | some e =>
      have hDeadline := hTimed e (mem_of_mem_find hFind)
      simp only [hashScript, expiring, hFind, Option.map_some, Option.bind_some, Machine.found,
        Option.getD_some, id]
      rw [pexpire_eq (e := ⟨(body (some e.value) now).1, e.deadline⟩) hDeadline]
  refine ⟨hStep, ?_⟩
  rw [hStep]
  rintro e ⟨⟩ hTtl
  exact deadlineAfter_of_le hTtl now

namespace TokenBucket

variable {tb : Rates}

structure Steps (tb : Rates) (h : TokenHash) (last : Int) : Prop where
  range : InRange tb h
  last_eq : h.lastRefilledMs = last

theorem Steps.step {h : TokenHash} {last now : Int} (hSteps : Steps tb h last) (hTime : last ≤ now) :
    Steps tb (step tb h now).1 now where
  range := inRange_step hSteps.range
  last_eq := by rw [lastRefilledMs_step, hSteps.last_eq, max_eq_right hTime]

theorem Steps.full {h : TokenHash} {last now ttlMs : Int} (hSteps : Steps tb h last)
    (hTTL : tb.capacity ≤ ttlMs * tb.rate / 1000) (hLapsed : Lapsed ttlMs last now) :
    refilled tb h now = tb.capacity := by
  have hGap : (ttlMs : ℚ) ≤ (max h.lastRefilledMs now - h.lastRefilledMs : Int) := by
    have hLater := hLapsed.2
    have hLast := hSteps.last_eq
    exact_mod_cast (by omega : ttlMs ≤ max h.lastRefilledMs now - h.lastRefilledMs)
  have hYield := mul_le_mul_of_nonneg_right hGap tb.rate_pos.le
  have hTokens := hSteps.range.1
  exact min_eq_left (by linarith)

theorem recovers {ttlMs : Int} (hTTL : 0 < ttlMs → tb.capacity ≤ ttlMs * tb.rate / 1000) :
    Recovers ⟨create tb, step tb, id⟩ (Lapsed ttlMs) (Steps tb) Eq where
  later := Lapsed.later
  refl _ := rfl
  first now := Steps.step ⟨inRange_create tb now, rfl⟩ le_rfl
  next hSteps hTime := hSteps.step hTime
  same hSame _ _ := by
    subst hSame
    exact ⟨rfl, rfl⟩
  idle {h last now} hSteps hTime hLapsed := by
    have hTimes : max (create tb now).lastRefilledMs now = max h.lastRefilledMs now := by
      rw [hSteps.last_eq]
      exact (max_self now).trans (max_eq_right hTime).symm
    have hEq : step tb (create tb now) now = step tb h now := by
      rw [step_eq (inRange_create tb now).2, step_eq hSteps.range.2, refilled_create, hTimes]
      exact congrArg (fun tokens => decide tb tokens _) (hSteps.full (hTTL hLapsed.1) hLapsed).symm
    exact ⟨congrArg Prod.snd hEq, congrArg Prod.fst hEq⟩

end TokenBucket

theorem LeakyBucket.recovers {lb : Rates} {ttlMs : Int}
    (hTTL : 0 < ttlMs → lb.capacity ≤ ttlMs * lb.rate / 1000) :
    Recovers ⟨create, step lb, id⟩ (Lapsed ttlMs)
      (fun h last => TokenBucket.Steps lb (asTokens lb h) last)
      (fun h h' => asTokens lb h = asTokens lb h') :=
  (TokenBucket.recovers hTTL).comap (asTokens lb) rfl (fun now => (asTokens_create lb now).symm)
    (step_asTokens lb)

/-! ## The sliding window -/

namespace SlidingWindow

variable {M : Type} [LinearOrder M] {limit windowMs ttlMs : Int}

/-- The script on the set that it finds at its key. -/
def window (limit windowMs : Int) : Machine (SortedSet Int M) (Int × M) (Option Reply) Int where
  create _ := .empty
  fn set x :=
    let set := set.removeUpTo (x.1 - windowMs)
    if set.card < limit then (set.add x.1 x.2, some ⟨1, limit - set.card - 1, 0⟩)
    else (set, set.first?.map fun oldest => ⟨0, 0, oldest + windowMs - x.1⟩)
  time := Prod.fst

theorem map_pexpire {key : Key M} {set : SortedSet Int M} (hTimed : Timed ttlMs key)
    (hSet : contents key = set) (hSome : key.isSome = true) (now : Int) :
    key.map (pexpire ttlMs now) = some ⟨set, deadlineAfter ttlMs now⟩ := by
  obtain ⟨e, rfl⟩ := Option.isSome_iff_exists.mp hSome
  rw [Option.map_some, pexpire_eq (timed_some.mp hTimed), ← hSet]
  rfl

theorem scriptOn_id (hLimit : 0 < limit) {key : Key M} (hTimed : Timed ttlMs key) (x : Int × M) :
    scriptOn id limit windowMs ttlMs key x = expiring (window limit windowMs) ttlMs key x := by
  have hFound : Timed ttlMs (zremrangebyscore (x.1 - windowMs) (find x.1 key)) :=
    Timed.zremrangebyscore (fun e he => hTimed e (mem_of_mem_find he)) _
  have hSet : contents (zremrangebyscore (x.1 - windowMs) (find x.1 key)) =
      (contents (find x.1 key)).removeUpTo (x.1 - windowMs) := contents_zremrangebyscore _ _
  simp only [scriptOn, id, expiring, window, Machine.found, zcard_eq, zrangeFirst_eq, hSet]
  rw [← contents]
  split
  · refine Prod.ext (map_pexpire (hFound.zadd _ _) ?_ ?_ _) rfl
    · rw [contents_zadd, hSet]
    · cases zremrangebyscore (x.1 - windowMs) (find x.1 key) <;> rfl
  · rename_i hFull
    refine Prod.ext (map_pexpire hFound hSet ?_ _) rfl
    -- a full set is not empty, so there is a key
    cases hKey : zremrangebyscore (x.1 - windowMs) (find x.1 key) with
    | none =>
      rw [hKey] at hSet
      rw [← hSet] at hFull
      exact absurd hLimit hFull
    | some e => rfl

theorem serve_scriptOn_id (hLimit : 0 < limit) (requests : List (Int × M)) :
    serve (scriptOn id limit windowMs ttlMs) none requests =
      serve (expiring (window limit windowMs) ttlMs) none requests := by
  refine serve_congr (I := Timed ttlMs) ?_ (by simp [Timed]) requests
  intro key x hTimed
  refine ⟨scriptOn_id hLimit hTimed x, ?_⟩
  rw [scriptOn_id hLimit hTimed]
  exact timed_some.mpr fun hTtl => deadlineAfter_of_le hTtl _

/-- Without a limit no member is ever added, and there is no key to expire. -/
theorem scriptOn_id_none (hLimit : limit ≤ 0) (x : Int × M) :
    scriptOn id limit windowMs ttlMs none x = (none, none) := by
  have hFull : ¬ (0 : Int) < limit := not_lt.mpr hLimit
  simp [scriptOn, find, zremrangebyscore, zcard, zrangeFirst, hFull]

def Upto (set : SortedSet Int M) (last : Int) : Prop := ∀ x ∈ set.scores, x ≤ last

theorem Upto.fn {set : SortedSet Int M} {last : Int} (h : Upto set last) (x : Int × M)
    (hTime : last ≤ x.1) : Upto ((window limit windowMs).fn set x).1 x.1 := by
  have hKept : ∀ s ∈ (set.removeUpTo (x.1 - windowMs)).scores, s ≤ x.1 := by
    intro s hs
    rw [SortedSet.scores_removeUpTo] at hs
    exact (h s (List.mem_filter.mp hs).1).trans hTime
  simp only [window]
  split
  · intro s hs
    rcases SortedSet.mem_scores_add _ hs with rfl | hOld
    · exact le_rfl
    · exact hKept s hOld
  · exact hKept

theorem Upto.removeUpTo_eq_empty {set : SortedSet Int M} {last top : Int} (h : Upto set last)
    (hTop : last ≤ top) : set.removeUpTo top = .empty := by
  refine SortedSet.eq_empty ?_
  rw [SortedSet.card_eq, SortedSet.scores_removeUpTo, List.length_eq_zero_iff,
    List.filter_eq_nil_iff]
  intro x hx
  have := h x hx
  simp only [decide_eq_true_eq]
  omega

theorem upto_empty (last : Int) : Upto (SortedSet.empty : SortedSet Int M) last := by
  simp [Upto, SortedSet.empty, SortedSet.scores]

theorem window_recovers (hTTL : 0 < ttlMs → windowMs ≤ ttlMs) :
    Recovers (window (M := M) limit windowMs) (Lapsed ttlMs) Upto Eq where
  later := Lapsed.later
  refl _ := rfl
  first x := (upto_empty x.1).fn x le_rfl
  next h hTime := h.fn _ hTime
  same hSame _ _ := by
    subst hSame
    exact ⟨rfl, rfl⟩
  idle {set last x} h hTime hLapsed := by
    have hTop : last ≤ x.1 - windowMs := by
      have hWindow := hTTL hLapsed.1
      have hLater : last + ttlMs ≤ x.1 := hLapsed.2
      omega
    have hEq : (window limit windowMs).fn .empty x = (window limit windowMs).fn set x := by
      simp only [window, h.removeUpTo_eq_empty hTop,
        (upto_empty (M := M) (x.1 - windowMs)).removeUpTo_eq_empty le_rfl]
    exact ⟨congrArg Prod.snd hEq, congrArg Prod.fst hEq⟩

theorem serve_ttl_eq (hTTL : windowMs ≤ ttlMs) (requests : List (Int × M))
    (hClock : (requests.map Prod.fst).IsChain (· ≤ ·)) :
    serve (scriptOn id limit windowMs ttlMs) none requests =
      serve (scriptOn id limit windowMs 0) none requests := by
  rcases lt_or_ge 0 limit with hLimit | hLimit
  · rw [serve_scriptOn_id hLimit, serve_scriptOn_id hLimit]
    exact expiry_invisible_of_recovers (window_recovers fun _ => hTTL)
      (window_recovers fun h => absurd h (lt_irrefl 0)) requests hClock
  · refine serve_congr (I := fun key => key = none) ?_ rfl requests
    rintro key x rfl
    rw [scriptOn_id_none hLimit, scriptOn_id_none hLimit]
    exact ⟨rfl, rfl⟩

end SlidingWindow

/-- A TTL that covers the recovery changes no reply, whatever the members drawn. -/
theorem expiry_invisible (ttlMs : Int) :
    (∀ (rates : Rates) (readings : List Int), rates.capacity ≤ ttlMs * rates.rate / 1000 →
      readings.IsChain (· ≤ ·) →
      serve (TokenBucket.script rates ttlMs) none readings =
          serve (TokenBucket.script rates 0) none readings ∧
        serve (LeakyBucket.script rates ttlMs) none readings =
          serve (LeakyBucket.script rates 0) none readings) ∧
    (∀ (M : Type) [LinearOrder M] (limit windowMs : Int) (requests : List (Int × M)),
      windowMs ≤ ttlMs → (requests.map Prod.fst).IsChain (· ≤ ·) →
      serve (SlidingWindow.scriptOn id limit windowMs ttlMs) none requests =
        serve (SlidingWindow.scriptOn id limit windowMs 0) none requests) := by
  constructor
  · intro rates readings hTTL hClock
    have hTimes : (readings.map id).IsChain (· ≤ ·) := by rwa [List.map_id]
    constructor
    · simp only [TokenBucket.script, serve_hashScript_expiring (TokenBucket.body_none rates)]
      exact expiry_invisible_of_recovers (TokenBucket.recovers fun _ => hTTL)
        (TokenBucket.recovers fun h => absurd h (lt_irrefl 0)) readings hTimes
    · simp only [LeakyBucket.script, serve_hashScript_expiring (LeakyBucket.body_none rates)]
      exact expiry_invisible_of_recovers (LeakyBucket.recovers fun _ => hTTL)
        (LeakyBucket.recovers fun h => absurd h (lt_irrefl 0)) readings hTimes
  · intro M _ limit windowMs requests hTTL hClock
    exact SlidingWindow.serve_ttl_eq hTTL requests hClock

/-- Two requests, and one after the key expired: the bucket is full
again, and the window of a second is empty. -/
theorem expiry_invisible_twoSeconds :
    (serve (TokenBucket.script .onePerSecond 2000) none [0, 10, 2010] =
        serve (TokenBucket.script .onePerSecond 0) none [0, 10, 2010] ∧
      serve (LeakyBucket.script .onePerSecond 2000) none [0, 10, 2010] =
        serve (LeakyBucket.script .onePerSecond 0) none [0, 10, 2010]) ∧
    serve (SlidingWindow.scriptOn id 1 1000 2000) none [(0, 7), (10, 8), (2010, 7)] =
      serve (SlidingWindow.scriptOn id 1 1000 0) none [(0, 7), (10, 8), (2010, 7)] :=
  ⟨(expiry_invisible 2000).1 .onePerSecond [0, 10, 2010] (by norm_num [Rates.onePerSecond])
      (by decide),
    (expiry_invisible 2000).2 Nat 1 1000 [(0, 7), (10, 8), (2010, 7)] (by decide) (by decide)⟩

end Kaka.Redis
