import Kaka.Layered.BucketShield
import Kaka.Layered.WindowShield
import Kaka.Memory.Recovery

/-! # The layered limiter decides as its remote layer

For each algorithm, with the same parameters on both sides, no TTL and no
limit on the keys, one layered limiter shows the answers of its remote layer
alone.  The local buckets need two requests of a key to be no more than a
`time.Duration` apart, as `Sub` saturates there, and the remote window needs
members of their own for the requests in it.
-/

namespace Kaka.Layered

open Shielding Redis

theorem pairwise_instant (epoch : Int) {times : List Int} (hClock : times.Pairwise (· ≤ ·)) :
    (times.map (instant epoch)).Pairwise (· ≤ ·) := by
  apply hClock.map
  intro t u hLe
  exact instant_mono epoch hLe

theorem pacedAfter_of_chain {requests : List (List UInt8 × Int)}
    (hPaced : ∀ key, blank key = false → (pastOf key requests).IsChain Paced) :
    ∀ before x rest, requests = before ++ x :: rest → blank x.1 = false →
      PacedAfter (pastOf x.1 before) x.2 := by
  rintro before x rest rfl hKey last hLast
  have hChain := hPaced x.1 hKey
  rw [pastOf_split] at hChain
  exact (List.isChain_append.mp hChain).2.2 last hLast x.2 rfl

theorem comesAfter_of_pairwise {M : Type} {windowMs : Int}
    {requests : List (List UInt8 × SlidingWindow.Draw M)}
    (hClock : (requests.map fun x => x.2.now).Pairwise (· ≤ ·))
    (hApart : ∀ key, blank key = false →
      (pastOf key requests).Pairwise (SlidingWindow.Apart windowMs)) :
    ∀ before x rest, requests = before ++ x :: rest → blank x.1 = false →
      SlidingWindow.ComesAfter windowMs (pastOf x.1 before) x.2 := by
  rintro before x rest rfl hKey
  constructor
  · intro y hy
    obtain ⟨z, hz, rfl⟩ := List.mem_map.mp hy
    rw [List.map_append] at hClock
    exact (List.pairwise_append.mp hClock).2.2 _
      (List.mem_map_of_mem (List.mem_filter.mp hz).1) _ List.mem_cons_self
  · intro y hy
    have hPairs := hApart x.1 hKey
    rw [pastOf_split] at hPairs
    exact (List.pairwise_append.mp hPairs).2.2 y hy x.2 List.mem_cons_self

section Algorithms

variable {opts : Memory.Options} {n : Nat} {power : ∃ k, n = 2 ^ k} {remote : Redis.Options}
  {ttlMs : Int} (hMax : opts.maxKeys ≤ 0) (hLocal : opts.keyTTL ≤ 0) (hRemote : ttlMs ≤ 0) (epoch : Int)
include hMax hLocal hRemote

theorem TokenBucket.answersAlike (rates : Rates) {requests : List (List UInt8 × Int)}
    (hClock : (requests.map Prod.snd).Pairwise (· ≤ ·))
    (hPaced : ∀ key, blank key = false → (pastOf key requests).IsChain Paced) :
    AnswersAlike (Memory.TokenBucket.params rates opts n power)
      (Memory.TokenBucket.refillAndDecide rates) remote
      (replying (Redis.TokenBucket.script rates ttlMs)) (instant epoch) id id requests := by
  refine answersAlike_of_shields hMax
    (Memory.TokenBucket.recovers fun hPos => absurd hPos (not_lt.mpr hLocal))
    (shields rates epoch hRemote opts n power) .absent ?_ (pacedAfter_of_chain hPaced)
  have hInstants := pairwise_instant epoch hClock
  rwa [List.map_map] at hInstants

theorem LeakyBucket.answersAlike (rates : Rates) {requests : List (List UInt8 × Int)}
    (hClock : (requests.map Prod.snd).Pairwise (· ≤ ·))
    (hPaced : ∀ key, blank key = false → (pastOf key requests).IsChain Paced) :
    AnswersAlike (Memory.LeakyBucket.params opts n power) (Memory.LeakyBucket.leakAndDecide rates)
      remote (replying (Redis.LeakyBucket.script rates ttlMs)) (instant epoch) id id requests := by
  refine answersAlike_of_shields hMax
    (Memory.LeakyBucket.recovers fun hPos => absurd hPos (not_lt.mpr hLocal))
    (shields rates epoch hRemote opts n power) .absent ?_ (pacedAfter_of_chain hPaced)
  have hInstants := pairwise_instant epoch hClock
  rwa [List.map_map] at hInstants

theorem SlidingWindow.answersAlike {M : Type} [LinearOrder M] {sw : Memory.SlidingWindow}
    {windowMs : Int} (hWhole : sw.window = windowMs * 1000000)
    {requests : List (List UInt8 × Draw M)}
    (hClock : (requests.map fun x => x.2.now).Pairwise (· ≤ ·))
    (hApart : ∀ key, blank key = false → (pastOf key requests).Pairwise (Apart windowMs)) :
    AnswersAlike (Memory.SlidingWindow.params opts n power) sw.recordAndDecide remote
      (Redis.SlidingWindow.scriptOn id sw.limit windowMs ttlMs) (fun x => instant epoch x.now)
      Draw.forward Draw.direct requests := by
  refine answersAlike_of_shields hMax
    (Memory.SlidingWindow.recovers fun hPos => absurd hPos (not_lt.mpr hLocal))
    (shields hWhole epoch hRemote opts n power) (fun now _ => ⟨[], now, now, le_rfl, .new _ _ _ _ _⟩) ?_
    (comesAfter_of_pairwise hClock hApart)
  have hInstants := pairwise_instant epoch hClock
  rwa [List.map_map] at hInstants

end Algorithms

theorem layered_answers_alike (opts : Memory.Options) (n : Nat) (power : ∃ k, n = 2 ^ k)
    (hMax : opts.maxKeys ≤ 0) (hLocal : opts.keyTTL ≤ 0) (remote : Redis.Options)
    (hRemote : milliseconds remote.keyTTL ≤ 0) (epoch : Int) :
    (∀ (rates : Rates) (requests : List (List UInt8 × Int)),
      (requests.map Prod.snd).Pairwise (· ≤ ·) →
      (∀ key, blank key = false → (pastOf key requests).IsChain Paced) →
      AnswersAlike (Memory.TokenBucket.params rates opts n power)
          (Memory.TokenBucket.refillAndDecide rates) remote
          (replying (Redis.TokenBucket.script rates (milliseconds remote.keyTTL)))
          (instant epoch) id id requests ∧
        AnswersAlike (Memory.LeakyBucket.params opts n power)
          (Memory.LeakyBucket.leakAndDecide rates) remote
          (replying (Redis.LeakyBucket.script rates (milliseconds remote.keyTTL)))
          (instant epoch) id id requests) ∧
    ∀ (M : Type) [LinearOrder M] (sw : Memory.SlidingWindow)
      (requests : List (List UInt8 × SlidingWindow.Draw M)),
      sw.window = milliseconds sw.window * 1000000 →
      (requests.map fun x => x.2.now).Pairwise (· ≤ ·) →
      (∀ key, blank key = false → (pastOf key requests).Pairwise
        (SlidingWindow.Apart (milliseconds sw.window))) →
      AnswersAlike (Memory.SlidingWindow.params opts n power) sw.recordAndDecide remote
        (Redis.SlidingWindow.scriptOn id sw.limit (milliseconds sw.window)
          (milliseconds remote.keyTTL))
        (fun x => instant epoch x.now) SlidingWindow.Draw.forward SlidingWindow.Draw.direct
        requests := by
  refine ⟨?_, ?_⟩
  · intro rates requests hClock hPaced
    exact ⟨TokenBucket.answersAlike hMax hLocal hRemote epoch rates hClock hPaced,
      LeakyBucket.answersAlike hMax hLocal hRemote epoch rates hClock hPaced⟩
  · intro M _ sw requests hWhole hClock hApart
    exact SlidingWindow.answersAlike hMax hLocal hRemote epoch hWhole hClock hApart

/-- Two requests in five milliseconds. -/
def fiveMs : Memory.SlidingWindow :=
  { Memory.SlidingWindow.two with window := 5000000, window_pos := by decide }

/-- The third request at once is denied by both local layers, and another key is not. -/
theorem layered_answers_alike_burst :
    AnswersAlike (Memory.TokenBucket.params .onePerSecond {} 2 Memory.Params.two_shards)
        (Memory.TokenBucket.refillAndDecide .onePerSecond) { keyTTL := 0 }
        (replying (Redis.TokenBucket.script .onePerSecond 0)) (instant 7) id id
        [([97], 0), ([97], 0), ([97], 0), ([98], 1), ([97], 1500)] ∧
      AnswersAlike (Memory.SlidingWindow.params {} 2 Memory.Params.two_shards)
        fiveMs.recordAndDecide { keyTTL := 0 } (Redis.SlidingWindow.scriptOn id 2 5 0)
        (fun x => instant 7 x.now) SlidingWindow.Draw.forward SlidingWindow.Draw.direct
        [([97], (⟨0, 0, 5⟩ : SlidingWindow.Draw Nat)), ([97], ⟨0, 1, 6⟩), ([97], ⟨0, 2, 7⟩),
          ([98], ⟨1, 3, 8⟩), ([97], ⟨6, 0, 5⟩)] := by
  obtain ⟨hBuckets, hWindows⟩ := layered_answers_alike {} 2 Memory.Params.two_shards (by decide)
    (by decide) { keyTTL := 0 } (by decide) 7
  constructor
  · refine (hBuckets .onePerSecond _ (by decide) ?_).1
    intro key _
    have hPaced : ([0, 0, 0, 1, 1500] : List Int).Pairwise Paced := by
      simp [Paced, maxDuration]
    exact (hPaced.sublist (pastOf_sublist key _)).isChain
  · refine hWindows Nat fiveMs _ (by decide) (by decide) ?_
    intro key _
    have hApart : ([⟨0, 0, 5⟩, ⟨0, 1, 6⟩, ⟨0, 2, 7⟩, ⟨1, 3, 8⟩, ⟨6, 0, 5⟩] :
        List (SlidingWindow.Draw Nat)).Pairwise (SlidingWindow.Apart 5) := by
      simp [SlidingWindow.Apart]
    exact hApart.sublist (pastOf_sublist key _)

/-! ## What the two conditions exclude -/

/-- A request every ten billion seconds, which is more than a `time.Duration` holds. -/
def tenBillion : Rates := { Memory.slowest with rate := 1 / 10 ^ 10, rate_pos := by norm_num }

/-- After twelve billion seconds the bucket has a token again in Redis, and
not in memory, where the pause is cut; and the remote layer alone draws one member
twice and counts the two requests as one. -/
theorem layered_answers_differ :
    ¬ AnswersAlike (Memory.TokenBucket.params tenBillion {} 2 Memory.Params.two_shards)
        (Memory.TokenBucket.refillAndDecide tenBillion) { keyTTL := 0 }
        (replying (Redis.TokenBucket.script tenBillion 0)) (instant 0) id id
        [([97], 0), ([97], 12 * 10 ^ 12)] ∧
      ¬ AnswersAlike (Memory.SlidingWindow.params {} 2 Memory.Params.two_shards)
        fiveMs.recordAndDecide { keyTTL := 0 } (Redis.SlidingWindow.scriptOn id 2 5 0)
        (fun x => instant 0 x.now) SlidingWindow.Draw.forward SlidingWindow.Draw.direct
        [([97], (⟨0, 0, 0⟩ : SlidingWindow.Draw Nat)), ([97], ⟨1, 1, 0⟩), ([97], ⟨2, 2, 1⟩)] := by
  constructor
  · rw [answersAlike_iff (by decide)
      (Memory.TokenBucket.recovers fun hPos => absurd hPos (lt_irrefl 0)) (by decide)]
    decide +kernel
  · rw [answersAlike_iff (by decide)
      (Memory.SlidingWindow.recovers fun hPos => absurd hPos (lt_irrefl 0)) (by decide)]
    decide +kernel

end Kaka.Layered
