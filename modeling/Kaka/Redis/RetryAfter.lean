import Kaka.Memory.BucketAdmission
import Kaka.Redis.BucketClock
import Mathlib.Order.Bounds.Basic

/-! # The wait that a Redis bucket tells a denied request

The script counts the wait from the stored time, which is later than the
server's reading where the clock has gone back.  The client multiplies the
milliseconds by a million in 64 bits.  The wait it returns is long enough
exactly where neither of the two matters.
-/

namespace Kaka.Redis

/-- A request denied at `now` is allowed when it comes back after the wait it was told. -/
def RetrySuffices {α : Type} (script : Option (Entry α) → Int → Option (Entry α) × Reply)
    (key : Option (Entry α)) (now : Int) : Prop :=
  let out := script key now
  (script out.1 (now + out.2.retryAfterMs)).2.allowed = 1

def opened {α : Type} (create : Int → α) (key : Option (Entry α)) (now : Int) : α :=
  ((find now key).map Entry.value).getD (create now)

theorem opened_some {α : Type} {create : Int → α} {e : Entry α} (hDeadline : e.deadline = none)
    (now : Int) : opened create (some e) now = e.value := by
  simp only [opened, find, hDeadline, Option.map_some, Option.getD_some]

def FirstAllowed {α : Type} (step : α → Int → α × Reply) (h : α) (now ms : Int) : Prop :=
  IsLeast {ms : Int | 0 ≤ ms ∧ (step h (now + ms)).2.allowed = 1} ms

/-- The wait is at least the true one, or the longest `time.Duration` where
that cannot say it. -/
def Covers (retryAfter nanos : Int) : Prop :=
  nanos ≤ retryAfter ∨ retryAfter = maxDuration ∧ maxDuration < nanos

/-- The multiplication in 64 bits never comes to an odd number, so not to the
longest `time.Duration` either. -/
theorem covers_iff {d ms : Int} (hPos : 0 < d) (hFits : d < 2 ^ 63) (hLe : d ≤ ms) :
    Covers (decode ⟨0, 0, d⟩).retryAfter (ms * 1000000) ↔ ms ≤ d ∧ d * 1000000 ≤ maxDuration := by
  rw [decode, toInt64_of_mem hPos.le hFits]
  simp only [Covers, wrap64, maxDuration]
  omega

/-! ## The token bucket -/

namespace TokenBucket

variable {rates : Rates} {h : TokenHash} {now ttlMs : Int}

def missing (rates : Rates) (h : TokenHash) (now : Int) : ℚ :=
  1 - refill rates h.tokens (guarded h.lastRefilledMs now - h.lastRefilledMs)

theorem missing_eq (hRange : InRange rates h) : missing rates h now = 1 - refilled rates h now := by
  have hElapsed : 0 ≤ max h.lastRefilledMs now - h.lastRefilledMs := by omega
  rw [missing, guarded_eq_max, refill_eq_min hRange.2 hElapsed, refilled]

theorem step_of_denied (hRange : InRange rates h) (hDenied : (step rates h now).2.allowed = 0) :
    step rates h now = (⟨1 - missing rates h now, max h.lastRefilledMs now⟩,
        ⟨0, 0, ⌈missing rates h now * 1000 / rates.rate⌉⟩) ∧ 0 < missing rates h now := by
  rw [missing_eq hRange]
  rw [step_eq hRange.2, decide] at hDenied ⊢
  split
  · rename_i hOne
    rw [if_pos hOne] at hDenied
    cases hDenied
  · rename_i hShort
    exact ⟨by rw [sub_sub_cancel], by linarith⟩

theorem retryAfterMs_pos (hRange : InRange rates h) (hDenied : (step rates h now).2.allowed = 0) :
    0 < (step rates h now).2.retryAfterMs := by
  obtain ⟨hStep, hMissing⟩ := step_of_denied hRange hDenied
  have hRate := rates.rate_pos
  rw [hStep]
  exact Int.ceil_pos.mpr (by positivity)

theorem allowed_iff_wait (hRange : InRange rates h) :
    (step rates h now).2.allowed = 1 ↔ ⌈(1 - h.tokens) * 1000 / rates.rate⌉ ≤
      max h.lastRefilledMs now - h.lastRefilledMs := by
  have hRate : (1 - h.tokens) * 1000 / rates.rate ≤
      (max h.lastRefilledMs now - h.lastRefilledMs : Int) ↔
        1 ≤ h.tokens + (max h.lastRefilledMs now - h.lastRefilledMs : Int) * rates.rate / 1000 := by
    rw [div_le_iff₀ rates.rate_pos]
    constructor <;> intro hLe <;> linarith
  have hAllowed : (step rates h now).2.allowed = 1 ↔ 1 ≤ refilled rates h now :=
    beq_iff_eq.symm.trans (allowed_step hRange)
  rw [hAllowed, refilled, le_min_iff, Int.ceil_le, hRate]
  exact and_iff_right rates.one_le

/-- After a denial the wait runs from the stored time, not from the reading. -/
theorem allowed_after_denial (hRange : InRange rates h) (hDenied : (step rates h now).2.allowed = 0)
    (later : Int) : (step rates (step rates h now).1 later).2.allowed = 1 ↔
      max h.lastRefilledMs now + (step rates h now).2.retryAfterMs ≤ later := by
  obtain ⟨hStep, -⟩ := step_of_denied hRange hDenied
  have hPos := retryAfterMs_pos hRange hDenied
  have hNext : InRange rates (step rates h now).1 := inRange_step hRange
  rw [allowed_iff_wait hNext]
  rw [hStep] at hPos ⊢
  simp only [sub_sub_cancel] at hPos ⊢
  omega

theorem firstAllowed (hRange : InRange rates h) (hDenied : (step rates h now).2.allowed = 0) :
    FirstAllowed (step rates) (step rates h now).1 now
      (max h.lastRefilledMs now + (step rates h now).2.retryAfterMs - now) := by
  have hPos := retryAfterMs_pos hRange hDenied
  constructor
  · exact ⟨by omega, (allowed_after_denial hRange hDenied _).mpr (by omega)⟩
  · rintro ms ⟨_, hAllowed⟩
    have := (allowed_after_denial hRange hDenied _).mp hAllowed
    omega

/-- The bucket has no stored time ahead of the clock, and what it lacks for a
request comes within the milliseconds of the longest `time.Duration`. -/
def Tellable (rates : Rates) (h : TokenHash) (now : Int) : Prop :=
  h.lastRefilledMs ≤ now ∧ missing rates h now * 1000 / rates.rate ≤ 9223372036854

theorem covers_denial (hRange : InRange rates h) (hDenied : (step rates h now).2.allowed = 0)
    (hFits : (step rates h now).2.retryAfterMs < 2 ^ 63) :
    Covers (decode (step rates h now).2).retryAfter
        ((max h.lastRefilledMs now + (step rates h now).2.retryAfterMs - now) * 1000000) ↔
      Tellable rates h now := by
  obtain ⟨hStep, -⟩ := step_of_denied hRange hDenied
  have hPos := retryAfterMs_pos hRange hDenied
  have hMost : missing rates h now * 1000 / rates.rate ≤ 9223372036854 ↔
      ⌈missing rates h now * 1000 / rates.rate⌉ ≤ 9223372036854 := by
    rw [Int.ceil_le]
    norm_num
  rw [hStep] at hFits hPos ⊢
  dsimp only at hFits hPos ⊢
  rw [covers_iff hPos hFits (by omega), Tellable, hMost, maxDuration]
  omega

/-! ### Runs of the script -/

theorem script_eq (key : Option (Entry TokenHash)) (ttlMs now : Int) : script rates ttlMs key now =
    (some (pexpire ttlMs now
        ⟨(step rates (opened (create rates) key now) now).1, (find now key).bind Entry.deadline⟩),
      (step rates (opened (create rates) key now) now).2) := by
  rw [script, hashScript, opened]
  cases find now key with
  | none =>
    rw [Option.map_none, body_none]
    rfl
  | some e => rfl

structure EntryOk (rates : Rates) (ttlMs : Int) (e : Entry TokenHash) : Prop where
  inRange : InRange rates e.value
  deadline : ttlMs ≤ 0 → e.deadline = none

theorem inRange_opened {key : Option (Entry TokenHash)} (hKey : ∀ e ∈ key, EntryOk rates ttlMs e)
    (now : Int) : InRange rates (opened (create rates) key now) := by
  rw [opened]
  cases hFind : find now key with
  | none => exact inRange_create rates now
  | some e => exact (hKey e (mem_of_mem_find hFind)).inRange

theorem entryOk_script {key : Option (Entry TokenHash)} (hKey : ∀ e ∈ key, EntryOk rates ttlMs e)
    (now : Int) : ∀ e ∈ (script rates ttlMs key now).1, EntryOk rates ttlMs e := by
  intro e he
  rw [script_eq] at he
  obtain rfl := Option.some.inj he
  refine ⟨?_, fun hTtl => ?_⟩
  · rw [value_pexpire]
    exact inRange_step (inRange_opened hKey now)
  · rw [pexpire, if_neg (not_lt.mpr hTtl)]
    cases hFind : find now key with
    | none => rfl
    | some e => exact (hKey e (mem_of_mem_find hFind)).deadline hTtl

theorem entryOk_after (rates : Rates) (ttlMs : Int) (before : List Int) :
    ∀ e ∈ after (script rates ttlMs) none before, EntryOk rates ttlMs e := by
  suffices h : ∀ key : Option (Entry TokenHash), (∀ e ∈ key, EntryOk rates ttlMs e) →
      ∀ e ∈ after (script rates ttlMs) key before, EntryOk rates ttlMs e from h none (by simp)
  induction before with
  | nil => exact fun _ hKey => hKey
  | cons now rest ih => exact fun key hKey => ih _ (entryOk_script hKey now)

theorem opened_script (hTtl : ttlMs ≤ 0) {key : Option (Entry TokenHash)}
    (hKey : ∀ e ∈ key, EntryOk rates ttlMs e) (now later : Int) :
    opened (create rates) (script rates ttlMs key now).1 later =
      (step rates (opened (create rates) key now) now).1 := by
  have hEntries := entryOk_script hKey now
  rw [script_eq] at hEntries ⊢
  have hDeadline := (hEntries _ rfl).deadline hTtl
  rw [opened_some hDeadline, value_pexpire]

theorem lastRefilledMs_opened_after (rates : Rates) (hTtl : ttlMs ≤ 0) (before : List Int)
    (now bound : Int) :
    max (opened (create rates) (after (script rates ttlMs) none before) now).lastRefilledMs now ≤ bound ↔
      (∀ t ∈ before, t ≤ bound) ∧ now ≤ bound := by
  induction before using List.reverseRecOn generalizing now with
  | nil => simp [after, opened, find, create]
  | append_singleton before t ih =>
    have hEntries := entryOk_after rates ttlMs before
    rw [after, List.foldl_concat, ← after, opened_script hTtl hEntries, lastRefilledMs_step, max_le_iff, ih]
    simp only [List.forall_mem_append, List.forall_mem_singleton]

theorem retrySuffices_iff (rates : Rates) (hTtl : ttlMs ≤ 0) (before : List Int) (now : Int)
    (hDenied : (script rates ttlMs (after (script rates ttlMs) none before) now).2.allowed = 0) :
    RetrySuffices (script rates ttlMs) (after (script rates ttlMs) none before) now ↔
      ∀ t ∈ before, t ≤ now := by
  have hEntries := entryOk_after rates ttlMs before
  have hRange := inRange_opened hEntries now
  rw [script_eq] at hDenied
  rw [RetrySuffices, script_eq _ _ (now + _), opened_script hTtl hEntries, script_eq,
    allowed_after_denial hRange hDenied, add_le_add_iff_right, lastRefilledMs_opened_after rates hTtl]
  exact and_iff_left le_rfl

theorem covers_reply (rates : Rates) (ttlMs : Int) (before : List Int) (now : Int) :
    let key := after (script rates ttlMs) none before
    let h := opened (create rates) key now
    (script rates ttlMs key now).2.allowed = 0 → (script rates ttlMs key now).2.retryAfterMs < 2 ^ 63 →
    ∃ ms, FirstAllowed (step rates) (step rates h now).1 now ms ∧
      (Covers (decode (script rates ttlMs key now).2).retryAfter (ms * 1000000) ↔ Tellable rates h now) := by
  intro key h hDenied hFits
  have hRange : InRange rates h := inRange_opened (entryOk_after rates ttlMs before) now
  rw [script_eq] at hDenied hFits ⊢
  exact ⟨_, firstAllowed hRange hDenied, covers_denial hRange hDenied hFits⟩

end TokenBucket

/-! ## The leaky bucket -/

namespace LeakyBucket

variable {rates : Rates} {h : LeakyHash} {now ttlMs : Int}

def missing (rates : Rates) (h : LeakyHash) (now : Int) : ℚ :=
  leak rates h.water (guarded h.lastLeakMs now - h.lastLeakMs) + 1 - rates.capacity

def Tellable (rates : Rates) (h : LeakyHash) (now : Int) : Prop :=
  h.lastLeakMs ≤ now ∧ missing rates h now * 1000 / rates.rate ≤ 9223372036854

theorem tellable_asTokens (rates : Rates) (h : LeakyHash) (now : Int) :
    TokenBucket.Tellable rates (asTokens rates h) now ↔ Tellable rates h now := by
  have hMissing : TokenBucket.missing rates (asTokens rates h) now = missing rates h now := by
    rw [TokenBucket.missing, asTokens, refill_eq_leak, missing]
    ring
  rw [TokenBucket.Tellable, hMissing]
  rfl

theorem opened_asTokens (rates : Rates) (key : Option (Entry LeakyHash)) (now : Int) :
    opened (TokenBucket.create rates) (key.map (Entry.map (asTokens rates))) now =
      asTokens rates (opened create key now) := by
  rw [opened, find_map, opened]
  cases find now key with
  | none => exact (asTokens_create rates now).symm
  | some e => rfl

theorem after_asTokens (rates : Rates) (ttlMs : Int) (before : List Int) :
    (after (script rates ttlMs) none before).map (Entry.map (asTokens rates)) =
      after (TokenBucket.script rates ttlMs) none before :=
  (after_map (script_asTokens rates ttlMs) none before).symm

theorem firstAllowed_asTokens {ms : Int} :
    FirstAllowed (TokenBucket.step rates) (asTokens rates h) now ms ↔
      FirstAllowed (step rates) h now ms := by
  simp only [FirstAllowed, step_asTokens]

theorem retrySuffices_iff (rates : Rates) (hTtl : ttlMs ≤ 0) (before : List Int) (now : Int)
    (hDenied : (script rates ttlMs (after (script rates ttlMs) none before) now).2.allowed = 0) :
    RetrySuffices (script rates ttlMs) (after (script rates ttlMs) none before) now ↔
      ∀ t ∈ before, t ≤ now := by
  have hToken := TokenBucket.retrySuffices_iff rates hTtl before now
  simp only [RetrySuffices, ← after_asTokens, script_asTokens] at hToken
  exact hToken hDenied

theorem covers_reply (rates : Rates) (ttlMs : Int) (before : List Int) (now : Int) :
    let key := after (script rates ttlMs) none before
    let h := opened create key now
    (script rates ttlMs key now).2.allowed = 0 → (script rates ttlMs key now).2.retryAfterMs < 2 ^ 63 →
    ∃ ms, FirstAllowed (step rates) (step rates h now).1 now ms ∧
      (Covers (decode (script rates ttlMs key now).2).retryAfter (ms * 1000000) ↔ Tellable rates h now) := by
  have hToken := TokenBucket.covers_reply rates ttlMs before now
  simp only [← after_asTokens, script_asTokens, opened_asTokens, step_asTokens,
    firstAllowed_asTokens, tellable_asTokens] at hToken
  exact hToken

end LeakyBucket

/-! ## Both buckets -/

/-- The wait suffices exactly where no earlier reading is ahead of the denial's. -/
theorem retry_suffices_iff (rates : Rates) (ttlMs : Int) (hTtl : ttlMs ≤ 0) (before : List Int)
    (now : Int) :
    ((TokenBucket.script rates ttlMs (after (TokenBucket.script rates ttlMs) none before) now).2.allowed = 0 →
      (RetrySuffices (TokenBucket.script rates ttlMs) (after (TokenBucket.script rates ttlMs) none before) now ↔
        ∀ t ∈ before, t ≤ now)) ∧
    ((LeakyBucket.script rates ttlMs (after (LeakyBucket.script rates ttlMs) none before) now).2.allowed = 0 →
      (RetrySuffices (LeakyBucket.script rates ttlMs) (after (LeakyBucket.script rates ttlMs) none before) now ↔
        ∀ t ∈ before, t ≤ now)) :=
  ⟨TokenBucket.retrySuffices_iff rates hTtl before now, LeakyBucket.retrySuffices_iff rates hTtl before now⟩

theorem retry_suffices_onePerSecond :
    (TokenBucket.script .onePerSecond 0
        (after (TokenBucket.script .onePerSecond 0) none [0, 0]) 0).2 = ⟨0, 0, 1000⟩ ∧
      RetrySuffices (TokenBucket.script .onePerSecond 0)
        (after (TokenBucket.script .onePerSecond 0) none [0, 0]) 0 ∧
    (LeakyBucket.script .onePerSecond 0
        (after (LeakyBucket.script .onePerSecond 0) none [0, 0]) 0).2 = ⟨0, 0, 1000⟩ ∧
      RetrySuffices (LeakyBucket.script .onePerSecond 0)
        (after (LeakyBucket.script .onePerSecond 0) none [0, 0]) 0 := by
  obtain ⟨hToken, hLeaky⟩ := retry_suffices_iff .onePerSecond 0 le_rfl [0, 0] 0
  exact ⟨by decide +kernel, (hToken (by decide +kernel)).mpr (by simp),
    by decide +kernel, (hLeaky (by decide +kernel)).mpr (by simp)⟩

/-- Two requests at one second, then the clock goes back to zero: the third is
told to wait a second, which takes it to the time of the first two. -/
theorem retry_falls_short :
    (TokenBucket.script .onePerSecond 0
        (after (TokenBucket.script .onePerSecond 0) none [1000, 1000]) 0).2 = ⟨0, 0, 1000⟩ ∧
      ¬ RetrySuffices (TokenBucket.script .onePerSecond 0)
        (after (TokenBucket.script .onePerSecond 0) none [1000, 1000]) 0 ∧
    (LeakyBucket.script .onePerSecond 0
        (after (LeakyBucket.script .onePerSecond 0) none [1000, 1000]) 0).2 = ⟨0, 0, 1000⟩ ∧
      ¬ RetrySuffices (LeakyBucket.script .onePerSecond 0)
        (after (LeakyBucket.script .onePerSecond 0) none [1000, 1000]) 0 := by
  unfold RetrySuffices
  decide +kernel

/-- The wait that `Allow` returns covers the true one exactly where the stored
time is not ahead and the wait has few enough milliseconds. -/
theorem retry_covers_iff (rates : Rates) (ttlMs : Int) (before : List Int) (now : Int) :
    (let key := after (TokenBucket.script rates ttlMs) none before
      let h := opened (TokenBucket.create rates) key now
      let reply := (TokenBucket.script rates ttlMs key now).2
      reply.allowed = 0 → reply.retryAfterMs < 2 ^ 63 →
        ∃ ms, FirstAllowed (TokenBucket.step rates) (TokenBucket.step rates h now).1 now ms ∧
          (Covers (decode reply).retryAfter (ms * 1000000) ↔ TokenBucket.Tellable rates h now)) ∧
    (let key := after (LeakyBucket.script rates ttlMs) none before
      let h := opened LeakyBucket.create key now
      let reply := (LeakyBucket.script rates ttlMs key now).2
      reply.allowed = 0 → reply.retryAfterMs < 2 ^ 63 →
        ∃ ms, FirstAllowed (LeakyBucket.step rates) (LeakyBucket.step rates h now).1 now ms ∧
          (Covers (decode reply).retryAfter (ms * 1000000) ↔ LeakyBucket.Tellable rates h now)) :=
  ⟨TokenBucket.covers_reply rates ttlMs before now, LeakyBucket.covers_reply rates ttlMs before now⟩

theorem retry_covers_onePerSecond :
    let key := after (TokenBucket.script .onePerSecond 60000) none [0, 0]
    let h := opened (TokenBucket.create .onePerSecond) key 0
    ∃ ms, FirstAllowed (TokenBucket.step .onePerSecond) (TokenBucket.step .onePerSecond h 0).1 0 ms ∧
      Covers (decode (TokenBucket.script .onePerSecond 60000 key 0).2).retryAfter (ms * 1000000) := by
  intro key h
  obtain ⟨ms, hFirst, hCovers⟩ := (retry_covers_iff .onePerSecond 60000 [0, 0] 0).1
    (by decide +kernel) (by decide +kernel)
  refine ⟨ms, hFirst, hCovers.mpr ?_⟩
  unfold TokenBucket.Tellable
  decide +kernel

def glacial : Rates := { Memory.slowest with rate := 1000 / 2 ^ 58, rate_pos := by norm_num }

/-- The second request is to wait `2 ^ 58` milliseconds, in nanoseconds a
multiple of `2 ^ 64`, and is told to come back at once. -/
theorem retry_wraps :
    (let key := after (TokenBucket.script glacial 0) none [0]
      let h := opened (TokenBucket.create glacial) key 0
      let reply := (TokenBucket.script glacial 0 key 0).2
      reply = ⟨0, 0, 2 ^ 58⟩ ∧ (decode reply).retryAfter = 0 ∧
        ∃ ms, FirstAllowed (TokenBucket.step glacial) (TokenBucket.step glacial h 0).1 0 ms ∧
          ¬ Covers (decode reply).retryAfter (ms * 1000000)) ∧
    (let key := after (LeakyBucket.script glacial 0) none [0]
      let h := opened LeakyBucket.create key 0
      let reply := (LeakyBucket.script glacial 0 key 0).2
      reply = ⟨0, 0, 2 ^ 58⟩ ∧ (decode reply).retryAfter = 0 ∧
        ∃ ms, FirstAllowed (LeakyBucket.step glacial) (LeakyBucket.step glacial h 0).1 0 ms ∧
          ¬ Covers (decode reply).retryAfter (ms * 1000000)) := by
  refine ⟨⟨by decide +kernel, by decide +kernel, ?_⟩, by decide +kernel, by decide +kernel, ?_⟩
  · obtain ⟨ms, hFirst, hCovers⟩ := TokenBucket.covers_reply glacial 0 [0] 0
      (by decide +kernel) (by decide +kernel)
    refine ⟨ms, hFirst, hCovers.not.mpr ?_⟩
    unfold TokenBucket.Tellable
    decide +kernel
  · obtain ⟨ms, hFirst, hCovers⟩ := LeakyBucket.covers_reply glacial 0 [0] 0
      (by decide +kernel) (by decide +kernel)
    refine ⟨ms, hFirst, hCovers.not.mpr ?_⟩
    unfold LeakyBucket.Tellable
    decide +kernel

end Kaka.Redis
