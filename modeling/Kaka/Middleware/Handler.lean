import Kaka.Memory.FloatBuckets
import Kaka.Memory.Options

/-! # The HTTP middlewares

The middlewares for `net/http`, Gin, Echo and Fiber take the same steps; what
differs is the address that stands for the client where no `KeyFunc` is set.
A response is the list of the calls that a middleware makes: headers set,
then one of the handlers.

`Retry-After` counts whole seconds.  They are taken from the wait in `float64`,
so past `2 ^ 24` seconds a nanosecond can get lost.
-/

namespace Kaka.Middleware

open Binary64
open Memory (Key)

/-- What the frameworks tell about a request. -/
structure Request where
  remoteAddr : Key
  clientIP : Key
  realIP : Key
  ip : Key
  header : List (String × Key)
  deriving DecidableEq

inductive Framework where
  | http
  | gin
  | echo
  | fiber
  deriving DecidableEq

/-- The key of a request where the configuration has no `KeyFunc`. -/
def Framework.address : Framework → Request → Key
  | .http => Request.remoteAddr
  | .gin => Request.clientIP
  | .echo => Request.realIP
  | .fiber => Request.ip

structure Config where
  keyFunc : Option (Request → Key)
  errorHandler : Bool
  disableHeaders : Bool

/-- A call that the middleware makes. -/
inductive Action where
  | setHeader (name value : String)
  | deniedHandler (result : Result)
  | errorHandler (err : String)
  | next
  deriving DecidableEq

def retryAfterSeconds (d : Int) : Int :=
  let seconds := (Memory.Floating.seconds d).ceil.toInt64
  if seconds < 1 then 1 else seconds

def setHeaders (config : Config) (result : Result) : List Action :=
  if config.disableHeaders then []
  else .setHeader "X-RateLimit-Remaining" result.remaining.repr ::
    if !result.allowed && 0 < result.retryAfter then
      [.setHeader "Retry-After" (retryAfterSeconds result.retryAfter).repr]
    else []

def respond (config : Config) : Answer → List Action
  | (_, some err) => [if config.errorHandler then .errorHandler err else .next]
  | (result, none) => setHeaders config result ++ [if result.allowed then .next else .deniedHandler result]

def Config.key (config : Config) (f : Framework) (r : Request) : Key := config.keyFunc.getD f.address r

/-! ## The seconds of `Retry-After` -/

section Seconds

open Memory.Floating (elapsed)

variable {d whole : Int} {part : ℚ}

/-- A nanosecond is more than half of the last bit below `2 ^ 24` seconds. -/
theorem lt_rounded_add (hLow : 0 ≤ whole) (hHigh : whole < 2 ^ 24) (hPart : 1 / 1000000000 ≤ part)
    (hPart' : part ≤ 999999999 / 1000000000) : (whole : ℚ) < rounded (whole + rounded part) := by
  have hBit : Represents (17 * 2 ^ (-34 : ℤ)) := ⟨17, -34, by norm_num, by norm_num, by norm_num⟩
  have hLeast : 17 * 2 ^ (-34 : ℤ) ≤ rounded part := le_rounded hBit (le_trans (by norm_num) hPart)
  have hOver : Represents ((2 ^ 53 - 1) * 2 ^ (-53 : ℤ)) := ⟨2 ^ 53 - 1, -53, by norm_num, by norm_num, by norm_num⟩
  have hMost : rounded part ≤ (2 ^ 53 - 1) * 2 ^ (-53 : ℤ) := rounded_le hOver (hPart'.trans (by norm_num))
  have hWhole : (0 : ℚ) ≤ whole ∧ (whole : ℚ) ≤ 2 ^ 24 - 1 := by
    constructor
    · exact_mod_cast hLow
    · exact_mod_cast Int.le_sub_one_of_lt hHigh
  have hPos : 0 < (17 : ℚ) * 2 ^ (-34 : ℤ) := by norm_num
  have hSum : |(whole : ℚ) + rounded part| < 2 ^ (24 : ℤ) := by
    rw [abs_of_pos (by linarith [hWhole.1])]
    norm_num at hMost ⊢
    linarith [hWhole.2]
  have hError := (abs_le.mp (abs_rounded_sub_le_of_lt (by norm_num) hSum)).1
  norm_num at hError hLeast
  linarith

theorem elapsed_bounds (hLow : 0 ≤ d) (hHigh : d ≤ 2 ^ 63) :
    ((d / 1000000000 : Int) : ℚ) ≤ elapsed d ∧ elapsed d ≤ (d / 1000000000 + 1 : Int) := by
  have hRest := Memory.Floating.rest_le d
  have hPart : 0 ≤ rounded ((d % 1000000000 : Int) / 1000000000) := rounded_nonneg hRest.1
  have hPart' : rounded ((d % 1000000000 : Int) / 1000000000) ≤ 1 := rounded_le represents_one hRest.2
  constructor
  · exact le_rounded (represents_int (abs_le.mpr ⟨by omega, by omega⟩)) (le_add_of_nonneg_right hPart)
  · refine rounded_le (represents_int (abs_le.mpr ⟨by omega, by omega⟩)) ?_
    push_cast
    linarith

theorem retryAfterSeconds_eq (hLow : 0 ≤ d) (hHigh : d ≤ 2 ^ 63) :
    retryAfterSeconds d = max 1 ⌈elapsed d⌉ := by
  obtain ⟨hFloor, hCeil⟩ := elapsed_bounds hLow hHigh
  have hWhole : (d / 1000000000 : Int) ≤ ⌈elapsed d⌉ := by exact_mod_cast hFloor.trans (Int.le_ceil _)
  have hMost : ⌈elapsed d⌉ ≤ d / 1000000000 + 1 := Int.ceil_le.mpr hCeil
  have hSeconds := (Memory.Floating.seconds_is hLow hHigh).ceil.toInt64_int (by omega) (by omega)
  simp only [retryAfterSeconds, hSeconds]
  omega

/-- Up to `2 ^ 24` seconds the wait is rounded up to the second. -/
theorem retryAfterSeconds_covers (hLow : 0 < d) (hHigh : d ≤ 2 ^ 24 * 10 ^ 9) :
    d ≤ retryAfterSeconds d * 10 ^ 9 ∧ retryAfterSeconds d * 10 ^ 9 < d + 10 ^ 9 := by
  rw [retryAfterSeconds_eq hLow.le (by omega)]
  rcases (Int.emod_nonneg d (by norm_num : (1000000000 : Int) ≠ 0)).eq_or_lt with hNone | hSome
  · have hWhole : elapsed d = (d / 1000000000 : Int) := by
      rw [elapsed, ← hNone, Int.cast_zero, zero_div, rounded_zero, add_zero]
      exact rounded_of_represents (represents_int (abs_le.mpr ⟨by omega, by omega⟩))
    rw [hWhole, Int.ceil_intCast]
    omega
  · have hPart : (1 : ℚ) / 1000000000 ≤ (d % 1000000000 : Int) / 1000000000 := by
      refine div_le_div_of_nonneg_right ?_ (by norm_num)
      exact_mod_cast hSome
    have hPart' : ((d % 1000000000 : Int) : ℚ) / 1000000000 ≤ 999999999 / 1000000000 := by
      refine div_le_div_of_nonneg_right ?_ (by norm_num)
      have hLast : d % 1000000000 ≤ 999999999 := by omega
      exact_mod_cast hLast
    have hCeil : ⌈elapsed d⌉ = d / 1000000000 + 1 := by
      refine Int.ceil_eq_iff.mpr ⟨?_, (elapsed_bounds hLow.le (by omega)).2⟩
      rw [Int.cast_add, Int.cast_one, add_sub_cancel_right]
      exact lt_rounded_add (by omega) (by omega) hPart hPart'
    rw [hCeil]
    omega

theorem le_retryAfterSeconds (hLow : 2 ^ 24 * 10 ^ 9 ≤ d) (hHigh : d ≤ 2 ^ 63) :
    2 ^ 24 ≤ retryAfterSeconds d := by
  have hFloor := (elapsed_bounds (by omega) hHigh).1.trans (Int.le_ceil _)
  have hWhole : d / 1000000000 ≤ ⌈elapsed d⌉ := by exact_mod_cast hFloor
  rw [retryAfterSeconds_eq (by omega) hHigh]
  omega

end Seconds

/-- Only a denial with a wait is answered with the header. -/
theorem retry_mem_respond_iff (config : Config) (result : Result) (text : String) :
    .setHeader "Retry-After" text ∈ respond config (result, none) ↔ config.disableHeaders = false ∧
      result.allowed = false ∧ 0 < result.retryAfter ∧ text = (retryAfterSeconds result.retryAfter).repr := by
  cases hHeaders : config.disableHeaders <;> cases hAllowed : result.allowed <;>
    by_cases hWait : 0 < result.retryAfter <;> simp [respond, setHeaders, hHeaders, hAllowed, hWait]

theorem next_mem_respond_iff (config : Config) (result : Result) :
    .next ∈ respond config (result, none) ↔ result.allowed = true := by
  cases hHeaders : config.disableHeaders <;> cases hAllowed : result.allowed <;>
    by_cases hWait : 0 < result.retryAfter <;> simp [respond, setHeaders, hHeaders, hAllowed, hWait]

theorem eq_of_repr_eq {m n : ℕ} (h : m.repr = n.repr) : m = n := by
  have hDigits := congrArg (fun text => Nat.ofDigitChars 10 text.toList 0) h
  simpa only [Nat.toList_repr, Nat.ofDigitChars_ten_toDigits] using hDigits

/-- The wait in the header is the one of the result rounded up to the second,
exactly as long as no wait exceeds `2 ^ 24` seconds. -/
theorem retry_header_iff (config : Config) (hHeaders : config.disableHeaders = false) (bound : Int) :
    (∀ result : Result, result.allowed = false → 0 < result.retryAfter → result.retryAfter ≤ bound →
      ∃ s : ℕ, .setHeader "Retry-After" s.repr ∈ respond config (result, none) ∧
        result.retryAfter ≤ s * 10 ^ 9 ∧ s * 10 ^ 9 < result.retryAfter + 10 ^ 9) ↔
    bound ≤ 2 ^ 24 * 10 ^ 9 := by
  constructor
  · intro hAll
    by_contra hOver
    obtain ⟨s, hText, hCovers, _⟩ := hAll ⟨false, 0, 2 ^ 24 * 10 ^ 9 + 1⟩ rfl (by norm_num)
      (Int.add_one_le_iff.mpr (not_le.mp hOver))
    have hLost : retryAfterSeconds (2 ^ 24 * 10 ^ 9 + 1) = 2 ^ 24 := by decide +kernel
    obtain ⟨_, _, _, hRepr⟩ := (retry_mem_respond_iff config _ _).mp hText
    rw [hLost] at hRepr
    obtain rfl : s = 2 ^ 24 := eq_of_repr_eq hRepr
    norm_num at hCovers
  · intro hBound result hDenied hWait hLe
    obtain ⟨hCovers, hTight⟩ := retryAfterSeconds_covers hWait (hLe.trans hBound)
    obtain ⟨s, hs⟩ := Int.eq_ofNat_of_zero_le (show 0 ≤ retryAfterSeconds result.retryAfter by omega)
    refine ⟨s, (retry_mem_respond_iff config result _).mpr ⟨hHeaders, hDenied, hWait, ?_⟩, ?_, ?_⟩
    · rw [hs]
      rfl
    · rwa [hs] at hCovers
    · rwa [hs] at hTight

theorem retry_header_iff_default : (⟨none, false, false⟩ : Config).disableHeaders = false ∧
    ¬ ∀ result : Result, result.allowed = false → 0 < result.retryAfter →
      result.retryAfter ≤ 2 ^ 24 * 10 ^ 9 + 1 →
        ∃ s : ℕ, .setHeader "Retry-After" s.repr ∈ respond ⟨none, false, false⟩ (result, none) ∧
          result.retryAfter ≤ s * 10 ^ 9 ∧ s * 10 ^ 9 < result.retryAfter + 10 ^ 9 :=
  ⟨rfl, (retry_header_iff ⟨none, false, false⟩ rfl _).not.mpr (by norm_num)⟩

end Kaka.Middleware
