import Kaka.Redis.Script
import Mathlib.Data.Rat.Floor
import Mathlib.Tactic.Ring

/-! # The Redis token bucket and leaky bucket

The scripts guard against a server clock that goes back: they then keep the
stored time, and neither refill nor leak.  Lua numbers and the numbers that
the hash stores as text are read as exact rationals.  As in memory, the room
left in the leaky bucket is the tokens of the token bucket.
-/

namespace Kaka.Redis

structure TokenHash where
  tokens : ℚ
  lastRefilledMs : Int
  deriving DecidableEq

structure LeakyHash where
  water : ℚ
  lastLeakMs : Int
  deriving DecidableEq

/-- `if now < last then now = last end` -/
def guarded (last now : Int) : Int := if now < last then last else now

theorem guarded_eq_max (last now : Int) : guarded last now = max last now := by
  unfold guarded
  split <;> omega

namespace TokenBucket

variable (tb : Rates)

def refill (tokens : ℚ) (elapsed : Int) : ℚ :=
  if 0 < elapsed then
    let tokens := tokens + elapsed * tb.rate / 1000
    if tb.capacity < tokens then tb.capacity else tokens
  else tokens

def decide (tokens : ℚ) (now : Int) : TokenHash × Reply :=
  if 1 ≤ tokens then (⟨tokens - 1, now⟩, ⟨1, ⌊tokens - 1⌋, 0⟩)
  else (⟨tokens, now⟩, ⟨0, 0, ⌈(1 - tokens) * 1000 / tb.rate⌉⟩)

/-- `token_bucket.lua`, from the fields that `HMGET` finds to those of `HSET`. -/
def body (fields : Option TokenHash) (serverNow : Int) : TokenHash × Reply :=
  let (tokens, last, now) :=
    match fields with
    | none => (tb.capacity, serverNow, serverNow)
    | some h => (h.tokens, h.lastRefilledMs, guarded h.lastRefilledMs serverNow)
  let elapsed := now - last
  decide tb (refill tb tokens elapsed) now

def script (ttlMs : Int) : Option (Entry TokenHash) → Int → Option (Entry TokenHash) × Reply :=
  hashScript (body tb) ttlMs

end TokenBucket

namespace LeakyBucket

variable (lb : Rates)

def leak (water : ℚ) (elapsed : Int) : ℚ :=
  if 0 < elapsed then
    let water := water - elapsed * lb.rate / 1000
    if water < 0 then 0 else water
  else water

def decide (water : ℚ) (now : Int) : LeakyHash × Reply :=
  if water + 1 ≤ lb.capacity then
    (⟨water + 1, now⟩, ⟨1, ⌊lb.capacity - (water + 1)⌋, 0⟩)
  else
    let overflow := water + 1 - lb.capacity
    (⟨water, now⟩, ⟨0, 0, ⌈overflow * 1000 / lb.rate⌉⟩)

/-- `leaky_bucket.lua`, from the fields that `HMGET` finds to those of `HSET`. -/
def body (fields : Option LeakyHash) (serverNow : Int) : LeakyHash × Reply :=
  let (water, last, now) :=
    match fields with
    | none => (0, serverNow, serverNow)
    | some h => (h.water, h.lastLeakMs, guarded h.lastLeakMs serverNow)
  let elapsed := now - last
  decide lb (leak lb water elapsed) now

def script (ttlMs : Int) : Option (Entry LeakyHash) → Int → Option (Entry LeakyHash) × Reply :=
  hashScript (body lb) ttlMs

end LeakyBucket

/-! ## The token bucket -/

namespace TokenBucket

variable (tb : Rates)

def create (now : Int) : TokenHash := ⟨tb.capacity, now⟩

def step (h : TokenHash) (now : Int) : TokenHash × Reply := body tb (some h) now

theorem body_none (now : Int) : body tb none now = step tb (create tb now) now := by
  simp [step, body, create, guarded]

/-- The tokens before the decision. -/
def refilled (h : TokenHash) (now : Int) : ℚ :=
  min tb.capacity (h.tokens + (max h.lastRefilledMs now - h.lastRefilledMs : Int) * tb.rate / 1000)

theorem refilled_create (now : Int) : refilled tb (create tb now) now = tb.capacity := by
  simp [refilled, create]

variable {tb} {h : TokenHash} {now : Int}

/-- The clamp, which the script makes only after a refill, changes nothing
without one. -/
theorem refill_eq_min {tokens : ℚ} {elapsed : Int} (hFull : tokens ≤ tb.capacity)
    (hElapsed : 0 ≤ elapsed) :
    refill tb tokens elapsed = min tb.capacity (tokens + elapsed * tb.rate / 1000) := by
  unfold refill
  rcases hElapsed.eq_or_lt with rfl | hPos
  · simp [hFull]
  · rw [if_pos hPos]
    exact (min_def_lt _ _).symm

theorem step_eq (hFull : h.tokens ≤ tb.capacity) :
    step tb h now = decide tb (refilled tb h now) (max h.lastRefilledMs now) := by
  have hElapsed : 0 ≤ max h.lastRefilledMs now - h.lastRefilledMs := by omega
  simp only [step, body, guarded_eq_max, refill_eq_min hFull hElapsed, refilled]

end TokenBucket

/-! ## The leaky bucket seen as a token bucket -/

namespace LeakyBucket

variable (lb : Rates)

def create (now : Int) : LeakyHash := ⟨0, now⟩

def step (h : LeakyHash) (now : Int) : LeakyHash × Reply := body lb (some h) now

theorem body_none (now : Int) : body lb none now = step lb (create now) now := by
  simp [step, body, create, guarded]

def asTokens (h : LeakyHash) : TokenHash := ⟨lb.capacity - h.water, h.lastLeakMs⟩

theorem asTokens_create (now : Int) : asTokens lb (create now) = TokenBucket.create lb now := by
  simp [asTokens, create, TokenBucket.create]

/-- The leak is the refill, clamped at the other end. -/
theorem refill_eq_leak (water : ℚ) (elapsed : Int) :
    TokenBucket.refill lb (lb.capacity - water) elapsed = lb.capacity - leak lb water elapsed := by
  have hIff : lb.capacity < lb.capacity - water + elapsed * lb.rate / 1000 ↔
      water - elapsed * lb.rate / 1000 < 0 := by
    constructor <;> intro h <;> linarith
  simp only [TokenBucket.refill, leak, hIff]
  split
  · split <;> ring
  · rfl

theorem decide_asTokens (water : ℚ) (now : Int) :
    TokenBucket.decide lb (lb.capacity - water) now =
      (asTokens lb (decide lb water now).1, (decide lb water now).2) := by
  have hIff : 1 ≤ lb.capacity - water ↔ water + 1 ≤ lb.capacity := by
    constructor <;> intro h <;> linarith
  have hWait : 1 - (lb.capacity - water) = water + 1 - lb.capacity := by ring
  simp only [TokenBucket.decide, decide, hIff, hWait, sub_sub]
  split <;> rfl

theorem step_asTokens (h : LeakyHash) (now : Int) :
    TokenBucket.step lb (asTokens lb h) now = (asTokens lb (step lb h now).1, (step lb h now).2) := by
  simp only [TokenBucket.step, TokenBucket.body, asTokens, refill_eq_leak, step, body]
  exact decide_asTokens lb _ _

theorem body_asTokens (fields : Option LeakyHash) (now : Int) :
    TokenBucket.body lb (fields.map (asTokens lb)) now =
      (asTokens lb (body lb fields now).1, (body lb fields now).2) := by
  cases fields with
  | none =>
    rw [Option.map_none, TokenBucket.body_none, body_none, ← asTokens_create]
    exact step_asTokens lb (create now) now
  | some h => exact step_asTokens lb h now

theorem script_asTokens (ttlMs : Int) (key : Option (Entry LeakyHash)) (now : Int) :
    TokenBucket.script lb ttlMs (key.map (Entry.map (asTokens lb))) now =
      ((script lb ttlMs key now).1.map (Entry.map (asTokens lb)), (script lb ttlMs key now).2) :=
  hashScript_map (body_asTokens lb) ttlMs key now

theorem serve_step (now : Int) (readings : List Int) :
    serve (TokenBucket.step lb) (TokenBucket.create lb now) readings =
      serve (step lb) (create now) readings := by
  rw [← asTokens_create, serve_map (step_asTokens lb)]

end LeakyBucket

end Kaka.Redis
