import Kaka.Base.Binary64
import Kaka.Limiter
import Mathlib.Algebra.Order.Group.Unbundled.Int
import Mathlib.Data.List.Chain
import Mathlib.Data.Nat.Log

/-! # Lua scripts on one Redis key

A script runs atomically on the value of its key and the server's clock, in
whole milliseconds.  It answers with three numbers, which Redis turns into
64-bit integers and the client decodes into a result.
-/

namespace Kaka.Redis

/-! ## Lua numbers -/

section Numbers

open Binary64

/-- The `double` nearest to an integer, the even one of two. -/
def luaNumber (x : Int) : Int :=
  let unit := 2 ^ (x.natAbs.log2 - 52)
  let quotient := x.natAbs / unit
  let rest := x.natAbs % unit
  let rounded := if unit < 2 * rest ∨ unit = 2 * rest ∧ quotient % 2 = 1 then quotient + 1 else quotient
  x.sign * (rounded * unit : Nat)

theorem luaNumber_neg (x : Int) : luaNumber (-x) = -luaNumber x := by
  simp only [luaNumber, Int.natAbs_neg, Int.sign_neg, Int.neg_mul]

theorem luaNumber_natCast (n : Nat) : (luaNumber n : ℚ) = rounded n := by
  rcases lt_or_ge n (2 ^ 52) with hSmall | hLarge
  · have hLog : n.log2 - 52 = 0 := by
      rcases Nat.eq_zero_or_pos n with rfl | hn
      · simp
      · have := (Nat.log2_lt hn.ne').mpr hSmall
        omega
    have hExact : luaNumber n = n := by simp [luaNumber, hLog, Nat.mod_one]
    have hFormat : Represents ((n : Int) : ℚ) := represents_int (abs_le.mpr ⟨by omega, by omega⟩)
    rw [hExact]
    exact (rounded_of_represents hFormat).symm
  · have hSign : (n : Int).sign = 1 := Int.sign_eq_one_of_pos (by omega)
    have hNearest := nearest_div n (Nat.two_pow_pos (n.log2 - 52))
    rw [Nat.cast_pow, Nat.cast_ofNat] at hNearest
    rw [rounded, scale_natCast hLarge, zpow_natCast, hNearest]
    simp only [luaNumber, Int.natAbs_natCast, hSign, one_mul]
    push_cast
    rfl

/-- On integers division with rest rounds as binary64 does. -/
theorem luaNumber_eq (x : Int) : (luaNumber x : ℚ) = rounded x := by
  rcases Int.eq_nat_or_neg x with ⟨n, rfl | rfl⟩
  · exact luaNumber_natCast n
  · rw [luaNumber_neg, Int.cast_neg, luaNumber_natCast, Int.cast_neg, rounded_neg, Int.cast_natCast]

theorem luaNumber_of_le {x : Int} (hSmall : |x| ≤ 2 ^ 53) : luaNumber x = x := by
  have hExact : (luaNumber x : ℚ) = x := (luaNumber_eq x).trans (rounded_of_represents (represents_int hSmall))
  exact_mod_cast hExact

theorem luaNumber_zero : luaNumber 0 = 0 := luaNumber_of_le (by norm_num)

theorem luaNumber_mono {x y : Int} (hLe : x ≤ y) : luaNumber x ≤ luaNumber y := by
  have hRounded : (luaNumber x : ℚ) ≤ luaNumber y := by
    rw [luaNumber_eq, luaNumber_eq]
    exact rounded_mono (by exact_mod_cast hLe)
  exact_mod_cast hRounded

/-- Numbers a factor of two apart are still told apart. -/
theorem luaNumber_lt {x y : Int} (hx : 0 ≤ x) (hy : 0 < y) (hTwice : 2 * x ≤ y) :
    luaNumber x < luaNumber y := by
  have hLow : (0 : ℚ) ≤ x := by exact_mod_cast hx
  have hOne : (1 : ℚ) ≤ y := by exact_mod_cast hy
  have hDouble : 2 * (x : ℚ) ≤ y := by exact_mod_cast hTwice
  have hNearX := abs_le.mp (abs_rounded_sub_le_add x)
  have hNearY := abs_le.mp (abs_rounded_sub_le_add y)
  rw [abs_of_nonneg hLow] at hNearX
  rw [abs_of_pos (by linarith)] at hNearY
  have hTiny : tiny ≤ 1 / 2 ^ 3 :=
    one_div_le_one_div_of_le (by positivity) (pow_le_pow_right₀ one_le_two (by norm_num))
  have hRounded : (luaNumber x : ℚ) < luaNumber y := by
    rw [luaNumber_eq, luaNumber_eq]
    norm_num [unit] at hNearX hNearY
    linarith
  exact_mod_cast hRounded

end Numbers

/-! ## Replies -/

structure Reply where
  allowed : Int
  remaining : Int
  retryAfterMs : Int
  deriving DecidableEq

/-- The conversion of a Lua number to an integer reply.  Out of range it is
undefined in C; here it is the result on amd64. -/
def toInt64 (x : Int) : Int := if -2 ^ 63 ≤ x ∧ x < 2 ^ 63 then x else -2 ^ 63

def wrap64 (x : Int) : Int := (x + 2 ^ 63) % 2 ^ 64 - 2 ^ 63

/-- The result that `Allow` builds from a reply of three integers. -/
def decode (r : Reply) : Result where
  allowed := toInt64 r.allowed == 1
  remaining := toInt64 r.remaining
  retryAfter := wrap64 (toInt64 r.retryAfterMs * 1000000)

theorem toInt64_of_mem {x : Int} (hLow : 0 ≤ x) (hHigh : x < 2 ^ 63) : toInt64 x = x :=
  if_pos ⟨by omega, hHigh⟩

theorem wrap64_of_mem {x : Int} (hLow : 0 ≤ x) (hHigh : x ≤ maxDuration) : wrap64 x = x := by
  unfold wrap64
  unfold maxDuration at hHigh
  omega

theorem decode_allow {remaining : Int} (hLow : 0 ≤ remaining) (hHigh : remaining < 2 ^ 63) :
    decode ⟨1, remaining, 0⟩ = ⟨true, remaining, 0⟩ := by
  rw [decode, toInt64_of_mem hLow hHigh]
  rfl

theorem decode_deny {ms : Int} (hLow : 0 ≤ ms) (hHigh : ms * 1000000 ≤ maxDuration) :
    decode ⟨0, 0, ms⟩ = ⟨false, 0, ms * 1000000⟩ := by
  have hInt : toInt64 ms = ms := by
    refine toInt64_of_mem hLow ?_
    unfold maxDuration at hHigh
    omega
  rw [decode, hInt, wrap64_of_mem (by omega) hHigh]
  rfl

/-- `Duration.Milliseconds`, in which the client passes a window and a TTL. -/
def milliseconds (d : Int) : Int := d.tdiv 1000000

/-! ## Keys with an expiry -/

/-- A key's value and the millisecond at which it expires. -/
structure Entry (α : Type) where
  value : α
  deadline : Option Int

section Keys

variable {α : Type}

/-- What a script finds at its key: an expired entry is gone. -/
def find (now : Int) : Option (Entry α) → Option (Entry α)
  | none => none
  | some e =>
    match e.deadline with
    | none => some e
    | some d => if d ≤ now then none else some e

theorem mem_of_mem_find {now : Int} {key : Option (Entry α)} {e : Entry α} (h : e ∈ find now key) :
    e ∈ key := by
  cases key with
  | none => exact h
  | some e' =>
    simp only [find] at h
    split at h
    · exact h
    · split at h
      · cases h
      · exact h

/-- `PEXPIRE`, which the scripts call for a positive TTL only. -/
def pexpire (ttlMs now : Int) (e : Entry α) : Entry α :=
  if 0 < ttlMs then { e with deadline := some (now + ttlMs) } else e

/-- A script that reads the fields of its key, writes them all with `HSET`,
which keeps the deadline, and sets the TTL anew. -/
def hashScript (body : Option α → Int → α × Reply) (ttlMs : Int) (key : Option (Entry α))
    (now : Int) : Option (Entry α) × Reply :=
  let fields := find now key
  let (value, reply) := body (fields.map Entry.value) now
  (some (pexpire ttlMs now ⟨value, fields.bind Entry.deadline⟩), reply)

def Entry.map {β : Type} (f : α → β) (e : Entry α) : Entry β := ⟨f e.value, e.deadline⟩

theorem find_map {β : Type} (f : α → β) (now : Int) (key : Option (Entry α)) :
    find now (key.map (Entry.map f)) = (find now key).map (Entry.map f) := by
  cases key with
  | none => rfl
  | some e =>
    simp only [Option.map_some, find, Entry.map]
    split
    · rfl
    · split <;> rfl

theorem hashScript_map {β : Type} {f : α → β} {body : Option α → Int → α × Reply}
    {body' : Option β → Int → β × Reply}
    (hBody : ∀ fields now, body' (fields.map f) now = (f (body fields now).1, (body fields now).2))
    (ttlMs : Int) (key : Option (Entry α)) (now : Int) :
    hashScript body' ttlMs (key.map (Entry.map f)) now =
      ((hashScript body ttlMs key now).1.map (Entry.map f), (hashScript body ttlMs key now).2) := by
  have hValue : ((find now key).map (Entry.map f)).map Entry.value =
      ((find now key).map Entry.value).map f := by
    cases find now key <;> rfl
  have hDeadline : ((find now key).map (Entry.map f)).bind Entry.deadline =
      (find now key).bind Entry.deadline := by
    cases find now key <;> rfl
  simp only [hashScript, find_map, hValue, hDeadline, hBody, Option.map_some]
  unfold pexpire
  split <;> rfl

/-- The key never expires between one request and the next; without a TTL, as
where `ttlMs` is not positive, it never does. -/
def Unexpired (ttlMs : Int) (readings : List Int) : Prop :=
  0 < ttlMs → readings.IsChain fun t u => u < t + ttlMs

theorem unexpired_of_le {ttlMs : Int} (hTtl : ttlMs ≤ 0) (readings : List Int) :
    Unexpired ttlMs readings := fun hPos => absurd hPos (not_lt.mpr hTtl)

theorem Unexpired.tail {ttlMs t : Int} {rest : List Int} (h : Unexpired ttlMs (t :: rest)) :
    Unexpired ttlMs rest := fun hTtl => (h hTtl).tail

def deadlineAfter (ttlMs now : Int) : Option Int := if 0 < ttlMs then some (now + ttlMs) else none

theorem deadlineAfter_of_le {ttlMs : Int} (hTtl : ttlMs ≤ 0) (now : Int) :
    deadlineAfter ttlMs now = none := if_neg (not_lt.mpr hTtl)

theorem deadline_pexpire {ttlMs : Int} {e : Entry α} (hNone : ttlMs ≤ 0 → e.deadline = none)
    (now : Int) : (pexpire ttlMs now e).deadline = deadlineAfter ttlMs now := by
  unfold pexpire deadlineAfter
  split
  · rfl
  · exact hNone (by omega)

theorem value_pexpire (ttlMs now : Int) (e : Entry α) : (pexpire ttlMs now e).value = e.value := by
  unfold pexpire
  split <;> rfl

theorem pexpire_eq {ttlMs : Int} {e : Entry α} (hNone : ttlMs ≤ 0 → e.deadline = none) (now : Int) :
    pexpire ttlMs now e = ⟨e.value, deadlineAfter ttlMs now⟩ := by
  rw [← deadline_pexpire hNone now, ← value_pexpire ttlMs now e]

theorem find_deadlineAfter {ttlMs prev now : Int} (value : α)
    (hLive : 0 < ttlMs → now < prev + ttlMs) :
    find now (some ⟨value, deadlineAfter ttlMs prev⟩) =
      some ⟨value, deadlineAfter ttlMs prev⟩ := by
  unfold find deadlineAfter
  by_cases hTtl : 0 < ttlMs
  · simp only [if_pos hTtl, if_neg (not_le.mpr (hLive hTtl))]
  · simp only [if_neg hTtl]

def Lapsed (ttlMs last now : Int) : Prop := 0 < ttlMs ∧ last + ttlMs ≤ now

theorem Lapsed.later {ttlMs last now now' : Int} (h : Lapsed ttlMs last now) (hTime : now ≤ now') :
    Lapsed ttlMs last now' :=
  ⟨h.1, h.2.trans hTime⟩

theorem find_of_lapsed {ttlMs last now : Int} {key : Option (Entry α)}
    (hKey : ∀ e ∈ key, e.deadline = deadlineAfter ttlMs last) (hLapsed : Lapsed ttlMs last now) :
    find now key = none := by
  cases key with
  | none => rfl
  | some e =>
    have hDeadline : e.deadline = some (last + ttlMs) := (hKey e rfl).trans (if_pos hLapsed.1)
    simp only [find, hDeadline, if_pos hLapsed.2]

theorem find_of_not_lapsed {ttlMs last now : Int} {key : Option (Entry α)}
    (hKey : ∀ e ∈ key, e.deadline = deadlineAfter ttlMs last) (hLive : ¬ Lapsed ttlMs last now) :
    find now key = key := by
  cases key with
  | none => rfl
  | some e =>
    obtain ⟨value, deadline⟩ := e
    obtain rfl := hKey _ rfl
    exact find_deadlineAfter value fun hTtl => not_le.mp fun hLe => hLive ⟨hTtl, hLe⟩

theorem hashScript_none (body : Option α → Int → α × Reply) (ttlMs now : Int) :
    hashScript body ttlMs none now =
      (some ⟨(body none now).1, deadlineAfter ttlMs now⟩, (body none now).2) := by
  simp only [hashScript, find, Option.map_none, Option.bind_none]
  rw [pexpire_eq fun _ => rfl]

theorem hashScript_some (body : Option α → Int → α × Reply) {ttlMs prev now : Int} (value : α)
    (hLive : 0 < ttlMs → now < prev + ttlMs) :
    hashScript body ttlMs (some ⟨value, deadlineAfter ttlMs prev⟩) now =
      (some ⟨(body (some value) now).1, deadlineAfter ttlMs now⟩, (body (some value) now).2) := by
  rw [hashScript, find_deadlineAfter value hLive]
  simp only [Option.map_some, Option.bind_some]
  rw [pexpire_eq fun hTtl => deadlineAfter_of_le hTtl prev]

variable {body : Option α → Int → α × Reply} {ttlMs : Int}

/-- Where no key expires a run of the script is a run of its body. -/
theorem trace_hashScript_some (value : α) (prev : Int) (readings : List Int)
    (hLive : Unexpired ttlMs (prev :: readings)) :
    (trace (hashScript body ttlMs) (some ⟨value, deadlineAfter ttlMs prev⟩) readings).map
        (fun x => (x.1, x.2.1.map Entry.value, x.2.2)) =
      (trace (fun v => body (some v)) value readings).map (fun x => (x.1, some x.2.1, x.2.2)) := by
  induction readings generalizing value prev with
  | nil => rfl
  | cons now rest ih =>
    simp only [trace, hashScript_some body value fun hTtl => (hLive hTtl).rel, List.map_cons,
      Option.map_some]
    rw [ih _ _ hLive.tail]

theorem trace_hashScript {create : Int → α} (hNew : ∀ now, body none now = body (some (create now)) now)
    (now : Int) (rest : List Int) (hLive : Unexpired ttlMs (now :: rest)) :
    (trace (hashScript body ttlMs) none (now :: rest)).map
        (fun x => (x.1, x.2.1.map Entry.value, x.2.2)) =
      (trace (fun v => body (some v)) (create now) (now :: rest)).map
        (fun x => (x.1, some x.2.1, x.2.2)) := by
  simp only [trace, hashScript_none, hNew, List.map_cons, Option.map_some]
  rw [trace_hashScript_some _ _ _ hLive]

theorem serve_hashScript {create : Int → α} (hNew : ∀ now, body none now = body (some (create now)) now)
    (now : Int) (rest : List Int) (hLive : Unexpired ttlMs (now :: rest)) :
    serve (hashScript body ttlMs) none (now :: rest) =
      serve (fun v => body (some v)) (create now) (now :: rest) := by
  have hRuns := congrArg (List.map fun x => (x.1, x.2.2)) (trace_hashScript hNew now rest hLive)
  rwa [List.map_map, List.map_map] at hRuns

end Keys

end Kaka.Redis
