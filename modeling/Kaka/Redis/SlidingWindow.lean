import Kaka.Base.SortedSet
import Kaka.Redis.Script

/-! # The Redis sliding window log

The key holds a sorted set of the allowed requests, scored by their times in
milliseconds, under members that the client draws at random.  Numbers in Lua
are `double`s, so the script computes exactly up to 53 bits only.
-/

namespace Kaka.Redis.SlidingWindow

variable {M : Type} [LinearOrder M]

/-! ## The commands on the key -/

abbrev Key (M : Type) [LinearOrder M] := Option (Entry (SortedSet Int M))

/-- `ZREMRANGEBYSCORE` from `-inf`; a set without members is deleted. -/
def zremrangebyscore (top : Int) (key : Key M) : Key M :=
  key.bind fun e =>
    let value := e.value.removeUpTo top
    if value.card = 0 then none else some { e with value := value }

def zcard (key : Key M) : Nat := (key.map fun e => e.value.card).getD 0

def zadd (score : Int) (member : M) : Key M → Key M
  | none => some ⟨SortedSet.empty.add score member, none⟩
  | some e => some { e with value := e.value.add score member }

/-- The score that `ZRANGE 0 0 WITHSCORES` returns. -/
def zrangeFirst (key : Key M) : Option Int := key.bind fun e => e.value.first?

/-- `sliding_window_log.lua` with its numbers rounded by `num`; `id` is exact
arithmetic.  Without a reply the script fails. -/
def scriptOn (num : Int → Int) (limit windowMs ttlMs : Int) (key : Key M) (request : Int × M) :
    Key M × Option Reply :=
  let (serverNow, member) := request
  let now := num serverNow
  let limit := num limit
  let windowMs := num windowMs
  let windowStart := num (now - windowMs)
  let key := zremrangebyscore windowStart (find serverNow key)
  let count := num (zcard key)
  if count < limit then
    ((zadd now member key).map (pexpire ttlMs serverNow),
      some ⟨1, num (num (limit - count) - 1), 0⟩)
  else
    (key.map (pexpire ttlMs serverNow),
      (zrangeFirst key).map fun oldest => ⟨0, 0, num (num (oldest + windowMs) - now)⟩)

/-- `sliding_window_log.lua` -/
def script (limit windowMs ttlMs : Int) : Key M → Int × M → Key M × Option Reply :=
  scriptOn luaNumber limit windowMs ttlMs

/-! ## The set at the key -/

def contents (key : Key M) : SortedSet Int M := (key.map Entry.value).getD .empty

theorem contents_zremrangebyscore (top : Int) (key : Key M) :
    contents (zremrangebyscore top key) = (contents key).removeUpTo top := by
  cases key with
  | none => rfl
  | some e =>
    simp only [zremrangebyscore, Option.bind_some]
    split
    · rename_i hEmpty
      exact (SortedSet.eq_empty hEmpty).symm
    · rfl

theorem zcard_eq (key : Key M) : zcard key = (contents key).card := by
  cases key <;> rfl

theorem contents_zadd (score : Int) (member : M) (key : Key M) :
    contents (zadd score member key) = (contents key).add score member := by
  cases key <;> rfl

theorem zrangeFirst_eq (key : Key M) : zrangeFirst key = (contents key).first? := by
  cases key <;> rfl

theorem contents_pexpire (ttlMs now : Int) (key : Key M) :
    contents (key.map (pexpire ttlMs now)) = contents key := by
  cases key with
  | none => rfl
  | some e => exact value_pexpire ttlMs now e

/-- The entries of the window that ends at `now`. -/
def live (windowMs : Int) (key : Key M) (now : Int) : SortedSet Int M :=
  (contents (find now key)).removeUpTo (now - windowMs)

theorem contents_pruned (windowMs now : Int) (key : Key M) :
    contents (zremrangebyscore (now - windowMs) (find now key)) = live windowMs key now :=
  contents_zremrangebyscore _ _

theorem scriptOn_eq_live {num : Int → Int} {limit windowMs ttlMs now : Int} {key : Key M} {member : M}
    (hNow : num now = now) (hWindow : num windowMs = windowMs)
    (hStart : num (now - windowMs) = now - windowMs) :
    scriptOn num limit windowMs ttlMs key (now, member) =
      if num (live windowMs key now).card < num limit then
        ((zadd now member (zremrangebyscore (now - windowMs) (find now key))).map (pexpire ttlMs now),
          some ⟨1, num (num (num limit - num (live windowMs key now).card) - 1), 0⟩)
      else ((zremrangebyscore (now - windowMs) (find now key)).map (pexpire ttlMs now),
        (live windowMs key now).first?.map fun oldest =>
          ⟨0, 0, num (num (oldest + windowMs) - now)⟩) := by
  unfold scriptOn
  dsimp only
  rw [hNow, hWindow, hStart, zcard_eq, zrangeFirst_eq, contents_pruned]

/-! ## The deadline of the key -/

/-- Without a TTL the key has no deadline. -/
def Timed (ttlMs : Int) (key : Key M) : Prop := ∀ e ∈ key, ttlMs ≤ 0 → e.deadline = none

theorem timed_some {ttlMs : Int} {e : Entry (SortedSet Int M)} :
    Timed ttlMs (some e) ↔ (ttlMs ≤ 0 → e.deadline = none) := by
  simp [Timed]

theorem Timed.zremrangebyscore {ttlMs : Int} {key : Key M} (h : Timed ttlMs key) (top : Int) :
    Timed ttlMs (zremrangebyscore top key) := by
  cases key with
  | none => exact h
  | some e =>
    have hNone := timed_some.mp h
    simp only [SlidingWindow.zremrangebyscore, Option.bind_some]
    split
    · exact nofun
    · exact timed_some.mpr hNone

theorem Timed.zadd {ttlMs : Int} {key : Key M} (h : Timed ttlMs key) (score : Int) (member : M) :
    Timed ttlMs (zadd score member key) := by
  cases key with
  | none => exact timed_some.mpr fun _ => rfl
  | some e =>
    have hNone := timed_some.mp h
    exact timed_some.mpr hNone

theorem Timed.pexpire {ttlMs : Int} {key : Key M} (h : Timed ttlMs key) (now : Int) :
    ∀ e ∈ key.map (pexpire ttlMs now), e.deadline = deadlineAfter ttlMs now := by
  intro e he
  obtain ⟨e', he', rfl⟩ := Option.map_eq_some_iff.mp he
  exact deadline_pexpire (h e' he') now

end Kaka.Redis.SlidingWindow
