import Kaka.Layered.Shield
import Kaka.Memory.WindowReference
import Kaka.Redis.WindowAgreement
import Kaka.Redis.WindowLog

/-! # The in-memory window in front of the Redis one

The remote log misses the prunings of the requests that the local one
denies.  The next request removes what they would have removed, so all three
logs stand for the same allowed times.
-/

namespace Kaka.Layered.SlidingWindow

open Forgetting Shielding Redis Redis.SlidingWindow

variable {M : Type}

/-- A request with the members that the client draws for it, where the local
layer forwards it and where there is none. -/
structure Draw (M : Type) where
  now : Int
  behind : M
  alone : M

def Draw.forward (x : Draw M) : Int × M := (x.now, x.behind)

def Draw.direct (x : Draw M) : Int × M := (x.now, x.alone)

/-- Requests less than a window apart draw different members. -/
def Apart (windowMs : Int) (x y : Draw M) : Prop :=
  y.now - windowMs < x.now → x.behind ≠ y.behind ∧ x.alone ≠ y.alone

/-- The requests of a key do not go back, and draw a member of their own. -/
structure ComesAfter (windowMs : Int) (past : List (Draw M)) (x : Draw M) : Prop where
  later : ∀ y ∈ past, y.now ≤ x.now
  apart : ∀ y ∈ past, Apart windowMs y x

theorem ComesAfter.forward {windowMs : Int} {past : List (Draw M)} {x : Draw M}
    (h : ComesAfter windowMs past x) : Fresh windowMs (past.map Draw.forward) x.forward := by
  intro y hy hInside
  obtain ⟨z, hz, rfl⟩ := List.mem_map.mp hy
  exact (h.apart z hz hInside).1

theorem ComesAfter.direct {windowMs : Int} {past : List (Draw M)} {x : Draw M}
    (h : ComesAfter windowMs past x) : Fresh windowMs (past.map Draw.direct) x.direct := by
  intro y hy hInside
  obtain ⟨z, hz, rfl⟩ := List.mem_map.mp hy
  exact (h.apart z hz hInside).2

variable [LinearOrder M] {sw : Memory.SlidingWindow} {epoch windowMs ttlMs last last' : Int}
  {allowed : List Int} {past : List (Draw M)} {state : Memory.WindowState} {a b : Key M} {x : Draw M}

/-- All three logs stand for the times allowed so far; `b` has seen every
request, `a` only those that the local layer allowed. -/
structure Lagging (sw : Memory.SlidingWindow) (epoch windowMs ttlMs : Int) (allowed : List Int)
    (past : List (Draw M)) (last last' : Int) (state : Memory.WindowState) (a b : Key M) : Prop where
  memory : sw.Reflects (allowed.map (instant epoch)) state (instant epoch last)
  direct : Listed windowMs ttlMs allowed (past.map Draw.direct) last b
  forward : Listed windowMs ttlMs allowed (past.map Draw.forward) last' a
  behind : last' ≤ last

theorem Lagging.new (sw : Memory.SlidingWindow) (epoch windowMs ttlMs last : Int) :
    Lagging sw epoch windowMs ttlMs [] ([] : List (Draw M)) last last .new none none :=
  ⟨.new _, .none _ _ _, .none _ _ _, le_rfl⟩

section Step

variable (h : Lagging sw epoch windowMs ttlMs allowed past last last' state a b)
  (hWhole : sw.window = windowMs * 1000000) (hTime : last ≤ x.now)
include h hWhole hTime

theorem Lagging.allowed_iff : (sw.recordAndDecide state (instant epoch x.now)).2.allowed = true ↔
    ((allowed.filter (x.now - windowMs < ·)).length : Int) < sw.limit := by
  rw [Memory.SlidingWindow.allowed_iff h.memory.ordered.sorted,
    h.memory.filter_logs (instant_mono epoch hTime), filter_instant hWhole, List.length_map]

theorem Lagging.stop (hTtl : ttlMs ≤ 0)
    (hDenied : (sw.recordAndDecide state (instant epoch x.now)).2.allowed = false) :
    Refuses (sw.recordAndDecide state (instant epoch x.now)).2
        (scriptOn id sw.limit windowMs ttlMs b x.direct).2 ∧
      Lagging sw epoch windowMs ttlMs allowed (past ++ [x]) x.now last'
        (sw.recordAndDecide state (instant epoch x.now)).1 a
        (scriptOn id sw.limit windowMs ttlMs b x.direct).1 := by
  have hLive : Lapsed ttlMs last x.now → windowMs ≤ ttlMs := fun hLapsed =>
    absurd hLapsed.1 (not_lt.mpr hTtl)
  have hFull : sw.limit ≤ ((allowed.filter (x.now - windowMs < ·)).length : Int) := by
    apply not_lt.mp
    rw [← h.allowed_iff hWhole hTime, hDenied]
    exact Bool.false_ne_true
  have hRemaining : (sw.recordAndDecide state (instant epoch x.now)).2.remaining = 0 := by
    have hLogs := h.memory.filter_logs (instant_mono epoch hTime)
    rw [(Memory.SlidingWindow.record_deny h.memory.ordered.sorted (by
      rw [hLogs, filter_instant hWhole, List.length_map]
      exact hFull)).2]
  have hMemory := h.memory.record (instant_mono epoch hTime)
  rw [hDenied, if_neg Bool.false_ne_true, List.append_nil] at hMemory
  obtain ⟨hReply, hDirect⟩ := h.direct.script_deny x.alone hTime hLive
    (Exact.id windowMs x.now) hFull
  obtain ⟨oldest, rest, hOldest⟩ := List.exists_cons_of_length_pos
    (by exact_mod_cast sw.limit_pos.trans_le hFull :
      0 < (allowed.filter (x.now - windowMs < ·)).length)
  rw [hOldest, List.head?_cons, Option.map_some] at hReply
  constructor
  · exact ⟨hRemaining, _, hReply⟩
  · refine ⟨hMemory, ?_, ?_, h.behind.trans hTime⟩
    · rw [List.map_append]
      exact hDirect
    · rw [List.map_append]
      exact h.forward.skip x.forward

theorem Lagging.pass (hTtl : ttlMs ≤ 0) (hAfter : ComesAfter windowMs past x)
    (hAllowed : (sw.recordAndDecide state (instant epoch x.now)).2.allowed = true) :
    (scriptOn id sw.limit windowMs ttlMs a x.forward).2 =
        (scriptOn id sw.limit windowMs ttlMs b x.direct).2 ∧
      Lagging sw epoch windowMs ttlMs (allowed ++ [x.now]) (past ++ [x]) x.now x.now
        (sw.recordAndDecide state (instant epoch x.now)).1
        (scriptOn id sw.limit windowMs ttlMs a x.forward).1
        (scriptOn id sw.limit windowMs ttlMs b x.direct).1 := by
  have hLive : ∀ t, Lapsed ttlMs t x.now → windowMs ≤ ttlMs := fun t hLapsed =>
    absurd hLapsed.1 (not_lt.mpr hTtl)
  have hWindow : 0 < windowMs := by
    have := sw.window_pos
    omega
  have hRoom := (h.allowed_iff hWhole hTime).mp hAllowed
  have hMemory := h.memory.record (instant_mono epoch hTime)
  rw [hAllowed, if_pos rfl, ← List.map_singleton, ← List.map_append] at hMemory
  obtain ⟨hReply, hDirect⟩ := h.direct.script_allow hTime (hLive last) hWindow
    (Exact.id windowMs x.now) hAfter.direct hRoom
  obtain ⟨hReply', hForward⟩ := h.forward.script_allow (h.behind.trans hTime) (hLive last') hWindow
    (Exact.id windowMs x.now) hAfter.forward hRoom
  refine ⟨hReply'.trans hReply.symm, hMemory, ?_, ?_, le_rfl⟩
  · rw [List.map_append]
    exact hDirect
  · rw [List.map_append]
    exact hForward

end Step

/-- The key after the requests `past`, as any later request finds it. -/
def Lags (sw : Memory.SlidingWindow) (epoch windowMs ttlMs : Int) (past : List (Draw M))
    (s : Option (Memory.WindowState × Int)) (a b : Key M) : Prop :=
  ∀ now, (∀ y ∈ past, y.now ≤ now) → ∃ allowed last last', last ≤ now ∧
    Lagging sw epoch windowMs ttlMs allowed past last last' ((s.map Prod.fst).getD .new) a b

theorem Lagging.lags {used : Int}
    (h : Lagging sw epoch windowMs ttlMs allowed (past ++ [x]) x.now last' state a b) :
    Lags sw epoch windowMs ttlMs (past ++ [x]) (some (state, used)) a b :=
  fun _ hNow => ⟨allowed, x.now, last', hNow x (by simp), h⟩

theorem shields (hWhole : sw.window = windowMs * 1000000) (epoch : Int) (hTtl : ttlMs ≤ 0)
    (opts : Memory.Options) (n : Nat) (power : ∃ k, n = 2 ^ k) :
    Shields (onKey (Memory.SlidingWindow.params opts n power) sw.recordAndDecide
        (fun x : Draw M => instant epoch x.now))
      (scriptOn id sw.limit windowMs ttlMs) Draw.forward Draw.direct Result.allowed Refuses
      (ComesAfter windowMs) (Lags sw epoch windowMs ttlMs) where
  stop {past s a b x} hLags hAfter hDenied := by
    obtain ⟨allowed, last, last', hTime, h⟩ := hLags x.now hAfter.later
    obtain ⟨hRefuses, hNext⟩ := h.stop hWhole hTime hTtl hDenied
    exact ⟨hRefuses, hNext.lags⟩
  pass {past s a b x} hLags hAfter hAllowed := by
    obtain ⟨allowed, last, last', hTime, h⟩ := hLags x.now hAfter.later
    obtain ⟨hReply, hNext⟩ := h.pass hWhole hTime hTtl hAfter hAllowed
    exact ⟨hReply, hNext.lags⟩

end Kaka.Layered.SlidingWindow
