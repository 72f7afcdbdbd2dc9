import Kaka.Memory.BurstService
import Kaka.Memory.SlidingWindowLimit

/-! # The contract of a result in every interleaving

What a callback keeps of the state of its key, the store keeps of every entry:
a state reaches a callback as the last one left it or fresh, however entries
expire, are evicted and are created again meanwhile. So every result returned
under any interleaving is one that the callback gives on such a state.
-/

namespace Kaka.Memory

open Interleaving

structure WellFormed (r : Result) : Prop where
  remaining : 0 ≤ r.remaining
  wait : 0 ≤ r.retryAfter
  granted : r.allowed = true → r.retryAfter = 0
  denied : r.allowed = false → r.remaining = 0

section Sound

variable {σ ρ : Type}

/-- Fresh states meet `I`, and a request on such a state leaves one and answers with `Q`. -/
structure Sound (create : Int → σ) (fn : σ → Int → σ × ρ) (I : σ → Prop) (Q : ρ → Prop) : Prop where
  create : ∀ now, I (create now)
  step : ∀ v now, I v → I (fn v now).1
  answer : ∀ v now, I v → Q (fn v now).2

variable {P : Params σ} {fn : σ → Int → σ × ρ} {I : σ → Prop} {Q : ρ → Prop}

theorem Sound.serve {create : Int → σ} (h : Sound create fn I Q) {v : σ} (hv : I v) (readings : List Int) :
    ∀ x ∈ serve fn v readings, Q x.2 := by
  induction readings generalizing v with
  | nil => nofun
  | cons now rest ih =>
    intro x hx
    rw [serve_cons] at hx
    rcases List.mem_cons.mp hx with rfl | hRest
    · exact h.answer v now hv
    · exact ih (h.step v now hv) x hRest

theorem Sound.answers {create : Int → σ} (h : Sound create fn I Q) (readings : List Int) :
    ∀ x ∈ answers create fn readings, Q x.2 := by
  cases readings with
  | nil => nofun
  | cons now rest => exact h.serve (h.create now) (now :: rest)

namespace Params

variable {g : P.State ρ}

structure Contracted (I : σ → Prop) (Q : ρ → Prop) (g : P.State ρ) : Prop where
  entries : ∀ key v, P.value g.shared key = some v → I v
  answers : ∀ t ∈ g.threads, ∀ r, t.pc.answer = some r → Q r

variable {tid : Tid} {choice : List Key} {s s' : Store P.shardCount σ} {c : Call σ ρ}
  {pc pc' : Pc P.shardCount ρ}

theorem Step.contracted (h : P.Step tid choice s c pc s' pc') (hSound : Sound P.create c.fn I Q)
    (hGood : P.Good s) (hOk : P.PcOk s c pc) (hEntries : ∀ key v, P.value s key = some v → I v)
    (hAnswer : ∀ r, pc.answer = some r → Q r) :
    (∀ key v, P.value s' key = some v → I v) ∧ ∀ r, pc'.answer = some r → Q r := by
  -- only the callback writes a state that is neither the old one nor fresh
  rcases ne_or_eq pc .run with hNot | rfl
  · constructor
    · intro key v hv
      rcases (h.change hGood hOk).old_or_fresh hNot v hv with hOld | ⟨now, rfl⟩
      · exact hEntries key v hOld
      · exact hSound.create now
    · rwa [h.answer hNot]
  · cases h with
    | @run e hEntry =>
      have hState : I e.1 := hEntries c.key e.1 (congrArg (Option.map Prod.fst) hEntry)
      constructor
      · intro key v hv
        rw [value_write hGood hEntry] at hv
        split at hv
        · cases hv
          exact hSound.step e.1 c.now hState
        · exact hEntries key v hv
      · rintro r ⟨⟩
        exact hSound.answer e.1 c.now hState

theorem contracted (hSound : Sound P.create fn I Q) (hReach : (P.requests fn).Reachable g) :
    Contracted I Q g := by
  refine Program.Reach.invariant (M := P.requests fn) (I := Contracted I Q) ?_ ?_ hReach
  · refine ⟨?_, by rintro _ ⟨⟩⟩
    intro key v hv
    rw [show P.value (P.requests fn).initial.shared key = none from value_new key] at hv
    cases hv
  · intro g a g' hBefore ih _ hNext
    have hInv := inv hBefore.of_comap
    have hFn := requests_fn hBefore
    rw [requests, Program.comap_next] at hNext
    rcases next_cases hNext with ⟨call, _, rfl⟩ | ⟨tid, choice, t, s', pc', _, ht, hStep, rfl⟩
    · refine ⟨ih.entries, ?_⟩
      intro t ht
      rcases List.mem_append.mp ht with hOld | hNew
      · exact ih.answers t hOld
      · rw [List.mem_singleton.mp hNew]
        rintro _ ⟨⟩
    · have hMem := List.mem_of_getElem? ht
      obtain ⟨hEntries, hAnswer⟩ := hStep.contracted (hFn t hMem ▸ hSound) hInv.good
        (hInv.ok tid t ht) ih.entries (ih.answers t hMem)
      refine ⟨hEntries, ?_⟩
      intro u hu
      rcases List.mem_or_eq_of_mem_set hu with hOld | rfl
      · exact ih.answers u hOld
      · exact hAnswer

theorem Contracted.outcome (h : Contracted I Q g) {t : Thread P.shardCount σ ρ} (ht : t ∈ g.threads) {r : ρ}
    (hDone : t.pc = .done (.ok r)) : Q r :=
  h.answers t ht r (by rw [hDone]; rfl)

end Params

end Sound

/-! ## The sliding window -/

/-- Whatever the order of the log, the search ends where it began or at an
entry inside the window. -/
theorem search_valid (logs : List Int) (windowStart : Int) (left stop validIndex : Nat)
    (hStop : stop ≤ logs.length) :
    search logs windowStart left stop validIndex = validIndex ∨
      ∃ x, logs[search logs windowStart left stop validIndex]? = some x ∧ windowStart < x := by
  induction hGap : stop - left using Nat.strong_induction_on generalizing left stop validIndex with
  | _ gap ih =>
    unfold search
    split
    · rename_i hLt
      have hMid : left + (stop - 1 - left) / 2 < logs.length := by omega
      dsimp only
      split
      · rename_i hAfter
        rw [List.getD_eq_getElem _ _ hMid] at hAfter
        rcases ih _ (by omega) left (left + (stop - 1 - left) / 2) (left + (stop - 1 - left) / 2)
          (by omega) rfl with hSame | hFound
        · rw [hSame]
          exact .inr ⟨_, List.getElem?_eq_getElem hMid, hAfter⟩
        · exact .inr hFound
      · exact ih _ (by omega) _ _ _ hStop rfl
    · exact .inl rfl

namespace SlidingWindow

variable (sw : SlidingWindow) (state : WindowState) (now : Int)

theorem front_of_full (hFull : sw.limit ≤ (prune state (now - sw.window)).logs.length) :
    now - sw.window < (prune state (now - sw.window)).logs.getD 0 0 := by
  have hPos := sw.limit_pos
  rcases search_valid state.logs (now - sw.window) 0 state.logs.length state.logs.length le_rfl with
    hNone | ⟨x, hx, hInside⟩
  · rw [prune, hNone, List.drop_length, List.length_nil] at hFull
    omega
  · rwa [prune, List.getD_eq_getElem?_getD, List.getElem?_drop, Nat.add_zero, hx]

theorem sound : Sound (fun _ => WindowState.new) sw.recordAndDecide
    (fun state => (state.logs.length : Int) ≤ sw.limit)
    (fun r => WellFormed r ∧ (r.allowed = false → 0 < r.retryAfter)) where
  create _ := sw.limit_pos.le
  step state now hLength := by
    have hDrop : (prune state (now - sw.window)).logs.length ≤ state.logs.length := by
      rw [prune, List.length_drop]
      exact Nat.sub_le _ _
    rw [recordAndDecide]
    split
    · rw [appendWindowLog_logs, List.length_append, List.length_singleton]
      omega
    · dsimp only
      omega
  answer state now hLength := by
    rw [recordAndDecide]
    split
    · rename_i hRoom
      refine ⟨⟨?_, le_rfl, fun _ => rfl, (by rintro ⟨⟩)⟩, (by rintro ⟨⟩)⟩
      dsimp only
      rw [appendWindowLog_logs, List.length_append, List.length_singleton]
      omega
    · rename_i hFull
      -- the entry at the front is inside the window, so its turn has not come yet
      have hFront := front_of_full sw state now (not_lt.mp hFull)
      have hWait : 0 < sub ((prune state (now - sw.window)).logs.getD 0 0 + sw.window) now := by
        simp only [sub, minDuration, maxDuration]
        omega
      exact ⟨⟨le_rfl, hWait.le, (by rintro ⟨⟩), fun _ => rfl⟩, fun _ => hWait⟩

end SlidingWindow

end Kaka.Memory
