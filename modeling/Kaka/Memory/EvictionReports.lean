import Kaka.Base.Atomicity
import Kaka.Memory.Metrics

/-! # Every eviction is reported once

An eviction adds one to `evicts` before its shard is unlocked, and a call that
has evicted swaps the counter out before it returns, unless another
call was there first. What was removed is therefore reported, owed by a drain in
progress or pending, at every moment; `evictFrom` itself is three
operations, and between them an entry is removed and not yet counted.
-/

namespace Kaka.Memory

open Interleaving

variable {n : Nat} {σ ρ : Type}

def SinkCall.isOnEvict : SinkCall → Bool
  | .onEvict _ => true
  | _ => false

/-- Inside `evictFrom`, after the removal of the entry. -/
def Pc.evicting : Pc n ρ → Bool
  | .evicted _ => true
  | .counted _ => true
  | _ => false

def Place.evicting : Place n → Bool
  | .withState pc => pc.evicting
  | _ => false

/-- The callbacks that a drain in progress has still to make. -/
def Place.owed : Place n → Int
  | .callbacks i pending _ => (pending - i).toNat
  | _ => 0

/-- Between the key check and the swap of `drainEvictions`. -/
def Place.beforeSwap : Place n → Bool
  | .withState _ => true
  | .report _ => true
  | .len _ => true
  | .setKeys _ _ => true
  | .drain _ => true
  | _ => false

theorem Outcome.isOnEvict_report (outcome : Outcome Result) : outcome.report.isOnEvict = false := by
  cases outcome with
  | ok r =>
    rw [Outcome.report]
    split <;> rfl
  | errMaxKeysExceeded => rfl

/-! ## One step of `withState` -/

theorem After.evicting_pc (next : After n) : (next.pc : Pc n ρ).evicting = false := by
  cases next <;> rfl

theorem Evictor.evicting_pc (who : Evictor n) : (who.pc : Pc n ρ).evicting = false := by
  cases who <;> rfl

namespace Params

variable {P : Params σ} {tid : Tid} {choice : List Key} {s s' : Store P.shardCount σ} {c : Call σ ρ}
  {pc pc' : Pc P.shardCount ρ}

theorem evicting_afterSweep : (P.afterSweep : Pc P.shardCount ρ).evicting = false := by
  unfold afterSweep
  split <;> rfl

/-- A step outside `evictFrom`. -/
theorem evicts_eq_of_quiet (hEvicts : s'.evicts = s.evicts) (hBefore : pc.evicting = false)
    (hAfter : pc'.evicting = false) (hNone : P.evictsAt s c pc = false) :
    s'.evicts + pc'.evicting.toInt =
      s.evicts + pc.evicting.toInt + (P.evictsAt s c pc).toInt := by
  rw [hEvicts, hBefore, hAfter, hNone]
  exact (Int.add_zero _).symm

/-- An entry removed is uncounted until the counter has gone up. -/
theorem Step.evicts_eq (h : P.Step tid choice s c pc s' pc') :
    s'.evicts + pc'.evicting.toInt =
      s.evicts + pc.evicting.toInt + (P.evictsAt s c pc).toInt := by
  cases h with
  | @evictSelf swept v hEv hTail =>
    have hRemoves : P.evictsAt s c (.full swept) = true := by
      simp [evictsAt, hEv, Shard.evictFrom, hTail]
    rw [hRemoves]
    change s.evicts + 1 = s.evicts + 0 + 1
    rw [Int.add_zero]
  | @otherEvict i v hTail =>
    have hRemoves : P.evictsAt s c (.evictAt i) = true := by simp [evictsAt, Shard.evictFrom, hTail]
    rw [hRemoves]
    change s.evicts + 1 = s.evicts + 0 + 1
    rw [Int.add_zero]
  | evictCount => exact (Int.add_zero _).symm
  | @counted who =>
    rw [Evictor.evicting_pc]
    rfl
  | expireDone => exact evicts_eq_of_quiet rfl rfl (After.evicting_pc _) rfl
  | sweepSkip | sweepRecent | sweepEnd => exact evicts_eq_of_quiet rfl rfl evicting_afterSweep rfl
  | @evictNone swept _ hTail =>
    refine evicts_eq_of_quiet rfl rfl ?_ (by simp [evictsAt, Shard.evictFrom, hTail])
    cases swept <;> rfl
  | otherEmpty hTail =>
    exact evicts_eq_of_quiet rfl rfl rfl (by simp [evictsAt, Shard.evictFrom, hTail])
  | reject hEv | release hEv =>
    exact evicts_eq_of_quiet rfl rfl rfl (by simp [evictsAt, hEv])
  | _ => exact evicts_eq_of_quiet rfl rfl rfl rfl

theorem Step.evicts_le (h : P.Step tid choice s c pc s' pc') : s.evicts ≤ s'.evicts := by
  cases h with
  | counted => exact Int.le_add_one le_rfl
  | _ => exact le_rfl

end Params

namespace Limiter

variable {L : Limiter σ} {tid : Tid} {choice : List Key} {m m' : Monitored L.shardCount σ}
  {x : Key × Int} {place place' : Place L.shardCount}

/-! ## One step of `Allow` -/

def told (m : Monitored L.shardCount σ) : Int := (m.calls.countP SinkCall.isOnEvict : Nat)

theorem told_tell (hSink : L.sink = true) (m : Monitored L.shardCount σ) (c : SinkCall) :
    told (L.tell m c) = told m + c.isOnEvict.toInt := by
  rw [tell, if_pos hSink, told, told, List.countP_append, List.countP_singleton]
  cases c.isOnEvict <;> rfl

/-- What is told, pending, owed and uncounted makes up what was removed, as
far as this call goes. -/
theorem Move.balance (hSink : L.sink = true) (h : L.Move tid choice m x place m' place')
    (hPending : 0 ≤ m.store.evicts) :
    told m' + m'.store.evicts + (place'.owed + place'.evicting.toInt) - m'.evictions =
      told m + m.store.evicts + (place.owed + place.evicting.toInt) - m.evictions := by
  cases h with
  | @store pc _ pc' hStep =>
    have hEvicts := hStep.evicts_eq
    simp only [told, Place.owed, Place.evicting]
    omega
  | drain =>
    simp only [told, Place.owed, Place.evicting]
    omega
  | fire hOwed =>
    simp only [told_tell hSink, tell_store, tell_evictions, SinkCall.isOnEvict, Place.owed,
      Place.evicting, Bool.toInt, cond_true]
    omega
  | drained hEnd =>
    simp only [Place.owed, Place.evicting]
    omega
  | unobserved hNone =>
    rw [hSink] at hNone
    cases hNone
  | @report outcome =>
    simp [told_tell hSink, Outcome.isOnEvict_report, Place.owed, Place.evicting]
  | invalid | setKeys =>
    simp [told_tell hSink, SinkCall.isOnEvict, Place.owed, Place.evicting]
  | valid | observed | len => rfl

theorem Move.pending_nonneg (h : L.Move tid choice m x place m' place')
    (hPending : 0 ≤ m.store.evicts) : 0 ≤ m'.store.evicts := by
  cases h with
  | store hStep => exact hPending.trans hStep.evicts_le
  | drain => exact le_rfl
  | invalid | report | setKeys | fire =>
    rw [tell_store]
    exact hPending
  | valid | unobserved | observed | len | drained => exact hPending

/-- With a sink, the only way past the swap is the swap. -/
theorem Move.beforeSwap (hSink : L.sink = true) (h : L.Move tid choice m x place m' place') :
    place'.beforeSwap = true ∨ m'.store.evicts = 0 ∨
      (place.beforeSwap = false ∧ m'.store.evicts = m.store.evicts) := by
  cases h with
  | valid | store | observed | report | len | setKeys => exact .inl rfl
  | drain => exact .inr (.inl rfl)
  | unobserved hNone =>
    rw [hSink] at hNone
    cases hNone
  | invalid | fire =>
    rw [tell_store]
    exact .inr (.inr ⟨rfl, rfl⟩)
  | drained => exact .inr (.inr ⟨rfl, rfl⟩)

/-! ## Every run -/

def fired (g : L.State) : Int := told g.shared

def owed (g : L.State) : Int := (g.threads.map fun t => t.place.owed).sum

/-- The calls inside `evictFrom` that have removed an entry and not yet counted it. -/
def uncounted (g : L.State) : Nat := g.threads.countP fun t => t.place.evicting

def AllReturned (g : L.State) : Prop := ∀ t ∈ g.threads, (L.program.result t).isSome = true

instance (g : L.State) : Decidable (AllReturned g) := inferInstanceAs (Decidable (∀ t ∈ _, _))

structure Accounted (g : L.State) : Prop where
  pending : 0 ≤ g.shared.store.evicts
  balance : fired g + owed g + g.shared.store.evicts + uncounted g = g.shared.evictions
  covered : g.shared.store.evicts = 0 ∨ ∃ t ∈ g.threads, t.place.beforeSwap = true

theorem uncounted_eq_zero {g : L.State} (hOutside : ∀ t ∈ g.threads, t.place.evicting = false) :
    uncounted g = 0 := by
  rw [uncounted, List.countP_eq_zero]
  intro t ht
  rw [hOutside t ht]
  exact Bool.false_ne_true

theorem sum_weight (threads : List (Allowing n)) :
    (threads.map fun t => t.place.owed + t.place.evicting.toInt).sum =
      (threads.map fun t => t.place.owed).sum + (threads.countP fun t => t.place.evicting : Nat) := by
  induction threads with
  | nil => rfl
  | cons t threads ih =>
    rw [List.map_cons, List.sum_cons, ih, List.map_cons, List.sum_cons, List.countP_cons]
    cases t.place.evicting <;> simp <;> omega

theorem Accounted.init : Accounted (L.program.initial : L.State) where
  pending := le_rfl
  balance := rfl
  covered := .inl rfl

theorem Accounted.next (hSink : L.sink = true) {g g' : L.State} {a : Act (Key × Int) (List Key)}
    (h : Accounted g) (hNext : L.program.next g a = some g') : Accounted g' := by
  have hBalance := h.balance
  rcases next_cases hNext with ⟨y, _, rfl⟩ | ⟨tid, choice, t, m', place', _, ht, hMove, rfl, hThreads⟩
  · constructor
    · exact h.pending
    · rw [← hBalance]
      simp [fired, owed, uncounted, Place.owed, Place.evicting]
    · rcases h.covered with hZero | ⟨t, ht, hBefore⟩
      · exact .inl hZero
      · exact .inr ⟨t, List.mem_append_left _ ht, hBefore⟩
  · constructor
    · exact hMove.pending_nonneg h.pending
    · have hStep := hMove.balance hSink h.pending
      have hSum : (g'.threads.map fun t => t.place.owed + t.place.evicting.toInt).sum =
          (g.threads.map fun t => t.place.owed + t.place.evicting.toInt).sum +
            (place'.owed + place'.evicting.toInt) - (t.place.owed + t.place.evicting.toInt) := by
        rw [hThreads]
        exact sum_map_set (fun t => t.place.owed + t.place.evicting.toInt) ht
      rw [sum_weight, sum_weight] at hSum
      simp only [fired, owed, uncounted] at hBalance ⊢
      omega
    · rw [hThreads]
      rcases hMove.beforeSwap hSink with hAfter | hZero | ⟨hPast, hSame⟩
      · exact .inr ⟨_, List.mem_of_getElem? (getElem?_set_moved ht), hAfter⟩
      · exact .inl hZero
      · rw [hSame]
        rcases h.covered with hZero | ⟨y, hy, hBefore⟩
        · exact .inl hZero
        · -- the call that will swap is another one
          refine .inr ⟨y, mem_set_other ht hy ?_, hBefore⟩
          rintro rfl
          rw [hPast] at hBefore
          cases hBefore

theorem accounted (hSink : L.sink = true) {g : L.State} (hReach : L.program.Reachable g) :
    Accounted g :=
  hReach.invariant .init fun _ _ _ _ h _ hNext => h.next hSink hNext

theorem AllReturned.quiet {g : L.State} (h : AllReturned g) {t : Allowing L.shardCount}
    (ht : t ∈ g.threads) :
    t.place.owed = 0 ∧ t.place.evicting = false ∧ t.place.beforeSwap = false := by
  have hResult := h t ht
  obtain ⟨key, now, place⟩ := t
  cases place with
  | returned | invalid => exact ⟨rfl, rfl, rfl⟩
  | _ => cases hResult

theorem Accounted.settled {g : L.State} (h : Accounted g) (hReturned : AllReturned g) :
    fired g = g.shared.evictions := by
  have hBalance := h.balance
  have hOwed : owed g = 0 := by
    apply List.sum_eq_zero
    intro y hy
    obtain ⟨t, ht, rfl⟩ := List.mem_map.mp hy
    exact (hReturned.quiet ht).1
  have hUncounted : uncounted g = 0 := by
    apply uncounted_eq_zero
    intro t ht
    exact (hReturned.quiet ht).2.1
  have hPending : g.shared.store.evicts = 0 := by
    rcases h.covered with hZero | ⟨t, ht, hBefore⟩
    · exact hZero
    · rw [(hReturned.quiet ht).2.2] at hBefore
      cases hBefore
  omega

/-- `evictFrom` as one step: its removal and its two counters. -/
def evictingAtOnce (L : Limiter σ) : Program (Monitored L.shardCount σ) (Allowing L.shardCount)
    (Key × Int) (List Key) Answer :=
  L.program.atomically (fun t => t.place.evicting) 3

theorem through_evicting (t : Allowing L.shardCount) (hInside : t.place.evicting = true) :
    (L.program.through (fun t => t.place.evicting) tid choice 2 m t).isSome = true := by
  obtain ⟨key, now, place⟩ := t
  have hOut : ∀ who : Evictor L.shardCount, (who.pc : Pc L.shardCount Result).evicting = false :=
    fun who => who.evicting_pc
  cases place with
  | withState pc =>
    cases pc with
    | evicted who =>
      have hIn : (Pc.counted who : Pc L.shardCount Result).evicting = true := rfl
      simp [Program.through, program, advance, Params.advance, Place.evicting, hIn, hOut]
    | counted who => simp [Program.through, program, advance, Params.advance, Place.evicting, hOut]
    | _ => cases hInside
  | _ => cases hInside

/-- Nothing in `evictFrom` waits, so the step is enabled where its first
operation is. -/
theorem evictingAtOnce_enabled (t : Allowing L.shardCount) :
    (L.evictingAtOnce.step tid choice m t).isSome = (L.program.step tid choice m t).isSome := by
  change (L.program.through _ tid choice 3 m t).isSome = _
  rw [Program.through]
  cases hFirst : L.program.step tid choice m t with
  | none => rfl
  | some out =>
    obtain ⟨m₁, t₁⟩ := out
    by_cases hInside : t₁.place.evicting = true
    · simpa [hInside] using through_evicting t₁ hInside
    · simp [hInside]

theorem result_of_evicting (t : Allowing L.shardCount) (hInside : t.place.evicting = true) :
    L.program.result t = none := by
  obtain ⟨key, now, place⟩ := t
  cases place with
  | withState pc => rfl
  | _ => cases hInside

/-- Every eviction is reported exactly once. With `evictFrom` as one step the sum
is exact at every moment; with its operations apart, the entries between
removal and count are the difference. -/
theorem evictions_reported_once (L : Limiter σ) (hSink : L.sink = true) :
    (∀ g, L.evictingAtOnce.Reachable g →
      fired g + owed g + g.shared.store.evicts = g.shared.evictions ∧
      (AllReturned g → fired g = g.shared.evictions)) ∧
    (∀ g, L.program.Reachable g →
      fired g + owed g + g.shared.store.evicts + uncounted g = g.shared.evictions ∧
      (AllReturned g → fired g = g.shared.evictions)) := by
  constructor
  · intro g hReach
    have hFine : L.program.Reachable g := by
      apply Program.Reach.of_atomically ?_ hReach
      exact result_of_evicting
    have h := accounted hSink hFine
    have hOutside : uncounted g = 0 := by
      apply uncounted_eq_zero
      exact Program.Reach.outside (fun _ => rfl) hReach
    refine ⟨?_, h.settled⟩
    have hBalance := h.balance
    omega
  · intro g hReach
    have h := accounted hSink hReach
    exact ⟨h.balance, h.settled⟩

/-- Room for one key, and a sink. -/
def duo : Limiter Bucket :=
  TokenBucket.limiter { maxKeys := 1, eviction := .evictLRU } 2 Params.two_shards true .onePerSecond

/-- The second call evicts the key of the first, which drains the counter before
the second call comes to it. -/
def handover : List (Act (Key × Int) (List Key)) :=
  [.start ([97], 5), .start ([98], 5)] ++ Params.steps 0 14 ++ Params.steps 1 11 ++ Params.steps 0 3 ++
    Params.steps 1 13

theorem evictions_reported_once_handover :
    let g := duo.evictingAtOnce.final (fun _ _ => True) handover
    g.threads.length = 2 ∧ AllReturned g ∧ fired g = g.shared.evictions ∧ g.shared.evictions = 1 := by
  intro g
  have hReach : duo.evictingAtOnce.Reachable g := .final handover (by decide +kernel)
  have hReturned : AllReturned g := by decide +kernel
  have hFired := ((evictions_reported_once duo rfl).1 g hReach).2 hReturned
  exact ⟨by decide +kernel, hReturned, hFired, by decide +kernel⟩

end Limiter

end Kaka.Memory
