import Kaka.Memory.Representation

/-! # The store does not deadlock

A call that holds a shard lock waits for nothing: `reserveSlot` gives up the
lock of its own shard before it waits for `sweepMu` or for another shard.  So
whoever waits for a shard lock waits for a call that can move, and the call
that holds `sweepMu` waits for a shard lock at most.
-/

namespace Kaka.Memory

open Interleaving

variable {σ ρ : Type}

namespace Params

variable {P : Params σ} {tid : Tid} {choice : List Key} {s s' : Store P.shardCount σ}
  {c : Call σ ρ} {pc pc' : Pc P.shardCount ρ} {g g' : P.State ρ}

/-- The thread can take a step. -/
def Enabled (g : P.State ρ) (tid : Tid) : Prop :=
  ∃ choice g', P.program.next g (.step tid choice) = some g'

def Unfinished (g : P.State ρ) (tid : Tid) : Prop :=
  ∃ t, g.threads[tid]? = some t ∧ outcome? t.pc = none

/-- `reserveSlot` returns in this step: with a slot, or without one. -/
def ReserveReturns (pc pc' : Pc P.shardCount ρ) : Prop :=
  pc' = .recheck ∨ pc = .full true ∧ pc' = .unlock .errMaxKeysExceeded

theorem enabled_of_step {t : Thread P.shardCount σ ρ} (ht : g.threads[tid]? = some t)
    (hPc : t.pc = pc) (hStep : P.Step tid [] g.shared t.call pc s' pc') : Enabled g tid := by
  subst hPc
  refine ⟨[], ⟨s', g.threads.set tid ⟨t.call, pc'⟩,
    g.history ++ returned tid (P.program.result ⟨t.call, pc'⟩)⟩, ?_⟩
  have hProgram : P.program.step tid [] g.shared t = some (s', ⟨t.call, pc'⟩) := by
    simp only [program, hStep.advance, Option.map_some]
  simp only [Program.next, ht, hProgram]

theorem Enabled.unfinished (h : Enabled g tid) : Unfinished g tid := by
  obtain ⟨choice, g', hNext⟩ := h
  obtain ⟨t, s', pc', ht, hStep, _⟩ := step_cases hNext
  refine ⟨t, ht, ?_⟩
  generalize t.pc = pc at hStep
  cases hStep <;> rfl

/-! ## Who holds a shard lock can move -/

theorem exists_step_of_holds (tid : Tid) (hGood : P.Good s) (hOk : P.PcOk s c pc)
    {i : Fin P.shardCount} (hHolds : pc.holds (P.self c) = some i) :
    ∃ s' pc', P.Step tid [] s c pc s' pc' := by
  cases pc with
  | lookup =>
    cases hHit : (s.shards (P.self c)).hit P.ev c.key c.now with
    | some sh => exact ⟨_, _, .hit hHit⟩
    | none => exact ⟨_, _, .miss hHit⟩
  | expire todo next =>
    cases todo with
    | nil => exact ⟨_, _, .expireDone⟩
    | cons v rest =>
      cases hHas : (s.shards (next.shard (P.self c))).has P.ev v.key with
      | true => exact ⟨_, _, .expireDrop hHas⟩
      | false => exact ⟨_, _, .expireSkip hHas⟩
  | expired rest next => exact ⟨_, _, .expireCount⟩
  | reserve =>
    rcases le_or_gt P.opts.maxKeys 0 with hMax | hMax
    · exact ⟨_, _, .reserveUnlimited hMax⟩
    · exact ⟨_, _, .reserveLimited hMax⟩
  | load swept =>
    rcases lt_or_ge s.live P.opts.maxKeys with hRoom | hFull
    · exact ⟨_, _, .loadRoom hRoom⟩
    · exact ⟨_, _, .loadFull hFull⟩
  | cas seen swept =>
    rcases eq_or_ne s.live seen with rfl | hLost
    · exact ⟨_, _, .casWon⟩
    · exact ⟨_, _, .casLost hLost⟩
  | full swept =>
    cases hEv : P.ev with
    | evictReject =>
      cases swept with
      | true => exact ⟨_, _, .reject hEv⟩
      | false => exact ⟨_, _, .release hEv⟩
    | evictLRU =>
      cases hTail : (s.shards (P.self c)).tail? with
      | some v => exact ⟨_, _, .evictSelf hEv hTail⟩
      | none => exact ⟨_, _, .evictNone hEv hTail⟩
  | evicted who => exact ⟨_, _, .evictCount⟩
  | counted who => exact ⟨_, _, .counted⟩
  | sweepScan j => exact ⟨_, _, .sweepScan⟩
  | sweepUnlock j => exact ⟨_, _, .sweepUnlock⟩
  | evictAt j =>
    cases hTail : (s.shards j).tail? with
    | some v => exact ⟨_, _, .otherEvict hTail⟩
    | none => exact ⟨_, _, .otherEmpty hTail⟩
  | evictUnlock j => exact ⟨_, _, .otherUnlock⟩
  | recheck =>
    cases hHas : (s.shards (P.self c)).has P.ev c.key with
    | true => exact ⟨_, _, .recheckStored hHas⟩
    | false => exact ⟨_, _, .recheckCreate hHas⟩
  | giveBack => exact ⟨_, _, .giveBack⟩
  | refresh =>
    cases hHit : (s.shards (P.self c)).hit P.ev c.key c.now with
    | some sh => exact ⟨_, _, .refresh hHit⟩
    | none => exact absurd hOk ((Shard.hit_eq_none (hGood.wf _) c.key c.now).mp hHit)
  | run =>
    obtain ⟨e, hPeek⟩ := Option.isSome_iff_exists.mp
      ((Shard.peek_isSome (hGood.wf (P.shardFor c.key)) c.key).mpr hOk)
    exact ⟨_, _, .run hPeek⟩
  | unlock outcome => exact ⟨_, _, .unlock⟩
  | lock | sweepEnter | sweepGate | sweepLock | reload | evictOther | relock | done => cases hHolds

theorem Inv.enabled_of_holds (h : P.Inv g) {t : Thread P.shardCount σ ρ}
    (ht : g.threads[tid]? = some t) {i : Fin P.shardCount}
    (hHolds : t.pc.holds (P.self t.call) = some i) : Enabled g tid := by
  obtain ⟨s', pc', hStep⟩ := exists_step_of_holds tid h.good (h.ok tid t ht) hHolds
  exact enabled_of_step ht rfl hStep

/-- Whoever waits for a shard waits for a call that can move. -/
theorem Inv.free_or_enabled (h : P.Inv g) (i : Fin P.shardCount) :
    (g.shared.shards i).mu = none ∨ ∃ u, Enabled g u := by
  cases hTaken : (g.shared.shards i).mu with
  | none => exact .inl rfl
  | some u =>
    obtain ⟨x, hx, hHolds⟩ := (h.locks.shard i u).mp hTaken
    exact .inr ⟨u, h.enabled_of_holds hx hHolds⟩

/-! ## Some call can move -/

theorem Inv.enabled_of_sweepLock (h : P.Inv g) {t : Thread P.shardCount σ ρ}
    (ht : g.threads[tid]? = some t) {i : Nat} (hPc : t.pc = .sweepLock i) : ∃ u, Enabled g u := by
  rcases lt_or_ge i P.shardCount with hLt | hEnd
  · rcases h.free_or_enabled ⟨i, hLt⟩ with hFree | hOther
    · exact ⟨tid, enabled_of_step ht hPc (.sweepLock hFree)⟩
    · exact hOther
  · exact ⟨tid, enabled_of_step ht hPc (.sweepEnd hEnd)⟩

theorem Inv.enabled_of_sweeps (h : P.Inv g) {t : Thread P.shardCount σ ρ}
    (ht : g.threads[tid]? = some t) (hSweeps : t.pc.sweeps = true) : ∃ u, Enabled g u := by
  cases hPc : t.pc with
  | sweepGate =>
    rcases lt_or_ge (sub t.call.now g.shared.lastSweep) P.opts.cleanupInterval with hRecent | hDue
    · exact ⟨tid, enabled_of_step ht hPc (.sweepRecent hRecent)⟩
    · exact ⟨tid, enabled_of_step ht hPc (.sweepStart hDue)⟩
  | sweepLock i => exact h.enabled_of_sweepLock ht hPc
  | sweepScan i | sweepUnlock i => exact ⟨tid, h.enabled_of_holds ht (by rw [hPc]; rfl)⟩
  | expire todo next | expired todo next => exact ⟨tid, h.enabled_of_holds ht (by rw [hPc]; rfl)⟩
  | _ =>
    rw [hPc] at hSweeps
    cases hSweeps

theorem Inv.enabled_of_evictOther (h : P.Inv g) {t : Thread P.shardCount σ ρ}
    (ht : g.threads[tid]? = some t) {i : Nat} (hPc : t.pc = .evictOther i) : ∃ u, Enabled g u := by
  rcases lt_or_ge i P.shardCount with hLt | hEnd
  · rcases eq_or_ne (⟨i, hLt⟩ : Fin P.shardCount) (P.self t.call) with hSelf | hNe
    · obtain rfl : i = P.self t.call := congrArg Fin.val hSelf
      exact ⟨tid, enabled_of_step ht hPc .otherSelf⟩
    · rcases h.free_or_enabled ⟨i, hLt⟩ with hFree | hOther
      · exact ⟨tid, enabled_of_step ht hPc (.otherLock hNe hFree)⟩
      · exact hOther
  · exact ⟨tid, enabled_of_step ht hPc (.otherEnd hEnd)⟩

theorem Inv.exists_enabled (h : P.Inv g) (hUnfinished : Unfinished g tid) : ∃ u, Enabled g u := by
  obtain ⟨t, ht, hNone⟩ := hUnfinished
  cases hPc : t.pc with
  | lock =>
    rcases h.free_or_enabled (P.self t.call) with hFree | hOther
    · exact ⟨tid, enabled_of_step ht hPc (.lock hFree)⟩
    · exact hOther
  | relock =>
    rcases h.free_or_enabled (P.self t.call) with hFree | hOther
    · exact ⟨tid, enabled_of_step ht hPc (.relock hFree)⟩
    · exact hOther
  | sweepEnter =>
    rcases or_not (p := P.opts.keyTTL ≤ 0 ∨ P.opts.cleanupInterval ≤ 0) with hOff | hOn
    · exact ⟨tid, enabled_of_step ht hPc (.sweepSkip hOff)⟩
    · cases hTaken : g.shared.sweepMu with
      | none =>
        exact ⟨tid, enabled_of_step ht hPc (.sweepEnter (by omega) hTaken)⟩
      | some u =>
        obtain ⟨x, hx, hSweeps⟩ := (h.locks.sweep () u).mp hTaken
        exact h.enabled_of_sweeps hx hSweeps
  | sweepGate | sweepLock i => exact h.enabled_of_sweeps ht (by rw [hPc]; rfl)
  | reload =>
    rcases lt_or_ge g.shared.live P.opts.maxKeys with hRoom | hFull
    · exact ⟨tid, enabled_of_step ht hPc (.reloadRoom hRoom)⟩
    · exact ⟨tid, enabled_of_step ht hPc (.reloadFull hFull)⟩
  | evictOther i => exact h.enabled_of_evictOther ht hPc
  | done outcome =>
    rw [hPc] at hNone
    cases hNone
  | _ => exact ⟨tid, h.enabled_of_holds ht (by rw [hPc]; rfl)⟩

/-! ## Who gives a lock back -/

theorem Inv.released_by_holder (h : P.Inv g) {a : Act (Call σ ρ) (List Key)}
    (hNext : P.program.next g a = some g') {i : Fin P.shardCount} {u : Tid}
    (hTaken : (g.shared.shards i).mu = some u) (hGiven : (g'.shared.shards i).mu ≠ some u) :
    ∃ choice, a = .step u choice := by
  rcases next_cases hNext with ⟨call, _, rfl⟩ | ⟨tid, choice, t, s', pc', rfl, ht, hStep, rfl⟩
  · exact absurd hTaken hGiven
  · obtain ⟨x, hx, hHolds⟩ := (h.locks.shard i u).mp hTaken
    rcases eq_or_ne u tid with rfl | hNe
    · exact ⟨choice, rfl⟩
    · have hFrame := h.locks.frame ht hx hNe hStep hHolds
      exact absurd ((congrArg Shard.mu hFrame).trans hTaken) hGiven

theorem Inv.sweep_released_by_holder (h : P.Inv g) {a : Act (Call σ ρ) (List Key)}
    (hNext : P.program.next g a = some g') {u : Tid} (hTaken : g.shared.sweepMu = some u)
    (hGiven : g'.shared.sweepMu ≠ some u) : ∃ choice, a = .step u choice := by
  rcases next_cases hNext with ⟨call, _, rfl⟩ | ⟨tid, choice, t, s', pc', rfl, ht, hStep, rfl⟩
  · exact absurd hTaken hGiven
  · cases hSweeps : t.pc.sweeps with
    | true =>
      have hOwn : g.shared.sweepMu = some tid := (h.locks.sweep () tid).mpr ⟨t, ht, hSweeps⟩
      obtain rfl : tid = u := Option.some.inj (hOwn.symm.trans hTaken)
      exact ⟨choice, rfl⟩
    | false =>
      -- the mutex is taken, so the step neither takes it nor gives it back
      have hNot : ¬ pc'.sweeps = true := by
        intro hAfter
        rw [hStep.sweepFree (by simp [hSweeps]) hAfter] at hTaken
        cases hTaken
      have hSame := hStep.sweepMu
      rw [if_neg hNot, hSweeps] at hSame
      exact absurd (hSame.trans hTaken) hGiven

theorem Step.holds_of_reserveReturns (h : P.Step tid choice s c pc s' pc')
    (hReturns : ReserveReturns pc pc') :
    pc.holds (P.self c) = some (P.self c) ∧ pc'.holds (P.self c) = some (P.self c) := by
  cases h with
  | reserveUnlimited | casWon | reject => exact ⟨rfl, rfl⟩
  | @expireDone next => cases next <;> simp [ReserveReturns, After.pc] at hReturns
  | @counted who => cases who <;> simp [ReserveReturns, Evictor.pc] at hReturns
  | @evictNone swept => cases swept <;> simp [ReserveReturns] at hReturns
  | sweepSkip | sweepRecent | sweepEnd =>
    unfold afterSweep at hReturns
    split at hReturns <;> simp [ReserveReturns] at hReturns
  | _ => simp [ReserveReturns] at hReturns

theorem no_deadlock (hReach : P.program.Reachable g) :
    (∀ tid, Unfinished g tid → ∃ u, Unfinished g u ∧ Enabled g u) ∧
    (∀ tid choice g', P.program.next g (.step tid choice) = some g' →
      ∀ t t', g.threads[tid]? = some t → g'.threads[tid]? = some t' → ReserveReturns t.pc t'.pc →
        (g.shared.shards (P.shardFor t.call.key)).mu = some tid ∧
          (g'.shared.shards (P.shardFor t.call.key)).mu = some tid) ∧
    (∀ a g', P.program.next g a = some g' → ∀ u,
      (∀ i, (g.shared.shards i).mu = some u → (g'.shared.shards i).mu ≠ some u →
        ∃ choice, a = .step u choice) ∧
      (g.shared.sweepMu = some u → g'.shared.sweepMu ≠ some u → ∃ choice, a = .step u choice)) := by
  have hInv := inv hReach
  refine ⟨?_, ?_, ?_⟩
  · intro tid hUnfinished
    obtain ⟨u, hEnabled⟩ := hInv.exists_enabled hUnfinished
    exact ⟨u, hEnabled.unfinished, hEnabled⟩
  · intro tid choice g' hNext t t' ht ht' hReturns
    have hInv' := inv (hReach.next trivial hNext)
    obtain ⟨x, s', pc', hx, hStep, hg, _⟩ := step_cases hNext
    obtain rfl : x = t := Option.some.inj (hx.symm.trans ht)
    obtain rfl : t' = ⟨x.call, pc'⟩ := by
      rw [hg, getElem?_set_moved hx] at ht'
      exact (Option.some.inj ht').symm
    obtain ⟨hBefore, hAfter⟩ := hStep.holds_of_reserveReturns hReturns
    exact ⟨(hInv.locks.shard _ tid).mpr ⟨x, ht, hBefore⟩,
      (hInv'.locks.shard _ tid).mpr ⟨_, ht', hAfter⟩⟩
  · intro a g' hNext u
    exact ⟨fun i => hInv.released_by_holder hNext, hInv.sweep_released_by_holder hNext⟩

/-- Two calls on one key; the first has the lock that the second waits for. -/
def waitingRun : List (Act (Call Nat Nat) (List Key)) :=
  [.start (demoCall 97 5), .start (demoCall 97 5)] ++ steps 0 1

theorem no_deadlock_waitingRun :
    let g := (demo .evictLRU).program.final (fun _ _ => True) waitingRun
    Unfinished g 1 ∧ (demo .evictLRU).program.next g (.step 1 []) = none ∧
      ∃ u, Unfinished g u ∧ Enabled g u := by
  have hUnfinished : Unfinished
      ((demo .evictLRU).program.final (fun _ _ => True) waitingRun) 1 :=
    ⟨⟨demoCall 97 5, .lock⟩, rfl, rfl⟩
  exact ⟨hUnfinished, rfl, (no_deadlock (.final waitingRun (by decide +kernel))).1 1 hUnfinished⟩

end Params

end Kaka.Memory
