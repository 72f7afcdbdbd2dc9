import Kaka.Memory.StoreStep

/-! # Which locks a call holds

The shard lock and the sweep mutex a call holds are read off its place.
`Discipline` says that the mutexes record exactly that, in every reachable
state; so a call's shard is untouched while it holds the lock.
-/

namespace Kaka.Memory

open Interleaving

variable {σ ρ : Type}

variable {n : Nat}

def After.sweeps : After n → Bool
  | .sweep _ => true
  | _ => false

namespace Pc

def holds (self : Fin n) : Pc n ρ → Option (Fin n)
  | .lookup | .reserve | .load _ | .cas _ _ | .full _ => some self
  | .recheck | .giveBack | .refresh | .run | .unlock _ => some self
  | .expire _ next | .expired _ next => some (next.shard self)
  | .evicted who | .counted who => some (who.shard self)
  | .sweepScan i | .sweepUnlock i | .evictAt i | .evictUnlock i => some i
  | .lock | .sweepEnter | .sweepGate | .sweepLock _ => none
  | .reload | .evictOther _ | .relock | .done _ => none

def sweeps : Pc n ρ → Bool
  | .sweepGate | .sweepLock _ | .sweepScan _ | .sweepUnlock _ => true
  | .expire _ next | .expired _ next => next.sweeps
  | _ => false

@[simp] theorem holds_expire (self : Fin n) (todo : List Victim) (next : After n) :
    (.expire todo next : Pc n ρ).holds self = some (next.shard self) := rfl

@[simp] theorem holds_counted (self : Fin n) (who : Evictor n) :
    (.counted who : Pc n ρ).holds self = some (who.shard self) := rfl

@[simp] theorem holds_after (self : Fin n) (next : After n) :
    (next.pc : Pc n ρ).holds self = some (next.shard self) := by
  cases next <;> rfl

@[simp] theorem holds_evictor (self : Fin n) (who : Evictor n) :
    (who.pc : Pc n ρ).holds self = some (who.shard self) := by
  cases who <;> rfl

@[simp] theorem sweeps_after (next : After n) : (next.pc : Pc n ρ).sweeps = next.sweeps := by
  cases next <;> rfl

@[simp] theorem sweeps_evictor (who : Evictor n) : (who.pc : Pc n ρ).sweeps = false := by
  cases who <;> rfl

end Pc

namespace Params

variable {P : Params σ} {tid : Tid} {choice : List Key} {s s' : Store P.shardCount σ}
  {c : Call σ ρ} {pc pc' : Pc P.shardCount ρ}

@[simp] theorem holds_afterSweep (self : Fin P.shardCount) :
    (P.afterSweep : Pc P.shardCount ρ).holds self = none := by
  unfold afterSweep
  split <;> rfl

@[simp] theorem sweeps_afterSweep : (P.afterSweep : Pc P.shardCount ρ).sweeps = false := by
  unfold afterSweep
  split <;> rfl

/-! ## One step -/

theorem Step.frame (h : P.Step tid choice s c pc s' pc') {i : Fin P.shardCount}
    (hBefore : pc.holds (P.self c) ≠ some i) (hAfter : pc'.holds (P.self c) ≠ some i) :
    s'.shards i = s.shards i := by
  -- each changed shard is held before the step or after it
  cases h with
  | lock | relock | sweepLock | otherLock =>
    exact Store.setShard_ne _ _ fun hEq => hAfter (congrArg some hEq.symm)
  | hit | miss | evictSelf | recheckCreate | refresh | run =>
    exact Store.setShard_ne _ _ fun hEq => hBefore (congrArg some hEq.symm)
  | expireDrop | sweepScan | otherEvict =>
    exact Store.setShard_ne _ _ fun hEq => hBefore (congrArg some hEq.symm)
  | evictNone | release | unlock | sweepUnlock | otherEmpty | otherUnlock =>
    exact Store.setShard_ne _ _ fun hEq => hBefore (congrArg some hEq.symm)
  | _ => rfl

/-- A lock is only taken while nobody holds it. -/
theorem Step.free (h : P.Step tid choice s c pc s' pc') {i : Fin P.shardCount}
    (hBefore : pc.holds (P.self c) ≠ some i) (hAfter : pc'.holds (P.self c) = some i) :
    (s.shards i).mu = none := by
  cases h with
  | lock hFree | relock hFree | sweepLock hFree | otherLock _ hFree =>
    obtain rfl := Option.some.inj hAfter
    exact hFree
  | evictNone => split at hAfter <;> cases hAfter
  | expireDone | counted => exact absurd (by simpa using hAfter) hBefore
  | sweepSkip | sweepRecent | sweepEnd => simp at hAfter
  | _ => first | exact absurd hAfter hBefore | cases hAfter

/-- The mutex of a shard keeps its holder through the stretches run under it. -/
theorem Step.taken (h : P.Step tid choice s c pc s' pc') {i : Fin P.shardCount}
    (hOwn : pc.holds (P.self c) = some i → (s.shards i).mu = some tid)
    (hAfter : pc'.holds (P.self c) = some i) : (s'.shards i).mu = some tid := by
  cases h with
  | lock | relock | sweepLock | otherLock =>
    obtain rfl := Option.some.inj hAfter
    simp [Store.lock]
  | hit hHit =>
    obtain rfl : P.self c = i := Option.some.inj hAfter
    rw [Store.setShard_self, Shard.mu_cleanup, Shard.mu_hit hHit]
    exact hOwn rfl
  | refresh hHit =>
    obtain rfl := Option.some.inj hAfter
    rw [Store.setShard_self, Shard.mu_hit hHit]
    exact hOwn rfl
  | miss | evictSelf | recheckCreate | run =>
    obtain rfl : P.self c = i := Option.some.inj hAfter
    simpa using hOwn rfl
  | expireDrop | sweepScan | otherEvict =>
    obtain rfl := Option.some.inj hAfter
    simpa [After.shard, Evictor.shard] using hOwn rfl
  | evictNone => split at hAfter <;> cases hAfter
  | expireDone | counted => exact hOwn (by simpa using hAfter)
  | sweepSkip | sweepRecent | sweepEnd => simp at hAfter
  | _ => first | exact hOwn hAfter | cases hAfter

theorem Step.given (h : P.Step tid choice s c pc s' pc') {i : Fin P.shardCount}
    (hBefore : pc.holds (P.self c) = some i) (hAfter : pc'.holds (P.self c) ≠ some i) :
    (s'.shards i).mu = none := by
  cases h with
  | evictNone | release | unlock | sweepUnlock | otherEmpty | otherUnlock =>
    obtain rfl := Option.some.inj hBefore
    simp [Store.unlock]
  | expireDone | counted => exact absurd (by simpa using hBefore) hAfter
  | _ => first | exact absurd hBefore hAfter | cases hBefore

theorem Step.sweepMu (h : P.Step tid choice s c pc s' pc') :
    s'.sweepMu = if pc'.sweeps then (if pc.sweeps then s.sweepMu else some tid)
      else (if pc.sweeps then none else s.sweepMu) := by
  cases h with
  | evictNone => split <;> rfl
  | counted =>
    rw [Pc.sweeps_evictor]
    rfl
  | sweepSkip | sweepRecent | sweepEnd =>
    rw [sweeps_afterSweep]
    rfl
  | @expireDone next | @expireDrop _ _ next | @expireSkip _ _ next | @expireCount _ next =>
    cases next <;> rfl
  | _ => rfl

theorem Step.sweepFree (h : P.Step tid choice s c pc s' pc') (hBefore : ¬ pc.sweeps = true)
    (hAfter : pc'.sweeps = true) : s.sweepMu = none := by
  cases h with
  | sweepEnter _ hFree => exact hFree
  | evictNone => split at hAfter <;> cases hAfter
  | counted => simp at hAfter
  | sweepSkip | sweepRecent | sweepEnd => simp at hAfter
  | expireDone =>
    rw [Pc.sweeps_after] at hAfter
    exact absurd hAfter hBefore
  | _ => exact absurd hAfter hBefore

/-! ## Every reachable state -/

/-- The mutexes record who holds them: exactly the calls whose place says so. -/
structure Discipline (g : P.State ρ) : Prop where
  shard : Owned (fun i => (g.shared.shards i).mu)
    (fun t i => t.pc.holds (P.self t.call) = some i) g.threads
  sweep : Owned (fun _ : Unit => g.shared.sweepMu) (fun t _ => t.pc.sweeps = true) g.threads

theorem Discipline.init : Discipline (P.program.initial : P.State ρ) :=
  ⟨by simp [Owned, Program.initial, program, newShardedStoreWithShards, Shard.new],
    by simp [Owned, Program.initial, program, newShardedStoreWithShards]⟩

theorem Discipline.next {g g' : P.State ρ} {a : Act (Call σ ρ) (List Key)} (h : Discipline g)
    (hNext : P.program.next g a = some g') : Discipline g' := by
  rcases next_cases hNext with ⟨call, _, rfl⟩ | ⟨tid, choice, t, s', pc', _, ht, hStep, rfl⟩
  · exact ⟨h.shard.start fun _ => by simp [Pc.holds], h.sweep.start fun _ => by simp [Pc.sweeps]⟩
  · refine ⟨h.shard.step ht ?_ ?_ ?_ ?_, h.sweep.step ht ?_ ?_ ?_ ?_⟩
    · intro i hBefore hAfter
      exact congrArg Shard.mu (hStep.frame hBefore hAfter)
    · intro i hBefore hAfter
      exact hStep.free hBefore hAfter
    · intro i hAfter
      exact hStep.taken (fun hBefore => (h.shard i tid).mpr ⟨t, ht, hBefore⟩) hAfter
    · intro i hBefore hAfter
      exact hStep.given hBefore hAfter
    · intro _ hBefore hAfter
      simp only [hStep.sweepMu, hBefore, hAfter]
      rfl
    · intro _ hBefore hAfter
      exact hStep.sweepFree hBefore hAfter
    · intro _ hAfter
      have hOwn : t.pc.sweeps = true → g.shared.sweepMu = some tid :=
        fun hBefore => (h.sweep () tid).mpr ⟨t, ht, hBefore⟩
      rw [hStep.sweepMu, if_pos hAfter]
      split
      · exact hOwn ‹_›
      · rfl
    · intro _ hBefore hAfter
      rw [hStep.sweepMu, if_neg hAfter, if_pos hBefore]

/-- A shard is not touched by others while a call holds its lock. -/
theorem Discipline.frame {g : P.State ρ} (h : Discipline g) {tid u : Tid}
    {t x : Thread P.shardCount σ ρ} (ht : g.threads[tid]? = some t)
    (hx : g.threads[u]? = some x) (hNe : u ≠ tid) (hStep : P.Step tid choice g.shared t.call t.pc s' pc')
    {i : Fin P.shardCount} (hHolds : x.pc.holds (P.self x.call) = some i) :
    s'.shards i = g.shared.shards i := by
  have hBefore : t.pc.holds (P.self t.call) ≠ some i :=
    fun hBefore => hNe (h.shard.unique hx hHolds ht hBefore)
  refine hStep.frame hBefore fun hAfter => ?_
  have hFree := hStep.free hBefore hAfter
  have hOwner := (h.shard i u).mpr ⟨x, hx, hHolds⟩
  simp only [hFree] at hOwner
  cases hOwner

end Params

end Kaka.Memory
