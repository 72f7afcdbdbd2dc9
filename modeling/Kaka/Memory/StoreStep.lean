import Kaka.Memory.Store

/-! # What one step of a call can do

`advance` is inverted once; every invariant of the store is derived from
the constructors below. The shard lock that a call holds is a function of
its place, and a step changes no shard other than the one held before or
after it.
-/

namespace Kaka.Memory

open Interleaving

variable {σ ρ : Type}

namespace Store

variable {n : Nat} (s : Store n σ) (i j : Fin n) (sh : Shard σ) (tid : Tid)

@[simp] theorem setShard_self : (s.setShard i sh).shards i = sh := by simp [setShard]

theorem setShard_ne {i j : Fin n} (hNe : j ≠ i) : (s.setShard i sh).shards j = s.shards j := by
  simp [setShard, hNe]

@[simp] theorem setShard_live : (s.setShard i sh).live = s.live := rfl

@[simp] theorem setShard_sweepMu : (s.setShard i sh).sweepMu = s.sweepMu := rfl

@[simp] theorem lock_live : (s.lock i tid).live = s.live := rfl

@[simp] theorem lock_sweepMu : (s.lock i tid).sweepMu = s.sweepMu := rfl

@[simp] theorem unlock_live : (s.unlock i).live = s.live := rfl

@[simp] theorem unlock_sweepMu : (s.unlock i).sweepMu = s.sweepMu := rfl

@[simp] theorem addLive_shards (d : Int) : (s.addLive d).shards = s.shards := rfl

@[simp] theorem addLive_live (d : Int) : (s.addLive d).live = s.live + d := rfl

@[simp] theorem addLive_sweepMu (d : Int) : (s.addLive d).sweepMu = s.sweepMu := rfl

end Store

namespace Params

variable (P : Params σ)

abbrev self (c : Call σ ρ) : Fin P.shardCount := P.shardFor c.key

inductive Step (tid : Tid) (choice : List Key) (s : Store P.shardCount σ) (c : Call σ ρ) :
    Pc P.shardCount ρ → Store P.shardCount σ → Pc P.shardCount ρ → Prop
  | lock (hFree : (s.shards (P.self c)).mu = none) :
      Step tid choice s c .lock (s.lock (P.self c) tid) .lookup
  | hit {sh} (hHit : (s.shards (P.self c)).hit P.ev c.key c.now = some sh) :
      Step tid choice s c .lookup (s.setShard (P.self c) (sh.cleanup P.opts choice c.now).1)
        (.expire (sh.cleanup P.opts choice c.now).2 .run)
  | miss (hMiss : (s.shards (P.self c)).hit P.ev c.key c.now = none) :
      Step tid choice s c .lookup
        (s.setShard (P.self c) ((s.shards (P.self c)).cleanup P.opts choice c.now).1)
        (.expire ((s.shards (P.self c)).cleanup P.opts choice c.now).2 .reserve)
  | expireDone {next} : Step tid choice s c (.expire [] next) s next.pc
  | expireDrop {v rest next} (hHas : (s.shards (next.shard (P.self c))).has P.ev v.key = true) :
      Step tid choice s c (.expire (v :: rest) next)
        (s.setShard (next.shard (P.self c)) ((s.shards (next.shard (P.self c))).drop P.ev v))
        (.expired rest next)
  | expireSkip {v rest next} (hHas : (s.shards (next.shard (P.self c))).has P.ev v.key = false) :
      Step tid choice s c (.expire (v :: rest) next) s (.expire rest next)
  | expireCount {rest next} :
      Step tid choice s c (.expired rest next) (s.addLive (-1)) (.expire rest next)
  | reserveUnlimited (hMax : P.opts.maxKeys ≤ 0) :
      Step tid choice s c .reserve (s.addLive 1) .recheck
  | reserveLimited (hMax : 0 < P.opts.maxKeys) : Step tid choice s c .reserve s (.load false)
  | loadRoom {swept} (hRoom : s.live < P.opts.maxKeys) :
      Step tid choice s c (.load swept) s (.cas s.live swept)
  | loadFull {swept} (hFull : P.opts.maxKeys ≤ s.live) :
      Step tid choice s c (.load swept) s (.full swept)
  | casWon {swept} : Step tid choice s c (.cas s.live swept) (s.addLive 1) .recheck
  | casLost {seen swept} (hLost : s.live ≠ seen) :
      Step tid choice s c (.cas seen swept) s (.load swept)
  | evictSelf {swept v} (hEv : P.ev = .evictLRU) (hTail : (s.shards (P.self c)).tail? = some v) :
      Step tid choice s c (.full swept)
        (s.setShard (P.self c) ((s.shards (P.self c)).drop P.ev v)) (.evicted (.self swept))
  | evictNone {swept} (hEv : P.ev = .evictLRU) (hTail : (s.shards (P.self c)).tail? = none) :
      Step tid choice s c (.full swept) (s.unlock (P.self c))
        (if swept then .reload else .sweepEnter)
  | reject (hEv : P.ev = .evictReject) :
      Step tid choice s c (.full true) s (.unlock .errMaxKeysExceeded)
  | release (hEv : P.ev = .evictReject) :
      Step tid choice s c (.full false) (s.unlock (P.self c)) .sweepEnter
  | evictCount {who} : Step tid choice s c (.evicted who) (s.addLive (-1)) (.counted who)
  | counted {who} :
      Step tid choice s c (.counted who) { s with evicts := s.evicts + 1 } who.pc
  | sweepSkip (hOff : P.opts.keyTTL ≤ 0 ∨ P.opts.cleanupInterval ≤ 0) :
      Step tid choice s c .sweepEnter s P.afterSweep
  | sweepEnter (hOn : 0 < P.opts.keyTTL ∧ 0 < P.opts.cleanupInterval) (hFree : s.sweepMu = none) :
      Step tid choice s c .sweepEnter { s with sweepMu := some tid } .sweepGate
  | sweepRecent (hRecent : sub c.now s.lastSweep < P.opts.cleanupInterval) :
      Step tid choice s c .sweepGate { s with sweepMu := none } P.afterSweep
  | sweepStart (hDue : P.opts.cleanupInterval ≤ sub c.now s.lastSweep) :
      Step tid choice s c .sweepGate { s with lastSweep := c.now } (.sweepLock 0)
  | sweepLock {i : Fin P.shardCount} (hFree : (s.shards i).mu = none) :
      Step tid choice s c (.sweepLock i) (s.lock i tid) (.sweepScan i)
  | sweepEnd {i : Nat} (hEnd : P.shardCount ≤ i) :
      Step tid choice s c (.sweepLock i) { s with sweepMu := none } P.afterSweep
  | sweepScan {i} : Step tid choice s c (.sweepScan i)
      (s.setShard i ((s.shards i).cleanup P.opts choice c.now).1)
      (.expire ((s.shards i).cleanup P.opts choice c.now).2 (.sweep i))
  | sweepUnlock {i} : Step tid choice s c (.sweepUnlock i) (s.unlock i) (.sweepLock (i + 1))
  | reloadFull (hFull : P.opts.maxKeys ≤ s.live) : Step tid choice s c .reload s (.evictOther 0)
  | reloadRoom (hRoom : s.live < P.opts.maxKeys) : Step tid choice s c .reload s .relock
  | otherSelf : Step tid choice s c (.evictOther (P.self c)) s (.evictOther (P.self c + 1))
  | otherLock {i : Fin P.shardCount} (hNe : i ≠ P.self c) (hFree : (s.shards i).mu = none) :
      Step tid choice s c (.evictOther i) (s.lock i tid) (.evictAt i)
  | otherEnd {i : Nat} (hEnd : P.shardCount ≤ i) : Step tid choice s c (.evictOther i) s .relock
  | otherEvict {i v} (hTail : (s.shards i).tail? = some v) :
      Step tid choice s c (.evictAt i) (s.setShard i ((s.shards i).drop .evictLRU v))
        (.evicted (.other i))
  | otherEmpty {i} (hTail : (s.shards i).tail? = none) :
      Step tid choice s c (.evictAt i) (s.unlock i) (.evictOther (i + 1))
  | otherUnlock {i} : Step tid choice s c (.evictUnlock i) (s.unlock i) .relock
  | relock (hFree : (s.shards (P.self c)).mu = none) :
      Step tid choice s c .relock (s.lock (P.self c) tid) (.load true)
  | recheckStored (hHas : (s.shards (P.self c)).has P.ev c.key = true) :
      Step tid choice s c .recheck s .giveBack
  | recheckCreate (hHas : (s.shards (P.self c)).has P.ev c.key = false) :
      Step tid choice s c .recheck (s.setShard (P.self c)
        ((s.shards (P.self c)).create P.ev c.key (P.create c.now) c.now)) .run
  | giveBack : Step tid choice s c .giveBack (s.addLive (-1)) .refresh
  | refresh {sh} (hHit : (s.shards (P.self c)).hit P.ev c.key c.now = some sh) :
      Step tid choice s c .refresh (s.setShard (P.self c) sh) .run
  | run {entry} (hPeek : (s.shards (P.self c)).peek P.ev c.key = some entry) :
      Step tid choice s c .run (s.setShard (P.self c)
        ((s.shards (P.self c)).write P.ev c.key (c.fn entry.1 c.now).1))
        (.unlock (.ok (c.fn entry.1 c.now).2))
  | unlock {outcome} : Step tid choice s c (.unlock outcome) (s.unlock (P.self c)) (.done outcome)

variable {P} {tid : Tid} {choice : List Key} {s s' : Store P.shardCount σ} {c : Call σ ρ}
  {pc pc' : Pc P.shardCount ρ}

theorem step_of_advance (h : P.advance tid choice s c pc = some (s', pc')) :
    P.Step tid choice s c pc s' pc' := by
  cases pc with
  | lock =>
    simp only [advance] at h
    split at h
    · cases h
      exact .lock ‹_›
    · cases h
  | lookup =>
    simp only [advance] at h
    split at h
    · cases h
      exact .hit ‹_›
    · cases h
      exact .miss ‹_›
  | expire todo next =>
    cases todo with
    | nil =>
      cases h
      exact .expireDone
    | cons v rest =>
      simp only [advance] at h
      split at h
      · cases h
        exact .expireDrop ‹_›
      · cases h
        exact .expireSkip (Bool.eq_false_iff.mpr ‹_›)
  | expired rest next =>
    cases h
    exact .expireCount
  | reserve =>
    simp only [advance] at h
    split at h
    · cases h
      exact .reserveUnlimited ‹_›
    · cases h
      exact .reserveLimited (by omega)
  | load swept =>
    simp only [advance] at h
    split at h
    · cases h
      exact .loadRoom ‹_›
    · cases h
      exact .loadFull (by omega)
  | cas seen swept =>
    simp only [advance] at h
    split at h
    · rename_i hSeen
      cases h
      subst hSeen
      exact .casWon
    · cases h
      exact .casLost ‹_›
  | full swept =>
    simp only [advance] at h
    split at h
    · rename_i hEv
      split at h
      · rename_i sh hEvict
        cases h
        obtain ⟨v, hTail, rfl⟩ := Shard.evictFrom_eq_some.mp hEvict
        rw [← hEv]
        exact .evictSelf hEv hTail
      · rename_i hEvict
        cases h
        exact .evictNone hEv (Shard.tail?_eq_none.mpr (Shard.evictFrom_eq_none.mp hEvict))
    · rename_i hEv
      split at h
      · rename_i hSwept
        cases h
        rw [hSwept]
        exact .reject hEv
      · rename_i hSwept
        cases h
        rw [Bool.eq_false_iff.mpr hSwept]
        exact .release hEv
  | evicted who =>
    cases h
    exact .evictCount
  | counted who =>
    cases h
    exact .counted
  | sweepEnter =>
    simp only [advance] at h
    split at h
    · cases h
      exact .sweepSkip ‹_›
    · split at h
      · cases h
        exact .sweepEnter (by omega) ‹_›
      · cases h
  | sweepGate =>
    simp only [advance] at h
    split at h
    · cases h
      exact .sweepRecent ‹_›
    · cases h
      exact .sweepStart (by omega)
  | sweepLock i =>
    simp only [advance] at h
    split at h
    · rename_i hi
      split at h
      · cases h
        exact .sweepLock (i := ⟨i, hi⟩) ‹_›
      · cases h
    · cases h
      exact .sweepEnd (by omega)
  | sweepScan i =>
    cases h
    exact .sweepScan
  | sweepUnlock i =>
    cases h
    exact .sweepUnlock
  | reload =>
    simp only [advance] at h
    split at h
    · cases h
      exact .reloadFull ‹_›
    · cases h
      exact .reloadRoom (by omega)
  | evictOther i =>
    simp only [advance] at h
    split at h
    · rename_i hi
      split at h
      · rename_i hSelf
        cases h
        obtain rfl : i = P.self c := congrArg Fin.val hSelf
        exact .otherSelf
      · rename_i hNe
        split at h
        · cases h
          exact .otherLock (i := ⟨i, hi⟩) hNe ‹_›
        · cases h
    · cases h
      exact .otherEnd (by omega)
  | evictAt i =>
    simp only [advance] at h
    split at h
    · rename_i sh hEvict
      cases h
      obtain ⟨v, hTail, rfl⟩ := Shard.evictFrom_eq_some.mp hEvict
      exact .otherEvict hTail
    · rename_i hEvict
      cases h
      exact .otherEmpty (Shard.tail?_eq_none.mpr (Shard.evictFrom_eq_none.mp hEvict))
  | evictUnlock i =>
    cases h
    exact .otherUnlock
  | relock =>
    simp only [advance] at h
    split at h
    · cases h
      exact .relock ‹_›
    · cases h
  | recheck =>
    simp only [advance] at h
    split at h
    · cases h
      exact .recheckStored ‹_›
    · cases h
      exact .recheckCreate (Bool.eq_false_iff.mpr ‹_›)
  | giveBack =>
    cases h
    exact .giveBack
  | refresh =>
    simp only [advance] at h
    split at h
    · cases h
      exact .refresh ‹_›
    · cases h
  | run =>
    simp only [advance] at h
    split at h
    · cases h
      exact .run ‹_›
    · cases h
  | unlock outcome =>
    cases h
    exact .unlock
  | done outcome => cases h

/-- The constructors are what `advance` does, no more. -/
theorem Step.advance (h : P.Step tid choice s c pc s' pc') :
    P.advance tid choice s c pc = some (s', pc') := by
  cases h with
  | hit h | miss h | refresh h | run h => simp only [Params.advance, h]
  | lock h | relock h => rw [Params.advance, if_pos h]
  | expireDrop h => rw [Params.advance, if_pos h]
  | expireSkip h | recheckCreate h => simp [Params.advance, h]
  | recheckStored h => rw [Params.advance, if_pos h]
  | reserveUnlimited h | loadRoom h | reloadFull h | sweepSkip h | sweepRecent h =>
    rw [Params.advance, if_pos h]
  | reserveLimited h | loadFull h | reloadRoom h | sweepStart h =>
    rw [Params.advance, if_neg (by omega)]
  | casWon => rw [Params.advance, if_pos rfl]; rfl
  | casLost h => rw [Params.advance, if_neg h]
  | evictSelf hEv hTail =>
    simp only [Params.advance, hEv, Shard.evictFrom_eq_some.mpr ⟨_, hTail, rfl⟩]
  | evictNone hEv hTail =>
    simp only [Params.advance, hEv, Shard.evictFrom_eq_none.mpr (Shard.tail?_eq_none.mp hTail)]
  | reject hEv | release hEv => simp [Params.advance, hEv]
  | sweepEnter hOn hFree => rw [Params.advance, if_neg (by omega), if_pos hFree]
  | sweepLock hFree => simp [Params.advance, hFree]
  | sweepEnd hEnd | otherEnd hEnd => rw [Params.advance, dif_neg (by omega)]
  | otherSelf => simp [Params.advance]
  | otherLock hNe hFree => simp [Params.advance, hNe, hFree]
  | otherEvict hTail => simp only [Params.advance, Shard.evictFrom_eq_some.mpr ⟨_, hTail, rfl⟩]
  | otherEmpty hTail =>
    simp only [Params.advance, Shard.evictFrom_eq_none.mpr (Shard.tail?_eq_none.mp hTail)]
  | _ => rfl

/-! ## The step relation of the pool -/

abbrev State (P : Params σ) (ρ : Type) : Type :=
  Config (Store P.shardCount σ) (Thread P.shardCount σ ρ) (Outcome ρ)

def pcOf (g : P.State ρ) (tid : Tid) : Option (Pc P.shardCount ρ) :=
  (g.threads[tid]?).map Thread.pc

def keyOf (g : P.State ρ) (tid : Tid) : Option Key :=
  (g.threads[tid]?).map fun t => t.call.key

def outcome? : Pc P.shardCount ρ → Option (Outcome ρ)
  | .done outcome => some outcome
  | _ => none

theorem step_of_program {t t' : Thread P.shardCount σ ρ}
    (h : P.program.step tid choice s t = some (s', t')) :
    ∃ pc', t' = ⟨t.call, pc'⟩ ∧ P.Step tid choice s t.call t.pc s' pc' := by
  obtain ⟨⟨_, pc'⟩, hAdvance, hEq⟩ := Option.map_eq_some_iff.mp h
  cases hEq
  exact ⟨pc', rfl, step_of_advance hAdvance⟩

theorem next_cases {g g' : P.State ρ} {a : Act (Call σ ρ) (List Key)}
    (hNext : P.program.next g a = some g') :
    (∃ call, a = .start call ∧ g' = ⟨g.shared, g.threads ++ [⟨call, .lock⟩],
      g.history ++ [.call g.threads.length]⟩) ∨
    (∃ tid choice t s' pc', a = .step tid choice ∧ g.threads[tid]? = some t ∧
      P.Step tid choice g.shared t.call t.pc s' pc' ∧
      g' = ⟨s', g.threads.set tid ⟨t.call, pc'⟩, g.history ++ returned tid (outcome? pc')⟩) := by
  rcases Program.next_cases hNext with ⟨call, ha, hg⟩ | ⟨tid, choice, t, s', t', ha, ht, hStep, hg⟩
  · exact .inl ⟨call, ha, hg⟩
  · obtain ⟨pc', rfl, hMove⟩ := step_of_program hStep
    refine .inr ⟨tid, choice, t, _, pc', ha, ht, hMove, ?_⟩
    rw [hg]
    cases pc' <;> rfl

theorem step_cases {g g' : P.State ρ} (hNext : P.program.next g (.step tid choice) = some g') :
    ∃ t s' pc', g.threads[tid]? = some t ∧ P.Step tid choice g.shared t.call t.pc s' pc' ∧
      g' = ⟨s', g.threads.set tid ⟨t.call, pc'⟩, g.history ++ returned tid (outcome? pc')⟩ ∧
      keyOf g tid = some t.call.key ∧ pcOf g tid = some t.pc ∧ pcOf g' tid = some pc' := by
  rcases next_cases hNext with ⟨call, hAct, _⟩ | ⟨u, _, t, s', pc', hAct, ht, hStep, hg⟩
  · cases hAct
  · cases hAct
    refine ⟨t, s', pc', ht, hStep, hg, by rw [keyOf, ht]; rfl, by rw [pcOf, ht]; rfl, ?_⟩
    rw [hg, pcOf, getElem?_set_moved ht]
    rfl

end Params

end Kaka.Memory
