import Kaka.Memory.Rejection
import Kaka.Memory.Return

/-! # Expired keys and the cap

A full `EvictReject` store makes room for a new key where a pass that is due
finds an expired one: the pass of the call on its own shard, or one of its
sweep.  The two gates are apart: a sweep is spent even where it skips the
shard of the expired key.
-/

namespace Kaka.Memory

open Interleaving

variable {σ ρ : Type}

namespace Shard

variable {sh : Shard σ} {opts : Options} {choice : List Key} {now : Int}

/-- A pass is due, and a key has been idle for the TTL. -/
def Ripe (opts : Options) (sh : Shard σ) (now : Int) : Prop :=
  opts.cleanupInterval ≤ sub now sh.lastCleanup ∧
    ∃ key e, sh.peek opts.eviction key = some e ∧ opts.keyTTL ≤ sub now e.2

theorem ripe_mu (m : Option Tid) : Ripe opts { sh with mu := m } now ↔ sh.Ripe opts now := by
  simp only [Ripe, peek_mu]

theorem victims_ne_nil_iff (hEv : opts.eviction = .evictReject) (hTtl : 0 < opts.keyTTL)
    (hInterval : 0 < opts.cleanupInterval) (hBatch : (sh.keys opts.eviction).length ≤ cleanupBatchSize) :
    (sh.cleanup opts choice now).2 ≠ [] ↔ sh.Ripe opts now := by
  have hScan := cleanupMap_scan hEv choice sh now
  rw [hEv] at hBatch
  rw [cleanup, hEv]
  constructor
  · intro hSome
    obtain ⟨v, hv⟩ := List.exists_mem_of_ne_nil _ hSome
    obtain ⟨e, hPeek, hIdle⟩ := hScan.idle v hv
    refine ⟨not_lt.mp fun hRecent => hSome ?_, v.key, e, hPeek, hIdle⟩
    rw [cleanupMap, if_neg (by omega), if_pos hRecent]
  · rintro ⟨hDue, key, e, hPeek, hIdle⟩
    rw [hEv] at hPeek
    obtain ⟨entry, hLookup, rfl⟩ := Option.map_eq_some_iff.mp hPeek
    have hPerm : (rangeOrder choice sh.items.keys).Perm sh.items.keys :=
      rangeOrder_perm sh.items.keys_nodup
    have hKey : key ∈ rangeOrder choice sh.items.keys :=
      hPerm.mem_iff.mpr (AList.mem_keys.mpr (AList.lookup_isSome.mp (by rw [hLookup]; rfl)))
    rw [cleanupMap, if_neg (by omega), if_neg (by omega)]
    refine List.ne_nil_of_mem (a := ⟨key, 0⟩) (List.mem_filterMap.mpr ⟨key, ?_, ?_⟩)
    · rwa [List.take_of_length_le (hPerm.length_eq.trans_le hBatch)]
    · simp [hLookup, hIdle]

theorem not_ripe_cleanup (hTtl : 0 < opts.keyTTL) (hInterval : 0 < opts.cleanupInterval) :
    ¬ Ripe opts (sh.cleanup opts choice now).1 now := by
  rintro ⟨hDue, _⟩
  rcases lastCleanup_cleanup opts choice sh now with hNow | ⟨hSame, hSkip⟩
  · rw [hNow, sub_self] at hDue
    omega
  · rw [hSame] at hDue
    omega

end Shard

namespace Params

section Admission

variable (P : Params σ) (s : Store P.shardCount σ)

def Ripe (now : Int) (i : Fin P.shardCount) : Prop := (s.shards i).Ripe P.opts now

def SweepFinds (now : Int) : Prop :=
  P.opts.cleanupInterval ≤ sub now s.lastSweep ∧ ∃ j, P.Ripe s now j

/-- Exactly when a lone call, at its place, will be admitted. -/
def Admits (c : Call σ ρ) : Pc P.shardCount ρ → Prop
  | .lock | .lookup => P.Stored s c.key ∨ s.live < P.opts.maxKeys ∨
      ∃ j, P.Ripe s c.now j ∧ (j = P.self c ∨ P.opts.cleanupInterval ≤ sub c.now s.lastSweep)
  | .expire todo .reserve => s.live < P.opts.maxKeys ∨ todo ≠ [] ∨ P.SweepFinds s c.now
  | .expire todo (.sweep i) =>
    s.live < P.opts.maxKeys ∨ todo ≠ [] ∨ ∃ j, i.val < j.val ∧ P.Ripe s c.now j
  | .reserve | .load false | .full false | .sweepEnter | .sweepGate =>
    s.live < P.opts.maxKeys ∨ P.SweepFinds s c.now
  | .sweepLock i => s.live < P.opts.maxKeys ∨ ∃ j, i ≤ j.val ∧ P.Ripe s c.now j
  | .sweepScan i => s.live < P.opts.maxKeys ∨ ∃ j, i.val ≤ j.val ∧ P.Ripe s c.now j
  | .sweepUnlock i => s.live < P.opts.maxKeys ∨ ∃ j, i.val < j.val ∧ P.Ripe s c.now j
  | .load true | .full true | .relock => s.live < P.opts.maxKeys
  | .unlock outcome | .done outcome => outcome ≠ .errMaxKeysExceeded
  | _ => True

/-- Until the call creates its key, every shard is scanned as a whole. -/
def Batched : Pc P.shardCount ρ → Prop
  | .run | .unlock _ | .done _ => True
  | _ => ∀ i, (P.keys s i).length ≤ cleanupBatchSize

end Admission

variable {P : Params σ} {tid : Tid} {choice : List Key} {s s' t : Store P.shardCount σ}
  {c : Call σ ρ} {pc pc' : Pc P.shardCount ρ} {i j : Fin P.shardCount} {now : Int}

/-! ## One step -/

theorem ripe_mutex (m : Option Tid) (j : Fin P.shardCount) :
    P.Ripe (s.setShard i { s.shards i with mu := m }) now j ↔ P.Ripe s now j := by
  rcases eq_or_ne j i with rfl | hNe
  · rw [Ripe, Store.setShard_self, Shard.ripe_mu, Ripe]
  · rw [Ripe, Store.setShard_ne _ _ hNe, Ripe]

theorem ripe_scan (hTtl : 0 < P.opts.keyTTL) (hInterval : 0 < P.opts.cleanupInterval)
    (j : Fin P.shardCount) :
    P.Ripe (s.setShard i ((s.shards i).cleanup P.opts choice now).1) now j ↔
      j ≠ i ∧ P.Ripe s now j := by
  rcases eq_or_ne j i with rfl | hNe
  · rw [Ripe, Store.setShard_self]
    exact iff_of_false (Shard.not_ripe_cleanup hTtl hInterval) fun h => h.1 rfl
  · rw [Ripe, Store.setShard_ne _ _ hNe, and_iff_right hNe, Ripe]

theorem sweepFinds_mutex (m : Option Tid) :
    P.SweepFinds (s.setShard i { s.shards i with mu := m }) now ↔ P.SweepFinds s now := by
  simp only [SweepFinds, ripe_mutex]
  rfl

theorem Change.length_le (h : P.Change c s s' pc pc') (hPc : pc' ≠ .run) (i : Fin P.shardCount) :
    (P.keys s' i).length ≤ (P.keys s i).length := by
  cases h with
  | keep hKeys => exact (hKeys i).length_eq.le
  | create => exact absurd rfl hPc
  | drop j v _ hKeys =>
    have hPerm := (hKeys i).length_eq
    split at hPerm
    · rw [hPerm, List.length_cons]
      exact Nat.le_succ _
    · exact hPerm.ge
  | run _ hKeys => exact (hKeys i).length_eq.le

theorem Step.batched (h : P.Step tid choice s c pc s' pc') (hSolo : P.Solo s c pc)
    (hBatched : P.Batched s pc) : P.Batched s' pc' := by
  have hChange := h.change hSolo.good hSolo.ok
  have hFewer : pc' ≠ .run → (∀ i, (P.keys s i).length ≤ cleanupBatchSize) →
      ∀ i, (P.keys s' i).length ≤ cleanupBatchSize :=
    fun hPc hBefore i => (hChange.length_le hPc i).trans (hBefore i)
  cases h with
  | run | unlock | recheckCreate | refresh | reject => trivial
  | @expireDone next =>
    cases next with
    | run => trivial
    | reserve | sweep => exact hBatched
  | @counted who =>
    cases who with
    | self | other => exact hBatched
  | @evictNone swept =>
    cases swept with
    | false | true => exact hFewer nofun hBatched
  | sweepSkip | sweepRecent | sweepEnd =>
    unfold afterSweep at hFewer ⊢
    split <;> exact hBatched
  | _ => exact hFewer nofun hBatched

section OneStep

variable (hEv : P.ev = .evictReject) (hMax : 0 < P.opts.maxKeys) (hTtl : 0 < P.opts.keyTTL)
  (hInterval : 0 < P.opts.cleanupInterval)

include hEv hTtl hInterval in
theorem admits_miss (hBatch : ∀ i, (P.keys s i).length ≤ cleanupBatchSize)
    (hNew : ¬ P.Stored s c.key) :
    P.Admits (s.setShard (P.self c) ((s.shards (P.self c)).cleanup P.opts choice c.now).1) c
        (.expire ((s.shards (P.self c)).cleanup P.opts choice c.now).2 .reserve) ↔
      P.Admits s c .lookup := by
  have hVictims : ((s.shards (P.self c)).cleanup P.opts choice c.now).2 ≠ [] ↔ P.Ripe s c.now (P.self c) :=
    Shard.victims_ne_nil_iff hEv hTtl hInterval (hBatch _)
  simp only [Admits, SweepFinds, ripe_scan hTtl hInterval, hVictims, or_iff_right hNew]
  refine or_congr_right ⟨?_, ?_⟩
  · rintro (hOwn | ⟨hSweep, j, -, hRipe⟩)
    · exact ⟨_, hOwn, .inl rfl⟩
    · exact ⟨j, hRipe, .inr hSweep⟩
  · rintro ⟨j, hRipe, hGate⟩
    rcases eq_or_ne j (P.self c) with rfl | hNe
    · exact .inl hRipe
    · exact .inr ⟨hGate.resolve_left hNe, j, hNe, hRipe⟩

include hEv hTtl hInterval in
theorem admits_sweepScan (hBatch : ∀ i, (P.keys s i).length ≤ cleanupBatchSize) :
    P.Admits (s.setShard i ((s.shards i).cleanup P.opts choice c.now).1) c
        (.expire ((s.shards i).cleanup P.opts choice c.now).2 (.sweep i)) ↔
      P.Admits s c (.sweepScan i) := by
  have hVictims : ((s.shards i).cleanup P.opts choice c.now).2 ≠ [] ↔ P.Ripe s c.now i :=
    Shard.victims_ne_nil_iff hEv hTtl hInterval (hBatch _)
  simp only [Admits, ripe_scan hTtl hInterval, hVictims]
  refine or_congr_right ⟨?_, ?_⟩
  · rintro (hOwn | ⟨j, hLater, -, hRipe⟩)
    · exact ⟨i, le_rfl, hOwn⟩
    · exact ⟨j, hLater.le, hRipe⟩
  · rintro ⟨j, hLater, hRipe⟩
    rcases eq_or_ne j i with rfl | hNe
    · exact .inl hRipe
    · exact .inr ⟨j, by omega, hNe, hRipe⟩

include hEv hMax hTtl hInterval in
theorem Step.admits (h : P.Step tid choice s c pc s' pc') (hSolo : P.Solo s c pc)
    (hKnows : P.Knows s c pc) (hBatched : P.Batched s pc) : P.Admits s' c pc' ↔ P.Admits s c pc := by
  have hReject : P.ev ≠ .evictLRU := by
    rw [hEv]
    intro hLru
    cases hLru
  cases h with
  | lock =>
    have hStored : P.Stored (s.lock (P.self c) tid) c.key ↔ P.Stored s c.key :=
      iff_of_eq (congrArg (c.key ∈ ·) (keys_mutex _ _ _))
    exact or_congr hStored (or_congr_right (exists_congr fun j =>
      and_congr_left' (ripe_mutex (some tid) j)))
  | hit hHit => exact iff_of_true trivial (.inl (Shard.hit_spec (hSolo.good.wf _) hHit).2.2.1)
  | miss hMiss =>
    have hNew : ¬ P.Stored s c.key := (Shard.hit_eq_none (hSolo.good.wf _) c.key c.now).mp hMiss
    exact admits_miss hEv hTtl hInterval hBatched hNew
  | sweepScan => exact admits_sweepScan hEv hTtl hInterval hBatched
  | @expireDone next =>
    cases next with
    | run => exact Iff.rfl
    | reserve | sweep => simp [Admits, After.pc]
  -- one entry removed is room enough, whatever the rest of the pass does
  | @expireDrop v rest next => cases next <;> simp [Admits]
  | @expireSkip v rest next hHas =>
    have hMem := hSolo.ok.1.stored v List.mem_cons_self
    rw [(Shard.has_iff (hSolo.good.wf _) v.key).mpr hMem] at hHas
    cases hHas
  | @expireCount rest next =>
    have hRoom : s.live + -1 < P.opts.maxKeys := by
      have := hSolo.cap hMax
      omega
    cases next with
    | run => exact Iff.rfl
    | reserve | sweep => exact iff_of_true (.inl hRoom) trivial
  | reserveUnlimited hNone => omega
  | reserveLimited => exact Iff.rfl
  | @loadRoom swept hRoom =>
    cases swept with
    | false => exact iff_of_true trivial (.inl hRoom)
    | true => exact iff_of_true trivial hRoom
  | @loadFull swept =>
    cases swept with
    | false | true => exact Iff.rfl
  | casLost hLost => exact absurd hKnows hLost
  | evictSelf hLru | evictNone hLru => exact absurd hLru hReject
  | reject => exact iff_of_false (fun h => h rfl) (not_lt.mpr hKnows.1)
  | release => exact or_congr_right (sweepFinds_mutex none)
  | evictCount | counted => exact absurd hSolo.ok.1 hReject
  | sweepSkip hOff => omega
  | sweepEnter => exact Iff.rfl
  | sweepRecent hRecent =>
    -- no shard is looked at, also none that is due
    rw [afterSweep, hEv]
    exact (or_iff_left fun hFinds => not_le.mpr hRecent hFinds.1).symm
  | sweepStart hDue =>
    refine or_congr_right ⟨?_, ?_⟩
    · rintro ⟨j, -, hRipe⟩
      exact ⟨hDue, j, hRipe⟩
    · rintro ⟨-, j, hRipe⟩
      exact ⟨j, Nat.zero_le _, hRipe⟩
  | sweepLock =>
    exact or_congr_right (exists_congr fun j => and_congr_right' (ripe_mutex (some tid) j))
  | sweepEnd hEnd =>
    -- no shard is left to sweep
    rw [afterSweep, hEv]
    refine (or_iff_left ?_).symm
    rintro ⟨j, hLater, -⟩
    omega
  | sweepUnlock =>
    exact or_congr_right (exists_congr fun j => and_congr Nat.succ_le_iff (ripe_mutex none j))
  | reloadFull | reloadRoom | otherSelf | otherLock | otherEnd | otherEvict | otherEmpty | otherUnlock =>
    exact absurd hSolo.ok.1 hReject
  | relock => exact Iff.rfl
  | run =>
    refine iff_of_true (fun hErr => ?_) trivial
    cases hErr
  | _ => exact Iff.rfl

end OneStep

/-! ## Whole calls -/

variable {history : List (Call σ ρ × Outcome ρ)}

theorem Serial.admits_iff (h : P.Serial history s) (hEv : P.ev = .evictReject)
    (hMax : 0 < P.opts.maxKeys) (hTtl : 0 < P.opts.keyTTL) (hInterval : 0 < P.opts.cleanupInterval)
    (hBatch : ∀ i, (P.keys s i).length ≤ cleanupBatchSize) {outcome : Outcome ρ}
    (hReturns : P.Returns history.length c s s' outcome) :
    outcome ≠ .errMaxKeysExceeded ↔ P.Admits s c .lock := by
  refine (h.invariant (I := fun t pc => P.Batched t pc ∧ (P.Admits t c pc ↔ P.Admits s c .lock))
    ?_ .refl hReturns ⟨hBatch, Iff.rfl⟩).2
  -- nothing is decided on the way: the condition at each place is the one at the start
  rintro choice t pc t' pc' hSolo hKnows ⟨hBatched, hSame⟩ hStep
  exact ⟨hStep.batched hSolo hBatched,
    (hStep.admits hEv hMax hTtl hInterval hSolo hKnows hBatched).trans hSame⟩

/-- A call for a new key returns, and is refused if and only if the store is
full and no pass that is due, its own or one of its sweep, finds an expired key. -/
theorem expired_makes_room_iff (P : Params σ) (hEv : P.ev = .evictReject) (hMax : 0 < P.opts.maxKeys)
    (hTtl : 0 < P.opts.keyTTL) (hInterval : 0 < P.opts.cleanupInterval)
    (history : List (Call σ ρ × Outcome ρ)) (s : Store P.shardCount σ) (h : P.Serial history s)
    (hBatch : ∀ i, (P.keys s i).length ≤ cleanupBatchSize) (c : Call σ ρ)
    (hNew : ¬ P.Stored s c.key) :
    Inevitable (P.Moves history.length c) (fun x => ∃ outcome, x.2 = .done outcome) (s, .lock) ∧
      ∀ s' outcome, P.Returns history.length c s s' outcome →
        (outcome ≠ .errMaxKeysExceeded ↔ (P.total s : Int) < P.opts.maxKeys ∨
          ∃ i, P.Ripe s c.now i ∧ (i = P.self c ∨ P.opts.cleanupInterval ≤ sub c.now s.lastSweep)) := by
  refine ⟨h.inevitable c, fun s' outcome hReturns => ?_⟩
  have hLive : s.live = P.total s := by
    have hSolo : P.Solo s c .lock := h.solo_lock c
    rw [hSolo.count]
    exact add_zero _
  rw [h.admits_iff hEv hMax hTtl hInterval hBatch hReturns, Admits, or_iff_right hNew, hLive]

/-! ## A sweep that is spent -/

/-- The call `c` run for `n` steps, or to its end. -/
def runAlone (P : Params σ) (tid : Tid) (c : Call σ ρ) :
    Nat → Store P.shardCount σ × Pc P.shardCount ρ → Store P.shardCount σ × Pc P.shardCount ρ
  | 0, x => x
  | n + 1, x =>
    match P.advance tid [] x.1 c x.2 with
    | none => x
    | some y => runAlone P tid c n y

theorem alone_runAlone (n : Nat) (x : Store P.shardCount σ × Pc P.shardCount ρ) :
    P.Alone tid c x (P.runAlone tid c n x) := by
  induction n generalizing x with
  | zero => exact .refl
  | succ n ih =>
    rw [runAlone]
    split
    · exact .refl
    · rename_i y hAdvance
      exact Relation.ReflTransGen.head ⟨[], hAdvance⟩ (ih y)

def play (P : Params σ) (n : Nat) : List (Call σ ρ) →
    List (Call σ ρ × Outcome ρ) × Store P.shardCount σ →
    Option (List (Call σ ρ × Outcome ρ) × Store P.shardCount σ)
  | [], x => some x
  | c :: rest, x =>
    match P.runAlone x.1.length c n (x.2, .lock) with
    | (s, .done outcome) => play P n rest (x.1 ++ [(c, outcome)], s)
    | _ => none

theorem Serial.play {n : Nat} {calls : List (Call σ ρ)} {x y : List (Call σ ρ × Outcome ρ) ×
    Store P.shardCount σ} (h : P.Serial x.1 x.2) (hPlay : P.play n calls x = some y) :
    P.Serial y.1 y.2 ∧ y.1.map Prod.fst = x.1.map Prod.fst ++ calls := by
  induction calls generalizing x with
  | nil =>
    cases hPlay
    exact ⟨h, (List.append_nil _).symm⟩
  | cons c rest ih =>
    rw [Params.play] at hPlay
    split at hPlay
    · rename_i s outcome hRun
      have hReturns : P.Alone x.1.length c (x.2, .lock) (P.runAlone x.1.length c n (x.2, .lock)) :=
        alone_runAlone n _
      rw [hRun] at hReturns
      obtain ⟨hSerial, hCalls⟩ := ih (.snoc h hReturns) hPlay
      refine ⟨hSerial, ?_⟩
      rw [hCalls, List.map_append, List.append_assoc]
      rfl
    · cases hPlay

theorem Serial.keys_le (h : P.Serial history s) (hMax : 0 < P.opts.maxKeys) (c : Call σ ρ)
    (i : Fin P.shardCount) : ((P.keys s i).length : Int) ≤ P.opts.maxKeys := by
  have hSolo : P.Solo s c .lock := h.solo_lock c
  have hShard : (P.keys s i).length ≤ P.total s :=
    (Nat.le_add_right _ _).trans_eq
      (Finset.add_sum_erase _ (fun j => (P.keys s j).length) (Finset.mem_univ i))
  have hCount : s.live = P.total s + 0 := hSolo.count
  have hCap := hSolo.cap hMax
  omega

theorem pair_keys_le {history : List (Call Nat Nat × Outcome Nat)} {s : Store pair.shardCount Nat}
    (h : pair.Serial history s) (i : Fin pair.shardCount) :
    (pair.keys s i).length ≤ cleanupBatchSize := by
  have hTwo : ((pair.keys s i).length : Int) ≤ 2 := h.keys_le (by decide) (demoCall 0 0) i
  have hBatch : cleanupBatchSize = 100 := rfl
  omega

def fillCalls : List (Call Nat Nat) := [demoCall 97 1000, demoCall 99 1009]

def filled : Option (List (Call Nat Nat × Outcome Nat) × Store pair.shardCount Nat) :=
  pair.play 40 fillCalls ([], newShardedStoreWithShards _ _)

/-- A call for `b`, of the other shard, at 1015 sweeps the first shard, where
`a` has been idle for 15. -/
theorem expired_makes_room_filled : ∃ history : List (Call Nat Nat × Outcome Nat), ∃ s,
    pair.Serial history s ∧ history.map Prod.fst = fillCalls ∧ pair.total s = 2 ∧
    ∀ s' outcome, pair.Returns history.length (demoCall 98 1015) s s' outcome →
      outcome ≠ .errMaxKeysExceeded := by
  have hSome : filled.isSome = true := by decide +kernel
  have hEnd : ∀ x ∈ filled, pair.total x.2 = 2 ∧ ¬ pair.Stored x.2 [98] ∧
      5 ≤ sub 1015 x.2.lastSweep ∧ 5 ≤ sub 1015 (x.2.shards (pair.shardFor [97])).lastCleanup ∧
      pair.entry x.2 [97] = some (1, 1000) := by decide +kernel
  obtain ⟨⟨history, s⟩, hFilled⟩ := Option.isSome_iff_exists.mp hSome
  obtain ⟨hSerial, hCalls⟩ := Serial.nil.play hFilled
  obtain ⟨hTotal, hNew, hSweep, hPass, hEntry⟩ := hEnd _ hFilled
  refine ⟨history, s, hSerial, hCalls, hTotal, fun s' outcome hReturns => ?_⟩
  have hIff := expired_makes_room_iff pair rfl (by decide) (by decide) (by decide) history s hSerial
    (pair_keys_le hSerial) (demoCall 98 1015) hNew
  exact (hIff.2 s' outcome hReturns).mpr
    (.inr ⟨pair.shardFor [97], ⟨hPass, [97], (1, 1000), hEntry, by decide⟩, .inr hSweep⟩)

/-- At 1013 a call for `b` is refused: its sweep skips the first shard, cleaned
at 1009, and no sweep is due before 1018. -/
def spentCalls : List (Call Nat Nat) := fillCalls ++ [demoCall 98 1013]

def spent : Option (List (Call Nat Nat × Outcome Nat) × Store pair.shardCount Nat) :=
  pair.play 40 spentCalls ([], newShardedStoreWithShards _ _)

/-- At 1015 `a` has been idle for the TTL and the interval, and `b` is refused again. -/
theorem expired_key_blocks : ∃ history : List (Call Nat Nat × Outcome Nat), ∃ s s',
    pair.Serial history s ∧ history.map Prod.fst = spentCalls ∧
    (spentCalls.map Call.now ++ [1015]).Pairwise (· ≤ ·) ∧
    (∀ history' : List (Call Nat Nat × Outcome Nat), ∀ t, pair.Serial history' t →
      ∀ i, (pair.keys t i).length ≤ cleanupBatchSize) ∧
    (∃ e, pair.entry s [97] = some e ∧
      pair.opts.keyTTL + pair.opts.cleanupInterval ≤ sub 1015 e.2) ∧
    ¬ pair.Stored s [98] ∧
    pair.Returns history.length (demoCall 98 1015) s s' .errMaxKeysExceeded := by
  have hSome : spent.isSome = true := by decide +kernel
  have hEnd : ∀ x ∈ spent, pair.entry x.2 [97] = some (1, 1000) ∧ ¬ pair.Stored x.2 [98] ∧
      (pair.runAlone x.1.length (demoCall 98 1015) 40 (x.2, .lock)).2 = .done .errMaxKeysExceeded := by
    decide +kernel
  obtain ⟨⟨history, s⟩, hSpent⟩ := Option.isSome_iff_exists.mp hSome
  obtain ⟨hSerial, hCalls⟩ := Serial.nil.play hSpent
  obtain ⟨hEntry, hNew, hRefused⟩ := hEnd _ hSpent
  have hReturns : pair.Alone history.length (demoCall 98 1015) (s, .lock)
      (pair.runAlone history.length (demoCall 98 1015) 40 (s, .lock)) := alone_runAlone 40 _
  rw [← Prod.mk.eta (p := pair.runAlone history.length (demoCall 98 1015) 40 (s, .lock)), hRefused]
    at hReturns
  exact ⟨history, s, _, hSerial, hCalls, by decide, fun _ _ h => pair_keys_le h,
    ⟨(1, 1000), hEntry, by decide⟩, hNew, hReturns⟩

end Params

end Kaka.Memory
