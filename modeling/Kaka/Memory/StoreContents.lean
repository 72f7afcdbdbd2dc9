import Kaka.Memory.StoreLocks

/-! # What one step does to the contents of the store

Each shard is well formed and holds only its own keys; each call knows, at
its place, what its shard holds. Under both, a step keeps the contents,
creates the call's key, deletes one entry, or runs the callback.
-/

namespace Kaka.Memory

open Interleaving

variable {σ ρ : Type}

namespace Params

variable (P : Params σ)

/-- The keys of a shard. -/
abbrev keys (s : Store P.shardCount σ) (i : Fin P.shardCount) : List Key :=
  (s.shards i).keys P.ev

def Stored (s : Store P.shardCount σ) (key : Key) : Prop := key ∈ P.keys s (P.shardFor key)

instance (s : Store P.shardCount σ) (key : Key) : Decidable (P.Stored s key) :=
  inferInstanceAs (Decidable (key ∈ P.keys s (P.shardFor key)))

def value (s : Store P.shardCount σ) (key : Key) : Option σ :=
  ((s.shards (P.shardFor key)).peek P.ev key).map Prod.fst

/-- A key's state with the time of its last access. -/
def entry (s : Store P.shardCount σ) (key : Key) : Option (σ × Int) :=
  (s.shards (P.shardFor key)).peek P.ev key

structure Good (s : Store P.shardCount σ) : Prop where
  wf : ∀ i, (s.shards i).WF P.ev
  placed : ∀ i, ∀ key ∈ P.keys s i, P.shardFor key = i

/-- What a cleanup pass has still to delete. -/
structure Scanned (s : Store P.shardCount σ) (i : Fin P.shardCount) (todo : List Victim) : Prop where
  nodup : (todo.map Victim.key).Nodup
  stored : ∀ v ∈ todo, v.key ∈ P.keys s i
  holds : ∀ v ∈ todo, (s.shards i).Holds P.ev v

def AfterOk (s : Store P.shardCount σ) (c : Call σ ρ) (todo : List Victim) :
    After P.shardCount → Prop
  | .run => P.Stored s c.key ∧ ∀ v ∈ todo, v.key ≠ c.key
  | .reserve => ¬ P.Stored s c.key
  | .sweep _ => 0 < P.opts.maxKeys

def EvictorOk (s : Store P.shardCount σ) (c : Call σ ρ) : Evictor P.shardCount → Prop
  | .self swept => swept = false → ¬ P.Stored s c.key
  | .other i => i ≠ P.self c

/-- What a call knows at its place. The key looked up and not found stays
absent until the lock is given up for the first time. -/
def PcOk (s : Store P.shardCount σ) (c : Call σ ρ) : Pc P.shardCount ρ → Prop
  | .expire todo next | .expired todo next =>
    P.Scanned s (next.shard (P.self c)) todo ∧ P.AfterOk s c todo next
  | .reserve => ¬ P.Stored s c.key
  | .load swept | .full swept => 0 < P.opts.maxKeys ∧ (swept = false → ¬ P.Stored s c.key)
  | .cas seen swept =>
    0 < P.opts.maxKeys ∧ (swept = false → ¬ P.Stored s c.key) ∧ seen < P.opts.maxKeys
  | .evicted who | .counted who =>
    P.ev = .evictLRU ∧ 0 < P.opts.maxKeys ∧ P.EvictorOk s c who
  | .sweepEnter | .sweepGate | .sweepLock _ | .sweepScan _ | .sweepUnlock _ => 0 < P.opts.maxKeys
  | .relock => 0 < P.opts.maxKeys
  | .reload | .evictOther _ => P.ev = .evictLRU ∧ 0 < P.opts.maxKeys
  | .evictAt i | .evictUnlock i => P.ev = .evictLRU ∧ 0 < P.opts.maxKeys ∧ i ≠ P.self c
  | .giveBack | .refresh | .run => P.Stored s c.key
  | .lock | .lookup | .recheck | .unlock _ | .done _ => True

/-- Places with a slot reserved by `reserveSlot` and not yet turned into an
entry or given back. -/
def reserved {n : Nat} : Pc n ρ → Bool
  | .recheck | .giveBack => true
  | _ => false

/-- Places with an entry deleted and not yet subtracted from `live`. -/
def deleted {n : Nat} : Pc n ρ → Bool
  | .expired _ _ | .evicted _ => true
  | _ => false

def debt {n : Nat} (pc : Pc n ρ) : Int := (reserved pc).toNat + (deleted pc).toNat

/-- `live` moves with the debt of the call, so the two are stated together. -/
inductive Change (c : Call σ ρ) (s s' : Store P.shardCount σ) :
    Pc P.shardCount ρ → Pc P.shardCount ρ → Prop
  | keep {pc pc'} (hKeys : ∀ i, (P.keys s' i).Perm (P.keys s i))
      (hValue : ∀ key, P.value s' key = P.value s key)
      (hLive : s'.live - s.live = debt pc' - debt pc) : Change c s s' pc pc'
  | create (hNew : ¬ P.Stored s c.key)
      (hKeys : ∀ i, (P.keys s' i).Perm (if i = P.self c then c.key :: P.keys s i else P.keys s i))
      (hValue : ∀ key, P.value s' key =
        if key = c.key then some (P.create c.now) else P.value s key)
      (hLive : s'.live = s.live) : Change c s s' .recheck .run
  | drop {pc pc'} (i : Fin P.shardCount) (v : Victim) (hMem : v.key ∈ P.keys s i)
      (hKeys : ∀ j, (P.keys s j).Perm (if j = i then v.key :: P.keys s' j else P.keys s' j))
      (hValue : ∀ key, P.value s' key = if key = v.key then none else P.value s key)
      (hLive : s'.live = s.live) (hDebt : debt pc' = debt pc + 1)
      (hDeleted : deleted pc' = true) : Change c s s' pc pc'
  | run {v} (hOld : P.value s c.key = some v) (hKeys : ∀ i, (P.keys s' i).Perm (P.keys s i))
      (hValue : ∀ key, P.value s' key =
        if key = c.key then some (c.fn v c.now).1 else P.value s key)
      (hLive : s'.live = s.live) : Change c s s' .run (.unlock (.ok (c.fn v c.now).2))

variable {P} {tid : Tid} {choice : List Key} {s s' : Store P.shardCount σ} {c : Call σ ρ}
  {pc pc' : Pc P.shardCount ρ} {i : Fin P.shardCount} {sh : Shard σ}

/-! ## Replacing one shard -/

theorem Good.setShard (hGood : P.Good s) (hWF : sh.WF P.ev)
    (hKeys : ∀ key ∈ sh.keys P.ev, P.shardFor key = i) : P.Good (s.setShard i sh) := by
  refine ⟨?_, ?_⟩
  · intro j
    by_cases hEq : j = i
    · subst hEq
      rwa [Store.setShard_self]
    · rw [Store.setShard_ne _ _ hEq]
      exact hGood.wf j
  · intro j key hMem
    by_cases hEq : j = i
    · subst hEq
      rw [keys, Store.setShard_self] at hMem
      exact hKeys key hMem
    · rw [keys, Store.setShard_ne _ _ hEq] at hMem
      exact hGood.placed j key hMem

theorem Good.mutex (hGood : P.Good s) (m : Option Tid) :
    P.Good (s.setShard i { s.shards i with mu := m }) := by
  refine hGood.setShard (Shard.wf_mu m (hGood.wf i)) ?_
  intro key hMem
  rw [Shard.keys_mu] at hMem
  exact hGood.placed i key hMem

theorem Good.of_shards (hGood : P.Good s) (hShards : s'.shards = s.shards) : P.Good s' :=
  ⟨fun i => hShards ▸ hGood.wf i, fun i => by rw [keys, hShards]; exact hGood.placed i⟩

theorem stored_setShard (key : Key) :
    P.Stored (s.setShard (P.shardFor key) sh) key ↔ key ∈ sh.keys P.ev := by
  rw [Stored, keys, Store.setShard_self]

theorem Good.stored_iff (hGood : P.Good s) (key : Key) :
    P.Stored s key ↔ (P.value s key).isSome := by
  rw [Stored, value, Option.isSome_map, Shard.peek_isSome (hGood.wf _)]

/-! ## One step keeps the shards good -/

theorem Step.good (h : P.Step tid choice s c pc s' pc') (hGood : P.Good s) (hOk : P.PcOk s c pc) :
    P.Good s' := by
  -- keys only leave a shard, except for the key that is created in its own shard
  have hSub : ∀ {i} {sh : Shard σ}, (∀ key ∈ sh.keys P.ev, key ∈ P.keys s i) →
      ∀ key ∈ sh.keys P.ev, P.shardFor key = i :=
    fun hKeys key hMem => hGood.placed _ key (hKeys key hMem)
  cases h with
  | lock | relock | sweepLock | otherLock => exact hGood.mutex (some tid)
  | evictNone | release | unlock | sweepUnlock | otherEmpty | otherUnlock => exact hGood.mutex none
  | hit hHit =>
    obtain ⟨hWF, hKeys, _, _⟩ := Shard.hit_spec (hGood.wf _) hHit
    have hScan := Shard.cleanup_scan P.opts choice hWF c.now
    refine hGood.setShard (hScan.wf hWF) (hSub fun key hMem => ?_)
    rw [hScan.keys_eq] at hMem
    exact hKeys.mem_iff.mp hMem
  | miss | sweepScan =>
    have hScan := fun i => Shard.cleanup_scan P.opts choice (hGood.wf i) c.now
    refine hGood.setShard ((hScan _).wf (hGood.wf _)) (hSub fun key hMem => ?_)
    rwa [(hScan _).keys_eq] at hMem
  | expireDrop =>
    obtain ⟨hWF, hKeys, _⟩ := Shard.drop_spec (hGood.wf _) (hOk.1.stored _ List.mem_cons_self)
      (hOk.1.holds _ List.mem_cons_self)
    exact hGood.setShard hWF (hSub fun key hMem => hKeys.mem_iff.mp (List.mem_cons_of_mem _ hMem))
  | evictSelf hEv hTail =>
    obtain ⟨hMem, hHolds⟩ := Shard.tail?_spec hTail
    rw [← hEv] at hMem hHolds
    obtain ⟨hWF, hKeys, _⟩ := Shard.drop_spec (hGood.wf _) hMem hHolds
    exact hGood.setShard hWF (hSub fun key hMem => hKeys.mem_iff.mp (List.mem_cons_of_mem _ hMem))
  | otherEvict hTail =>
    obtain ⟨hMem, hHolds⟩ := Shard.tail?_spec hTail
    rw [← hOk.1] at hMem hHolds ⊢
    obtain ⟨hWF, hKeys, _⟩ := Shard.drop_spec (hGood.wf _) hMem hHolds
    exact hGood.setShard hWF (hSub fun key hMem => hKeys.mem_iff.mp (List.mem_cons_of_mem _ hMem))
  | recheckCreate hHas =>
    have hNew : c.key ∉ P.keys s (P.self c) := by
      rw [← Shard.has_iff (hGood.wf _), hHas]
      exact Bool.false_ne_true
    obtain ⟨hWF, hKeys, _⟩ := Shard.create_spec (hGood.wf _) hNew (P.create c.now) c.now
    refine hGood.setShard hWF fun key hMem => ?_
    rcases List.mem_cons.mp (hKeys.mem_iff.mp hMem) with rfl | hMem
    · rfl
    · exact hGood.placed _ key hMem
  | refresh hHit =>
    obtain ⟨hWF, hKeys, _, _⟩ := Shard.hit_spec (hGood.wf _) hHit
    exact hGood.setShard hWF (hSub fun key hMem => hKeys.mem_iff.mp hMem)
  | run =>
    obtain ⟨hWF, hKeys, _⟩ := Shard.write_spec (hGood.wf (P.self c)) c.key _
    exact hGood.setShard hWF (hSub fun key hMem => hKeys.mem_iff.mp hMem)
  | _ => exact hGood.of_shards rfl

/-! ## The change made by one step -/

theorem keys_setShard (j : Fin P.shardCount) :
    P.keys (s.setShard i sh) j = if j = i then sh.keys P.ev else P.keys s j := by
  split
  · rename_i hEq
    rw [hEq, keys, Store.setShard_self]
  · rename_i hNe
    rw [keys, Store.setShard_ne _ _ hNe]

theorem keys_setShard_perm (hKeys : (sh.keys P.ev).Perm (P.keys s i)) (j : Fin P.shardCount) :
    (P.keys (s.setShard i sh) j).Perm (P.keys s j) := by
  rw [keys_setShard]
  split
  · rename_i hEq
    exact hEq ▸ hKeys
  · exact .refl _

theorem value_eq_entry (key : Key) : P.value s key = (P.entry s key).map Prod.fst := rfl

theorem entry_setShard (key : Key) : P.entry (s.setShard i sh) key =
    if P.shardFor key = i then sh.peek P.ev key else P.entry s key := by
  split
  · rename_i hEq
    rw [entry, hEq, Store.setShard_self]
  · rename_i hNe
    rw [entry, Store.setShard_ne _ _ hNe, entry]

theorem value_setShard (key : Key) : P.value (s.setShard i sh) key =
    if P.shardFor key = i then (sh.peek P.ev key).map Prod.fst else P.value s key := by
  rw [value_eq_entry, entry_setShard]
  split <;> rfl

theorem entry_setShard_key {key : Key} {e : Option (σ × Int)}
    (hPeek : ∀ k, sh.peek P.ev k =
      if k = key then e else (s.shards (P.shardFor key)).peek P.ev k) (k : Key) :
    P.entry (s.setShard (P.shardFor key) sh) k = if k = key then e else P.entry s k := by
  rw [entry_setShard]
  split
  · rename_i hShard
    rw [hPeek, ← hShard]
    rfl
  · rename_i hNe
    rw [if_neg]
    rintro rfl
    exact hNe rfl

theorem entry_scan {out : Shard σ × List Victim} {now : Int} (hScan : Shard.Scan P.opts sh now out)
    (key : Key) : P.entry (s.setShard i out.1) key = P.entry (s.setShard i sh) key := by
  rw [entry_setShard, entry_setShard, hScan.peek_eq]

theorem entry_mutex (m : Option Tid) (key : Key) :
    P.entry (s.setShard i { s.shards i with mu := m }) key = P.entry s key := by
  rw [entry_setShard]
  split
  · rename_i hEq
    rw [Shard.peek_mu, entry, hEq]
  · rfl

theorem entry_hit (hGood : P.Good s) {key : Key} {now : Int}
    (hHit : (s.shards (P.shardFor key)).hit P.ev key now = some sh) (k : Key) :
    P.entry (s.setShard (P.shardFor key) sh) k =
      if k = key then (P.entry s key).map (fun e => (e.1, now)) else P.entry s k :=
  entry_setShard_key (Shard.hit_spec (hGood.wf _) hHit).2.2.2 k

theorem entry_create (hGood : P.Good s) {key : Key} (hNew : ¬ P.Stored s key) (v : σ) (now : Int)
    (k : Key) : P.entry (s.setShard (P.shardFor key)
      ((s.shards (P.shardFor key)).create P.ev key v now)) k =
      if k = key then some (v, now) else P.entry s k :=
  entry_setShard_key (Shard.create_spec (hGood.wf _) hNew v now).2.2 k

theorem entry_write (hGood : P.Good s) (key : Key) (v : σ) (k : Key) :
    P.entry (s.setShard (P.shardFor key) ((s.shards (P.shardFor key)).write P.ev key v)) k =
      if k = key then (P.entry s key).map (fun e => (v, e.2)) else P.entry s k :=
  entry_setShard_key (Shard.write_spec (hGood.wf _) key v).2.2 k

theorem entry_drop (hGood : P.Good s) {v : Victim} (hMem : v.key ∈ P.keys s i)
    (hHolds : (s.shards i).Holds P.ev v) (k : Key) :
    P.entry (s.setShard i ((s.shards i).drop P.ev v)) k =
      if k = v.key then none else P.entry s k := by
  obtain rfl := hGood.placed i v.key hMem
  exact entry_setShard_key (Shard.drop_spec (hGood.wf _) hMem hHolds).2.2 k

theorem value_create (hGood : P.Good s) {key : Key} (hNew : ¬ P.Stored s key) (v : σ) (now : Int)
    (k : Key) : P.value (s.setShard (P.shardFor key)
      ((s.shards (P.shardFor key)).create P.ev key v now)) k =
      if k = key then some v else P.value s k := by
  rw [value_eq_entry, entry_create hGood hNew]
  split <;> rfl

theorem value_write (hGood : P.Good s) {key : Key} {entry : σ × Int}
    (hEntry : (s.shards (P.shardFor key)).peek P.ev key = some entry) (v : σ) (k : Key) :
    P.value (s.setShard (P.shardFor key) ((s.shards (P.shardFor key)).write P.ev key v)) k =
      if k = key then some v else P.value s k := by
  rw [value_eq_entry, entry_write hGood, Params.entry, hEntry]
  split <;> rfl

theorem value_new (key : Key) : P.value (newShardedStoreWithShards P.shardCount σ) key = none := by
  unfold value
  cases P.ev <;> rfl

theorem Change.same (hShards : s'.shards = s.shards)
    (hLive : s'.live - s.live = debt pc' - debt pc) : P.Change c s s' pc pc' :=
  .keep (fun i => by rw [keys, hShards]) (fun key => by rw [value, hShards, value]) hLive

theorem Change.touch (hKeys : (sh.keys P.ev).Perm (P.keys s i))
    (hPeek : ∀ key, (sh.peek P.ev key).map Prod.fst = ((s.shards i).peek P.ev key).map Prod.fst)
    (hDebt : debt pc' = debt pc) : P.Change c s (s.setShard i sh) pc pc' := by
  refine .keep (keys_setShard_perm hKeys) (fun key => ?_) (by simp [hDebt])
  rw [value_setShard]
  split
  · rename_i hEq
    rw [hPeek, value, hEq]
  · rfl

theorem cleanup_nothing {sh : Shard σ} (choice : List Key) (hTTL : P.opts.keyTTL ≤ 0)
    (hWF : sh.WF P.ev) (now : Int) : (sh.cleanup P.opts choice now).2 = [] := by
  by_contra hSome
  have := (Shard.cleanup_scan P.opts choice hWF now).ttl hSome
  omega

/-- Only a deletion, a creation and the callback touch a state. -/
theorem Change.value_eq (h : P.Change c s s' pc pc') (hDeleted : deleted pc' = false)
    (hRecheck : pc = .recheck → pc' ≠ .run) (hRun : pc ≠ .run) (key : Key) :
    P.value s' key = P.value s key := by
  cases h with
  | keep _ hValue => exact hValue key
  | create => exact absurd rfl (hRecheck rfl)
  | drop _ _ _ _ _ _ _ hPc =>
    rw [hPc] at hDeleted
    cases hDeleted
  | run => exact absurd rfl hRun

theorem Change.evict (hGood : P.Good s) {v : Victim} (hMem : v.key ∈ P.keys s i)
    (hHolds : (s.shards i).Holds P.ev v) (hDebt : debt pc' = debt pc + 1)
    (hDeleted : deleted pc' = true) :
    P.Change c s (s.setShard i ((s.shards i).drop P.ev v)) pc pc' := by
  obtain ⟨_, hKeys, _⟩ := Shard.drop_spec (hGood.wf i) hMem hHolds
  have hValue : ∀ key, P.value (s.setShard i ((s.shards i).drop P.ev v)) key =
      if key = v.key then none else P.value s key := by
    intro key
    rw [value_eq_entry, entry_drop hGood hMem hHolds]
    split <;> rfl
  refine .drop i v hMem ?_ hValue rfl hDebt hDeleted
  intro j
  rw [keys_setShard]
  split
  · rename_i hEq
    exact hEq ▸ hKeys.symm
  · exact .refl _

theorem Step.change (h : P.Step tid choice s c pc s' pc') (hGood : P.Good s)
    (hOk : P.PcOk s c pc) : P.Change c s s' pc pc' := by
  cases h with
  | lock | relock | sweepLock | otherLock =>
    exact .touch (by rw [Shard.keys_mu]) (fun key => by rw [Shard.peek_mu]) rfl
  | release | unlock | sweepUnlock | otherEmpty | otherUnlock =>
    exact .touch (by rw [Shard.keys_mu]) (fun key => by rw [Shard.peek_mu]) rfl
  | @evictNone swept =>
    exact .touch (by rw [Shard.keys_mu]) (fun key => by rw [Shard.peek_mu]) (by cases swept <;> rfl)
  | hit hHit =>
    obtain ⟨hWF, hKeys, _, hPeek⟩ := Shard.hit_spec (hGood.wf _) hHit
    have hScan := Shard.cleanup_scan P.opts choice hWF c.now
    refine .touch (by rw [hScan.keys_eq]; exact hKeys) (fun key => ?_) rfl
    rw [hScan.peek_eq, hPeek]
    split
    · rename_i hEq
      rw [hEq, Option.map_map]
      rfl
    · rfl
  | miss | sweepScan =>
    have hScan := fun i => Shard.cleanup_scan P.opts choice (hGood.wf i) c.now
    exact .touch (by rw [(hScan _).keys_eq]) (fun key => by rw [(hScan _).peek_eq]) rfl
  | @expireDone next => exact .same rfl (by cases next <;> simp [debt, reserved, deleted, After.pc])
  | expireDrop =>
    exact .evict hGood (hOk.1.stored _ List.mem_cons_self) (hOk.1.holds _ List.mem_cons_self) rfl
      rfl
  | evictSelf hEv hTail =>
    obtain ⟨hMem, hHolds⟩ := Shard.tail?_spec hTail
    rw [← hEv] at hMem hHolds
    exact .evict hGood hMem hHolds rfl rfl
  | otherEvict hTail =>
    obtain ⟨hMem, hHolds⟩ := Shard.tail?_spec hTail
    rw [← hOk.1] at hMem hHolds ⊢
    exact .evict hGood hMem hHolds rfl rfl
  | recheckCreate hHas =>
    have hNew : c.key ∉ P.keys s (P.self c) := by
      rw [← Shard.has_iff (hGood.wf _), hHas]
      exact Bool.false_ne_true
    obtain ⟨_, hKeys, _⟩ := Shard.create_spec (hGood.wf _) hNew (P.create c.now) c.now
    refine .create hNew ?_ (value_create hGood hNew _ _) rfl
    intro i
    rw [keys_setShard]
    split
    · rename_i hEq
      exact hEq ▸ hKeys
    · exact .refl _
  | refresh hHit =>
    obtain ⟨_, hKeys, _, hPeek⟩ := Shard.hit_spec (hGood.wf _) hHit
    refine .touch hKeys (fun key => ?_) rfl
    rw [hPeek]
    split
    · rename_i hEq
      rw [hEq, Option.map_map]
      rfl
    · rfl
  | @run entry hEntry =>
    obtain ⟨_, hKeys, _⟩ := Shard.write_spec (hGood.wf (P.self c)) c.key (c.fn entry.1 c.now).1
    exact .run (by rw [value, hEntry, Option.map_some]) (keys_setShard_perm hKeys)
      (value_write hGood hEntry _) rfl
  | counted =>
    rename_i who
    exact .same rfl (by cases who <;> simp [debt, reserved, deleted, Evictor.pc])
  | sweepSkip | sweepRecent | sweepEnd =>
    exact .same rfl (by unfold afterSweep; split <;> simp [debt, reserved, deleted])
  | _ => exact .same rfl (by simp [debt, reserved, deleted])

end Params

end Kaka.Memory
