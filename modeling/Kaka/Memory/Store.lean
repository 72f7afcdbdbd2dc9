import Kaka.Memory.ShardCleanup
import Mathlib.Logic.Function.Basic

/-! # The sharded store as an interleaving of `withState` calls

A call moves through the places of `withState`, `getOrCreateMap`,
`getOrCreateLRU`, `reserveSlot`, `sweepExpired`, `evictAnyOther` and
`evictFrom`. One step is a lock operation, an atomic operation on `live` or
`evicts`, or a stretch of code run under one shard lock. A step that waits
for a mutex is not enabled while another call holds it.
-/

namespace Kaka.Memory

open Interleaving

/-- The callback receives the key's state and leaves it changed. -/
structure Call (σ ρ : Type) where
  key : Key
  now : Int
  fn : σ → Int → σ × ρ

inductive Outcome (ρ : Type) where
  | ok (result : ρ)
  | errMaxKeysExceeded
  deriving DecidableEq

structure Store (n : Nat) (σ : Type) where
  shards : Fin n → Shard σ
  live : Int
  sweepMu : Option Tid
  lastSweep : Int
  evicts : Int

/-- What follows a cleanup pass: the callback after a hit, the
reservation after a miss, or the rest of the global sweep. -/
inductive After (n : Nat) where
  | run
  | reserve
  | sweep (i : Fin n)
  deriving DecidableEq

/-- Who called `evictFrom`: `reserveSlot` on its own shard, or `evictAnyOther`. -/
inductive Evictor (n : Nat) where
  | self (swept : Bool)
  | other (i : Fin n)
  deriving DecidableEq

inductive Pc (n : Nat) (ρ : Type) where
  | lock
  | lookup
  | expire (todo : List Victim) (next : After n)
  | expired (todo : List Victim) (next : After n)
  | reserve
  | load (swept : Bool)
  | cas (seen : Int) (swept : Bool)
  | full (swept : Bool)
  | evicted (who : Evictor n)
  | counted (who : Evictor n)
  | sweepEnter
  | sweepGate
  | sweepLock (i : Nat)
  | sweepScan (i : Fin n)
  | sweepUnlock (i : Fin n)
  | reload
  | evictOther (i : Nat)
  | evictAt (i : Fin n)
  | evictUnlock (i : Fin n)
  | relock
  | recheck
  | giveBack
  | refresh
  | run
  | unlock (outcome : Outcome ρ)
  | done (outcome : Outcome ρ)
  deriving DecidableEq

structure Thread (n : Nat) (σ ρ : Type) where
  call : Call σ ρ
  pc : Pc n ρ

variable {n : Nat} {σ ρ : Type}

namespace Store

def setShard (s : Store n σ) (i : Fin n) (sh : Shard σ) : Store n σ :=
  { s with shards := Function.update s.shards i sh }

def lock (s : Store n σ) (i : Fin n) (tid : Tid) : Store n σ :=
  s.setShard i { s.shards i with mu := some tid }

def unlock (s : Store n σ) (i : Fin n) : Store n σ :=
  s.setShard i { s.shards i with mu := none }

def addLive (s : Store n σ) (d : Int) : Store n σ := { s with live := s.live + d }

end Store

def newShardedStoreWithShards (n : Nat) (σ : Type) : Store n σ where
  shards _ := .new
  live := 0
  sweepMu := none
  lastSweep := 0
  evicts := 0

def After.pc : After n → Pc n ρ
  | .run => .run
  | .reserve => .reserve
  | .sweep i => .sweepUnlock i

def Evictor.pc : Evictor n → Pc n ρ
  | .self swept => .load swept
  | .other i => .evictUnlock i

def After.shard (self : Fin n) : After n → Fin n
  | .sweep i => i
  | _ => self

def Evictor.shard (self : Fin n) : Evictor n → Fin n
  | .self _ => self
  | .other i => i

namespace Params

variable (P : Params σ)

abbrev ev : EvictionPolicy := P.opts.eviction

/-- `reserveSlot` after its call of `sweepExpired`. -/
def afterSweep : Pc n ρ :=
  match P.ev with
  | .evictReject => .relock
  | .evictLRU => .reload

/-- One step of the call `c` run by thread `tid`. `choice` is the order in
which the runtime ranges over a map. -/
def advance (tid : Tid) (choice : List Key) (s : Store P.shardCount σ) (c : Call σ ρ) :
    Pc P.shardCount ρ → Option (Store P.shardCount σ × Pc P.shardCount ρ)
  | .lock =>
    if (s.shards (P.shardFor c.key)).mu = none then
      some (s.lock (P.shardFor c.key) tid, .lookup)
    else none
  | .lookup =>
    match (s.shards (P.shardFor c.key)).hit P.ev c.key c.now with
    | some sh =>
      let out := sh.cleanup P.opts choice c.now
      some (s.setShard (P.shardFor c.key) out.1, .expire out.2 .run)
    | none =>
      let out := (s.shards (P.shardFor c.key)).cleanup P.opts choice c.now
      some (s.setShard (P.shardFor c.key) out.1, .expire out.2 .reserve)
  | .expire [] next => some (s, next.pc)
  | .expire (v :: rest) next =>
    if (s.shards (next.shard (P.shardFor c.key))).has P.ev v.key then
      some (s.setShard (next.shard (P.shardFor c.key))
        ((s.shards (next.shard (P.shardFor c.key))).drop P.ev v), .expired rest next)
    else some (s, .expire rest next)
  | .expired rest next => some (s.addLive (-1), .expire rest next)
  | .reserve =>
    if P.opts.maxKeys ≤ 0 then some (s.addLive 1, .recheck) else some (s, .load false)
  | .load swept =>
    if s.live < P.opts.maxKeys then some (s, .cas s.live swept) else some (s, .full swept)
  | .cas seen swept =>
    if s.live = seen then some ({ s with live := seen + 1 }, .recheck) else some (s, .load swept)
  | .full swept =>
    match P.ev with
    | .evictLRU =>
      match (s.shards (P.shardFor c.key)).evictFrom with
      | some sh => some (s.setShard (P.shardFor c.key) sh, .evicted (.self swept))
      | none => some (s.unlock (P.shardFor c.key), if swept then .reload else .sweepEnter)
    | .evictReject =>
      if swept then some (s, .unlock .errMaxKeysExceeded)
      else some (s.unlock (P.shardFor c.key), .sweepEnter)
  | .evicted who => some (s.addLive (-1), .counted who)
  | .counted who => some ({ s with evicts := s.evicts + 1 }, who.pc)
  | .sweepEnter =>
    if P.opts.keyTTL ≤ 0 ∨ P.opts.cleanupInterval ≤ 0 then some (s, P.afterSweep)
    else if s.sweepMu = none then some ({ s with sweepMu := some tid }, .sweepGate)
    else none
  | .sweepGate =>
    if sub c.now s.lastSweep < P.opts.cleanupInterval then
      some ({ s with sweepMu := none }, P.afterSweep)
    else some ({ s with lastSweep := c.now }, .sweepLock 0)
  | .sweepLock i =>
    if hi : i < P.shardCount then
      if (s.shards ⟨i, hi⟩).mu = none then some (s.lock ⟨i, hi⟩ tid, .sweepScan ⟨i, hi⟩) else none
    else some ({ s with sweepMu := none }, P.afterSweep)
  | .sweepScan i =>
    let out := (s.shards i).cleanup P.opts choice c.now
    some (s.setShard i out.1, .expire out.2 (.sweep i))
  | .sweepUnlock i => some (s.unlock i, .sweepLock (i + 1))
  | .reload =>
    if P.opts.maxKeys ≤ s.live then some (s, .evictOther 0) else some (s, .relock)
  | .evictOther i =>
    if hi : i < P.shardCount then
      if (⟨i, hi⟩ : Fin P.shardCount) = P.shardFor c.key then some (s, .evictOther (i + 1))
      else if (s.shards ⟨i, hi⟩).mu = none then some (s.lock ⟨i, hi⟩ tid, .evictAt ⟨i, hi⟩)
      else none
    else some (s, .relock)
  | .evictAt i =>
    match (s.shards i).evictFrom with
    | some sh => some (s.setShard i sh, .evicted (.other i))
    | none => some (s.unlock i, .evictOther (i + 1))
  | .evictUnlock i => some (s.unlock i, .relock)
  | .relock =>
    if (s.shards (P.shardFor c.key)).mu = none then
      some (s.lock (P.shardFor c.key) tid, .load true)
    else none
  | .recheck =>
    if (s.shards (P.shardFor c.key)).has P.ev c.key then some (s, .giveBack)
    else
      some (s.setShard (P.shardFor c.key)
        ((s.shards (P.shardFor c.key)).create P.ev c.key (P.create c.now) c.now), .run)
  | .giveBack => some (s.addLive (-1), .refresh)
  | .refresh =>
    match (s.shards (P.shardFor c.key)).hit P.ev c.key c.now with
    | some sh => some (s.setShard (P.shardFor c.key) sh, .run)
    | none => none
  | .run =>
    match (s.shards (P.shardFor c.key)).peek P.ev c.key with
    | some entry =>
      let out := c.fn entry.1 c.now
      some (s.setShard (P.shardFor c.key)
        ((s.shards (P.shardFor c.key)).write P.ev c.key out.1), .unlock (.ok out.2))
    | none => none
  | .unlock outcome => some (s.unlock (P.shardFor c.key), .done outcome)
  | .done _ => none

def program : Program (Store P.shardCount σ) (Thread P.shardCount σ ρ) (Call σ ρ) (List Key)
    (Outcome ρ) where
  init := newShardedStoreWithShards P.shardCount σ
  start call := ⟨call, .lock⟩
  step tid choice s t := (P.advance tid choice s t.call t.pc).map fun out => (out.1, ⟨t.call, out.2⟩)
  result t :=
    match t.pc with
    | .done outcome => some outcome
    | _ => none

end Params

end Kaka.Memory
