import Kaka.Base.Interleaving
import Kaka.Base.LinkedList
import Kaka.Memory.Options
import Mathlib.Data.List.AList

/-! # One shard of the store

A shard keeps its keys in `items` under `EvictReject`, and in `orderItems`
and `order` under `EvictLRU`, where the index maps a key to the address of
its list element. Each operation is given for the two modes as the source
has it; `keys` and `peek` say what the shard holds in either mode.
-/

namespace Kaka.Memory

open Interleaving (Tid)

structure KeyEntry (σ : Type) where
  value : σ
  lastSeen : Int

structure LruEntry (σ : Type) where
  key : Key
  value : σ
  lastSeen : Int

structure Shard (σ : Type) where
  mu : Option Tid
  items : AList (fun _ : Key => KeyEntry σ)
  orderItems : AList (fun _ : Key => Nat)
  order : LinkedList (LruEntry σ)
  lastCleanup : Int

/-- A key chosen for deletion, with its list element under `EvictLRU`. -/
structure Victim where
  key : Key
  elem : Nat
  deriving DecidableEq

variable {σ : Type}

namespace Shard

def new : Shard σ := ⟨none, ∅, ∅, .empty, 0⟩

/-! ## Hits, creation and the callback's write -/

def hitMap (sh : Shard σ) (key : Key) (now : Int) : Option (Shard σ) :=
  match sh.items.lookup key with
  | none => none
  | some entry => some { sh with items := sh.items.insert key { entry with lastSeen := now } }

def hitLRU (sh : Shard σ) (key : Key) (now : Int) : Option (Shard σ) :=
  match sh.orderItems.lookup key with
  | none => none
  | some elem =>
    let order := sh.order.modify elem fun entry => { entry with lastSeen := now }
    some { sh with order := order.moveToFront elem }

def hit (ev : EvictionPolicy) (sh : Shard σ) (key : Key) (now : Int) : Option (Shard σ) :=
  match ev with
  | .evictReject => sh.hitMap key now
  | .evictLRU => sh.hitLRU key now

def createMap (sh : Shard σ) (key : Key) (value : σ) (now : Int) : Shard σ :=
  { sh with items := sh.items.insert key ⟨value, now⟩ }

def createLRU (sh : Shard σ) (key : Key) (value : σ) (now : Int) : Shard σ :=
  { sh with
    order := sh.order.pushFront ⟨key, value, now⟩
    orderItems := sh.orderItems.insert key sh.order.fresh }

def create (ev : EvictionPolicy) (sh : Shard σ) (key : Key) (value : σ) (now : Int) : Shard σ :=
  match ev with
  | .evictReject => sh.createMap key value now
  | .evictLRU => sh.createLRU key value now

def peek (ev : EvictionPolicy) (sh : Shard σ) (key : Key) : Option (σ × Int) :=
  match ev with
  | .evictReject => (sh.items.lookup key).map fun entry => (entry.value, entry.lastSeen)
  | .evictLRU => (sh.orderItems.lookup key).bind fun elem =>
      (sh.order.get? elem).map fun entry => (entry.value, entry.lastSeen)

/-- The callback mutates the state behind the entry's pointer. -/
def write (ev : EvictionPolicy) (sh : Shard σ) (key : Key) (value : σ) : Shard σ :=
  match ev with
  | .evictReject =>
    match sh.items.lookup key with
    | none => sh
    | some entry => { sh with items := sh.items.insert key { entry with value } }
  | .evictLRU =>
    match sh.orderItems.lookup key with
    | none => sh
    | some elem => { sh with order := sh.order.modify elem fun entry => { entry with value } }

/-! ## Deletion -/

def has (ev : EvictionPolicy) (sh : Shard σ) (key : Key) : Bool :=
  match ev with
  | .evictReject => (sh.items.lookup key).isSome
  | .evictLRU => (sh.orderItems.lookup key).isSome

def drop (ev : EvictionPolicy) (sh : Shard σ) (v : Victim) : Shard σ :=
  match ev with
  | .evictReject => { sh with items := sh.items.erase v.key }
  | .evictLRU => { sh with orderItems := sh.orderItems.erase v.key, order := sh.order.remove v.elem }

/-- The entry at the tail of the list, which `evictFrom` removes. -/
def tail? (sh : Shard σ) : Option Victim :=
  sh.order.back?.map fun x => ⟨x.2.key, x.1⟩

def evictFrom (sh : Shard σ) : Option (Shard σ) :=
  match sh.tail? with
  | none => none
  | some v => some (sh.drop .evictLRU v)

/-! ## Cleanup -/

/-- `for key := range m`: the runtime picks the order. Any order of the
keys is the result for some `choice`. -/
def rangeOrder (choice keys : List Key) : List Key :=
  choice.dedup.filter (· ∈ keys) ++ keys.filter (· ∉ choice)

def cleanupMap (opts : Options) (choice : List Key) (sh : Shard σ) (now : Int) :
    Shard σ × List Victim :=
  if opts.keyTTL ≤ 0 ∨ opts.cleanupInterval ≤ 0 then (sh, [])
  else if sub now sh.lastCleanup < opts.cleanupInterval then (sh, [])
  else
    ({ sh with lastCleanup := now },
      ((rangeOrder choice sh.items.keys).take cleanupBatchSize).filterMap fun key =>
        match sh.items.lookup key with
        | none => none
        | some entry => if opts.keyTTL ≤ sub now entry.lastSeen then some ⟨key, 0⟩ else none)

def cleanupLRU (opts : Options) (sh : Shard σ) (now : Int) : Shard σ × List Victim :=
  if opts.keyTTL ≤ 0 ∨ opts.cleanupInterval ≤ 0 then (sh, [])
  else if sub now sh.lastCleanup < opts.cleanupInterval then (sh, [])
  else
    ({ sh with lastCleanup := now },
      (sh.order.elems.take cleanupBatchSize).filterMap fun x =>
        if opts.keyTTL ≤ sub now x.2.lastSeen then some ⟨x.2.key, x.1⟩ else none)

def cleanup (opts : Options) (choice : List Key) (sh : Shard σ) (now : Int) :
    Shard σ × List Victim :=
  match opts.eviction with
  | .evictReject => sh.cleanupMap opts choice now
  | .evictLRU => sh.cleanupLRU opts now

/-! ## What a shard holds -/

def keys (ev : EvictionPolicy) (sh : Shard σ) : List Key :=
  match ev with
  | .evictReject => sh.items.keys
  | .evictLRU => sh.order.elems.map fun x => x.2.key

/-- Index and list of an `EvictLRU` shard agree. -/
structure Linked (sh : Shard σ) : Prop where
  nodup : (sh.order.elems.map fun x => x.2.key).Nodup
  index : ∀ key elem, sh.orderItems.lookup key = some elem ↔
    ∃ entry, (elem, entry) ∈ sh.order.elems ∧ entry.key = key

def WF (ev : EvictionPolicy) (sh : Shard σ) : Prop := ev = .evictLRU → sh.Linked

/-- A victim of an `EvictLRU` shard is an element of its list. -/
def Holds (ev : EvictionPolicy) (sh : Shard σ) (v : Victim) : Prop :=
  ev = .evictLRU → ∃ entry, (v.elem, entry) ∈ sh.order.elems ∧ entry.key = v.key

end Shard

end Kaka.Memory
