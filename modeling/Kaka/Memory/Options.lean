import Kaka.Limiter
import Mathlib.Data.Nat.Bitwise

/-! # Options, keys and the shard of a key

A Go string is a sequence of bytes. The shard of a key is the low part of
its FNV-1a hash, selected with a mask because the shard count is a power
of two.
-/

namespace Kaka.Memory

abbrev Key := List UInt8

inductive EvictionPolicy where
  | evictReject
  | evictLRU
  deriving DecidableEq, Repr

structure Options where
  maxKeys : Int := 0
  keyTTL : Int := 0
  cleanupInterval : Int := 0
  eviction : EvictionPolicy := .evictReject
  deriving DecidableEq, Repr

def cleanupBatchSize : Nat := 100

def offset64 : UInt64 := 14695981039346656037

def prime64 : UInt64 := 1099511628211

def fnv1a64 (s : Key) : UInt64 :=
  s.foldl (fun h b => (h ^^^ b.toUInt64) * prime64) offset64

/-- What `newShardedStoreWithShards` is given; `options.validate` admits
only powers of two. -/
structure Params (σ : Type) where
  opts : Options
  shardCount : Nat
  power : ∃ m, shardCount = 2 ^ m
  create : Int → σ

variable {σ : Type}

theorem Params.shardCount_pos (P : Params σ) : 0 < P.shardCount := by
  obtain ⟨m, hPower⟩ := P.power
  rw [hPower]
  exact Nat.two_pow_pos m

theorem mask_lt (h : UInt64) {n : Nat} (hPos : 0 < n) :
    (h &&& UInt64.ofNat (n - 1)).toNat < n := by
  have hMask : (UInt64.ofNat (n - 1)).toNat ≤ n - 1 := by
    rw [UInt64.toNat_ofNat']
    exact Nat.mod_le _ _
  rw [UInt64.toNat_and]
  have hAnd := Nat.and_le_right (n := h.toNat) (m := (UInt64.ofNat (n - 1)).toNat)
  omega

def Params.shardFor (P : Params σ) (key : Key) : Fin P.shardCount :=
  ⟨(fnv1a64 key &&& UInt64.ofNat (P.shardCount - 1)).toNat, mask_lt _ P.shardCount_pos⟩

example : fnv1a64 [97] &&& 1 = 0 ∧ fnv1a64 [98] &&& 1 = 1 := by decide

end Kaka.Memory
