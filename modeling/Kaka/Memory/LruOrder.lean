import Kaka.Memory.Return
import Kaka.Memory.ShardOrder

/-! # Recency over whole runs

Each shard of an `EvictLRU` store lists its keys as the calls made so far list
them, by most recent call first: an access moves the key to the front, and
everything else only takes keys out.
-/

namespace Kaka.Memory

open Interleaving Recency

variable {σ ρ : Type}

/-- The call has accessed its key. -/
def Pc.accessed {n : Nat} : Pc n ρ → Bool
  | .expire _ .run | .expired _ .run | .run | .unlock (.ok _) | .done (.ok _) => true
  | _ => false

namespace Params

def stamps (P : Params σ) (s : Store P.shardCount σ) (i : Fin P.shardCount) : List (Key × Int) :=
  (s.shards i).stamps

/-- The calls of a run as keys and times. -/
def log (history : List (Call σ ρ × Outcome ρ)) : List (Key × Int) :=
  history.map fun x => (x.1.key, x.1.now)

/-- What a step does to the lists. -/
inductive Reorder (P : Params σ) (c : Call σ ρ) (s s' : Store P.shardCount σ)
    (pc pc' : Pc P.shardCount ρ) : Prop
  | keep (hPc : pc'.accessed = pc.accessed) (hStamps : ∀ i, P.stamps s' i = P.stamps s i)
  | drop (hPc : pc'.accessed = pc.accessed) (hDeleted : deleted pc' = true) (i : Fin P.shardCount)
      (key : Key)
      (hStamps : ∀ j, P.stamps s' j =
        if j = i then (P.stamps s j).filter fun x => x.1 ≠ key else P.stamps s j)
  | access (hPc : pc.accessed = false) (hPc' : pc'.accessed = true)
      (hStamps : ∀ j, P.stamps s' j =
        if j = P.self c then (c.key, c.now) :: (P.stamps s j).filter fun x => x.1 ≠ c.key
        else P.stamps s j)

variable {P : Params σ} {tid : Tid} {choice : List Key} {s s' t : Store P.shardCount σ}
  {c : Call σ ρ} {pc pc' : Pc P.shardCount ρ} {i j : Fin P.shardCount} {sh : Shard σ}

theorem keys_eq_stamps (hEv : P.ev = .evictLRU) (s : Store P.shardCount σ) (i : Fin P.shardCount) :
    P.keys s i = (P.stamps s i).map Prod.fst := by
  rw [keys, hEv]
  exact Shard.keys_eq_stamps _

theorem stamps_setShard (j : Fin P.shardCount) :
    P.stamps (s.setShard i sh) j = if j = i then sh.stamps else P.stamps s j := by
  split
  · rename_i hEq
    rw [hEq, stamps, Store.setShard_self]
  · rename_i hNe
    rw [stamps, Store.setShard_ne _ _ hNe, stamps]

theorem stamps_setShard_eq (hSame : sh.stamps = (s.shards i).stamps) (j : Fin P.shardCount) :
    P.stamps (s.setShard i sh) j = P.stamps s j := by
  rw [stamps_setShard]
  split
  · rename_i hEq
    rw [hSame, hEq, stamps]
  · rfl

theorem stamps_mutex (m : Option Tid) (j : Fin P.shardCount) :
    P.stamps (s.setShard i { s.shards i with mu := m }) j = P.stamps s j := by
  refine stamps_setShard_eq ?_ j
  rfl

/-! ## One step -/

theorem Reorder.evict (hGood : P.Good s) (hEv : P.ev = .evictLRU) {v : Victim}
    (hHolds : (s.shards i).Holds .evictLRU v) (hPc : pc'.accessed = pc.accessed)
    (hDeleted : deleted pc' = true) :
    Reorder P c s (s.setShard i ((s.shards i).drop .evictLRU v)) pc pc' := by
  refine .drop hPc hDeleted i v.key fun j => ?_
  rw [stamps_setShard, Shard.stamps_drop (hGood.wf i hEv) hHolds]
  split
  · rename_i hEq
    rw [hEq, stamps]
  · rfl

theorem Reorder.hit (hGood : P.Good s) (hEv : P.ev = .evictLRU)
    (hHit : (s.shards (P.self c)).hit .evictLRU c.key c.now = some sh) {sh' : Shard σ}
    (hSame : sh'.stamps = sh.stamps) (hPc : pc.accessed = false) (hPc' : pc'.accessed = true) :
    Reorder P c s (s.setShard (P.self c) sh') pc pc' := by
  refine .access hPc hPc' fun j => ?_
  rw [stamps_setShard, hSame, Shard.stamps_hit (hGood.wf _ hEv) hHit]
  split
  · rename_i hEq
    rw [hEq, stamps]
  · rfl

theorem Reorder.create (hEv : P.ev = .evictLRU) (hNew : ¬ P.Stored s c.key) (value : σ)
    (hPc : pc.accessed = false) (hPc' : pc'.accessed = true) : Reorder P c s
      (s.setShard (P.self c) ((s.shards (P.self c)).create .evictLRU c.key value c.now)) pc pc' := by
  have hAll : ∀ x ∈ P.stamps s (P.self c), x.1 ≠ c.key := by
    rintro x hx hEq
    refine hNew ?_
    rw [Stored, keys_eq_stamps hEv, ← hEq]
    exact List.mem_map_of_mem (hEq ▸ hx)
  refine .access hPc hPc' fun j => ?_
  rw [stamps_setShard, Shard.stamps_create]
  split
  · rename_i hEq
    rw [hEq, List.filter_eq_self.mpr fun x hx => by simpa using hAll x hx, stamps]
  · rfl

theorem Step.reorder (h : P.Step tid choice s c pc s' pc') (hEv : P.ev = .evictLRU)
    (hGood : P.Good s) (hOk : P.PcOk s c pc) : Reorder P c s s' pc pc' := by
  cases h with
  | lock | relock | sweepLock | otherLock => exact .keep rfl (stamps_mutex (some tid))
  | release | sweepUnlock | otherEmpty | otherUnlock => exact .keep rfl (stamps_mutex none)
  | @unlock outcome => exact .keep (by cases outcome <;> rfl) (stamps_mutex none)
  | @evictNone swept => exact .keep (by cases swept <;> rfl) (stamps_mutex none)
  | hit hHit =>
    have hWF := (Shard.hit_spec (hGood.wf _) hHit).1
    rw [hEv] at hHit
    exact .hit hGood hEv hHit (Shard.stamps_cleanup hWF) rfl rfl
  | miss | sweepScan => exact .keep rfl (stamps_setShard_eq (Shard.stamps_cleanup (hGood.wf _)))
  | @expireDone next => exact .keep (by cases next <;> rfl) fun _ => rfl
  | @expireDrop v rest next =>
    have hHolds := hOk.1.holds v List.mem_cons_self
    rw [hEv] at hHolds ⊢
    exact .evict hGood hEv hHolds (by cases next <;> rfl) rfl
  | @expireSkip v rest next | @expireCount rest next =>
    exact .keep (by cases next <;> rfl) fun _ => rfl
  | evictSelf _ hTail =>
    rw [hEv]
    exact .evict hGood hEv (Shard.tail?_spec hTail).2 rfl rfl
  | otherEvict hTail => exact .evict hGood hEv (Shard.tail?_spec hTail).2 rfl rfl
  | @counted who => exact .keep (by cases who <;> rfl) fun _ => rfl
  | sweepSkip | sweepRecent | sweepEnd =>
    exact .keep (by unfold afterSweep; split <;> rfl) fun _ => rfl
  | recheckCreate hHas =>
    have hNew : ¬ P.Stored s c.key := by
      rw [Stored, ← Shard.has_iff (hGood.wf _), hHas]
      exact Bool.false_ne_true
    rw [hEv]
    exact .create hEv hNew _ rfl rfl
  | refresh hHit =>
    rw [hEv] at hHit
    exact .hit hGood hEv hHit rfl rfl rfl
  | run =>
    rw [hEv]
    exact .keep rfl (stamps_setShard_eq (Shard.stamps_write _))
  | _ => exact .keep rfl fun _ => rfl

/-- The calls that the lists show at a place of the call `c`. -/
def seen (history : List (Call σ ρ × Outcome ρ)) (c : Call σ ρ) (pc : Pc P.shardCount ρ) :
    List (Key × Int) :=
  if pc.accessed then log history ++ [(c.key, c.now)] else log history

theorem Reorder.sublist {history : List (Call σ ρ × Outcome ρ)} (h : Reorder P c s s' pc pc')
    (hEv : P.ev = .evictLRU) (hGood : P.Good s)
    (hBefore : ∀ i, (P.stamps s i).Sublist (recent (seen history c pc))) (i : Fin P.shardCount) :
    (P.stamps s' i).Sublist (recent (seen history c pc')) := by
  cases h with
  | keep hPc hStamps =>
    rw [hStamps, seen, hPc]
    exact hBefore i
  | drop hPc _ k key hStamps =>
    rw [hStamps, seen, hPc]
    split
    · exact List.filter_sublist.trans (hBefore i)
    · exact hBefore i
  | access hPc hPc' hStamps =>
    have hOld := hBefore i
    rw [seen, hPc, if_neg Bool.false_ne_true] at hOld
    rw [hStamps, seen, hPc', if_pos rfl, recent_snoc]
    have hKept := hOld.filter fun x => x.1 ≠ c.key
    split
    · exact hKept.cons_cons _
    · rename_i hNe
      -- the key of the call is in no other shard
      have hAll : ∀ x ∈ P.stamps s i, x.1 ≠ c.key := by
        intro x hx hEq
        have hMem : x.1 ∈ P.keys s i := by
          rw [keys_eq_stamps hEv]
          exact List.mem_map_of_mem hx
        exact hNe ((hGood.placed i _ hMem).symm.trans (congrArg P.shardFor hEq))
      rw [List.filter_eq_self.mpr fun x hx => by simpa using hAll x hx] at hKept
      exact hKept.cons _

/-! ## Whole runs -/

theorem Serial.sublist_alone {history : List (Call σ ρ × Outcome ρ)} (hEv : P.ev = .evictLRU)
    (h : P.Serial history s) (hStart : ∀ i, (P.stamps s i).Sublist (recent (log history)))
    (hAlone : P.Alone history.length c (s, .lock) (t, pc)) (i : Fin P.shardCount) :
    (P.stamps t i).Sublist (recent (seen history c pc)) := by
  refine h.invariant (I := fun t pc => ∀ i, (P.stamps t i).Sublist (recent (seen history c pc)))
    ?_ .refl hAlone hStart i
  intro choice t pc t' pc' hSolo _ hSublist hStep
  exact (hStep.reorder hEv hSolo.good hSolo.ok).sublist hEv hSolo.good hSublist

theorem Serial.sublist {history : List (Call σ ρ × Outcome ρ)} (hEv : P.ev = .evictLRU)
    (h : P.Serial history s) (i : Fin P.shardCount) : (P.stamps s i).Sublist (recent (log history)) := by
  induction h generalizing i with
  | nil => exact .slnil
  | @snoc history s c s' outcome hBefore hReturns ih =>
    have hShown := hBefore.sublist_alone hEv ih hReturns i
    obtain ⟨r, rfl⟩ := hBefore.ok_of_done hEv hReturns
    rw [log, List.map_append]
    exact hShown

/-- At every moment of a single-threaded run the keys of a shard stand by most
recent call first. -/
theorem Serial.pairwise_keys {history : List (Call σ ρ × Outcome ρ)} (hEv : P.ev = .evictLRU)
    (h : P.Serial history s) (hAlone : P.Alone history.length c (s, .lock) (t, pc))
    (hPc : pc.accessed = false) (i : Fin P.shardCount) :
    (P.keys t i).Pairwise fun key older => CalledBefore (history.map fun x => x.1.key) older key := by
  have hShown := h.sublist_alone hEv (h.sublist hEv) hAlone i
  rw [seen, hPc, if_neg Bool.false_ne_true] at hShown
  have hOrder := (pairwise_recent (log history)).sublist hShown
  rw [log, List.map_map] at hOrder
  rw [keys_eq_stamps hEv, List.pairwise_map]
  exact hOrder

end Params

end Kaka.Memory
