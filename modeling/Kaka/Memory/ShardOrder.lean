import Kaka.Base.Recency
import Kaka.Memory.ShardCleanup

/-! # The order of an `EvictLRU` shard

The list holds its keys by most recent access, each with the time of it.
`ShardSpec` gives the operations up to a permutation; here they are exact.
-/

namespace Kaka.Memory.Shard

variable {σ : Type} {sh sh' : Shard σ} {key : Key} {now : Int} {v : Victim}

/-- The keys of the list with the times of their last access, front to back. -/
def stamps (sh : Shard σ) : List (Key × Int) := sh.order.elems.map fun x => (x.2.key, x.2.lastSeen)

theorem keys_eq_stamps (sh : Shard σ) : sh.keys .evictLRU = sh.stamps.map Prod.fst := by
  rw [stamps, List.map_map]
  rfl

theorem Linked.stamps_remove (hLinked : sh.Linked) {elem : Nat} {entry : LruEntry σ}
    (hMem : (elem, entry) ∈ sh.order.elems) :
    (sh.order.remove elem).elems.map (fun x => (x.2.key, x.2.lastSeen)) =
      sh.stamps.filter fun x => x.1 ≠ entry.key := by
  rw [stamps, List.filter_map, LinkedList.remove]
  congr 1
  apply List.filter_congr
  intro x hx
  -- addresses and keys name the same elements
  have hIff : x.1 = elem ↔ x.2.key = entry.key := by
    constructor
    · rintro rfl
      rw [sh.order.mem_unique hx hMem]
    · exact hLinked.elem_unique hx hMem
  simp only [Function.comp, bne, Bool.beq_eq_decide_eq, hIff, ne_eq, decide_not]

theorem stamps_hit (hLinked : sh.Linked) (hHit : sh.hit .evictLRU key now = some sh') :
    sh'.stamps = (key, now) :: sh.stamps.filter fun x => x.1 ≠ key := by
  simp only [hit, hitLRU] at hHit
  split at hHit
  · cases hHit
  · rename_i elem hLookup
    cases hHit
    obtain ⟨entry, hMem, rfl⟩ := (hLinked.index key elem).mp hLookup
    have hFront : (elem, { entry with lastSeen := now }) ∈
        (sh.order.modify elem fun entry => { entry with lastSeen := now }).elems := by
      rw [LinkedList.mem_modify, if_pos rfl]
      exact ⟨entry, hMem, rfl⟩
    rw [stamps, LinkedList.moveToFront_elems _ hFront, List.map_cons, LinkedList.remove_modify,
      hLinked.stamps_remove hMem]

theorem stamps_create (value : σ) :
    (sh.create .evictLRU key value now).stamps = (key, now) :: sh.stamps := rfl

theorem stamps_write (value : σ) : (sh.write .evictLRU key value).stamps = sh.stamps := by
  simp only [write]
  split
  · rfl
  · exact LinkedList.map_modify sh.order _ (fun entry => { entry with value })
      (fun entry => (entry.key, entry.lastSeen)) fun _ => rfl

theorem stamps_drop (hLinked : sh.Linked) (hHolds : sh.Holds .evictLRU v) :
    (sh.drop .evictLRU v).stamps = sh.stamps.filter fun x => x.1 ≠ v.key := by
  obtain ⟨entry, hMem, hKey⟩ := hHolds rfl
  rw [← hKey]
  exact hLinked.stamps_remove hMem

theorem stamps_tail (hTail : sh.tail? = some v) :
    (sh.drop .evictLRU v).stamps = sh.stamps.dropLast ∧
      sh.keys .evictLRU = (sh.drop .evictLRU v).keys .evictLRU ++ [v.key] := by
  obtain ⟨x, hBack, rfl⟩ := Option.map_eq_some_iff.mp hTail
  have hRest := sh.order.remove_back hBack
  constructor
  · simp only [stamps, drop, hRest, List.map_dropLast]
  · have hSplit := List.dropLast_append_getLast? x hBack
    simp only [keys, drop, hRest]
    nth_rewrite 1 [← hSplit]
    rw [List.map_append, List.map_singleton]

theorem stamps_cleanup {opts : Options} {choice : List Key} (hWF : sh.WF opts.eviction) :
    (sh.cleanup opts choice now).1.stamps = sh.stamps := by
  rw [stamps, (cleanup_scan opts choice hWF now).order, stamps]

end Kaka.Memory.Shard
