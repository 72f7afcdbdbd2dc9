import Kaka.Memory.ShardSpec
import Mathlib.Data.List.Dedup

/-! # Deletion: eviction of the tail and cleanup of expired keys -/

namespace Kaka.Memory.Shard

variable {σ : Type} {ev : EvictionPolicy} {sh : Shard σ}

theorem Linked.elem_unique (hLinked : sh.Linked) {elem elem' : Nat} {entry entry' : LruEntry σ}
    (hMem : (elem, entry) ∈ sh.order.elems) (hMem' : (elem', entry') ∈ sh.order.elems)
    (hKey : entry.key = entry'.key) : elem = elem' := by
  have hLookup := hLinked.get hMem
  rw [hKey, hLinked.get hMem'] at hLookup
  exact (Option.some.inj hLookup).symm

theorem Linked.drop_linked (hLinked : sh.Linked) {v : Victim}
    (hHolds : ∃ entry, (v.elem, entry) ∈ sh.order.elems ∧ entry.key = v.key) :
    (sh.drop .evictLRU v).Linked := by
  obtain ⟨held, hHeld, hHeldKey⟩ := hHolds
  refine ⟨?_, ?_⟩
  · exact hLinked.nodup.sublist (List.filter_sublist.map _)
  · intro key elem
    simp only [drop, LinkedList.mem_remove]
    by_cases hEq : key = v.key
    · subst hEq
      rw [AList.lookup_erase]
      constructor
      · intro h
        cases h
      · rintro ⟨entry, ⟨hMem, hNe⟩, hKey⟩
        exact absurd (hLinked.elem_unique hMem hHeld (hKey.trans hHeldKey.symm)) hNe
    · rw [AList.lookup_erase_ne hEq, hLinked.index]
      constructor
      · rintro ⟨entry, hMem, hKey⟩
        refine ⟨entry, ⟨hMem, ?_⟩, hKey⟩
        rintro rfl
        exact hEq (hKey.symm.trans ((sh.order.mem_unique hMem hHeld) ▸ hHeldKey))
      · rintro ⟨entry, ⟨hMem, _⟩, hKey⟩
        exact ⟨entry, hMem, hKey⟩

theorem drop_spec (hWF : sh.WF ev) {v : Victim} (hMem : v.key ∈ sh.keys ev)
    (hHolds : sh.Holds ev v) :
    (sh.drop ev v).WF ev ∧
      (v.key :: (sh.drop ev v).keys ev).Perm (sh.keys ev) ∧
      ∀ key, (sh.drop ev v).peek ev key = if key = v.key then none else sh.peek ev key := by
  cases ev with
  | evictReject =>
    refine ⟨fun h => (nomatch h), ?_, ?_⟩
    · exact perm_keys_erase (AList.mem_keys.mpr hMem)
    · intro key
      by_cases hEq : key = v.key
      · subst hEq
        simp [drop, peek]
      · simp [drop, peek, AList.lookup_erase_ne hEq, hEq]
  | evictLRU =>
    have hLinked := hWF rfl
    have hDropped := hLinked.drop_linked (hHolds rfl)
    obtain ⟨held, hHeld, hHeldKey⟩ := hHolds rfl
    refine ⟨fun _ => hDropped, ?_, ?_⟩
    · have hPerm := (sh.order.perm_of_get hHeld).map fun x => x.2.key
      rw [List.map_cons] at hPerm
      simpa only [keys, drop, hHeldKey] using hPerm
    · intro key
      apply Option.ext
      intro e
      rw [hDropped.entry_iff]
      simp only [drop, LinkedList.mem_remove]
      split
      · rename_i hEq
        subst hEq
        constructor
        · rintro ⟨elem, entry, ⟨hEntry, hNe⟩, hKey, _⟩
          exact absurd (hLinked.elem_unique hEntry hHeld (hKey.trans hHeldKey.symm)) hNe
        · intro h
          cases h
      · rename_i hNe
        rw [hLinked.entry_iff]
        constructor
        · rintro ⟨elem, entry, ⟨hEntry, _⟩, hKey, hEq⟩
          exact ⟨elem, entry, hEntry, hKey, hEq⟩
        · rintro ⟨elem, entry, hEntry, hKey, hEq⟩
          refine ⟨elem, entry, ⟨hEntry, ?_⟩, hKey, hEq⟩
          rintro rfl
          exact hNe (hKey.symm.trans ((sh.order.mem_unique hEntry hHeld) ▸ hHeldKey))

theorem drop_holds {v w : Victim} (hv : sh.Holds ev v) (hw : sh.Holds ev w)
    (hNe : w.key ≠ v.key) : (sh.drop ev v).Holds ev w := by
  intro hEv
  subst hEv
  obtain ⟨held, hHeld, hHeldKey⟩ := hv rfl
  obtain ⟨entry, hEntry, hKey⟩ := hw rfl
  refine ⟨entry, ?_, hKey⟩
  simp only [drop, LinkedList.mem_remove]
  refine ⟨hEntry, fun hElem => hNe ?_⟩
  have hSame : entry = held := sh.order.mem_unique (hElem ▸ hEntry) hHeld
  rw [← hKey, ← hHeldKey, hSame]

theorem tail?_spec {v : Victim} (hTail : sh.tail? = some v) :
    v.key ∈ sh.keys .evictLRU ∧ sh.Holds .evictLRU v := by
  obtain ⟨x, hBack, rfl⟩ := Option.map_eq_some_iff.mp hTail
  have hMem := sh.order.back?_mem hBack
  exact ⟨List.mem_map.mpr ⟨x, hMem, rfl⟩, fun _ => ⟨x.2, hMem, rfl⟩⟩

theorem tail?_eq_none : sh.tail? = none ↔ sh.keys .evictLRU = [] := by
  rw [tail?, Option.map_eq_none_iff, LinkedList.back?_eq_none, keys, List.map_eq_nil_iff]

theorem evictFrom_eq_some {sh' : Shard σ} :
    sh.evictFrom = some sh' ↔ ∃ v, sh.tail? = some v ∧ sh' = sh.drop .evictLRU v := by
  unfold evictFrom
  cases sh.tail? <;> simp [eq_comm]

theorem evictFrom_eq_none : sh.evictFrom = none ↔ sh.keys .evictLRU = [] := by
  rw [← tail?_eq_none]
  unfold evictFrom
  cases sh.tail? <;> simp

/-! ## The scan of a cleanup pass -/

theorem rangeOrder_perm {choice keys : List Key} (hNodup : keys.Nodup) :
    (rangeOrder choice keys).Perm keys := by
  rw [List.perm_ext_iff_of_nodup _ hNodup]
  · intro k
    by_cases hk : k ∈ choice <;> simp [rangeOrder, hk]
  · refine ((List.nodup_dedup choice).filter _).append (hNodup.filter _) ?_
    intro k hLeft hRight
    simp at hLeft hRight
    exact hRight.2 hLeft.1

theorem rangeOrder_of_perm {choice keys : List Key} (hPerm : choice.Perm keys)
    (hNodup : keys.Nodup) : rangeOrder choice keys = choice := by
  have hKept : choice.dedup.filter (fun k => decide (k ∈ keys)) = choice := by
    rw [(hPerm.nodup_iff.mpr hNodup).dedup, List.filter_eq_self]
    intro k hk
    simpa using hPerm.mem_iff.mp hk
  have hRest : keys.filter (fun k => decide (k ∉ choice)) = [] := by
    rw [List.filter_eq_nil_iff]
    intro k hk
    simpa using hPerm.mem_iff.mpr hk
  rw [rangeOrder, hKept, hRest, List.append_nil]

/-- A cleanup pass only moves `lastCleanup`; what it scanned are stored
keys, each once and each idle for the time to live, which is then positive. -/
structure Scan (opts : Options) (sh : Shard σ) (now : Int) (out : Shard σ × List Victim) : Prop where
  items : out.1.items = sh.items
  orderItems : out.1.orderItems = sh.orderItems
  order : out.1.order = sh.order
  nodup : (out.2.map Victim.key).Nodup
  holds : ∀ v ∈ out.2, sh.Holds opts.eviction v
  idle : ∀ v ∈ out.2, ∃ e, sh.peek opts.eviction v.key = some e ∧ opts.keyTTL ≤ sub now e.2
  ttl : out.2 ≠ [] → 0 < opts.keyTTL

theorem Scan.keys_eq {opts : Options} {now : Int} {out : Shard σ × List Victim}
    (h : Scan opts sh now out) : out.1.keys ev = sh.keys ev := by
  cases ev <;> simp only [keys, h.items, h.order]

theorem Scan.peek_eq {opts : Options} {now : Int} {out : Shard σ × List Victim}
    (h : Scan opts sh now out) (key : Key) : out.1.peek ev key = sh.peek ev key := by
  cases ev <;> simp only [peek, h.items, h.order, h.orderItems]

theorem Scan.wf {opts : Options} {now : Int} {out : Shard σ × List Victim}
    (h : Scan opts sh now out) (hWF : sh.WF ev) : out.1.WF ev := by
  intro hEv
  obtain ⟨hNodup, hIndex⟩ := hWF hEv
  exact ⟨by rwa [h.order], by rwa [h.order, h.orderItems]⟩

theorem Scan.holds' {opts : Options} {now : Int} {out : Shard σ × List Victim}
    (h : Scan opts sh now out) {v : Victim} (hv : v ∈ out.2) : out.1.Holds opts.eviction v := by
  intro hEv
  rw [h.order]
  exact h.holds v hv hEv

theorem Scan.skip (opts : Options) (sh : Shard σ) (now : Int) : Scan opts sh now (sh, []) :=
  ⟨rfl, rfl, rfl, by simp, by simp, by simp, by simp⟩

theorem cleanupMap_scan {opts : Options} (hEv : opts.eviction = .evictReject) (choice : List Key)
    (sh : Shard σ) (now : Int) : Scan opts sh now (sh.cleanupMap opts choice now) := by
  unfold cleanupMap
  split
  · exact .skip opts sh now
  · rename_i hTtl
    split
    · exact .skip opts sh now
    · refine ⟨rfl, rfl, rfl, ?_, ?_, ?_, fun _ => by omega⟩
      · have hScanned : ((rangeOrder choice sh.items.keys).take cleanupBatchSize).Nodup :=
          ((rangeOrder_perm sh.items.keys_nodup).nodup_iff.mpr sh.items.keys_nodup).sublist
            (List.take_sublist _ _)
        rw [List.map_filterMap]
        refine hScanned.filterMap ?_
        intro a b k ha hb
        obtain ⟨v, hv, rfl⟩ := Option.map_eq_some_iff.mp ha
        obtain ⟨w, hw, hSame⟩ := Option.map_eq_some_iff.mp hb
        split at hv
        · cases hv
        · split at hv
          · cases hv
            split at hw
            · cases hw
            · split at hw
              · cases hw
                exact hSame.symm
              · cases hw
          · cases hv
      · intro v _ hLru
        rw [hEv] at hLru
        cases hLru
      · intro v hv
        obtain ⟨key, _, hVictim⟩ := List.mem_filterMap.mp hv
        split at hVictim
        · cases hVictim
        · rename_i entry hLookup
          split at hVictim
          · rename_i hIdle
            cases hVictim
            exact ⟨(entry.value, entry.lastSeen), by simp [peek, hEv, hLookup], hIdle⟩
          · cases hVictim

theorem map_key_victims (p : Nat × LruEntry σ → Prop) [DecidablePred p]
    (elems : List (Nat × LruEntry σ)) :
    (elems.filterMap fun x => if p x then some (⟨x.2.key, x.1⟩ : Victim) else none).map Victim.key =
      (elems.filter fun x => p x).map fun x => x.2.key := by
  rw [List.map_filterMap, ← List.filterMap_eq_map, List.filterMap_filter]
  apply List.filterMap_congr
  intro x _
  by_cases hp : p x <;> simp [hp]

theorem cleanupLRU_scan {opts : Options} (hEv : opts.eviction = .evictLRU) {sh : Shard σ}
    (hLinked : sh.Linked) (now : Int) : Scan opts sh now (sh.cleanupLRU opts now) := by
  unfold cleanupLRU
  split
  · exact .skip opts sh now
  · rename_i hTtl
    split
    · exact .skip opts sh now
    · have hVictim : ∀ v ∈ (sh.order.elems.take cleanupBatchSize).filterMap (fun x =>
          if opts.keyTTL ≤ sub now x.2.lastSeen then some (⟨x.2.key, x.1⟩ : Victim) else none),
          ∃ entry, (v.elem, entry) ∈ sh.order.elems ∧ entry.key = v.key ∧
            opts.keyTTL ≤ sub now entry.lastSeen := by
        intro v hv
        obtain ⟨x, hx, hSome⟩ := List.mem_filterMap.mp hv
        split at hSome
        · rename_i hIdle
          cases hSome
          exact ⟨x.2, List.mem_of_mem_take hx, rfl, hIdle⟩
        · cases hSome
      refine ⟨rfl, rfl, rfl, ?_, ?_, ?_, fun _ => by omega⟩
      · rw [map_key_victims fun x => opts.keyTTL ≤ sub now x.2.lastSeen]
        exact hLinked.nodup.sublist ((List.filter_sublist.trans (List.take_sublist _ _)).map _)
      · intro v hv _
        obtain ⟨entry, hMem, hKey, _⟩ := hVictim v hv
        exact ⟨entry, hMem, hKey⟩
      · intro v hv
        obtain ⟨entry, hMem, hKey, hIdle⟩ := hVictim v hv
        rw [hEv]
        exact ⟨(entry.value, entry.lastSeen),
          (hLinked.entry_iff v.key _).mpr ⟨v.elem, entry, hMem, hKey, rfl⟩, hIdle⟩

theorem cleanup_scan (opts : Options) (choice : List Key) {sh : Shard σ}
    (hWF : sh.WF opts.eviction) (now : Int) : Scan opts sh now (sh.cleanup opts choice now) := by
  unfold cleanup
  split
  · rename_i hEv
    exact cleanupMap_scan hEv choice sh now
  · rename_i hEv
    exact cleanupLRU_scan hEv (hWF hEv) now

/-- A pass is marked by its time; one that is off or not due is not. -/
theorem lastCleanup_cleanup (opts : Options) (choice : List Key) (sh : Shard σ) (now : Int) :
    (sh.cleanup opts choice now).1.lastCleanup = now ∨
      (sh.cleanup opts choice now).1.lastCleanup = sh.lastCleanup ∧
        ((opts.keyTTL ≤ 0 ∨ opts.cleanupInterval ≤ 0) ∨
          sub now sh.lastCleanup < opts.cleanupInterval) := by
  by_cases hOff : opts.keyTTL ≤ 0 ∨ opts.cleanupInterval ≤ 0
  · refine .inr ⟨?_, .inl hOff⟩
    rw [cleanup, cleanupMap, cleanupLRU, if_pos hOff, if_pos hOff]
    split <;> rfl
  · rw [cleanup, cleanupMap, cleanupLRU, if_neg hOff, if_neg hOff]
    by_cases hRecent : sub now sh.lastCleanup < opts.cleanupInterval
    · refine .inr ⟨?_, .inr hRecent⟩
      rw [if_pos hRecent, if_pos hRecent]
      split <;> rfl
    · rw [if_neg hRecent, if_neg hRecent]
      split <;> exact .inl rfl

end Kaka.Memory.Shard
