import Kaka.Memory.Shard

/-! # What the shard operations do to the keys and entries

One specification for each operation, in both modes at once. The mutex is
never touched here; well-formedness is kept; `keys` changes by at most one
key; `peek` changes at that key only.
-/

namespace Kaka.Memory.Shard

section Index

variable {α : Type} [DecidableEq α] {β : α → Type} {s : AList β} {a : α}

theorem keys_insert_perm (b : β a) (hMem : a ∈ s) : (s.insert a b).keys.Perm s.keys := by
  rw [AList.keys_insert]
  exact (List.perm_cons_erase (AList.mem_keys.mp hMem)).symm

theorem keys_insert_new (b : β a) (hNew : a ∉ s) : (s.insert a b).keys = a :: s.keys := by
  rw [AList.keys_insert, List.erase_of_not_mem (fun h => hNew (AList.mem_keys.mpr h))]

theorem perm_keys_erase (hMem : a ∈ s) : (a :: (s.erase a).keys).Perm s.keys := by
  rw [AList.keys_erase]
  exact (List.perm_cons_erase (AList.mem_keys.mp hMem)).symm

end Index

variable {σ : Type} {ev : EvictionPolicy} {sh : Shard σ}

theorem Linked.get (hLinked : sh.Linked) {elem : Nat} {entry : LruEntry σ}
    (hMem : (elem, entry) ∈ sh.order.elems) : sh.orderItems.lookup entry.key = some elem :=
  (hLinked.index entry.key elem).mpr ⟨entry, hMem, rfl⟩

theorem Linked.entry_iff (hLinked : sh.Linked) (key : Key) (e : σ × Int) :
    sh.peek .evictLRU key = some e ↔ ∃ elem entry, (elem, entry) ∈ sh.order.elems ∧
      entry.key = key ∧ (entry.value, entry.lastSeen) = e := by
  simp only [peek, Option.bind_eq_some_iff, Option.map_eq_some_iff, LinkedList.get?_eq_some]
  constructor
  · rintro ⟨elem, hLookup, entry, hMem, hEq⟩
    obtain ⟨other, hOther, hKey⟩ := (hLinked.index key elem).mp hLookup
    exact ⟨elem, entry, hMem, (sh.order.mem_unique hMem hOther) ▸ hKey, hEq⟩
  · rintro ⟨elem, entry, hMem, hKey, hEq⟩
    exact ⟨elem, hKey ▸ hLinked.get hMem, entry, hMem, hEq⟩

theorem Linked.mem_iff (hLinked : sh.Linked) (key : Key) :
    key ∈ sh.keys .evictLRU ↔ (sh.orderItems.lookup key).isSome := by
  rw [Option.isSome_iff_exists]
  simp only [keys, List.mem_map, hLinked.index]
  constructor
  · rintro ⟨x, hMem, hKey⟩
    exact ⟨x.1, x.2, hMem, hKey⟩
  · rintro ⟨elem, entry, hMem, hKey⟩
    exact ⟨(elem, entry), hMem, hKey⟩

theorem Linked.perm (hLinked : sh.Linked) :
    sh.orderItems.keys.Perm (sh.order.elems.map fun x => x.2.key) := by
  rw [List.perm_ext_iff_of_nodup sh.orderItems.keys_nodup hLinked.nodup]
  intro key
  rw [← AList.mem_keys, ← AList.lookup_isSome]
  exact (hLinked.mem_iff key).symm

theorem has_iff (hWF : sh.WF ev) (key : Key) : sh.has ev key = true ↔ key ∈ sh.keys ev := by
  cases ev with
  | evictReject => simp [has, keys, AList.lookup_isSome, AList.mem_keys]
  | evictLRU => exact ((hWF rfl).mem_iff key).symm

theorem peek_isSome (hWF : sh.WF ev) (key : Key) :
    (sh.peek ev key).isSome ↔ key ∈ sh.keys ev := by
  cases ev with
  | evictReject => simp [peek, keys, AList.lookup_isSome, AList.mem_keys]
  | evictLRU =>
    rw [(hWF rfl).mem_iff, Option.isSome_iff_exists, Option.isSome_iff_exists]
    constructor
    · rintro ⟨e, hEntry⟩
      obtain ⟨elem, entry, hMem, hKey, _⟩ := ((hWF rfl).entry_iff key e).mp hEntry
      exact ⟨elem, hKey ▸ (hWF rfl).get hMem⟩
    · rintro ⟨elem, hLookup⟩
      obtain ⟨entry, hMem, hKey⟩ := ((hWF rfl).index key elem).mp hLookup
      exact ⟨_, ((hWF rfl).entry_iff key _).mpr ⟨elem, entry, hMem, hKey, rfl⟩⟩

theorem keys_nodup (hWF : sh.WF ev) : (sh.keys ev).Nodup := by
  cases ev with
  | evictReject => exact sh.items.keys_nodup
  | evictLRU => exact (hWF rfl).nodup

theorem wf_new : (new : Shard σ).WF ev := by
  intro _
  exact ⟨by simp [new, LinkedList.empty], by simp [new, LinkedList.empty]⟩

@[simp] theorem keys_new : (new : Shard σ).keys ev = [] := by
  cases ev <;> simp [keys, new, LinkedList.empty]

/-! ## The mutex -/

@[simp] theorem keys_mu (m : Option Interleaving.Tid) :
    ({ sh with mu := m } : Shard σ).keys ev = sh.keys ev := by
  cases ev <;> rfl

@[simp] theorem peek_mu (m : Option Interleaving.Tid) (key : Key) :
    ({ sh with mu := m } : Shard σ).peek ev key = sh.peek ev key := by
  cases ev <;> rfl

theorem wf_mu (m : Option Interleaving.Tid) (hWF : sh.WF ev) :
    ({ sh with mu := m } : Shard σ).WF ev := by
  intro hEv
  obtain ⟨hNodup, hIndex⟩ := hWF hEv
  exact ⟨hNodup, hIndex⟩

theorem mu_hit {key : Key} {now : Int} {sh' : Shard σ} (hHit : sh.hit ev key now = some sh') :
    sh'.mu = sh.mu := by
  cases ev with
  | evictReject =>
    simp only [hit, hitMap] at hHit
    split at hHit
    · cases hHit
    · cases hHit
      rfl
  | evictLRU =>
    simp only [hit, hitLRU] at hHit
    split at hHit
    · cases hHit
    · cases hHit
      rfl

@[simp] theorem mu_create (key : Key) (value : σ) (now : Int) :
    (sh.create ev key value now).mu = sh.mu := by
  cases ev <;> rfl

@[simp] theorem mu_write (key : Key) (value : σ) : (sh.write ev key value).mu = sh.mu := by
  cases ev <;> (simp only [write]; split <;> rfl)

@[simp] theorem mu_drop (v : Victim) : (sh.drop ev v).mu = sh.mu := by
  cases ev <;> rfl

@[simp] theorem mu_cleanup (opts : Options) (choice : List Key) (now : Int) :
    (sh.cleanup opts choice now).1.mu = sh.mu := by
  unfold cleanup
  split
  · unfold cleanupMap
    split
    · rfl
    · split <;> rfl
  · unfold cleanupLRU
    split
    · rfl
    · split <;> rfl

/-! ## Rewriting the element of a key

`hitLRU` and the callback's write both change fields of one list element
other than its key, up to a permutation of the list. -/

theorem Linked.rewrite (hLinked : sh.Linked) {elem : Nat} {f : LruEntry σ → LruEntry σ}
    (hf : ∀ entry, (f entry).key = entry.key) {order : LinkedList (LruEntry σ)}
    (hPerm : order.elems.Perm (sh.order.modify elem f).elems) :
    ({ sh with order } : Shard σ).Linked ∧
      (({ sh with order } : Shard σ).keys .evictLRU).Perm (sh.keys .evictLRU) := by
  have hKeys : (order.elems.map fun x => x.2.key).Perm (sh.order.elems.map fun x => x.2.key) := by
    have hMap := hPerm.map fun x => x.2.key
    rwa [LinkedList.map_modify sh.order elem f (fun entry => entry.key) hf] at hMap
  refine ⟨⟨hKeys.nodup_iff.mpr hLinked.nodup, ?_⟩, hKeys⟩
  intro key elem'
  simp only
  rw [hLinked.index key elem']
  constructor
  · rintro ⟨entry, hMem, hKey⟩
    by_cases hElem : elem' = elem
    · subst hElem
      refine ⟨f entry, hPerm.mem_iff.mpr ?_, (hf entry).trans hKey⟩
      rw [LinkedList.mem_modify, if_pos rfl]
      exact ⟨entry, hMem, rfl⟩
    · refine ⟨entry, hPerm.mem_iff.mpr ?_, hKey⟩
      rwa [LinkedList.mem_modify, if_neg hElem]
  · rintro ⟨entry, hMem, hKey⟩
    have hMem' := hPerm.mem_iff.mp hMem
    rw [LinkedList.mem_modify] at hMem'
    split at hMem'
    · rename_i hElem
      obtain ⟨old, hOld, rfl⟩ := hMem'
      exact ⟨old, hElem ▸ hOld, (hf old).symm.trans hKey⟩
    · exact ⟨entry, hMem', hKey⟩

theorem Linked.entry_rewrite (hLinked : sh.Linked) {key : Key} {elem : Nat}
    (hLookup : sh.orderItems.lookup key = some elem) {f : LruEntry σ → LruEntry σ}
    (hf : ∀ entry, (f entry).key = entry.key) {order : LinkedList (LruEntry σ)}
    (hPerm : order.elems.Perm (sh.order.modify elem f).elems) (g : σ × Int → σ × Int)
    (hg : ∀ entry, ((f entry).value, (f entry).lastSeen) = g (entry.value, entry.lastSeen))
    (key' : Key) :
    ({ sh with order } : Shard σ).peek .evictLRU key' =
      if key' = key then (sh.peek .evictLRU key).map g else sh.peek .evictLRU key' := by
  have hNew := (hLinked.rewrite hf hPerm).1
  obtain ⟨old, hOld, hOldKey⟩ := (hLinked.index key elem).mp hLookup
  split
  · rename_i hEq
    subst hEq
    rw [(hLinked.entry_iff key' (old.value, old.lastSeen)).mpr ⟨elem, old, hOld, hOldKey, rfl⟩,
      Option.map_some, hNew.entry_iff]
    refine ⟨elem, f old, hPerm.mem_iff.mpr ?_, (hf old).trans hOldKey, hg old⟩
    rw [LinkedList.mem_modify, if_pos rfl]
    exact ⟨old, hOld, rfl⟩
  · rename_i hNe
    apply Option.ext
    intro e
    rw [hNew.entry_iff, hLinked.entry_iff]
    -- an element with another key has another address, so the rewrite does not reach it
    have hOther : ∀ elem' (entry : LruEntry σ), (elem', entry) ∈ sh.order.elems →
        entry.key = key' → elem' ≠ elem := by
      intro elem' entry hMem hKey hElem
      have hSame := sh.order.mem_unique (hElem ▸ hMem) hOld
      exact hNe (hKey.symm.trans (hSame ▸ hOldKey))
    constructor
    · rintro ⟨elem', entry, hMem, hKey, hEq⟩
      have hMem' := hPerm.mem_iff.mp hMem
      rw [LinkedList.mem_modify] at hMem'
      split at hMem'
      · obtain ⟨w, hw, rfl⟩ := hMem'
        exact absurd rfl (hOther elem w hw ((hf w).symm.trans hKey))
      · exact ⟨elem', entry, hMem', hKey, hEq⟩
    · rintro ⟨elem', entry, hMem, hKey, hEq⟩
      refine ⟨elem', entry, hPerm.mem_iff.mpr ?_, hKey, hEq⟩
      rwa [LinkedList.mem_modify, if_neg (hOther elem' entry hMem hKey)]

/-! ## Hits, creation and the callback's write -/

theorem hit_eq_none (hWF : sh.WF ev) (key : Key) (now : Int) :
    sh.hit ev key now = none ↔ key ∉ sh.keys ev := by
  rw [← has_iff hWF]
  cases ev with
  | evictReject => cases hLookup : sh.items.lookup key <;> simp [hit, hitMap, has, hLookup]
  | evictLRU => cases hLookup : sh.orderItems.lookup key <;> simp [hit, hitLRU, has, hLookup]

theorem hit_spec (hWF : sh.WF ev) {key : Key} {now : Int} {sh' : Shard σ}
    (hHit : sh.hit ev key now = some sh') :
    sh'.WF ev ∧ (sh'.keys ev).Perm (sh.keys ev) ∧ key ∈ sh.keys ev ∧
      ∀ key', sh'.peek ev key' =
        if key' = key then (sh.peek ev key).map (fun e => (e.1, now)) else sh.peek ev key' := by
  have hMem : key ∈ sh.keys ev := by
    by_contra hMiss
    rw [(hit_eq_none hWF key now).mpr hMiss] at hHit
    cases hHit
  cases ev with
  | evictReject =>
    simp only [hit, hitMap] at hHit
    split at hHit
    · cases hHit
    · rename_i entry hLookup
      cases hHit
      refine ⟨fun h => (nomatch h), ?_, hMem, ?_⟩
      · exact keys_insert_perm _ (AList.mem_keys.mpr hMem)
      · intro key'
        by_cases hEq : key' = key
        · subst hEq
          simp [peek, hLookup]
        · simp [peek, AList.lookup_insert_ne hEq, hEq]
  | evictLRU =>
    simp only [hit, hitLRU] at hHit
    split at hHit
    · cases hHit
    · rename_i elem hLookup
      cases hHit
      have hPerm := LinkedList.moveToFront_perm
        (sh.order.modify elem fun entry => { entry with lastSeen := now }) elem
      have hKey : ∀ entry : LruEntry σ, ({ entry with lastSeen := now } : LruEntry σ).key = entry.key :=
        fun _ => rfl
      obtain ⟨hLinked, hKeys⟩ := (hWF rfl).rewrite hKey hPerm
      exact ⟨fun _ => hLinked, hKeys, hMem,
        (hWF rfl).entry_rewrite hLookup hKey hPerm _ (fun _ => rfl)⟩

/-- The new element is in front, and the index finds it. -/
theorem Linked.create (hLinked : sh.Linked) {key : Key} (hNew : key ∉ sh.keys .evictLRU) (value : σ)
    (now : Int) : (sh.createLRU key value now).Linked := by
  refine ⟨?_, ?_⟩
  · simp only [createLRU, LinkedList.pushFront, List.map_cons, List.nodup_cons]
    exact ⟨hNew, hLinked.nodup⟩
  · intro key' elem
    simp only [createLRU, LinkedList.pushFront, List.mem_cons, Prod.mk.injEq]
    by_cases hEq : key' = key
    · subst hEq
      rw [AList.lookup_insert]
      constructor
      · intro h
        exact ⟨_, .inl ⟨(Option.some.inj h).symm, rfl⟩, rfl⟩
      · rintro ⟨entry, ⟨rfl, rfl⟩ | hMem, hKey⟩
        · rfl
        · exact absurd (List.mem_map.mpr ⟨_, hMem, hKey⟩) hNew
    · rw [AList.lookup_insert_ne hEq, hLinked.index]
      constructor
      · rintro ⟨entry, hMem, hKey⟩
        exact ⟨entry, .inr hMem, hKey⟩
      · rintro ⟨entry, ⟨_, rfl⟩ | hMem, hKey⟩
        · exact absurd hKey.symm hEq
        · exact ⟨entry, hMem, hKey⟩

theorem Linked.peek_create (hLinked : sh.Linked) {key : Key} (hNew : key ∉ sh.keys .evictLRU)
    (value : σ) (now : Int) (key' : Key) : (sh.createLRU key value now).peek .evictLRU key' =
      if key' = key then some (value, now) else sh.peek .evictLRU key' := by
  apply Option.ext
  intro e
  rw [(hLinked.create hNew value now).entry_iff]
  simp only [createLRU, LinkedList.pushFront, List.mem_cons, Prod.mk.injEq]
  split
  · rename_i hEq
    subst hEq
    constructor
    · rintro ⟨elem, entry, ⟨_, rfl⟩ | hMem, hKey, rfl⟩
      · rfl
      · exact absurd (List.mem_map.mpr ⟨_, hMem, hKey⟩) hNew
    · intro h
      exact ⟨_, _, .inl ⟨rfl, rfl⟩, rfl, Option.some.inj h⟩
  · rename_i hNe
    rw [hLinked.entry_iff]
    constructor
    · rintro ⟨elem, entry, ⟨_, rfl⟩ | hMem, hKey, hEq⟩
      · exact absurd hKey.symm hNe
      · exact ⟨elem, entry, hMem, hKey, hEq⟩
    · rintro ⟨elem, entry, hMem, hKey, hEq⟩
      exact ⟨elem, entry, .inr hMem, hKey, hEq⟩

theorem create_spec (hWF : sh.WF ev) {key : Key} (hNew : key ∉ sh.keys ev) (value : σ) (now : Int) :
    (sh.create ev key value now).WF ev ∧
      ((sh.create ev key value now).keys ev).Perm (key :: sh.keys ev) ∧
      ∀ key', (sh.create ev key value now).peek ev key' =
        if key' = key then some (value, now) else sh.peek ev key' := by
  cases ev with
  | evictReject =>
    refine ⟨fun h => (nomatch h), ?_, ?_⟩
    · exact .of_eq (keys_insert_new _ fun h => hNew (AList.mem_keys.mp h))
    · intro key'
      by_cases hEq : key' = key
      · subst hEq
        simp [create, createMap, peek]
      · simp [create, createMap, peek, AList.lookup_insert_ne hEq, hEq]
  | evictLRU =>
    have hLinked := hWF rfl
    exact ⟨fun _ => hLinked.create hNew value now, .refl _, hLinked.peek_create hNew value now⟩

theorem write_spec (hWF : sh.WF ev) (key : Key) (value : σ) :
    (sh.write ev key value).WF ev ∧
      ((sh.write ev key value).keys ev).Perm (sh.keys ev) ∧
      ∀ key', (sh.write ev key value).peek ev key' =
        if key' = key then (sh.peek ev key).map (fun e => (value, e.2)) else sh.peek ev key' := by
  cases ev with
  | evictReject =>
    simp only [write]
    split
    · rename_i hLookup
      refine ⟨hWF, .refl _, ?_⟩
      intro key'
      by_cases hEq : key' = key
      · subst hEq
        simp [peek, hLookup]
      · simp [hEq]
    · rename_i entry hLookup
      refine ⟨fun h => (nomatch h), ?_, ?_⟩
      · exact keys_insert_perm _ (AList.lookup_isSome.mp (by simp [hLookup]))
      · intro key'
        by_cases hEq : key' = key
        · subst hEq
          simp [peek, hLookup]
        · simp [peek, AList.lookup_insert_ne hEq, hEq]
  | evictLRU =>
    simp only [write]
    split
    · rename_i hLookup
      refine ⟨hWF, .refl _, ?_⟩
      intro key'
      by_cases hEq : key' = key
      · subst hEq
        simp [peek, hLookup]
      · simp [hEq]
    · rename_i elem hLookup
      obtain ⟨hLinked, hKeys⟩ := (hWF rfl).rewrite (f := fun entry => { entry with value })
        (fun _ => rfl) (.refl _)
      exact ⟨fun _ => hLinked, hKeys,
        (hWF rfl).entry_rewrite hLookup (f := fun entry => { entry with value }) (fun _ => rfl)
          (.refl _) _ (fun _ => rfl)⟩

end Kaka.Memory.Shard
