import Kaka.Memory.LruOrder

/-! # Admission to an `EvictLRU` store

A lone call is never refused: where the store is full after its cleanups it
evicts one key, the least recently called of its own shard, or of another
where its own is empty.
-/

namespace Kaka.Memory

open Interleaving Recency

variable {σ ρ : Type}

namespace Params

/-- The step from `t`, in the middle of the call `c` made on `s` after
`history`, to `t'` evicts a key. -/
structure Eviction (P : Params σ) (history : List (Call σ ρ × Outcome ρ)) (s : Store P.shardCount σ)
    (c : Call σ ρ) (t : Store P.shardCount σ) (pc : Pc P.shardCount ρ) (t' : Store P.shardCount σ)
    (who : Evictor P.shardCount) : Prop where
  new : ¬ P.Stored s c.key
  full : (P.total t : Int) = P.opts.maxKeys
  last : ∃ key, P.keys t (who.shard (P.self c)) = P.keys t' (who.shard (P.self c)) ++ [key] ∧
    ∀ other ∈ P.keys t' (who.shard (P.self c)),
      CalledBefore (history.map fun x => x.1.key) key other
  others : ∀ i, i ≠ who.shard (P.self c) → P.keys t' i = P.keys t i
  own : ∀ r, P.Alone history.length c (s, .lock) (r, .reserve) →
    P.Alone history.length c (r, .reserve) (t, pc) → P.keys r (P.self c) ≠ [] →
    who.shard (P.self c) = P.self c
  once : ∀ x y, P.Alone history.length c (t', .evicted who) x → P.Moves history.length c x y →
    deleted y.2 = false

/-- The next call returns with a result, and what it evicts on the way. -/
structure Admission (P : Params σ) (history : List (Call σ ρ × Outcome ρ)) (s : Store P.shardCount σ)
    (c : Call σ ρ) : Prop where
  returns : Inevitable (P.Moves history.length c) (fun x => ∃ r, x.2 = .done (.ok r)) (s, .lock)
  ok : ∀ s' outcome, P.Returns history.length c s s' outcome → ∃ r, outcome = .ok r
  evicts : ∀ t pc t' who, P.Alone history.length c (s, .lock) (t, pc) →
    P.Moves history.length c (t, pc) (t', .evicted who) → P.Eviction history s c t pc t' who

variable {P : Params σ} {tid : Tid} {choice : List Key} {s s' t t' : Store P.shardCount σ}
  {c : Call σ ρ} {pc pc' : Pc P.shardCount ρ} {history : List (Call σ ρ × Outcome ρ)}

/-! ## Calls on stored keys -/

def OnHit (P : Params σ) (s : Store P.shardCount σ) (c : Call σ ρ) : Pc P.shardCount ρ → Prop
  | .lock | .lookup => P.Stored s c.key
  | .expire _ .run | .expired _ .run | .run | .unlock _ | .done _ => True
  | _ => False

theorem Step.onHit (h : P.Step tid choice s c pc s' pc') (hGood : P.Good s) (hHit : P.OnHit s c pc) :
    P.OnHit s' c pc' := by
  cases h with
  | lock =>
    refine (stored_setShard c.key).mpr ?_
    rw [Shard.keys_mu]
    exact hHit
  | hit => trivial
  | miss hMiss => exact absurd hHit ((Shard.hit_eq_none (hGood.wf _) c.key c.now).mp hMiss)
  | @expireDone next | @expireDrop _ _ next | @expireSkip _ _ next | @expireCount _ next =>
    cases next with
    | run => trivial
    | reserve | sweep => exact hHit.elim
  | run | unlock => trivial
  | _ => exact hHit.elim

theorem Serial.new_of_evicted (h : P.Serial history s) {who : Evictor P.shardCount}
    (hAlone : P.Alone history.length c (s, .lock) (t, .evicted who)) : ¬ P.Stored s c.key := by
  intro hStored
  exact h.invariant (I := fun t pc => P.OnHit t c pc)
    (fun _ _ _ _ _ hSolo _ hHit hStep => hStep.onHit hSolo.good hHit) .refl hAlone hStored

/-! ## Calls whose own shard holds a key -/

def Local (P : Params σ) (s : Store P.shardCount σ) (c : Call σ ρ) : Pc P.shardCount ρ → Prop
  | .reserve | .full _ => P.keys s (P.self c) ≠ []
  | .load _ => P.keys s (P.self c) ≠ [] ∨ s.live < P.opts.maxKeys
  | .evicted who | .counted who => who.shard (P.self c) = P.self c
  | .cas _ _ | .recheck | .giveBack | .refresh | .run | .unlock _ | .done _ => True
  | _ => False

theorem Step.local (h : P.Step tid choice s c pc s' pc') (hEv : P.ev = .evictLRU)
    (hSolo : P.Solo s c pc) (hKnows : P.Knows s c pc) (hLocal : P.Local s c pc) : P.Local s' c pc' := by
  cases h with
  | reserveLimited => exact .inl hLocal
  | loadFull hFull => exact hLocal.resolve_right (not_lt.mpr hFull)
  | casLost hLost => exact absurd hKnows hLost
  | evictSelf => rfl
  | evictNone _ hTail => exact absurd (keys_of_tail hEv hTail) hLocal
  | release hReject =>
    rw [hEv] at hReject
    cases hReject
  | evictCount => exact hLocal
  | @counted who =>
    cases who with
    | self swept => exact .inr hKnows
    | other i => exact absurd hLocal hSolo.ok.2.2
  | loadRoom | casWon | reserveUnlimited | recheckStored | recheckCreate | giveBack | refresh | run
  | unlock | reject => trivial
  | _ => exact hLocal.elim

theorem Serial.local_of_reserve (h : P.Serial history s) (hEv : P.ev = .evictLRU)
    {r : Store P.shardCount σ} (hReserve : P.Alone history.length c (s, .lock) (r, .reserve))
    (hAlone : P.Alone history.length c (r, .reserve) (t, pc)) (hSome : P.keys r (P.self c) ≠ []) :
    P.Local t c pc :=
  h.invariant (I := fun t pc => P.Local t c pc)
    (fun _ _ _ _ _ hSolo hKnows hLocal hStep => hStep.local hEv hSolo hKnows hLocal)
    hReserve hAlone hSome

/-! ## The eviction -/

/-- A place from which a lone call still deletes is above every place after an eviction. -/
theorem Step.rank_of_deleted (h : P.Step tid choice s c pc s' pc') (hEv : P.ev = .evictLRU)
    (hKnows : P.Knows s c pc) (hDeleted : deleted pc' = true) : 13 < P.rank s pc := by
  cases h with
  | @expireDrop v rest next => cases next <;> simp only [rank, List.length_cons] <;> omega
  | evictSelf =>
    rw [hKnows.2 hEv]
    simp only [rank, if_neg Bool.false_ne_true]
    omega
  | @otherEvict i =>
    simp only [rank]
    omega
  | @expireDone next => cases next <;> cases hDeleted
  | @counted who => cases who <;> cases hDeleted
  | @evictNone swept => cases swept <;> cases hDeleted
  | sweepSkip | sweepRecent | sweepEnd =>
    unfold afterSweep at hDeleted
    split at hDeleted <;> cases hDeleted
  | _ => cases hDeleted

theorem rank_evicted (s : Store P.shardCount σ) (who : Evictor P.shardCount) :
    P.rank s (.evicted who : Pc P.shardCount ρ) ≤ 13 := by
  cases who <;> simp [rank]

theorem Serial.rank_le (h : P.Serial history s) {bound : Nat}
    (hFirst : P.Alone history.length c (s, .lock) (t, pc)) (hRank : P.rank t pc ≤ bound)
    (hAlone : P.Alone history.length c (t, pc) (t', pc')) : P.rank t' pc' ≤ bound :=
  h.invariant (I := fun t pc => P.rank t pc ≤ bound)
    (fun _ _ _ _ _ _ hKnows hRank hStep => (hStep.rank_lt hKnows).le.trans hRank)
    hFirst hAlone hRank

theorem keys_tail {i : Fin P.shardCount} {v : Victim} (hEv : P.ev = .evictLRU)
    (hTail : (s.shards i).tail? = some v) :
    P.keys s i = P.keys (s.setShard i ((s.shards i).drop .evictLRU v)) i ++ [v.key] := by
  rw [keys, keys, Store.setShard_self, hEv]
  exact (Shard.stamps_tail hTail).2

/-- Who evicts finds the store full and takes the last key of the list of one shard. -/
theorem Step.evicted_spec {who : Evictor P.shardCount} (h : P.Step tid choice s c pc s' (.evicted who))
    (hEv : P.ev = .evictLRU) (hKnows : P.Knows s c pc) :
    P.opts.maxKeys ≤ s.live ∧ debt pc = 0 ∧ pc.accessed = false ∧
      (∃ key, P.keys s (who.shard (P.self c)) = P.keys s' (who.shard (P.self c)) ++ [key]) ∧
      ∀ i, i ≠ who.shard (P.self c) → P.keys s' i = P.keys s i := by
  generalize hPc' : (.evicted who : Pc P.shardCount ρ) = pc' at h
  cases h with
  | @evictSelf swept v _ hTail =>
    cases hPc'
    rw [hEv]
    refine ⟨hKnows.1, rfl, rfl, ⟨v.key, keys_tail hEv hTail⟩, fun i hNe => ?_⟩
    rw [keys_setShard]
    exact if_neg hNe
  | @otherEvict j v hTail =>
    cases hPc'
    refine ⟨hKnows.1, rfl, rfl, ⟨v.key, keys_tail hEv hTail⟩, fun i hNe => ?_⟩
    rw [keys_setShard]
    exact if_neg hNe
  | @expireDone next => cases next <;> cases hPc'
  | @counted who => cases who <;> cases hPc'
  | @evictNone swept => cases swept <;> cases hPc'
  | sweepSkip | sweepRecent | sweepEnd =>
    unfold afterSweep at hPc'
    split at hPc' <;> cases hPc'
  | _ => cases hPc'

theorem Serial.eviction (h : P.Serial history s) (hEv : P.ev = .evictLRU) (hMax : 0 < P.opts.maxKeys)
    {who : Evictor P.shardCount} (hAlone : P.Alone history.length c (s, .lock) (t, pc))
    (hMove : P.Moves history.length c (t, pc) (t', .evicted who)) :
    P.Eviction history s c t pc t' who := by
  obtain ⟨choice, hAdvance⟩ := hMove
  have hStep : P.Step history.length choice t c pc t' (.evicted who) := step_of_advance hAdvance
  have hNext : P.Alone history.length c (s, .lock) (t', .evicted who) := hAlone.tail ⟨choice, hAdvance⟩
  have hSolo := h.solo hAlone
  obtain ⟨hFull, hDebt, hPc, ⟨key, hKey⟩, hOthers⟩ := hStep.evicted_spec hEv (h.knows hAlone)
  refine ⟨h.new_of_evicted hNext, ?_, ⟨key, hKey, ?_⟩, hOthers, ?_, ?_⟩
  · have hCount := hSolo.count
    have hCap := hSolo.cap hMax
    rw [hDebt] at hCount
    omega
  · have hOrder := h.pairwise_keys hEv hAlone hPc (who.shard (P.self c))
    rw [hKey, List.pairwise_append] at hOrder
    exact fun other hOther => hOrder.2.2 other hOther key List.mem_cons_self
  · intro r hReserve hRest hSome
    exact h.local_of_reserve hEv hReserve (hRest.tail ⟨choice, hAdvance⟩) hSome
  · rintro ⟨u, pc₁⟩ ⟨u', pc₂⟩ hLater ⟨choice₁, hAdvance₁⟩
    refine Bool.eq_false_iff.mpr fun hDeleted => ?_
    have hBound := h.rank_le hNext (rank_evicted t' who) hLater
    have hKnows : P.Knows u c pc₁ := h.knows (hNext.trans hLater)
    exact absurd ((step_of_advance hAdvance₁).rank_of_deleted hEv hKnows hDeleted) (not_lt.mpr hBound)

theorem lru_admission (P : Params σ) (hEv : P.ev = .evictLRU) (hMax : 0 < P.opts.maxKeys)
    (history : List (Call σ ρ × Outcome ρ)) (s : Store P.shardCount σ) (h : P.Serial history s)
    (c : Call σ ρ) : P.Admission history s c := by
  refine ⟨?_, ?_, ?_⟩
  · refine (h.inevitable c).mono_run ?_
    rintro ⟨t, pc⟩ hRun ⟨outcome, rfl⟩
    obtain ⟨r, rfl⟩ := h.ok_of_done hEv hRun
    exact ⟨r, rfl⟩
  · exact fun s' outcome hReturns => h.ok_of_done hEv hReturns
  · exact fun t pc t' who hAlone hMove => h.eviction hEv hMax hAlone hMove

theorem lru_admission_demo : ∃ history s, (demo .evictLRU).Serial history s ∧
    history.map Prod.fst = [demoCall 97 5] ∧
    (demo .evictLRU).Admission history s (demoCall 98 6) := by
  obtain ⟨history, s, hSerial, hCalls⟩ := exists_serial (demo .evictLRU) [demoCall 97 5]
  exact ⟨history, s, hSerial, hCalls,
    lru_admission (demo .evictLRU) rfl (by decide) history s hSerial (demoCall 98 6)⟩

end Params

end Kaka.Memory
