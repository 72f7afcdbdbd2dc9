import Kaka.Memory.StoreContents

/-! # The representation invariant

Every reachable state of every interleaving satisfies it. The count
compares `live` with the keys of all shards and with the debts of all
calls; a step changes both sides by the same amount.
-/

namespace Kaka.Memory

open Interleaving

variable {σ ρ : Type}

namespace Params

variable {P : Params σ} {tid : Tid} {choice : List Key} {s s' : Store P.shardCount σ}
  {c : Call σ ρ} {pc pc' : Pc P.shardCount ρ} {i : Fin P.shardCount} {sh : Shard σ}

/-! ## The place of a call -/

theorem stored_congr {key : Key} (hShard : s'.shards (P.shardFor key) = s.shards (P.shardFor key)) :
    P.Stored s' key ↔ P.Stored s key := by
  rw [Stored, keys, hShard, Stored]

theorem Scanned.congr {todo : List Victim} (h : P.Scanned s i todo)
    (hShard : s'.shards i = s.shards i) : P.Scanned s' i todo :=
  ⟨h.nodup, by rw [keys, hShard]; exact h.stored, by rw [hShard]; exact h.holds⟩

/-- What a call knows depends on no shard but the one it holds. -/
theorem PcOk.congr (hOk : P.PcOk s c pc)
    (hShard : ∀ i, pc.holds (P.self c) = some i → s'.shards i = s.shards i) : P.PcOk s' c pc := by
  cases pc with
  | expire todo next | expired todo next =>
    obtain ⟨hScanned, hAfter⟩ := hOk
    refine ⟨hScanned.congr (hShard _ rfl), ?_⟩
    cases next with
    | run => exact ⟨(stored_congr (hShard _ rfl)).mpr hAfter.1, hAfter.2⟩
    | reserve => exact mt (stored_congr (hShard _ rfl)).mp hAfter
    | sweep i => exact hAfter
  | reserve => exact mt (stored_congr (hShard _ rfl)).mp hOk
  | load swept | full swept =>
    exact ⟨hOk.1, fun h => mt (stored_congr (hShard _ rfl)).mp (hOk.2 h)⟩
  | cas seen swept =>
    exact ⟨hOk.1, fun h => mt (stored_congr (hShard _ rfl)).mp (hOk.2.1 h), hOk.2.2⟩
  | evicted who | counted who =>
    refine ⟨hOk.1, hOk.2.1, ?_⟩
    cases who with
    | self swept => exact fun h => mt (stored_congr (hShard _ rfl)).mp (hOk.2.2 h)
    | other i => exact hOk.2.2
  | giveBack | refresh | run => exact (stored_congr (hShard _ rfl)).mpr hOk
  | _ => exact hOk

theorem Scanned.of_scan {out : Shard σ × List Victim} {now : Int} (hWF : sh.WF P.ev)
    (hScan : Shard.Scan P.opts sh now out) : P.Scanned (s.setShard i out.1) i out.2 := by
  refine ⟨hScan.nodup, ?_, ?_⟩
  · intro v hv
    obtain ⟨e, hPeek, _⟩ := hScan.idle v hv
    rw [keys, Store.setShard_self, hScan.keys_eq, ← Shard.peek_isSome hWF, hPeek]
    rfl
  · intro v hv
    rw [Store.setShard_self]
    exact hScan.holds' hv

theorem Scanned.drop {v : Victim} {rest : List Victim} (hGood : P.Good s)
    (h : P.Scanned s i (v :: rest)) :
    P.Scanned (s.setShard i ((s.shards i).drop P.ev v)) i rest := by
  have hNodup := List.nodup_cons.mp h.nodup
  have hNe : ∀ w ∈ rest, w.key ≠ v.key :=
    fun w hw hEq => hNodup.1 (List.mem_map.mpr ⟨w, hw, hEq⟩)
  obtain ⟨_, hKeys, _⟩ := Shard.drop_spec (hGood.wf i) (h.stored v List.mem_cons_self)
    (h.holds v List.mem_cons_self)
  refine ⟨hNodup.2, ?_, ?_⟩
  · intro w hw
    rw [keys, Store.setShard_self]
    rcases List.mem_cons.mp (hKeys.mem_iff.mpr (h.stored w (List.mem_cons_of_mem _ hw))) with hEq | hMem
    · exact absurd hEq (hNe w hw)
    · exact hMem
  · intro w hw
    rw [Store.setShard_self]
    exact Shard.drop_holds (h.holds v List.mem_cons_self) (h.holds w (List.mem_cons_of_mem _ hw))
      (hNe w hw)

/-- Only a call's own creation makes a key stored. -/
theorem Change.of_stored (h : P.Change c s s' pc pc') (hGood : P.Good s) (hGood' : P.Good s')
    {key : Key} (hStored : P.Stored s' key) :
    P.Stored s key ∨ (pc = .recheck ∧ pc' = .run ∧ key = c.key) := by
  rw [hGood'.stored_iff] at hStored
  rw [hGood.stored_iff]
  cases h with
  | keep _ hValue => exact .inl (hValue key ▸ hStored)
  | create _ _ hValue =>
    rw [hValue] at hStored
    split at hStored
    · exact .inr ⟨rfl, rfl, ‹_›⟩
    · exact .inl hStored
  | drop i v _ _ hValue =>
    rw [hValue] at hStored
    split at hStored
    · cases hStored
    · exact .inl hStored
  | run hOld _ hValue =>
    rw [hValue] at hStored
    split at hStored
    · rename_i hEq
      exact .inl (by rw [hEq, hOld]; rfl)
    · exact .inl hStored

theorem cleanup_spares {key : Key} {now : Int} (hWF : sh.WF P.ev)
    (hSeen : ∃ v, sh.peek P.ev key = some (v, now)) :
    ∀ v ∈ (sh.cleanup P.opts choice now).2, v.key ≠ key := by
  have hScan := Shard.cleanup_scan P.opts choice hWF now
  intro v hv hEq
  obtain ⟨w, hSeen⟩ := hSeen
  obtain ⟨e, hPeek, hIdle⟩ := hScan.idle v hv
  rw [hEq, hSeen] at hPeek
  obtain rfl := Option.some.inj hPeek
  have hTtl := hScan.ttl (List.ne_nil_of_mem hv)
  simp only [sub_self] at hIdle
  omega

theorem Step.ok (h : P.Step tid choice s c pc s' pc') (hGood : P.Good s) (hOk : P.PcOk s c pc) :
    P.PcOk s' c pc' := by
  have hGood' := h.good hGood hOk
  have hStored := fun (key : Key) (hNow : P.Stored s' key) =>
    (h.change hGood hOk).of_stored hGood hGood' hNow
  cases h with
  | hit hHit =>
    obtain ⟨hWF, hKeys, hMem, hPeek⟩ := Shard.hit_spec (hGood.wf _) hHit
    have hScan := Shard.cleanup_scan P.opts choice hWF c.now
    refine ⟨.of_scan hWF hScan, ?_, ?_⟩
    · rw [stored_setShard, hScan.keys_eq]
      exact hKeys.mem_iff.mpr hMem
    · refine cleanup_spares hWF ?_
      obtain ⟨e, he⟩ := Option.isSome_iff_exists.mp ((Shard.peek_isSome (hGood.wf _) _).mpr hMem)
      exact ⟨e.1, by rw [hPeek, if_pos rfl, he]; rfl⟩
  | miss hMiss =>
    have hScan := Shard.cleanup_scan P.opts choice (hGood.wf (P.self c)) c.now
    refine ⟨.of_scan (hGood.wf _) hScan, ?_⟩
    rw [AfterOk, stored_setShard, hScan.keys_eq]
    exact (Shard.hit_eq_none (hGood.wf _) c.key c.now).mp hMiss
  | @expireDone next =>
    cases next with
    | run => exact hOk.2.1
    | reserve => exact hOk.2
    | sweep i => exact hOk.2
  | @expireDrop v rest next =>
    refine ⟨hOk.1.drop hGood, ?_⟩
    cases next with
    | run =>
      refine ⟨?_, fun w hw => hOk.2.2 w (List.mem_cons_of_mem _ hw)⟩
      obtain ⟨_, hKeys, _⟩ := Shard.drop_spec (hGood.wf _) (hOk.1.stored _ List.mem_cons_self)
        (hOk.1.holds _ List.mem_cons_self)
      have hKey : c.key ≠ v.key := (hOk.2.2 v List.mem_cons_self).symm
      exact (stored_setShard _).mpr
        ((List.mem_cons.mp (hKeys.mem_iff.mpr hOk.2.1)).resolve_left hKey)
    | reserve =>
      intro hNow
      rcases hStored _ hNow with hBefore | ⟨hPc, _⟩
      · exact hOk.2 hBefore
      · cases hPc
    | sweep i => exact hOk.2
  | @expireSkip v rest next =>
    obtain ⟨hScanned, hAfter⟩ := hOk
    refine ⟨⟨(List.nodup_cons.mp hScanned.nodup).2,
      fun w hw => hScanned.stored w (List.mem_cons_of_mem _ hw),
      fun w hw => hScanned.holds w (List.mem_cons_of_mem _ hw)⟩, ?_⟩
    cases next with
    | run => exact ⟨hAfter.1, fun w hw => hAfter.2 w (List.mem_cons_of_mem _ hw)⟩
    | reserve => exact hAfter
    | sweep i => exact hAfter
  | @expireCount rest next =>
    obtain ⟨hScanned, hAfter⟩ := hOk
    refine ⟨hScanned.congr rfl, ?_⟩
    cases next with
    | run => exact hAfter
    | reserve => exact hAfter
    | sweep i => exact hAfter
  | reserveLimited hMax => exact ⟨hMax, fun _ => hOk⟩
  | loadRoom hRoom => exact ⟨hOk.1, hOk.2, hRoom⟩
  | casLost => exact ⟨hOk.1, hOk.2.1⟩
  | evictSelf hEv =>
    refine ⟨hEv, hOk.1, fun hSwept hNow => ?_⟩
    rcases hStored _ hNow with hBefore | ⟨hPc, _⟩
    · exact hOk.2 hSwept hBefore
    · cases hPc
  | @evictNone swept hEv =>
    cases swept with
    | true => exact ⟨hEv, hOk.1⟩
    | false => exact hOk.1
  | release => exact hOk.1
  | @counted who =>
    cases who with
    | self swept => exact ⟨hOk.2.1, hOk.2.2⟩
    | other i => exact hOk
  | sweepSkip | sweepRecent | sweepEnd =>
    unfold afterSweep
    split
    · exact hOk
    · exact ⟨‹_›, hOk⟩
  | sweepScan => exact ⟨.of_scan (hGood.wf _) (Shard.cleanup_scan P.opts choice (hGood.wf _) c.now), hOk⟩
  | reloadRoom | otherEnd => exact hOk.2
  | otherLock hNe => exact ⟨hOk.1, hOk.2, hNe⟩
  | otherEmpty => exact ⟨hOk.1, hOk.2.1⟩
  | otherUnlock => exact hOk.2.1
  | relock => exact ⟨hOk, fun h => (nomatch h)⟩
  | recheckStored hHas => exact (Shard.has_iff (hGood.wf _) c.key).mp hHas
  | recheckCreate hHas =>
    have hNew : c.key ∉ P.keys s (P.self c) := by
      rw [← Shard.has_iff (hGood.wf _), hHas]
      exact Bool.false_ne_true
    obtain ⟨_, hKeys, _⟩ := Shard.create_spec (hGood.wf _) hNew (P.create c.now) c.now
    exact (stored_setShard _).mpr (hKeys.mem_iff.mpr List.mem_cons_self)
  | refresh hHit =>
    obtain ⟨_, hKeys, hMem, _⟩ := Shard.hit_spec (hGood.wf _) hHit
    exact (stored_setShard _).mpr (hKeys.mem_iff.mpr hMem)
  | lock | reserveUnlimited | casWon | reject | run | unlock => trivial
  | _ => exact hOk

end Params

end Kaka.Memory
