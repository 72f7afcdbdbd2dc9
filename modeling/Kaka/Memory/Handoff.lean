import Kaka.Memory.Representation

/-! # Giving up the shard lock inside `reserveSlot`

Between a failed lookup and the re-check, `reserveSlot` may give up the
shard lock. The key can be created by another call in that gap, and only
the path that ends with a reservation looks it up again: the paths that
reject the call or evict the tail of its own shard do not. The results
below are about the runs in which no key is created inside such a gap.
-/

namespace Kaka.Memory

open Interleaving

variable {σ ρ : Type}

namespace Pc

variable {n : Nat}

def handedOff : Pc n ρ → Bool
  -- the lock of the own shard was given up and is not yet retaken
  | .sweepEnter | .sweepGate | .sweepLock _ | .sweepScan _ | .sweepUnlock _ => true
  | .expire _ next | .expired _ next => next.sweeps
  | .reload | .evictOther _ | .evictAt _ | .evictUnlock _ | .relock => true
  | .evicted (.other _) | .counted (.other _) => true
  | _ => false

def missed : Pc n ρ → Bool
  -- the key was looked up and not found, and not yet looked up again
  | .expire _ .run | .expired _ .run => false
  | .expire _ _ | .expired _ _ => true
  | .reserve | .load _ | .cas _ _ | .full _ | .evicted _ | .counted _ | .recheck => true
  | .sweepEnter | .sweepGate | .sweepLock _ | .sweepScan _ | .sweepUnlock _ => true
  | .reload | .evictOther _ | .evictAt _ | .evictUnlock _ | .relock => true
  | _ => false

theorem holds_self_of_missed {pc : Pc n ρ} (self : Fin n) (hMissed : pc.missed = true)
    (hHeld : pc.handedOff = false) : pc.holds self = some self := by
  cases pc with
  | expire todo next | expired todo next =>
    cases next with
    | run => cases hMissed
    | reserve => rfl
    | sweep i => cases hHeld
  | evicted who | counted who =>
    cases who with
    | self swept => rfl
    | other i => cases hHeld
  | _ => simp_all [holds, missed, handedOff]

end Pc

namespace Params

variable {P : Params σ} {tid : Tid} {choice : List Key} {s s' : Store P.shardCount σ}
  {c : Call σ ρ} {pc pc' : Pc P.shardCount ρ} {who : Evictor P.shardCount}

/-- The step does not create an entry for a key while another call for the
same key has given up its shard lock. -/
def NoCreationInGap (g : P.State ρ) : Act (Call σ ρ) (List Key) → Prop
  | .start _ => True
  | .step tid _ => ∀ t ∈ g.threads[tid]?, t.pc = .recheck → ¬ P.Stored g.shared t.call.key →
      ∀ x ∈ g.threads, x.call.key = t.call.key → x.pc.handedOff = false

instance [DecidableEq ρ] (g : P.State ρ) (a : Act (Call σ ρ) (List Key)) :
    Decidable (NoCreationInGap g a) :=
  match a with
  | .start _ => isTrue trivial
  | .step tid _ => inferInstanceAs (Decidable (∀ t ∈ g.threads[tid]?, t.pc = .recheck →
      ¬ P.Stored g.shared t.call.key →
      ∀ x ∈ g.threads, x.call.key = t.call.key → x.pc.handedOff = false))

theorem Step.missed (h : P.Step tid choice s c pc s' pc') (hMissed : pc'.missed = true) :
    (pc.missed = true ∧ pc ≠ .recheck) ∨ pc = .lookup := by
  cases h with
  | hit | miss => exact .inr rfl
  | recheckStored | recheckCreate => cases hMissed
  | @expireDone next =>
    cases next with
    | run => cases hMissed
    | reserve => exact .inl ⟨rfl, by simp⟩
    | sweep i => exact .inl ⟨rfl, by simp⟩
  | @expireDrop _ _ next | @expireSkip _ _ next | @expireCount _ next =>
    cases next with
    | run => cases hMissed
    | reserve => exact .inl ⟨rfl, by simp⟩
    | sweep i => exact .inl ⟨rfl, by simp⟩
  | _ => first | exact .inl ⟨rfl, by simp⟩ | cases hMissed

theorem missed_absent {g : P.State ρ} (hReach : P.program.Reach NoCreationInGap g) :
    ∀ (tid : Tid) t, g.threads[tid]? = some t → t.pc.missed = true →
      ¬ P.Stored g.shared t.call.key := by
  refine hReach.invariant (I := fun g => ∀ (tid : Tid) t, g.threads[tid]? = some t →
    t.pc.missed = true → ¬ P.Stored g.shared t.call.key) (by simp [Program.initial]) ?_
  intro g a g' hReach hAbsent hGap hNext
  have hInv := inv hReach.reachable
  rcases next_cases hNext with ⟨call, _, rfl⟩ | ⟨tid, choice, t, s', pc', rfl, ht, hStep, rfl⟩
  · intro u x hx hMissed
    rcases getElem?_snoc_cases hx with ⟨_, rfl⟩ | hx
    · cases hMissed
    · exact hAbsent u x hx hMissed
  · have hOk := hInv.ok tid t ht
    have hGood' := hStep.good hInv.good hOk
    have hChange := hStep.change hInv.good hOk
    intro u x hx hMissed hStored
    rcases getElem?_set_cases hx ht with ⟨_, rfl⟩ | ⟨hNe, hx⟩
    · have hOk' := hStep.ok hInv.good hOk
      rcases hStep.missed hMissed with ⟨hBefore, hPc⟩ | hPc
      · rcases hChange.of_stored hInv.good hGood' hStored with hOld | ⟨hRecheck, _⟩
        · exact hAbsent tid t ht hBefore hOld
        · exact hPc hRecheck
      · rw [hPc] at hStep
        cases hStep with
        | hit => cases hMissed
        | miss => exact hOk'.2 hStored
    · rcases hChange.of_stored hInv.good hGood' hStored with hOld | ⟨hRecheck, _, hKey⟩
      · exact hAbsent u x hx hMissed hOld
      · -- the other call created the key: it holds the shard lock, so this call has given it up
        have hNew : ¬ P.Stored g.shared t.call.key :=
          hAbsent tid t ht (by rw [hRecheck]; rfl)
        have hHeld := hGap t ht hRecheck hNew x (List.mem_of_getElem? hx) hKey
        have hMine : x.pc.holds (P.self x.call) = some (P.self t.call) := by
          rw [Pc.holds_self_of_missed _ hMissed hHeld, self, hKey]
        have hTheirs : t.pc.holds (P.self t.call) = some (P.self t.call) := by
          rw [hRecheck]
          rfl
        exact hNe (hInv.locks.shard.unique hx hMine ht hTheirs)

/-! ## Rejection -/

/-- Whenever a call for `key` decides to return `ErrMaxKeysExceeded`, it
holds its shard's lock and `key` is not stored there. -/
def RejectsOnlyNew (P : Params σ) (ρ : Type)
    (ok : P.State ρ → Act (Call σ ρ) (List Key) → Prop) : Prop :=
  ∀ (g g' : P.State ρ) (tid : Tid) choice key, P.program.Reach ok g → ok g (.step tid choice) →
    P.program.next g (.step tid choice) = some g' → keyOf g tid = some key →
    pcOf g tid ≠ some (.unlock .errMaxKeysExceeded) →
    pcOf g' tid = some (.unlock .errMaxKeysExceeded) →
    (g.shared.shards (P.shardFor key)).mu = some tid ∧ ¬ P.Stored g.shared key

theorem Step.reject_pc (h : P.Step tid choice s c pc s' (.unlock .errMaxKeysExceeded)) :
    pc = .full true := by
  generalize hPc : (.unlock .errMaxKeysExceeded : Pc P.shardCount ρ) = pc' at h
  cases h with
  | reject => rfl
  | @expireDone next => cases next <;> cases hPc
  | @counted who => cases who <;> cases hPc
  | @evictNone swept => cases swept <;> cases hPc
  | sweepSkip | sweepRecent | sweepEnd =>
    unfold afterSweep at hPc
    split at hPc <;> cases hPc
  | _ => cases hPc

theorem rejects_only_new (P : Params σ) : P.RejectsOnlyNew ρ NoCreationInGap := by
  intro g g' tid choice key hReach _ hNext hKey _ hPc'
  have hInv := inv hReach.reachable
  obtain ⟨t, s', pc', ht, hStep, _, hKeyOf, _, hPcOf⟩ := step_cases hNext
  obtain rfl : t.call.key = key := Option.some.inj (hKeyOf.symm.trans hKey)
  obtain rfl : pc' = .unlock .errMaxKeysExceeded := Option.some.inj (hPcOf.symm.trans hPc')
  have hFull := hStep.reject_pc
  refine ⟨(hInv.locks.shard _ tid).mpr ⟨t, ht, by simp only [hFull]; rfl⟩, ?_⟩
  exact missed_absent hReach tid t ht (by rw [hFull]; rfl)

def race : Params Nat where
  opts := { maxKeys := 1, keyTTL := 10, cleanupInterval := 5 }
  shardCount := 2
  power := two_shards
  create _ := 0

/-- Key `a` fills the store and expires.  A first call for `b` finds the store
full, releases its lock and sweeps `a`; a second call for `b` takes the freed
slot and returns; the first call retakes its lock and finds the store full. -/
def raceRun : List (Act (Call Nat Nat) (List Key)) :=
  .start (demoCall 97 1000) :: steps 0 9 ++
    .start (demoCall 98 1100) :: steps 1 19 ++
    .start (demoCall 98 1100) :: steps 2 9 ++ steps 1 2

theorem rejects_stored_key : ¬ race.RejectsOnlyNew Nat (fun _ _ => True) := by
  intro hNew
  let g := race.program.final (fun _ _ => True) raceRun
  have hReach : race.program.Reachable g := .final raceRun (by decide +kernel)
  have hReject : (race.program.next g (.step 1 [])).bind (pcOf · 1) =
      some (.unlock .errMaxKeysExceeded) := by decide +kernel
  obtain ⟨g', hNext, hPc⟩ := Option.bind_eq_some_iff.mp hReject
  have hAbsent := (hNew g g' 1 [] [98] hReach trivial hNext (by decide +kernel)
    (by decide +kernel) hPc).2
  exact hAbsent (by decide +kernel)

def refusedRun : List (Act (Call Nat Nat) (List Key)) :=
  .start (demoCall 97 1000) :: steps 0 9 ++
    .start (demoCall 98 1100) :: steps 1 19 ++
    .start (demoCall 99 1100) :: steps 2 9 ++ steps 1 2

theorem rejects_only_new_refusedRun :
    let g := race.program.final NoCreationInGap refusedRun
    ∃ g', race.program.next g (.step 1 []) = some g' ∧
      pcOf g' 1 = some (.unlock .errMaxKeysExceeded) ∧ ¬ race.Stored g.shared [98] := by
  intro g
  have hReject : (race.program.next g (.step 1 [])).bind (pcOf · 1) =
      some (.unlock .errMaxKeysExceeded) := by decide +kernel
  obtain ⟨g', hNext, hPc⟩ := Option.bind_eq_some_iff.mp hReject
  exact ⟨g', hNext, hPc, (rejects_only_new race g g' 1 [] [98]
    (.final refusedRun (by decide +kernel)) (by decide +kernel) hNext (by decide +kernel)
    (by decide +kernel) hPc).2⟩

/-! ## Eviction -/

/-- The entry that a call for `key` removes through `evictFrom` is not the
entry of `key`, whose state is left as it was. -/
def EvictsOnlyOthers (P : Params σ) (ρ : Type)
    (ok : P.State ρ → Act (Call σ ρ) (List Key) → Prop) : Prop :=
  ∀ (g g' : P.State ρ) (tid : Tid) choice key who, P.program.Reach ok g → ok g (.step tid choice) →
    P.program.next g (.step tid choice) = some g' → keyOf g tid = some key →
    pcOf g' tid = some (.evicted who) →
    ∃ v, (g.shared.shards (who.shard (P.shardFor key))).tail? = some v ∧ v.key ≠ key ∧
      P.value g'.shared key = P.value g.shared key

theorem Step.evicts (h : P.Step tid choice s c pc s' (.evicted who)) :
    ∃ v, (s.shards (who.shard (P.self c))).tail? = some v ∧
      ((∃ swept, who = .self swept ∧ pc = .full swept ∧ P.ev = .evictLRU) ∨
        ∃ i, who = .other i ∧ pc = .evictAt i) ∧
      s' = s.setShard (who.shard (P.self c)) ((s.shards (who.shard (P.self c))).drop .evictLRU v) := by
  generalize hPc : (.evicted who : Pc P.shardCount ρ) = pc' at h
  cases h with
  | @evictSelf swept v hEv hTail =>
    cases hPc
    exact ⟨v, hTail, .inl ⟨swept, rfl, rfl, hEv⟩, by rw [hEv]; rfl⟩
  | @otherEvict i v hTail =>
    cases hPc
    exact ⟨v, hTail, .inr ⟨i, rfl, rfl⟩, rfl⟩
  | @expireDone next => cases next <;> cases hPc
  | @counted who => cases who <;> cases hPc
  | @evictNone swept => cases swept <;> cases hPc
  | sweepSkip | sweepRecent | sweepEnd =>
    unfold afterSweep at hPc
    split at hPc <;> cases hPc
  | _ => cases hPc

theorem evicts_only_others (P : Params σ) : P.EvictsOnlyOthers ρ NoCreationInGap := by
  intro g g' tid choice key who hReach _ hNext hKey hPc'
  have hInv := inv hReach.reachable
  obtain ⟨t, s', pc', ht, hStep, rfl, hKeyOf, _, hPcOf⟩ := step_cases hNext
  obtain rfl : t.call.key = key := Option.some.inj (hKeyOf.symm.trans hKey)
  obtain rfl : pc' = .evicted who := Option.some.inj (hPcOf.symm.trans hPc')
  have hOk := hInv.ok tid t ht
  obtain ⟨v, hTail, hWho, hStore⟩ := hStep.evicts
  obtain ⟨hMem, hHolds⟩ := Shard.tail?_spec hTail
  have hEv : P.ev = .evictLRU := by
    rcases hWho with ⟨_, _, _, hEv⟩ | ⟨i, _, hPc⟩
    · exact hEv
    · rw [hPc] at hOk
      exact hOk.1
  rw [← hEv] at hMem
  have hNe : v.key ≠ t.call.key := by
    rcases hWho with ⟨swept, rfl, hPc, _⟩ | ⟨i, rfl, hPc⟩
    · -- the call's own shard: its key has been absent since the lookup
      intro hEq
      refine missed_absent hReach tid t ht (by rw [hPc]; rfl) ?_
      rw [hEq] at hMem
      exact hMem
    · intro hEq
      rw [hPc] at hOk
      have hPlaced := hInv.good.placed i v.key hMem
      rw [hEq] at hPlaced
      exact hOk.2.2 hPlaced.symm
  obtain ⟨_, _, hPeek⟩ := Shard.drop_spec (hInv.good.wf _) hMem (hEv ▸ hHolds)
  refine ⟨v, hTail, hNe, ?_⟩
  rw [hStore, ← hEv, value_setShard]
  split
  · rename_i hShard
    rw [hPeek, if_neg hNe.symm, ← hShard]
    rfl
  · rfl

/-- Key `a` fills the store.  A first call for `b` finds the store full and its
shard empty and releases its lock; a second call for `b` evicts `a`, creates
`b` and returns; the first call finds nothing else to evict, retakes its lock
and finds the store full. -/
def evictRaceRun : List (Act (Call Nat Nat) (List Key)) :=
  .start (demoCall 97 1) :: steps 0 9 ++
    .start (demoCall 98 2) :: steps 1 7 ++
    .start (demoCall 98 2) :: steps 2 19 ++ steps 1 7

theorem evicts_own_key : ¬ (demo .evictLRU).EvictsOnlyOthers Nat (fun _ _ => True) ∧
    -- run on, both calls for `b` are answered from a fresh state
    (∀ tid ∈ [1, 2], pcOf ((demo .evictLRU).program.final (fun _ _ => True)
      (evictRaceRun ++ steps 1 8)) tid = some (.done (.ok 0))) := by
  refine ⟨?_, by decide +kernel⟩
  intro hOthers
  let g := (demo .evictLRU).program.final (fun _ _ => True) evictRaceRun
  have hReach : (demo .evictLRU).program.Reachable g := .final evictRaceRun (by decide +kernel)
  have hEvict : ((demo .evictLRU).program.next g (.step 1 [])).bind (pcOf · 1) =
      some (.evicted (.self true)) := by decide +kernel
  have hOwn : (g.shared.shards ((Evictor.self true).shard ((demo .evictLRU).shardFor [98]))).tail?.map
      Victim.key = some [98] := by decide +kernel
  obtain ⟨g', hNext, hPc⟩ := Option.bind_eq_some_iff.mp hEvict
  obtain ⟨v, hTail, hNe, _⟩ := hOthers g g' 1 [] [98] (.self true) hReach trivial hNext
    (by decide +kernel) hPc
  rw [hTail] at hOwn
  exact hNe (Option.some.inj hOwn)

theorem evicts_only_others_demoRun :
    let g := (demo .evictLRU).program.final NoCreationInGap demoRun.dropLast
    ∃ g' v, (demo .evictLRU).program.next g (.step 1 []) = some g' ∧
      (g.shared.shards (0 : Fin 2)).tail? = some v ∧ v.key ≠ [98] := by
  intro g
  have hEvict : ((demo .evictLRU).program.next g (.step 1 [])).bind (pcOf · 1) =
      some (.evicted (.other (0 : Fin 2))) := by decide +kernel
  obtain ⟨g', hNext, hPc⟩ := Option.bind_eq_some_iff.mp hEvict
  obtain ⟨v, hTail, hNe, _⟩ := evicts_only_others (demo .evictLRU) g g' 1 [] [98]
    (.other (0 : Fin 2)) (.final demoRun.dropLast (by decide +kernel)) (by decide +kernel) hNext
    (by decide +kernel) hPc
  exact ⟨g', v, hNext, hTail, hNe⟩

end Params

end Kaka.Memory
