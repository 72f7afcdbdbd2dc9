import Kaka.Memory.Representation

/-! # No rejection while there is room

`reserveSlot` judges the cap by `live`, which runs ahead of the maps: it
also counts entries deleted and not yet subtracted, and slots reserved for
keys that turn out to be stored.  A rejection is justified where the load
that leads to it sees neither.
-/

namespace Kaka.Memory

open Interleaving

variable {σ ρ : Type}

namespace Params

variable {P : Params σ} {tid : Tid} {choice : List Key} {s s' : Store P.shardCount σ}
  {c : Call σ ρ} {pc pc' : Pc P.shardCount ρ}

/-! ## Occupied keys -/

def storedKeys (P : Params σ) (s : Store P.shardCount σ) : List Key :=
  (List.finRange P.shardCount).flatMap (P.keys s)

/-- The keys about to be stored by a call that has reserved a slot. -/
def pendingKeys (g : P.State ρ) : List Key :=
  (g.threads.filter fun t => reserved t.pc && !decide (P.Stored g.shared t.call.key)).map
    fun t => t.call.key

def occupied (g : P.State ρ) : Finset Key := (P.storedKeys g.shared ++ pendingKeys g).toFinset

/-- Nothing counted by `live` is in transit: no deleted entry is still
counted, and every reserved slot is for a key that is not stored. -/
def Settled (g : P.State ρ) : Prop :=
  ∀ x ∈ g.threads, deleted x.pc = false ∧ (reserved x.pc = true → ¬ P.Stored g.shared x.call.key)

instance (g : P.State ρ) : Decidable (Settled g) :=
  inferInstanceAs (Decidable (∀ x ∈ g.threads, _ ∧ _))

theorem storedKeys_nodup (hGood : P.Good s) : (P.storedKeys s).Nodup := by
  refine List.nodup_flatMap.mpr ⟨fun i _ => Shard.keys_nodup (hGood.wf i), ?_⟩
  refine (List.nodup_finRange _).imp fun {i j} hNe => ?_
  intro key hi hj
  exact hNe ((hGood.placed i key hi).symm.trans (hGood.placed j key hj))

theorem length_storedKeys : (P.storedKeys s).length = P.total s := by
  rw [storedKeys, List.length_flatMap, total, Fin.sum_univ_def]

theorem mem_storedKeys (hGood : P.Good s) {key : Key} :
    key ∈ P.storedKeys s ↔ P.Stored s key := by
  rw [storedKeys, List.mem_flatMap]
  constructor
  · rintro ⟨i, _, hMem⟩
    rw [Stored, hGood.placed i key hMem]
    exact hMem
  · exact fun hStored => ⟨_, List.mem_finRange _, hStored⟩

/-- A call with a reserved slot holds its shard's lock, so no two of them are
for the same key. -/
theorem pendingKeys_nodup {g : P.State ρ} (hLocks : Discipline g) : (pendingKeys g).Nodup := by
  rw [pendingKeys, List.Nodup, List.pairwise_map, List.pairwise_filter, List.pairwise_iff_getElem]
  intro i j hi hj hLt hResI hResJ hEq
  have hHeld : ∀ k (hk : k < g.threads.length), reserved (g.threads[k]).pc = true →
      (g.shared.shards (P.self (g.threads[k]).call)).mu = some k := by
    intro k hk hRes
    refine (hLocks.shard _ k).mpr ⟨_, List.getElem?_eq_getElem hk, ?_⟩
    cases hPc : (g.threads[k]).pc <;> simp_all [reserved, Pc.holds]
  have hI := hHeld i hi (Bool.and_eq_true_iff.mp hResI).1
  have hJ := hHeld j hj (Bool.and_eq_true_iff.mp hResJ).1
  rw [self, hEq, hJ] at hI
  have := Option.some.inj hI
  omega

theorem length_pendingKeys {g : P.State ρ} (hSettled : Settled g) :
    (pendingKeys g).length = g.threads.countP fun t => reserved t.pc := by
  rw [pendingKeys, List.length_map, ← List.countP_eq_length_filter]
  refine List.countP_congr fun x hx => ?_
  simpa using (hSettled x hx).2

theorem live_eq_occupied {g : P.State ρ} (hInv : P.Inv g) (hSettled : Settled g) :
    g.shared.live = (occupied g).card := by
  have hDisjoint : (P.storedKeys g.shared).Disjoint (pendingKeys g) := by
    intro key hStored hPending
    obtain ⟨t, ht, rfl⟩ := List.mem_map.mp hPending
    have hNew := (Bool.and_eq_true_iff.mp (List.mem_filter.mp ht).2).2
    simp only [Bool.not_eq_true', decide_eq_false_iff_not] at hNew
    exact hNew ((mem_storedKeys hInv.good).mp hStored)
  have hNodup := List.nodup_append'.mpr
    ⟨storedKeys_nodup hInv.good, pendingKeys_nodup hInv.locks, hDisjoint⟩
  have hNone : (g.threads.countP fun t => deleted t.pc) = 0 := by
    rw [List.countP_eq_zero]
    intro x hx
    simp [(hSettled x hx).1]
  have hCount := hInv.count
  rw [sum_debt, hNone, ← length_pendingKeys hSettled, ← length_storedKeys] at hCount
  rw [occupied, List.toFinset_card_of_nodup hNodup, List.length_append]
  omega

/-! ## The decision to reject -/

/-- A load of `live` that finds the store full after the sweep finds the store
settled. -/
def SettledAtLoad (g : P.State ρ) : Act (Call σ ρ) (List Key) → Prop
  | .start _ => True
  | .step tid _ => pcOf g tid = some (.load true) → P.opts.maxKeys ≤ g.shared.live → Settled g

instance [DecidableEq ρ] (g : P.State ρ) (a : Act (Call σ ρ) (List Key)) :
    Decidable (SettledAtLoad g a) :=
  match a with
  | .start _ => isTrue trivial
  | .step tid _ => inferInstanceAs (Decidable (pcOf g tid = some (.load true) →
      P.opts.maxKeys ≤ g.shared.live → Settled g))

def InProgress (g : P.State ρ) (tid : Tid) : Prop := ∃ pc ∈ pcOf g tid, outcome? pc = none

instance [DecidableEq ρ] (g : P.State ρ) (tid : Tid) : Decidable (InProgress g tid) :=
  inferInstanceAs (Decidable (∃ pc ∈ pcOf g tid, outcome? pc = none))

/-- Whenever a call has returned `ErrMaxKeysExceeded`, at some moment while it
was in progress at least `maxKeys` keys were stored or about to be stored. -/
def RejectsOnlyWhenFull (P : Params σ) (ρ : Type)
    (ok : P.State ρ → Act (Call σ ρ) (List Key) → Prop) : Prop :=
  ∀ (seen : List (P.State ρ)) (g : P.State ρ) (tid : Tid), P.program.Path ok P.program.initial seen g →
    pcOf g tid = some (.done .errMaxKeysExceeded) →
    ∃ h ∈ P.program.initial :: seen, InProgress h tid ∧ P.opts.maxKeys ≤ (occupied h).card

def rejecting : Pc P.shardCount ρ → Bool
  | .full true | .unlock .errMaxKeysExceeded | .done .errMaxKeysExceeded => true
  | _ => false

theorem Step.rejecting (h : P.Step tid choice s c pc s' pc') (hRej : rejecting pc' = true) :
    Params.rejecting pc = true ∨ (pc = .load true ∧ P.opts.maxKeys ≤ s.live) := by
  cases h with
  | @loadFull swept hFull =>
    cases swept with
    | true => exact .inr ⟨rfl, hFull⟩
    | false => cases hRej
  | reject => exact .inl rfl
  | @unlock outcome =>
    cases outcome with
    | ok r => cases hRej
    | errMaxKeysExceeded => exact .inl rfl
  | @expireDone next => cases next <;> cases hRej
  | @counted who => cases who <;> cases hRej
  | @evictNone swept => cases swept <;> cases hRej
  | sweepSkip | sweepRecent | sweepEnd =>
    unfold afterSweep at hRej
    split at hRej <;> cases hRej
  | _ => cases hRej

theorem full_before_rejecting {seen : List (P.State ρ)} {g : P.State ρ}
    (hPath : P.program.Path SettledAtLoad P.program.initial seen g) (tid : Tid)
    (hRej : ∃ pc ∈ pcOf g tid, rejecting pc = true) :
    ∃ h ∈ P.program.initial :: seen, InProgress h tid ∧ P.opts.maxKeys ≤ (occupied h).card := by
  induction hPath with
  | nil =>
    obtain ⟨pc, hPc, _⟩ := hRej
    cases hPc
  | @snoc seen g a g' hBefore hOk hNext ih =>
    -- either the call was already bound to reject, or this step is its load
    have hEarlier : (∃ pc ∈ pcOf g tid, rejecting pc = true) ∨
        (pcOf g tid = some (.load true) ∧ P.opts.maxKeys ≤ g.shared.live ∧
          ∃ choice, a = .step tid choice) := by
      obtain ⟨pc, hPc, hRej⟩ := hRej
      obtain ⟨x, hx, rfl⟩ := Option.map_eq_some_iff.mp hPc
      rcases next_cases hNext with ⟨call, _, rfl⟩ | ⟨u, choice, t, s', pc', hAct, ht, hStep, rfl⟩
      · rcases getElem?_snoc_cases hx with ⟨_, rfl⟩ | hOld
        · cases hRej
        · exact .inl ⟨x.pc, by rw [pcOf, hOld]; rfl, hRej⟩
      · rcases getElem?_set_cases hx ht with ⟨rfl, rfl⟩ | ⟨_, hOld⟩
        · rcases hStep.rejecting hRej with hWas | ⟨hLoad, hFull⟩
          · exact .inl ⟨t.pc, by rw [pcOf, ht]; rfl, hWas⟩
          · exact .inr ⟨by rw [pcOf, ht, ← hLoad]; rfl, hFull, choice, hAct⟩
        · exact .inl ⟨x.pc, by rw [pcOf, hOld]; rfl, hRej⟩
    rcases hEarlier with hWas | ⟨hLoad, hFull, choice, rfl⟩
    · obtain ⟨h, hMem, hHolds⟩ := ih hWas
      exact ⟨h, by rw [← List.cons_append]; exact List.mem_append_left _ hMem, hHolds⟩
    · have hSettled : Settled g := hOk hLoad hFull
      have hReach : P.program.Reach SettledAtLoad g := ⟨seen, hBefore⟩
      have hLive := live_eq_occupied (inv hReach.reachable) hSettled
      refine ⟨g, ?_, ⟨_, hLoad, rfl⟩, by omega⟩
      rw [← List.cons_append]
      exact List.mem_append_left _ hBefore.last_mem

theorem rejects_only_when_full (P : Params σ) : P.RejectsOnlyWhenFull ρ SettledAtLoad := by
  intro seen g tid hPath hDone
  exact full_before_rejecting hPath tid ⟨_, hDone, rfl⟩

def pair : Params Nat where
  opts := { maxKeys := 2, keyTTL := 10, cleanupInterval := 5 }
  shardCount := 2
  power := two_shards
  create _ := 0

/-- Keys `a` and `c` fill the store and expire.  A call for `b` finds it full
and sweeps both; a second call for `b` stores `b` and returns; the first
reserves a slot for `b` and has not yet seen that it is stored.  A call for
`e` then counts two slots, finds the last sweep recent, and rejects. -/
def overcountRun : List (Act (Call Nat Nat) (List Key)) :=
  .start (demoCall 97 1000) :: steps 0 9 ++
    .start (demoCall 99 1000) :: steps 1 9 ++
    .start (demoCall 98 1100) :: steps 2 21 ++
    .start (demoCall 98 1100) :: steps 3 9 ++ steps 2 3 ++
    .start (demoCall 101 1100) :: steps 4 12

theorem rejects_with_room : ¬ pair.RejectsOnlyWhenFull Nat (fun _ _ => True) := by
  intro hFull
  have hSome : (pair.program.trace (fun _ _ => True) pair.program.initial overcountRun).isSome =
      true := by decide +kernel
  -- in every state of the run the call for `e` is in progress with one key stored
  have hRoom : ∀ seen ∈ pair.program.trace (fun _ _ => True) pair.program.initial overcountRun,
      pcOf (seen.getLastD pair.program.initial) 4 = some (.done .errMaxKeysExceeded) ∧
      ∀ h ∈ pair.program.initial :: seen, InProgress h 4 → (occupied h).card = 1 := by
    decide +kernel
  obtain ⟨seen, hSeen⟩ := Option.isSome_iff_exists.mp hSome
  obtain ⟨hDone, hOne⟩ := hRoom seen hSeen
  obtain ⟨h, hMem, hBusy, hTwo⟩ := hFull seen _ 4 (.of_trace overcountRun hSeen) hDone
  rw [hOne h hMem hBusy] at hTwo
  exact absurd hTwo (by decide)

def fullRun : List (Act (Call Nat Nat) (List Key)) :=
  .start (demoCall 97 1000) :: steps 0 9 ++
    .start (demoCall 99 1000) :: steps 1 9 ++
    .start (demoCall 98 1001) :: steps 2 21

theorem rejects_only_when_full_fullRun :
    ∃ seen, pair.program.trace SettledAtLoad pair.program.initial fullRun = some seen ∧
      ∃ h ∈ pair.program.initial :: seen, InProgress h 2 ∧
        pair.opts.maxKeys ≤ (occupied h).card := by
  have hSome : (pair.program.trace SettledAtLoad pair.program.initial fullRun).isSome = true := by
    decide +kernel
  have hRefused : ∀ seen ∈ pair.program.trace SettledAtLoad pair.program.initial fullRun,
      pcOf (seen.getLastD pair.program.initial) 2 = some (.done .errMaxKeysExceeded) := by
    decide +kernel
  obtain ⟨seen, hSeen⟩ := Option.isSome_iff_exists.mp hSome
  exact ⟨seen, hSeen, rejects_only_when_full pair seen _ 2 (.of_trace fullRun hSeen)
    (hRefused seen hSeen)⟩

end Params

end Kaka.Memory
