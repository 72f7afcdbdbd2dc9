import Kaka.Base.Inevitable
import Kaka.Memory.Progress
import Kaka.Memory.Serial

/-! # A call that has the store to itself returns

In a single-threaded run `live` is the number of stored keys, so a call that
finds the store full makes room with one eviction, or rejects after one sweep:
the loop of `reserveSlot` goes round once more at most.  A rank that falls
with every step says so.
-/

namespace Kaka.Memory

open Interleaving

variable {σ ρ : Type}

namespace Params

/-- One step of the call `c`, alone on the store. -/
def Moves (P : Params σ) (tid : Tid) (c : Call σ ρ) (x y : Store P.shardCount σ × Pc P.shardCount ρ) :
    Prop :=
  ∃ choice, P.advance tid choice x.1 c x.2 = some y

/-- The invariant of the store as it is for a lone call. -/
structure Solo (P : Params σ) (s : Store P.shardCount σ) (c : Call σ ρ) (pc : Pc P.shardCount ρ) :
    Prop where
  good : P.Good s
  ok : P.PcOk s c pc
  free : ∀ i, pc.holds (P.self c) ≠ some i → (s.shards i).mu = none
  sweepFree : pc.sweeps = false → s.sweepMu = none
  count : s.live = P.total s + debt pc
  cap : 0 < P.opts.maxKeys → s.live ≤ P.opts.maxKeys

/-- What a lone call knows about the room at its place: under `EvictLRU` it
sweeps with its own shard empty, and has a free slot once it has evicted. -/
def Knows (P : Params σ) (s : Store P.shardCount σ) (c : Call σ ρ) : Pc P.shardCount ρ → Prop
  | .cas seen _ => s.live = seen
  | .load swept => swept = true → P.ev = .evictLRU → s.live < P.opts.maxKeys
  | .full swept => P.opts.maxKeys ≤ s.live ∧ (P.ev = .evictLRU → swept = false)
  | .counted _ => s.live < P.opts.maxKeys
  | .relock | .evictUnlock _ => P.ev = .evictLRU → s.live < P.opts.maxKeys
  | .sweepEnter | .sweepGate | .sweepLock _ | .sweepScan _ | .sweepUnlock _ | .reload =>
    P.ev = .evictLRU → P.keys s (P.self c) = []
  | .expire _ next | .expired _ next =>
    next.sweeps = true → P.ev = .evictLRU → P.keys s (P.self c) = []
  | .evictOther i => P.opts.maxKeys ≤ s.live ∧ ∀ j, j.val < i ∨ j = P.self c → P.keys s j = []
  | .evictAt i => P.opts.maxKeys ≤ s.live ∧ ∀ j, j < i ∨ j = P.self c → P.keys s j = []
  | .unlock outcome | .done outcome =>
    outcome = .errMaxKeysExceeded → P.ev = .evictReject ∧ 0 < P.opts.maxKeys
  | _ => True

/-- The steps of a call that a pass over one shard takes. -/
def passCost : Nat := 2 * cleanupBatchSize + 4

/-- The steps that a call has still to take, at most. -/
def rank (P : Params σ) (s : Store P.shardCount σ) : Pc P.shardCount ρ → Nat
  | .done _ => 0
  | .unlock _ => 1
  | .run => 2
  | .refresh => 3
  | .giveBack => 4
  | .recheck => 5
  | .cas _ _ => 6
  | .load swept =>
    if s.live < P.opts.maxKeys then 7
    else if swept then 9
    else 20 + 2 * P.shardCount + P.shardCount * passCost
  | .full swept => if swept then 8 else 19 + 2 * P.shardCount + P.shardCount * passCost
  | .counted (.self _) => 8
  | .evicted (.self _) => 9
  | .relock => 10
  | .evictUnlock _ => 11
  | .counted (.other _) => 12
  | .evicted (.other _) => 13
  | .evictAt i => 13 + 2 * (P.shardCount - i)
  | .evictOther i => 14 + 2 * (P.shardCount - i)
  | .reload => 15 + 2 * P.shardCount
  | .sweepLock i => 16 + 2 * P.shardCount + (P.shardCount - i) * passCost
  | .sweepUnlock i => 17 + 2 * P.shardCount + (P.shardCount - (i + 1)) * passCost
  | .expire todo (.sweep i) =>
    18 + 2 * P.shardCount + (P.shardCount - (i + 1)) * passCost + 2 * todo.length
  | .expired todo (.sweep i) =>
    19 + 2 * P.shardCount + (P.shardCount - (i + 1)) * passCost + 2 * todo.length
  | .sweepScan i => 15 + 2 * P.shardCount + (P.shardCount - i) * passCost
  | .sweepGate => 17 + 2 * P.shardCount + P.shardCount * passCost
  | .sweepEnter => 18 + 2 * P.shardCount + P.shardCount * passCost
  | .reserve => 21 + 2 * P.shardCount + P.shardCount * passCost
  | .expire todo _ => 22 + 2 * P.shardCount + P.shardCount * passCost + 2 * todo.length
  | .expired todo _ => 23 + 2 * P.shardCount + P.shardCount * passCost + 2 * todo.length
  | .lookup => 23 + 2 * P.shardCount + (P.shardCount + 1) * passCost
  | .lock => 24 + 2 * P.shardCount + (P.shardCount + 1) * passCost

variable {P : Params σ} {tid : Tid} {choice : List Key} {s s' t : Store P.shardCount σ}
  {c : Call σ ρ} {pc pc' : Pc P.shardCount ρ}

/-! ## The invariant of a lone call -/

theorem Step.solo (h : P.Step tid choice s c pc s' pc') (hSolo : P.Solo s c pc) : P.Solo s' c pc' := by
  refine ⟨h.good hSolo.good hSolo.ok, h.ok hSolo.good hSolo.ok, ?_, ?_, ?_, ?_⟩
  · intro i hAfter
    by_cases hBefore : pc.holds (P.self c) = some i
    · exact h.given hBefore hAfter
    · rw [h.frame hBefore hAfter]
      exact hSolo.free i hBefore
  · intro hAfter
    rw [h.sweepMu, hAfter, if_neg Bool.false_ne_true]
    split
    · rfl
    · exact hSolo.sweepFree (Bool.eq_false_iff.mpr ‹_›)
  · have hCount := (h.change hSolo.good hSolo.ok).count
    have hBefore := hSolo.count
    omega
  · exact fun hMax => h.cap hSolo.ok hMax (hSolo.cap hMax)

theorem solo_new (c : Call σ ρ) : P.Solo (newShardedStoreWithShards P.shardCount σ) c .lock := by
  have hInit : P.Inv (P.program.initial : P.State ρ) := .init
  refine ⟨hInit.good, trivial, fun _ _ => rfl, fun _ => rfl, ?_, hInit.cap⟩
  simpa [Program.initial, program, debt, reserved, deleted] using hInit.count

theorem Solo.next_call {outcome : Outcome ρ} (h : P.Solo s c (.done outcome)) (c' : Call σ ρ) :
    P.Solo s c' .lock :=
  ⟨h.good, trivial, fun i _ => h.free i nofun, fun _ => h.sweepFree rfl, h.count, h.cap⟩

theorem Solo.alone (h : P.Solo s c pc) (hAlone : P.Alone tid c (s, pc) (t, pc')) : P.Solo t c pc' :=
  hAlone.invariant (I := fun s pc => P.Solo s c pc) (fun _ _ _ _ _ hSolo hStep => hStep.solo hSolo) h

theorem Serial.solo_lock {history : List (Call σ ρ × Outcome ρ)} (h : P.Serial history s)
    (c : Call σ ρ) : P.Solo s c .lock := by
  induction h generalizing c with
  | nil => exact solo_new c
  | @snoc _ _ call _ _ _ hReturns ih => exact ((ih call).alone hReturns).next_call c

theorem Serial.solo {history : List (Call σ ρ × Outcome ρ)} (h : P.Serial history s)
    (hAlone : P.Alone tid c (s, .lock) (t, pc)) : P.Solo t c pc :=
  (h.solo_lock c).alone hAlone

/-! ## Every lone call can move -/

theorem Solo.exists_step (h : P.Solo s c pc) (hPc : outcome? pc = none) (tid : Tid) :
    ∃ s' pc', P.Step tid [] s c pc s' pc' := by
  cases hHolds : pc.holds (P.self c) with
  | some i => exact exists_step_of_holds tid h.good h.ok hHolds
  | none =>
    have hFree : ∀ i, (s.shards i).mu = none := fun i => h.free i (by rw [hHolds]; simp)
    cases pc with
    | lock => exact ⟨_, _, .lock (hFree _)⟩
    | relock => exact ⟨_, _, .relock (hFree _)⟩
    | sweepEnter =>
      by_cases hOn : 0 < P.opts.keyTTL ∧ 0 < P.opts.cleanupInterval
      · exact ⟨_, _, .sweepEnter hOn (h.sweepFree rfl)⟩
      · exact ⟨_, _, .sweepSkip (by omega)⟩
    | sweepGate =>
      rcases lt_or_ge (sub c.now s.lastSweep) P.opts.cleanupInterval with hRecent | hDue
      · exact ⟨_, _, .sweepRecent hRecent⟩
      · exact ⟨_, _, .sweepStart hDue⟩
    | sweepLock i =>
      rcases lt_or_ge i P.shardCount with hLt | hEnd
      · exact ⟨_, _, .sweepLock (i := ⟨i, hLt⟩) (hFree _)⟩
      · exact ⟨_, _, .sweepEnd hEnd⟩
    | reload =>
      rcases lt_or_ge s.live P.opts.maxKeys with hRoom | hFull
      · exact ⟨_, _, .reloadRoom hRoom⟩
      · exact ⟨_, _, .reloadFull hFull⟩
    | evictOther i =>
      rcases lt_or_ge i P.shardCount with hLt | hEnd
      · rcases eq_or_ne ⟨i, hLt⟩ (P.self c) with hSelf | hNe
        · obtain rfl : i = P.self c := congrArg Fin.val hSelf
          exact ⟨_, _, .otherSelf⟩
        · exact ⟨_, _, .otherLock (i := ⟨i, hLt⟩) hNe (hFree _)⟩
      · exact ⟨_, _, .otherEnd hEnd⟩
    | done outcome => cases hPc
    | _ => cases hHolds

/-! ## What it knows -/

theorem keys_mutex (i j : Fin P.shardCount) (m : Option Tid) :
    P.keys (s.setShard i { s.shards i with mu := m }) j = P.keys s j := by
  rw [keys_setShard]
  split
  · rename_i hEq
    rw [Shard.keys_mu, hEq]
  · rfl

theorem keys_scan {i j : Fin P.shardCount} {now : Int} (hWF : (s.shards i).WF P.ev) :
    P.keys (s.setShard i ((s.shards i).cleanup P.opts choice now).1) j = P.keys s j := by
  rw [keys_setShard, (Shard.cleanup_scan P.opts choice hWF now).keys_eq]
  split
  · rename_i hEq
    rw [hEq]
  · rfl

theorem keys_of_tail {i : Fin P.shardCount} (hEv : P.ev = .evictLRU)
    (hTail : (s.shards i).tail? = none) : P.keys s i = [] := by
  rw [keys, hEv]
  exact Shard.tail?_eq_none.mp hTail

theorem Solo.room_of_empty (h : P.Solo s c pc) (hDebt : debt pc = 0) (hMax : 0 < P.opts.maxKeys)
    (hEmpty : ∀ i, P.keys s i = []) : s.live < P.opts.maxKeys := by
  have hTotal : P.total s = 0 := Finset.sum_eq_zero fun i _ => by rw [hEmpty, List.length_nil]
  rw [h.count, hTotal, hDebt]
  exact hMax

theorem Step.knows (h : P.Step tid choice s c pc s' pc') (hSolo : P.Solo s c pc)
    (hKnows : P.Knows s c pc) : P.Knows s' c pc' := by
  cases h with
  | loadRoom => rfl
  | @loadFull swept hFull =>
    refine ⟨hFull, fun hEv => ?_⟩
    cases swept with
    | false => rfl
    | true => exact absurd (hKnows rfl hEv) (not_lt.mpr hFull)
  | casLost hLost => exact absurd hKnows hLost
  | hit | miss => exact fun h => (nomatch h)
  | @expireDone next =>
    cases next with
    | run | reserve => trivial
    | sweep i => exact hKnows rfl
  | @expireDrop v rest next =>
    intro hSweeps hEv
    have hEmpty := hKnows hSweeps hEv
    have hMem := hSolo.ok.1.stored v List.mem_cons_self
    rw [keys_setShard]
    split
    · rename_i hSelf
      rw [← hSelf, hEmpty] at hMem
      cases hMem
    · exact hEmpty
  | expireSkip | expireCount => exact hKnows
  | reserveLimited => exact fun h => (nomatch h)
  | @evictNone swept hEv hTail =>
    rw [hKnows.2 hEv]
    intro _
    exact (keys_mutex _ _ _).trans (keys_of_tail hEv hTail)
  | reject hEv => exact fun _ => ⟨hEv, hSolo.ok.1⟩
  | release hEv =>
    intro hLru
    rw [hLru] at hEv
    cases hEv
  | evictCount =>
    have hCap := hSolo.cap hSolo.ok.2.1
    have : s.live - 1 < P.opts.maxKeys := by omega
    exact this
  | @counted who =>
    cases who with
    | self swept => exact fun _ _ => hKnows
    | other i => exact fun _ => hKnows
  | sweepSkip | sweepRecent | sweepEnd =>
    unfold afterSweep
    split
    · rename_i hEv
      intro hLru
      rw [hLru] at hEv
      cases hEv
    · exact hKnows
  | sweepEnter | sweepStart => exact hKnows
  | sweepLock | sweepUnlock =>
    intro hEv
    exact (keys_mutex _ _ _).trans (hKnows hEv)
  | sweepScan =>
    intro _ hEv
    exact (keys_scan (hSolo.good.wf _)).trans (hKnows hEv)
  | reloadFull hFull =>
    refine ⟨hFull, ?_⟩
    rintro j (hLt | rfl)
    · cases hLt
    · exact hKnows hSolo.ok.1
  | reloadRoom hRoom => exact fun _ => hRoom
  | otherSelf =>
    refine ⟨hKnows.1, fun j hj => hKnows.2 j ?_⟩
    omega
  | otherLock =>
    refine ⟨hKnows.1, fun j hj => ?_⟩
    exact (keys_mutex _ _ _).trans (hKnows.2 j hj)
  | otherEnd hEnd =>
    intro _
    exact hSolo.room_of_empty rfl hSolo.ok.2 fun j => hKnows.2 j (.inl (by omega))
  | @otherEmpty i hTail =>
    refine ⟨hKnows.1, fun j hj => (keys_mutex _ _ _).trans ?_⟩
    rcases eq_or_ne j i with rfl | hNe
    · exact keys_of_tail hSolo.ok.1 hTail
    · exact hKnows.2 j (by omega)
  | otherUnlock => exact hKnows
  | relock => exact fun _ hEv => hKnows hEv
  | run => exact fun h => (nomatch h)
  | unlock => exact hKnows
  | _ => trivial

/-! ## It returns -/

theorem length_cleanup_le (sh : Shard σ) (opts : Options) (choice : List Key) (now : Int) :
    (sh.cleanup opts choice now).2.length ≤ cleanupBatchSize := by
  unfold Shard.cleanup
  split
  · unfold Shard.cleanupMap
    split
    · exact Nat.zero_le _
    · split
      · exact Nat.zero_le _
      · exact (List.length_filterMap_le _ _).trans (List.length_take_le _ _)
  · unfold Shard.cleanupLRU
    split
    · exact Nat.zero_le _
    · split
      · exact Nat.zero_le _
      · exact (List.length_filterMap_le _ _).trans (List.length_take_le _ _)

theorem Step.rank_lt (h : P.Step tid choice s c pc s' pc') (hKnows : P.Knows s c pc) :
    P.rank s' pc' < P.rank s pc := by
  have hPass : ∀ sh : Shard σ, (sh.cleanup P.opts choice c.now).2.length ≤ 100 :=
    fun sh => length_cleanup_le sh P.opts choice c.now
  have hCost : passCost = 204 := rfl
  cases h with
  | @hit sh =>
    have := hPass sh
    simp only [rank, hCost]
    omega
  | miss =>
    have := hPass (s.shards (P.self c))
    simp only [rank, hCost]
    omega
  | @sweepScan i =>
    have := hPass (s.shards i)
    simp only [rank, hCost]
    omega
  | @expireDone next =>
    cases next <;> simp only [rank, After.pc, List.length_nil] <;> omega
  | @expireDrop v rest next | @expireSkip v rest next =>
    cases next <;> simp only [rank, List.length_cons] <;> omega
  | @expireCount rest next => cases next <;> simp only [rank] <;> omega
  | reserveLimited =>
    simp only [rank]
    split
    · omega
    · simp only [if_neg Bool.false_ne_true]
      omega
  | loadRoom hRoom => simp [rank, hRoom]
  | @loadFull swept hFull =>
    simp only [rank, if_neg (not_lt.mpr hFull)]
    cases swept <;> simp
  | casLost hLost => exact absurd hKnows hLost
  | evictSelf hEv =>
    rw [hKnows.2 hEv]
    simp only [rank, if_neg Bool.false_ne_true]
    omega
  | evictNone hEv =>
    rw [hKnows.2 hEv]
    simp [rank]
  | @evictCount who => cases who <;> simp [rank]
  | @counted who =>
    cases who with
    | self swept =>
      have hRoom : s.live < P.opts.maxKeys := hKnows
      simp [rank, Evictor.pc, hRoom]
    | other i => simp [rank, Evictor.pc]
  | sweepSkip | sweepRecent =>
    unfold afterSweep
    split <;> simp only [rank] <;> omega
  | sweepEnd =>
    unfold afterSweep
    split <;> simp only [rank] <;> omega
  | @sweepLock i | @otherLock i | @otherEvict i =>
    simp only [rank]
    omega
  | sweepUnlock | otherEmpty | otherSelf =>
    simp only [rank]
    omega
  | relock =>
    simp only [rank]
    split <;> simp
  | _ => simp [rank] <;> omega

/-! ## Single-threaded runs -/

theorem Solo.knows (h : P.Solo s c .lock) (hAlone : P.Alone tid c (s, .lock) (t, pc)) : P.Knows t c pc := by
  have hEnd : P.Solo t c pc ∧ P.Knows t c pc := by
    refine hAlone.invariant (I := fun t pc => P.Solo t c pc ∧ P.Knows t c pc) ?_ ⟨h, trivial⟩
    rintro choice t pc t' pc' ⟨hSolo, hKnows⟩ hStep
    exact ⟨hStep.solo hSolo, hStep.knows hSolo hKnows⟩
  exact hEnd.2

theorem Serial.knows {history : List (Call σ ρ × Outcome ρ)} (h : P.Serial history s)
    (hAlone : P.Alone tid c (s, .lock) (t, pc)) : P.Knows t c pc :=
  (h.solo_lock c).knows hAlone

/-- What every step of a lone call keeps holds to its end, from any place of it on. -/
theorem Serial.invariant {history : List (Call σ ρ × Outcome ρ)} (h : P.Serial history s)
    {I : Store P.shardCount σ → Pc P.shardCount ρ → Prop}
    (hKeep : ∀ choice t pc t' pc', P.Solo t c pc → P.Knows t c pc → I t pc →
      P.Step history.length choice t c pc t' pc' → I t' pc')
    {t' : Store P.shardCount σ} {pc' : Pc P.shardCount ρ}
    (hFirst : P.Alone history.length c (s, .lock) (t, pc))
    (hAlone : P.Alone history.length c (t, pc) (t', pc')) (hStart : I t pc) : I t' pc' := by
  have hEnd : P.Solo t' c pc' ∧ P.Knows t' c pc' ∧ I t' pc' := by
    refine hAlone.invariant (I := fun t pc => P.Solo t c pc ∧ P.Knows t c pc ∧ I t pc) ?_
      ⟨h.solo hFirst, h.knows hFirst, hStart⟩
    rintro choice t pc t' pc' ⟨hSolo, hKnows, hHolds⟩ hStep
    exact ⟨hStep.solo hSolo, hStep.knows hSolo hKnows, hKeep choice t pc t' pc' hSolo hKnows hHolds hStep⟩
  exact hEnd.2.2

theorem Serial.ok_of_done {history : List (Call σ ρ × Outcome ρ)} (h : P.Serial history s)
    (hEv : P.ev = .evictLRU) {outcome : Outcome ρ}
    (hAlone : P.Alone history.length c (s, .lock) (t, .done outcome)) : ∃ r, outcome = .ok r := by
  cases outcome with
  | ok r => exact ⟨r, rfl⟩
  | errMaxKeysExceeded =>
    have hReject := (h.knows hAlone rfl).1
    rw [hEv] at hReject
    cases hReject

/-- Whatever the mode, the limits and the times, the call returns. -/
theorem Solo.inevitable (h : P.Solo s c .lock) (tid : Tid) :
    Inevitable (P.Moves tid c) (fun x => ∃ outcome, x.2 = .done outcome) (s, .lock) := by
  refine Inevitable.of_rank (I := fun x => P.Solo x.1 c x.2 ∧ P.Knows x.1 c x.2)
    (fun x => P.rank x.1 x.2) ?_ ?_ ?_ ⟨h, trivial⟩
  · rintro ⟨t, pc⟩ ⟨hSolo, _⟩ hBusy
    have hPc : outcome? pc = none := by
      cases pc with
      | done outcome => exact absurd ⟨outcome, rfl⟩ hBusy
      | _ => rfl
    obtain ⟨t', pc', hStep⟩ := hSolo.exists_step hPc tid
    exact ⟨(t', pc'), [], hStep.advance⟩
  · rintro ⟨t, pc⟩ ⟨t', pc'⟩ ⟨hSolo, hKnows⟩ ⟨choice, hAdvance⟩
    have hStep := step_of_advance hAdvance
    exact ⟨hStep.solo hSolo, hStep.knows hSolo hKnows⟩
  · rintro ⟨t, pc⟩ ⟨t', pc'⟩ ⟨_, hKnows⟩ ⟨choice, hAdvance⟩
    exact (step_of_advance hAdvance).rank_lt hKnows

theorem Solo.exists_returns (h : P.Solo s c .lock) (tid : Tid) :
    ∃ s' outcome, P.Returns tid c s s' outcome := by
  obtain ⟨⟨s', pc'⟩, hRun, outcome, rfl⟩ := (h.inevitable tid).exists_run
  exact ⟨s', outcome, hRun⟩

theorem Serial.inevitable {history : List (Call σ ρ × Outcome ρ)} (h : P.Serial history s)
    (c : Call σ ρ) :
    Inevitable (P.Moves history.length c) (fun x => ∃ outcome, x.2 = .done outcome) (s, .lock) :=
  (h.solo_lock c).inevitable history.length

theorem Serial.exists_returns {history : List (Call σ ρ × Outcome ρ)} (h : P.Serial history s)
    (c : Call σ ρ) : ∃ s' outcome, P.Returns history.length c s s' outcome :=
  (h.solo_lock c).exists_returns history.length

/-- A store that waits for its next call answers `Allow`. -/
theorem exists_allows (fn : σ → Int → σ × Result) (x : Key × Int)
    (h : ∀ c : Call σ Result, P.Solo s c .lock) :
    ∃ s' answer, P.Allows fn x s s' answer := by
  cases hKey : validateKey x.1 with
  | some err => exact ⟨s, _, .invalid hKey⟩
  | none =>
    obtain ⟨s', outcome, hReturns⟩ := (h ⟨x.1, x.2, fn⟩).exists_returns 0
    exact ⟨s', _, .returned hKey hReturns⟩

theorem exists_serial (P : Params σ) (calls : List (Call σ ρ)) :
    ∃ history s, P.Serial history s ∧ history.map Prod.fst = calls := by
  induction calls using List.reverseRecOn with
  | nil => exact ⟨[], _, .nil, rfl⟩
  | append_singleton calls c ih =>
    obtain ⟨history, s, hSerial, hCalls⟩ := ih
    obtain ⟨s', outcome, hReturns⟩ := hSerial.exists_returns c
    exact ⟨_, s', .snoc hSerial hReturns, by rw [List.map_append, hCalls]; rfl⟩

end Params

end Kaka.Memory
