import Kaka.Memory.BucketLimit
import Kaka.Memory.Serial
import Kaka.Memory.SlidingWindowLimit

/-! # `Allow` with a metric sink

`Allow` checks the key, runs `withState` and then, with no lock held, tells the
sink the decision and the number of keys and drains the pending
evictions: it takes the counter in one atomic swap and calls `onEvict` once
for each. Every call of the sink is a step of its own, so calls of other
goroutines, and those that a callback makes itself, may fall between them.
-/

namespace Kaka.Memory

open Interleaving

/-- The calls of the methods of a `MetricSink`. -/
inductive SinkCall where
  | onAllowed (tier : String) (result : Result)
  | onRejected (tier : String) (result : Result)
  | onError (tier : String) (err : String)
  | setKeys (tier : String) (n : Int)
  | onEvict (tier : String)
  deriving DecidableEq

def tierSingle : String := ""

/-- `fn` is bound at construction; `sink` says whether one was registered. -/
structure Limiter (σ : Type) extends Params σ where
  fn : σ → Int → σ × Result
  sink : Bool

section Limiters

variable (opts : Options) (shardCount : Nat) (power : ∃ k, shardCount = 2 ^ k) (sink : Bool)

def TokenBucket.limiter (tb : Rates) : Limiter Bucket where
  toParams := TokenBucket.params tb opts shardCount power
  fn := TokenBucket.refillAndDecide tb
  sink := sink

def LeakyBucket.limiter (lb : Rates) : Limiter LeakyState where
  toParams := LeakyBucket.params opts shardCount power
  fn := LeakyBucket.leakAndDecide lb
  sink := sink

def SlidingWindow.limiter (sw : SlidingWindow) : Limiter WindowState where
  toParams := SlidingWindow.params opts shardCount power
  fn := sw.recordAndDecide
  sink := sink

end Limiters

/-- The store, what the sink was told, and how many entries `evictFrom` has
removed, which no code reads. -/
structure Monitored (n : Nat) (σ : Type) where
  store : Store n σ
  calls : List SinkCall
  evictions : Int

inductive Place (n : Nat) where
  | validate
  | withState (pc : Pc n Result)
  | report (outcome : Outcome Result)
  | len (outcome : Outcome Result)
  | setKeys (keys : Int) (outcome : Outcome Result)
  | drain (outcome : Outcome Result)
  | callbacks (i pending : Int) (outcome : Outcome Result)
  | returned (outcome : Outcome Result)
  | invalid (err : String)
  deriving DecidableEq

/-- A call of `Allow`, with the reading that the clock gives it. -/
structure Allowing (n : Nat) where
  key : Key
  now : Int
  place : Place n

def Outcome.report : Outcome Result → SinkCall
  | .ok r => if r.allowed then .onAllowed tierSingle r else .onRejected tierSingle r
  | .errMaxKeysExceeded => .onError tierSingle "memory: max keys exceeded"

variable {σ : Type}

/-- The step is a call of `evictFrom` that removes an entry. -/
def Params.evictsAt {ρ : Type} (P : Params σ) (s : Store P.shardCount σ) (c : Call σ ρ) :
    Pc P.shardCount ρ → Bool
  | .full _ => P.ev == .evictLRU && (s.shards (P.self c)).evictFrom.isSome
  | .evictAt i => (s.shards i).evictFrom.isSome
  | _ => false

def Store.credit {n : Nat} (s : Store n σ) (d : Int) : Store n σ := { s with evicts := s.evicts + d }

theorem Store.credit_credit {n : Nat} (s : Store n σ) (d e : Int) :
    (s.credit d).credit e = s.credit (d + e) := by
  simp only [Store.credit, Int.add_assoc]

/-- No step of `withState` reads the counter of pending evictions. -/
theorem Params.Step.credit {ρ : Type} {P : Params σ} {tid : Tid} {choice : List Key}
    {s s' : Store P.shardCount σ} {c : Call σ ρ} {pc pc' : Pc P.shardCount ρ}
    (h : P.Step tid choice s c pc s' pc') (d : Int) :
    P.Step tid choice (s.credit d) c pc (s'.credit d) pc' := by
  cases h with
  | release hEv => exact .release hEv
  | counted =>
    have hOrder : ({ s with evicts := s.evicts + 1 } : Store P.shardCount σ).credit d =
        { s.credit d with evicts := (s.credit d).evicts + 1 } := by
      simp only [Store.credit, Int.add_right_comm]
    rw [hOrder]
    exact .counted
  | _ => constructor <;> assumption

namespace Limiter

variable (L : Limiter σ)

def call (x : Key × Int) : Call σ Result := ⟨x.1, x.2, L.fn⟩

def tell (m : Monitored L.shardCount σ) (c : SinkCall) : Monitored L.shardCount σ :=
  if L.sink then { m with calls := m.calls ++ [c] } else m

def advance (tid : Tid) (choice : List Key) (m : Monitored L.shardCount σ) (x : Key × Int) :
    Place L.shardCount → Option (Monitored L.shardCount σ × Place L.shardCount)
  | .validate =>
    match validateKey x.1 with
    | some err => some (L.tell m (.onError tierSingle err), .invalid err)
    | none => some (m, .withState .lock)
  | .withState (.done outcome) =>
    some (m, if L.sink then .report outcome else .returned outcome)
  | .withState pc =>
    match L.toParams.advance tid choice m.store (L.call x) pc with
    | some (s, pc') =>
      some ({ m with
        store := s
        evictions := m.evictions + (L.toParams.evictsAt m.store (L.call x) pc).toInt }, .withState pc')
    | none => none
  | .report outcome => some (L.tell m outcome.report, .len outcome)
  | .len outcome => some (m, .setKeys (L.toParams.len m.store) outcome)
  | .setKeys keys outcome => some (L.tell m (.setKeys tierSingle keys), .drain outcome)
  | .drain outcome =>
    some ({ m with store := { m.store with evicts := 0 } }, .callbacks 0 m.store.evicts outcome)
  | .callbacks i pending outcome =>
    if i < pending then some (L.tell m (.onEvict tierSingle), .callbacks (i + 1) pending outcome)
    else some (m, .returned outcome)
  | .returned _ => none
  | .invalid _ => none

def program : Program (Monitored L.shardCount σ) (Allowing L.shardCount) (Key × Int) (List Key)
    Answer where
  init := ⟨newShardedStoreWithShards L.shardCount σ, [], 0⟩
  start x := ⟨x.1, x.2, .validate⟩
  step tid choice m t := (L.advance tid choice m (t.key, t.now) t.place).map fun out =>
    (out.1, ⟨t.key, t.now, out.2⟩)
  result t :=
    match t.place with
    | .returned outcome => some outcome.answer
    | .invalid err => some (⟨false, 0, 0⟩, some err)
    | _ => none

@[simp] theorem tell_store (m : Monitored L.shardCount σ) (c : SinkCall) :
    (L.tell m c).store = m.store := by
  rw [tell]
  split <;> rfl

@[simp] theorem tell_evictions (m : Monitored L.shardCount σ) (c : SinkCall) :
    (L.tell m c).evictions = m.evictions := by
  rw [tell]
  split <;> rfl

/-! ## What one step can do -/

inductive Move (tid : Tid) (choice : List Key) (m : Monitored L.shardCount σ) (x : Key × Int) :
    Place L.shardCount → Monitored L.shardCount σ → Place L.shardCount → Prop
  | invalid {err} (hKey : validateKey x.1 = some err) :
      Move tid choice m x .validate (L.tell m (.onError tierSingle err)) (.invalid err)
  | valid (hKey : validateKey x.1 = none) : Move tid choice m x .validate m (.withState .lock)
  | store {pc s pc'} (hStep : L.toParams.Step tid choice m.store (L.call x) pc s pc') :
      Move tid choice m x (.withState pc) { m with
        store := s
        evictions := m.evictions + (L.toParams.evictsAt m.store (L.call x) pc).toInt } (.withState pc')
  | unobserved {outcome} (hSink : L.sink = false) :
      Move tid choice m x (.withState (.done outcome)) m (.returned outcome)
  | observed {outcome} (hSink : L.sink = true) :
      Move tid choice m x (.withState (.done outcome)) m (.report outcome)
  | report {outcome} : Move tid choice m x (.report outcome) (L.tell m outcome.report) (.len outcome)
  | len {outcome} : Move tid choice m x (.len outcome) m (.setKeys (L.toParams.len m.store) outcome)
  | setKeys {keys outcome} : Move tid choice m x (.setKeys keys outcome)
      (L.tell m (.setKeys tierSingle keys)) (.drain outcome)
  | drain {outcome} : Move tid choice m x (.drain outcome)
      { m with store := { m.store with evicts := 0 } } (.callbacks 0 m.store.evicts outcome)
  | fire {i pending outcome} (hOwed : i < pending) : Move tid choice m x (.callbacks i pending outcome)
      (L.tell m (.onEvict tierSingle)) (.callbacks (i + 1) pending outcome)
  | drained {i pending outcome} (hEnd : pending ≤ i) :
      Move tid choice m x (.callbacks i pending outcome) m (.returned outcome)

variable {L} {tid : Tid} {choice : List Key} {m m' : Monitored L.shardCount σ} {x : Key × Int}
  {place place' : Place L.shardCount}

theorem advance_withState {pc : Pc L.shardCount Result} (hRunning : ∀ outcome, pc ≠ .done outcome)
    (h : L.advance tid choice m x (.withState pc) = some (m', place')) :
    L.Move tid choice m x (.withState pc) m' place' := by
  rw [advance] at h
  · split at h
    · rename_i s pc' hAdvance
      cases h
      exact .store (Params.step_of_advance hAdvance)
    · cases h
  · exact hRunning

theorem move_of_advance (h : L.advance tid choice m x place = some (m', place')) :
    L.Move tid choice m x place m' place' := by
  cases place with
  | validate =>
    simp only [advance] at h
    split at h
    · cases h
      exact .invalid ‹_›
    · cases h
      exact .valid ‹_›
  | withState pc =>
    by_cases hDone : ∃ outcome, pc = .done outcome
    · obtain ⟨outcome, rfl⟩ := hDone
      simp only [advance] at h
      split at h
      · cases h
        exact .observed ‹_›
      · cases h
        exact .unobserved (Bool.eq_false_iff.mpr ‹_›)
    · exact advance_withState (fun outcome hPc => hDone ⟨outcome, hPc⟩) h
  | report outcome =>
    cases h
    exact .report
  | len outcome =>
    cases h
    exact .len
  | setKeys keys outcome =>
    cases h
    exact .setKeys
  | drain outcome =>
    cases h
    exact .drain
  | callbacks i pending outcome =>
    simp only [advance] at h
    split at h
    · cases h
      exact .fire ‹_›
    · cases h
      exact .drained (by omega)
  | returned | invalid => cases h

abbrev State (L : Limiter σ) : Type :=
  Config (Monitored L.shardCount σ) (Allowing L.shardCount) Answer

theorem next_cases {g g' : L.State} {a : Act (Key × Int) (List Key)}
    (hNext : L.program.next g a = some g') :
    (∃ x, a = .start x ∧ g' = ⟨g.shared, g.threads ++ [⟨x.1, x.2, .validate⟩],
      g.history ++ [.call g.threads.length]⟩) ∨
    (∃ tid choice t m' place', a = .step tid choice ∧ g.threads[tid]? = some t ∧
      L.Move tid choice g.shared (t.key, t.now) t.place m' place' ∧ g'.shared = m' ∧
      g'.threads = g.threads.set tid ⟨t.key, t.now, place'⟩) := by
  rcases Program.next_cases hNext with ⟨x, ha, hg⟩ | ⟨tid, choice, t, m', t', ha, ht, hStep, hg⟩
  · exact .inl ⟨x, ha, hg⟩
  · obtain ⟨⟨_, place'⟩, hAdvance, hEq⟩ := Option.map_eq_some_iff.mp hStep
    cases hEq
    exact .inr ⟨tid, choice, t, _, place', ha, ht, move_of_advance hAdvance, by rw [hg], by rw [hg]⟩

/-! ## The store underneath

Without its calls of the sink a run is one of the store, whose `evicts` is never
swapped out. -/

def under (L : Limiter σ) (t : Allowing L.shardCount) : Thread L.shardCount σ Result where
  call := L.call (t.key, t.now)
  pc :=
    match t.place with
    | .validate => .lock
    | .withState pc => pc
    | .report outcome => .done outcome
    | .len outcome => .done outcome
    | .setKeys _ outcome => .done outcome
    | .drain outcome => .done outcome
    | .callbacks _ _ outcome => .done outcome
    | .returned outcome => .done outcome
    | .invalid _ => .lock

/-- A step is a step of the store, or none. -/
theorem Move.under (h : L.Move tid choice m x place m' place') :
    (∃ pc s pc', place = .withState pc ∧ place' = .withState pc' ∧ m'.store = s ∧
      L.toParams.Step tid choice m.store (L.call x) pc s pc') ∨
    ((L.under ⟨x.1, x.2, place'⟩).pc = (L.under ⟨x.1, x.2, place⟩).pc ∧
      ∃ d, m'.store.credit d = m.store) := by
  have hSame : m.store.credit 0 = m.store := by rw [Store.credit, Int.add_zero]
  cases h with
  | store hStep => exact .inl ⟨_, _, _, rfl, rfl, rfl, hStep⟩
  | drain =>
    refine .inr ⟨rfl, m.store.evicts, ?_⟩
    rw [Store.credit, Int.zero_add]
  | invalid | report | setKeys | fire =>
    refine .inr ⟨rfl, 0, ?_⟩
    rw [tell_store, hSame]
  | valid | unobserved | observed | len | drained => exact .inr ⟨rfl, 0, hSame⟩

/-- A state of the store with the evictions that were swapped out put back. -/
structure Beneath (g : L.State) (h : L.toParams.State Result) : Prop where
  store : ∃ d, h.shared = g.shared.store.credit d
  threads : h.threads = g.threads.map L.under

theorem Beneath.start {g : L.State} {h : L.toParams.State Result} (hBeneath : Beneath g h) (x : Key × Int)
    (hReach : L.toParams.program.Reachable h) {g' : L.State} (hShared : g'.shared = g.shared)
    (hThreads : g'.threads = g.threads ++ [⟨x.1, x.2, .validate⟩]) :
    ∃ h', L.toParams.program.Reachable h' ∧ Beneath g' h' := by
  refine ⟨_, hReach.next (a := .start (L.call x)) trivial rfl, ?_, ?_⟩
  · rw [hShared]
    exact hBeneath.store
  · rw [hThreads, List.map_append, ← hBeneath.threads]
    rfl

theorem Beneath.step {g : L.State} {h : L.toParams.State Result} (hBeneath : Beneath g h)
    (hReach : L.toParams.program.Reachable h) {t : Allowing L.shardCount}
    (ht : g.threads[tid]? = some t) {g' : L.State}
    (hMove : L.Move tid choice g.shared (t.key, t.now) t.place g'.shared place')
    (hThreads : g'.threads = g.threads.set tid ⟨t.key, t.now, place'⟩) :
    ∃ h', L.toParams.program.Reachable h' ∧ Beneath g' h' := by
  obtain ⟨d, hStore⟩ := hBeneath.store
  have hThread : h.threads[tid]? = some (L.under t) := by
    rw [hBeneath.threads, List.getElem?_map, ht]
    rfl
  rcases hMove.under with ⟨pc, s, pc', hPlace, rfl, hShared, hStep⟩ | ⟨hPc, e, hCredit⟩
  · have hUnder : L.under t = ⟨L.call (t.key, t.now), pc⟩ := by rw [under, hPlace]
    have hStoreStep : L.toParams.program.step tid choice h.shared (L.under t) =
        some (s.credit d, ⟨L.call (t.key, t.now), pc'⟩) := by
      rw [hUnder, hStore]
      simp only [Params.program, (hStep.credit d).advance, Option.map_some]
    have hNext : L.toParams.program.next h (.step tid choice) = some ⟨s.credit d,
        h.threads.set tid ⟨L.call (t.key, t.now), pc'⟩, h.history ++ returned tid
          (L.toParams.program.result ⟨L.call (t.key, t.now), pc'⟩)⟩ := by
      simp only [Program.next, hThread, hStoreStep]
    refine ⟨_, hReach.next trivial hNext, ⟨d, ?_⟩, ?_⟩
    · rw [hShared]
    · rw [hThreads, List.map_set, hBeneath.threads]
      rfl
  · have hSame : L.under ⟨t.key, t.now, place'⟩ = L.under t :=
      congrArg (Thread.mk (L.call (t.key, t.now))) hPc
    refine ⟨h, hReach, ⟨e + d, ?_⟩, ?_⟩
    · rw [hStore, ← hCredit, Store.credit_credit]
    · rw [hThreads, hBeneath.threads, map_set_eq L.under ht hSame]

theorem exists_beneath {g : L.State} (hReach : L.program.Reachable g) :
    ∃ h, L.toParams.program.Reachable h ∧ Beneath g h := by
  refine hReach.invariant (I := fun g => ∃ h, L.toParams.program.Reachable h ∧ Beneath g h) ?_ ?_
  · exact ⟨_, Program.Reach.init, ⟨0, rfl⟩, rfl⟩
  · rintro g a g' _ ⟨h, hUnder, hBeneath⟩ _ hNext
    rcases next_cases hNext with ⟨x, _, rfl⟩ | ⟨tid, choice, t, m', place', _, ht, hMove, rfl, hThreads⟩
    · exact hBeneath.start x hUnder rfl rfl
    · exact hBeneath.step hUnder ht hMove hThreads

end Limiter

end Kaka.Memory
