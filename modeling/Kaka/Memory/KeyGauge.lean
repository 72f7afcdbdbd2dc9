import Kaka.Base.RunLog
import Kaka.Memory.SinkCalls

/-! # The gauge of stored keys

After its decision a call reads `live` and tells the sink the number. The
counter runs ahead of the maps while a key is reserved or deleted, so a reading
is off by the calls that are in `withState` at most, and it may be old when it
is told; but each reading is told, once, and none is over `maxKeys`.
-/

namespace Kaka.Memory

open Interleaving

variable {n : Nat} {σ : Type}

/-- A number read off `live`, with the keys in the maps and the calls in
`withState` at that moment. -/
structure Reading where
  keys : Int
  stored : Nat
  inside : Nat
  deriving DecidableEq

/-- What is read is between the number of stored keys and that with the calls
in `withState`, and within the limit. -/
structure Reading.Accurate (maxKeys : Int) (r : Reading) : Prop where
  stored_le : r.stored ≤ r.keys
  le_inside : r.keys ≤ r.stored + r.inside
  le_maxKeys : 0 < maxKeys → r.keys ≤ maxKeys

def SinkCall.gauge? : SinkCall → Option Int
  | .setKeys _ keys => some keys
  | _ => none

def Place.inHand : Place n → Option Int
  | .setKeys keys _ => some keys
  | _ => none

def Place.gauged : Place n → Option (Outcome Result)
  | .setKeys _ outcome => some outcome
  | .drain outcome => some outcome
  | .callbacks _ _ outcome => some outcome
  | .returned outcome => some outcome
  | _ => none

theorem gauge?_decisionOf (answer : Answer) : (decisionOf answer).gauge? = none := by
  obtain ⟨r, err⟩ := answer
  cases err with
  | none =>
    rw [decisionOf]
    split <;> rfl
  | some err => rfl

namespace Limiter

variable {L : Limiter σ} {tid : Tid} {choice : List Key} {m m' : Monitored L.shardCount σ} {x : Key × Int}
  {place place' : Place L.shardCount} {g g' : L.State} {t : Allowing L.shardCount} {log : List Reading}

def reading (g : L.State) : Reading where
  keys := L.toParams.len g.shared.store
  stored := L.toParams.total g.shared.store
  inside := g.threads.countP fun t => !t.place.outside

def readings (g : L.State) : Act (Key × Int) (List Key) → List Reading
  | .start _ => []
  | .step tid _ =>
    match (g.threads[tid]?).map Allowing.place with
    | some (.len _) => [reading g]
    | _ => []

def gauges (m : Monitored L.shardCount σ) : List Int := m.calls.filterMap SinkCall.gauge?

def inHand (g : L.State) : List Int := g.threads.filterMap fun t => t.place.inHand

def gauged (g : L.State) : List (Outcome Result) := g.threads.filterMap fun t => t.place.gauged

/-! ## One reading -/

theorem debt_le_one (pc : Pc n Result) : Params.debt pc ≤ 1 := by
  cases pc <;> simp [Params.debt, Params.reserved, Params.deleted]

theorem debt_under_le (t : Allowing L.shardCount) :
    Params.debt (L.under t).pc ≤ if t.place.outside then 0 else 1 := by
  obtain ⟨key, now, place⟩ := t
  cases place with
  | withState pc => exact debt_le_one pc
  | _ => exact le_rfl

theorem sum_debt_under_le (threads : List (Allowing L.shardCount)) :
    ((threads.map L.under).map fun t => Params.debt t.pc).sum ≤ threads.countP fun t => !t.place.outside := by
  induction threads with
  | nil => exact le_rfl
  | cons t rest ih =>
    have hFirst := debt_under_le t
    rw [List.map_cons, List.map_cons, List.sum_cons, List.countP_cons]
    cases hPlace : t.place.outside <;>
      simp only [hPlace, Bool.not_true, Bool.not_false, Bool.false_eq_true, if_true, if_false] at hFirst ⊢ <;>
      omega

theorem accurate_reading (hReach : L.program.Reachable g) : (reading g).Accurate L.opts.maxKeys := by
  obtain ⟨h, hUnder, hBeneath⟩ := exists_beneath hReach
  obtain ⟨d, hStore⟩ := hBeneath.store
  have hInv := Params.inv hUnder
  have hLive : h.shared.live = g.shared.store.live := by rw [hStore, Store.credit]
  have hTotal : L.toParams.total h.shared = L.toParams.total g.shared.store := by rw [hStore]; rfl
  -- `live` is ahead of the maps by what is reserved or deleted, each by a call in `withState`
  have hCount := hInv.count
  have hCap := hInv.cap
  have hLow := Params.sum_debt h.threads
  have hHigh := sum_debt_under_le g.threads
  rw [← hBeneath.threads] at hHigh
  rw [hLive, hTotal] at hCount
  rw [hLive] at hCap
  have hKeys : (reading g).keys = g.shared.store.live := rfl
  refine ⟨?_, ?_, hCap⟩ <;> rw [hKeys, hCount] <;> simp only [reading] <;> omega

/-! ## One step -/

inductive Gauging (m m' : Monitored L.shardCount σ) : Place L.shardCount → Place L.shardCount → Prop
  | reads {outcome} (hSame : m' = m) :
      Gauging m m' (.len outcome) (.setKeys (L.toParams.len m.store) outcome)
  | tells {keys outcome} (hTold : gauges m' = gauges m ++ [keys]) :
      Gauging m m' (.setKeys keys outcome) (.drain outcome)
  | quiet {place place' : Place L.shardCount} (hLen : ∀ outcome, place ≠ .len outcome) (hTold : gauges m' = gauges m)
      (hHand : place'.inHand = place.inHand) (hGauged : place'.gauged = place.gauged) :
      Gauging m m' place place'

theorem gauges_tell (hSink : L.sink = true) (m : Monitored L.shardCount σ) (c : SinkCall) :
    gauges (L.tell m c) = gauges m ++ c.gauge?.toList := by
  rw [gauges, tell, if_pos hSink, List.filterMap_append]
  cases h : c.gauge? <;> simp [gauges, h]

theorem Move.gauging (hSink : L.sink = true) (h : L.Move tid choice m x place m' place') :
    Gauging m m' place place' := by
  cases h with
  | len => exact .reads rfl
  | setKeys => exact .tells (gauges_tell hSink _ _)
  | unobserved hNone =>
    rw [hSink] at hNone
    cases hNone
  | @report outcome =>
    refine .quiet nofun ?_ rfl rfl
    rw [gauges_tell hSink, outcome.report_eq, gauge?_decisionOf]
    exact List.append_nil _
  | invalid | fire =>
    refine .quiet nofun ?_ rfl rfl
    rw [gauges_tell hSink]
    exact List.append_nil _
  | valid | store | observed | drain | drained => exact .quiet nofun rfl rfl rfl

theorem readings_len {outcome : Outcome Result} (ht : g.threads[tid]? = some t) (hPlace : t.place = .len outcome) :
    readings g (.step tid choice) = [reading g] := by
  simp only [readings, ht, Option.map_some, hPlace]

theorem readings_quiet (ht : g.threads[tid]? = some t) (hPlace : ∀ outcome, t.place ≠ .len outcome) :
    readings g (.step tid choice) = [] := by
  rw [readings, ht]
  split
  · rename_i outcome hLen
    exact absurd (Option.some.inj hLen) (hPlace outcome)
  · rfl

/-! ## Every run -/

structure Gauged (log : List Reading) (g : L.State) : Prop where
  accurate : ∀ r ∈ log, r.Accurate L.opts.maxKeys
  told : (log.map Reading.keys).Perm (gauges g.shared ++ inHand g)
  once : log.length = (gauged g).length

theorem Gauged.step (h : Gauged log g) (hReach : L.program.Reachable g) (ht : g.threads[tid]? = some t)
    (hGauging : Gauging g.shared g'.shared t.place place')
    (hThreads : g'.threads = g.threads.set tid ⟨t.key, t.now, place'⟩) :
    Gauged (log ++ readings g (.step tid choice)) g' := by
  generalize hPlace : t.place = place at hGauging
  cases hGauging with
  | @reads outcome hSame =>
    have hHand : (inHand g').Perm (inHand g ++ [(reading g).keys]) := by
      rw [inHand, hThreads]
      exact filterMap_set_perm _ ht (by rw [hPlace]; rfl) rfl
    have hGauged : (gauged g').Perm (gauged g ++ [outcome]) := by
      rw [gauged, hThreads]
      exact filterMap_set_perm _ ht (by rw [hPlace]; rfl) rfl
    rw [readings_len ht hPlace]
    refine ⟨?_, ?_, ?_⟩
    · rw [List.forall_mem_append, List.forall_mem_singleton]
      exact ⟨h.accurate, accurate_reading hReach⟩
    · rw [List.map_append, hSame]
      refine (h.told.append_right _).trans ?_
      rw [List.append_assoc]
      exact hHand.symm.append_left _
    · rw [hGauged.length_eq, List.length_append, List.length_append, h.once]
      rfl
  | @tells keys outcome hTold =>
    have hHand : (inHand g).Perm (inHand g' ++ [keys]) := by
      rw [inHand, inHand, hThreads]
      exact filterMap_perm_set _ ht (by rw [hPlace]; rfl) rfl
    have hGauged : gauged g' = gauged g := by
      rw [gauged, hThreads]
      exact filterMap_set_eq _ ht (by rw [hPlace]; rfl)
    rw [readings_quiet ht (by rw [hPlace]; exact nofun), List.append_nil]
    refine ⟨h.accurate, ?_, by rw [h.once, hGauged]⟩
    rw [hTold, List.append_assoc]
    exact h.told.trans ((hHand.trans List.perm_append_comm).append_left _)
  | quiet hLen hTold hHand hGauged =>
    subst hPlace
    have hHands : inHand g' = inHand g := by
      rw [inHand, hThreads]
      exact filterMap_set_eq _ ht hHand
    have hGauges : gauged g' = gauged g := by
      rw [gauged, hThreads]
      exact filterMap_set_eq _ ht hGauged
    rw [readings_quiet ht hLen, List.append_nil]
    refine ⟨h.accurate, ?_, by rw [h.once, hGauges]⟩
    rw [hTold, hHands]
    exact h.told

/-- Every reading is off by the calls in `withState` at most. It is told once,
unless its call has it in hand still, and there are as many readings as calls
past reading. -/
theorem gauge_told (L : Limiter σ) (hSink : L.sink = true) {g : L.State} {log : List Reading}
    (hLog : L.program.Logged readings log g) :
    (∀ r ∈ log, r.Accurate L.opts.maxKeys) ∧ (log.map Reading.keys).Perm (gauges g.shared ++ inHand g) ∧
      log.length = (gauged g).length := by
  suffices hGauged : Gauged log g from ⟨hGauged.accurate, hGauged.told, hGauged.once⟩
  induction hLog with
  | init => exact ⟨by simp, .nil, rfl⟩
  | next hBefore hNext ih =>
    rcases next_cases hNext with ⟨x, rfl, rfl⟩ | ⟨tid, choice, t, m', place', rfl, ht, hMove, rfl, hThreads⟩
    · rw [readings, List.append_nil]
      refine ⟨ih.accurate, ?_, ?_⟩
      · simpa [inHand, Place.inHand] using ih.told
      · simpa [gauged, Place.gauged] using ih.once
    · exact ih.step hBefore.reachable ht (hMove.gauging hSink) hThreads

def capped : Limiter Bucket := TokenBucket.limiter { maxKeys := 2 } 2 Params.two_shards true .onePerSecond

/-- The first call reads the counter while the second has reserved a slot for
its key and has not stored it. -/
def earlyReading : List (Act (Key × Int) (List Key)) :=
  [.start ([97], 5), .start ([98], 6)] ++ Params.steps 0 12 ++ Params.steps 1 7 ++ Params.steps 0 2

theorem gauge_told_earlyReading :
    ∃ g : capped.State, capped.program.Logged readings [⟨2, 1, 1⟩] g ∧ gauges g.shared = [2] ∧
      [(2 : Int)].Perm (gauges g.shared ++ inHand g) ∧ Reading.Accurate 2 ⟨2, 1, 1⟩ := by
  have hRun : (capped.program.record readings capped.program.initial earlyReading).map
      (fun out => (out.1, gauges out.2.shared)) = some ([⟨2, 1, 1⟩], [2]) := by decide +kernel
  obtain ⟨⟨log, g⟩, hRecord, hOut⟩ := Option.map_eq_some_iff.mp hRun
  obtain ⟨rfl, hGauges⟩ := Prod.mk.inj hOut
  have hLogged := Program.Logged.init.record earlyReading hRecord
  obtain ⟨hAccurate, hTold, _⟩ := gauge_told capped rfl hLogged
  exact ⟨g, hLogged, hGauges, hTold, hAccurate _ List.mem_cons_self⟩

end Limiter

end Kaka.Memory
