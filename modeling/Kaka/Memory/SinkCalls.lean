import Kaka.Memory.Metrics
import Kaka.Memory.Unobstructed

/-! # Every decision is told once, with no lock held

A call tells the sink its decision after `withState` has returned, or at once if
its key is not valid. A callback of the sink may take as long as it likes, or
call the limiter itself: what it keeps waiting is its own call only.
-/

namespace Kaka.Memory

open Interleaving

variable {n : Nat} {σ : Type}

def SinkCall.isDecision : SinkCall → Bool
  | .onAllowed _ _ => true
  | .onRejected _ _ => true
  | .onError _ _ => true
  | _ => false

def decisionOf : Answer → SinkCall
  | (_, some err) => .onError tierSingle err
  | (r, none) => if r.allowed then .onAllowed tierSingle r else .onRejected tierSingle r

theorem Outcome.report_eq (outcome : Outcome Result) : outcome.report = decisionOf outcome.answer := by
  cases outcome <;> rfl

theorem isDecision_decisionOf (answer : Answer) : (decisionOf answer).isDecision = true := by
  obtain ⟨r, err⟩ := answer
  cases err with
  | none =>
    rw [decisionOf]
    split <;> rfl
  | some err => rfl

def Place.told : Place n → Option Answer
  | .len outcome => some outcome.answer
  | .setKeys _ outcome => some outcome.answer
  | .drain outcome => some outcome.answer
  | .callbacks _ _ outcome => some outcome.answer
  | .returned outcome => some outcome.answer
  | .invalid err => some (⟨false, 0, 0⟩, some err)
  | _ => none

/-- Before `withState`, after it, or in a callback of the sink. -/
def Place.outside : Place n → Bool
  | .withState _ => false
  | _ => true

namespace Limiter

variable {L : Limiter σ} {tid : Tid} {choice : List Key} {m m' : Monitored L.shardCount σ} {x : Key × Int}
  {place place' : Place L.shardCount}

def decisions (m : Monitored L.shardCount σ) : List SinkCall := m.calls.filter SinkCall.isDecision

theorem decisions_tell (hSink : L.sink = true) (m : Monitored L.shardCount σ) (c : SinkCall) :
    decisions (L.tell m c) = decisions m ++ bif c.isDecision then [c] else [] := by
  rw [decisions, tell, if_pos hSink, List.filter_append, List.filter_singleton]
  rfl

/-- A step tells a decision and is past it from then on, or neither. -/
theorem Move.decisions (hSink : L.sink = true) (h : L.Move tid choice m x place m' place') :
    (∃ answer, Limiter.decisions m' = Limiter.decisions m ++ [decisionOf answer] ∧ place.told = none ∧
      place'.told = some answer) ∨
    (Limiter.decisions m' = Limiter.decisions m ∧ place'.told = place.told) := by
  cases h with
  | @invalid err hKey =>
    refine .inl ⟨(⟨false, 0, 0⟩, some err), ?_, rfl, rfl⟩
    rw [decisions_tell hSink]
    rfl
  | @report outcome =>
    refine .inl ⟨outcome.answer, ?_, rfl, rfl⟩
    rw [decisions_tell hSink, outcome.report_eq, isDecision_decisionOf]
    rfl
  | setKeys | fire =>
    refine .inr ⟨?_, rfl⟩
    rw [decisions_tell hSink]
    exact List.append_nil _
  | unobserved hNone =>
    rw [hSink] at hNone
    cases hNone
  | valid | store | observed | len | drain | drained => exact .inr ⟨rfl, rfl⟩

def answersTold (g : L.State) : List Answer := g.threads.filterMap fun t => t.place.told

section Moved

variable {g g' : L.State} {t : Allowing L.shardCount} (ht : g.threads[tid]? = some t)
  (hThreads : g'.threads = g.threads.set tid ⟨t.key, t.now, place'⟩)

include ht hThreads

theorem answersTold_perm {answer : Answer} (hNone : t.place.told = none) (hSome : place'.told = some answer) :
    (answersTold g').Perm (answersTold g ++ [answer]) := by
  rw [answersTold, hThreads]
  exact filterMap_set_perm _ ht hNone hSome

theorem answersTold_eq (hSame : place'.told = t.place.told) : answersTold g' = answersTold g := by
  rw [answersTold, hThreads]
  exact filterMap_set_eq _ ht hSame

end Moved

theorem decisions_perm (hSink : L.sink = true) {g : L.State} (hReach : L.program.Reachable g) :
    (decisions g.shared).Perm ((answersTold g).map decisionOf) := by
  refine hReach.invariant (I := fun g => (decisions g.shared).Perm ((answersTold g).map decisionOf)) ?_ ?_
  · exact .nil
  · intro g a g' _ h _ hNext
    rcases next_cases hNext with ⟨x, _, rfl⟩ | ⟨tid, choice, t, m', place', _, ht, hMove, rfl, hThreads⟩
    · have hSame : answersTold (⟨g.shared, g.threads ++ [⟨x.1, x.2, .validate⟩],
          g.history ++ [.call g.threads.length]⟩ : L.State) = answersTold g := by
        simp [answersTold, Place.told]
      rw [hSame]
      exact h
    · rcases hMove.decisions hSink with ⟨answer, hTold, hNone, hSome⟩ | ⟨hSame, hPlace⟩
      · have hMapped := ((answersTold_perm ht hThreads hNone hSome).map decisionOf).symm
        rw [List.map_append] at hMapped
        rw [hTold]
        exact (h.append_right _).trans hMapped
      · rw [hSame, answersTold_eq ht hThreads hPlace]
        exact h

theorem under_off {t : Allowing L.shardCount} (hOutside : t.place.outside = true) :
    Params.Off (P := L.toParams) (L.under t) := by
  obtain ⟨key, now, place⟩ := t
  cases place with
  | withState pc => cases hOutside
  | _ => exact ⟨rfl, rfl⟩

theorem exists_store_step {g : L.State} (hReach : L.program.Reachable g) {t : Allowing L.shardCount}
    (ht : g.threads[tid]? = some t) {pc : Pc L.shardCount Result} (hPlace : t.place = .withState pc)
    (hRunning : Params.outcome? pc = none)
    (hOthers : ∀ u y, g.threads[u]? = some y → u ≠ tid → y.place.outside = true) :
    ∃ s pc', L.toParams.Step tid [] g.shared.store (L.call (t.key, t.now)) pc s pc' := by
  obtain ⟨h, hUnder, hBeneath⟩ := exists_beneath hReach
  obtain ⟨d, hStore⟩ := hBeneath.store
  have hThread : h.threads[tid]? = some (L.under t) := by
    rw [hBeneath.threads, List.getElem?_map, ht]
    rfl
  have hPc : (L.under t).pc = pc := by rw [under, hPlace]
  have hOff : ∀ u y, h.threads[u]? = some y → u ≠ tid → Params.Off (P := L.toParams) y := by
    intro u y hy hNe
    rw [hBeneath.threads, List.getElem?_map] at hy
    obtain ⟨y, hy', rfl⟩ := Option.map_eq_some_iff.mp hy
    exact under_off (hOthers u y hy' hNe)
  have hSolo := (Params.inv hUnder).solo hThread hOff
  obtain ⟨s, pc', hStep⟩ := hSolo.exists_step (by rw [hPc]; exact hRunning) tid
  rw [hPc, hStore] at hStep
  have hBack := hStep.credit (-d)
  rw [Store.credit_credit, Int.add_right_neg, Store.credit, Int.add_zero] at hBack
  exact ⟨_, pc', hBack⟩

theorem exists_next {g : L.State} (hReach : L.program.Reachable g) {t : Allowing L.shardCount}
    (ht : g.threads[tid]? = some t) (hUnfinished : L.program.result t = none)
    (hOthers : ∀ u y, g.threads[u]? = some y → u ≠ tid → y.place.outside = true) :
    ∃ g', L.program.next g (.step tid []) = some g' := by
  have hAdvance : ∃ out, L.advance tid [] g.shared (t.key, t.now) t.place = some out := by
    cases hPlace : t.place with
    | validate =>
      rw [advance]
      split <;> exact ⟨_, rfl⟩
    | withState pc =>
      by_cases hDone : ∃ outcome, pc = .done outcome
      · obtain ⟨outcome, rfl⟩ := hDone
        exact ⟨_, rfl⟩
      · have hRunning : Params.outcome? pc = none := by
          cases pc with
          | done outcome => exact absurd ⟨outcome, rfl⟩ hDone
          | _ => rfl
        obtain ⟨s, pc', hStep⟩ := exists_store_step hReach ht hPlace hRunning hOthers
        rw [advance]
        · rw [hStep.advance]
          exact ⟨_, rfl⟩
        · exact fun outcome hPc => hDone ⟨outcome, hPc⟩
    | callbacks i pending outcome =>
      rw [advance]
      split <;> exact ⟨_, rfl⟩
    | returned | invalid => simp [program, hPlace] at hUnfinished
    | _ => exact ⟨_, rfl⟩
  obtain ⟨out, hOut⟩ := hAdvance
  simp only [Program.next, ht, program, hOut, Option.map_some]
  exact ⟨_, rfl⟩

/-- At every moment the sink has been told the decisions of the calls that are
past telling them, each once and as answered. A call that has not returned can
go on whenever the others are outside `withState`, also where they are in a
callback that does not come back. -/
theorem decisions_told_once (L : Limiter σ) (hSink : L.sink = true) {g : L.State}
    (hReach : L.program.Reachable g) :
    (decisions g.shared).Perm ((answersTold g).map decisionOf) ∧
    (∀ t ∈ g.threads, ∀ answer, L.program.result t = some answer → t.place.told = some answer) ∧
    ∀ tid t, g.threads[tid]? = some t → L.program.result t = none →
      (∀ u y, g.threads[u]? = some y → u ≠ tid → y.place.outside = true) →
      ∃ g', L.program.next g (.step tid []) = some g' := by
  refine ⟨decisions_perm hSink hReach, ?_, fun tid t ht hUnfinished => exists_next hReach ht hUnfinished⟩
  intro t _ answer hResult
  obtain ⟨key, now, place⟩ := t
  cases place with
  | returned | invalid => exact hResult
  | _ => cases hResult

def watched : Limiter Bucket := TokenBucket.limiter {} 2 Params.two_shards true .onePerSecond

/-- The first call is about to tell the sink the number of keys, and the second
is in `withState`. -/
def slowSink : List (Act (Key × Int) (List Key)) :=
  [.start ([97], 5), .start ([97], 6)] ++ Params.steps 0 11 ++ Params.steps 1 3

theorem decisions_told_once_slowSink :
    let g := watched.program.final (fun _ _ => True) slowSink
    (decisions g.shared).Perm [.onAllowed tierSingle ⟨true, 1, 0⟩] ∧
    ∃ g', watched.program.next g (.step 1 []) = some g' := by
  intro g
  have hReach : watched.program.Reachable g := .final slowSink (by decide +kernel)
  obtain ⟨hTold, _, hNext⟩ := decisions_told_once watched rfl hReach
  have hAnswers : answersTold g = [(⟨true, 1, 0⟩, none)] := by decide +kernel
  rw [hAnswers] at hTold
  refine ⟨hTold, ?_⟩
  have hSecond : (g.threads[1]?).isSome = true := by decide +kernel
  obtain ⟨t, ht⟩ := Option.isSome_iff_exists.mp hSecond
  refine hNext 1 t ht ?_ ?_
  · have hRunning : (g.threads[1]?).all (fun t => watched.program.result t = none) = true := by decide +kernel
    simpa [ht] using hRunning
  · intro u y hy hOther
    have hLength : g.threads.length = 2 := by decide +kernel
    have hFirst : (g.threads[0]?).all (fun y => y.place.outside) = true := by decide +kernel
    have hLt : (u : Nat) < 2 := hLength ▸ (List.getElem?_eq_some_iff.mp hy).1
    obtain rfl : u = 0 := Nat.lt_one_iff.mp (lt_of_le_of_ne (Nat.le_of_lt_succ hLt) hOther)
    simpa [hy] using hFirst

end Limiter

end Kaka.Memory
