import Kaka.Memory.Representation
import Mathlib.Logic.Relation

/-! # Calls one after another

A single-threaded run: each `withState` call has the store to itself from its
first step to its return.  Such a run is an interleaving, so it starts each
call from a store that satisfies the representation invariant.
-/

namespace Kaka.Memory

open Interleaving

variable {σ ρ : Type}

namespace Params

variable (P : Params σ)

/-- Steps of the call `c` alone on the store. -/
def Alone (tid : Tid) (c : Call σ ρ) (x y : Store P.shardCount σ × Pc P.shardCount ρ) : Prop :=
  Relation.ReflTransGen (fun x y => ∃ choice, P.advance tid choice x.1 c x.2 = some y) x y

/-- The call `c`, made on the store `s`, returns `outcome` and leaves `s'`. -/
def Returns (tid : Tid) (c : Call σ ρ) (s s' : Store P.shardCount σ) (outcome : Outcome ρ) : Prop :=
  P.Alone tid c (s, .lock) (s', .done outcome)

/-- The calls made so far with their outcomes, and the store they leave. -/
inductive Serial : List (Call σ ρ × Outcome ρ) → Store P.shardCount σ → Prop
  | nil : Serial [] (newShardedStoreWithShards P.shardCount σ)
  | snoc {history s c s' outcome} (hBefore : Serial history s)
      (hReturns : P.Returns history.length c s s' outcome) :
      Serial (history ++ [(c, outcome)]) s'

variable {P} {tid : Tid} {choice : List Key} {s s' : Store P.shardCount σ} {c : Call σ ρ}
  {pc pc' : Pc P.shardCount ρ}

/-- What every step of a call keeps holds when it returns. -/
theorem Alone.invariant {I : Store P.shardCount σ → Pc P.shardCount ρ → Prop}
    (hKeep : ∀ choice s pc s' pc', I s pc → P.Step tid choice s c pc s' pc' → I s' pc')
    (h : P.Alone tid c (s, pc) (s', pc')) (hStart : I s pc) : I s' pc' := by
  suffices hAll : ∀ x y, P.Alone tid c x y → I x.1 x.2 → I y.1 y.2 from hAll _ _ h hStart
  intro x y hAlone hFirst
  induction hAlone with
  | refl => exact hFirst
  | tail _ hStep ih =>
    obtain ⟨choice, hAdvance⟩ := hStep
    exact hKeep choice _ _ _ _ ih (step_of_advance hAdvance)

/-! ## Single-threaded runs are interleavings -/

theorem Alone.reachable {before : List (Thread P.shardCount σ ρ)} {events : List (Event (Outcome ρ))}
    (h : P.Alone before.length c (s, pc) (s', pc'))
    (hReach : P.program.Reachable ⟨s, before ++ [⟨c, pc⟩], events⟩) :
    ∃ events', P.program.Reachable ⟨s', before ++ [⟨c, pc'⟩], events'⟩ := by
  suffices hAll : ∀ x y, P.Alone before.length c x y →
      (∃ events, P.program.Reachable ⟨x.1, before ++ [⟨c, x.2⟩], events⟩) →
      ∃ events, P.program.Reachable ⟨y.1, before ++ [⟨c, y.2⟩], events⟩ from
    hAll _ _ h ⟨events, hReach⟩
  intro x y hAlone hFirst
  induction hAlone with
  | refl => exact hFirst
  | @tail y z _ hStep ih =>
    obtain ⟨events, hReach⟩ := ih
    obtain ⟨choice, hAdvance⟩ := hStep
    have hNext : P.program.next ⟨y.1, before ++ [⟨c, y.2⟩], events⟩ (.step before.length choice) =
        some ⟨z.1, before ++ [⟨c, z.2⟩],
          events ++ returned before.length (P.program.result ⟨c, z.2⟩)⟩ := by
      simp only [Program.next, List.getElem?_concat_length, program, hAdvance, Option.map_some,
        List.set_append_right _ _ le_rfl, Nat.sub_self, List.set_cons_zero]
    exact ⟨_, hReach.next trivial hNext⟩

theorem next_start (g : P.State ρ) (c : Call σ ρ) : P.program.next g (.start c) =
    some ⟨g.shared, g.threads ++ [⟨c, .lock⟩], g.history ++ [.call g.threads.length]⟩ := rfl

theorem Serial.reachable {history : List (Call σ ρ × Outcome ρ)} (h : P.Serial history s) :
    ∃ events, P.program.Reachable ⟨s, history.map fun x => ⟨x.1, .done x.2⟩, events⟩ := by
  induction h with
  | nil => exact ⟨[], .init⟩
  | @snoc history s c s' outcome _ hReturns ih =>
    obtain ⟨events, hReach⟩ := ih
    rw [List.map_append, List.map_singleton]
    refine Alone.reachable ?_ (hReach.next trivial (next_start _ c))
    rw [List.length_map]
    exact hReturns

theorem Serial.good {history : List (Call σ ρ × Outcome ρ)} (h : P.Serial history s) : P.Good s := by
  obtain ⟨_, hReach⟩ := h.reachable
  exact (inv hReach).good

theorem Returns.good {outcome : Outcome ρ} (h : P.Returns tid c s s' outcome) (hGood : P.Good s) :
    P.Good s' := by
  have hEnd : P.Good s' ∧ P.PcOk s' c (.done outcome) := by
    refine h.invariant (I := fun s pc => P.Good s ∧ P.PcOk s c pc) ?_ ⟨hGood, trivial⟩
    rintro choice s pc s' pc' ⟨hGood, hOk⟩ hStep
    exact ⟨hStep.good hGood hOk, hStep.ok hGood hOk⟩
  exact hEnd.1

end Params

/-! ## `Allow` -/

def validateKey (key : Key) : Option String :=
  if blank key then some "memory: invalid key" else none

def Outcome.answer : Outcome Result → Answer
  | .ok r => (r, none)
  | .errMaxKeysExceeded => (⟨false, 0, 0⟩, some "memory: max keys exceeded")

/-- One call of `Allow` with nothing else running; what is left open is the
order in which the maps are walked. -/
inductive Params.Allows (P : Params σ) (fn : σ → Int → σ × Result) (x : Key × Int) :
    Store P.shardCount σ → Store P.shardCount σ → Answer → Prop
  | invalid {s err} (hKey : validateKey x.1 = some err) : Allows P fn x s s (⟨false, 0, 0⟩, some err)
  | returned {tid s s' outcome} (hKey : validateKey x.1 = none)
      (hReturns : P.Returns tid ⟨x.1, x.2, fn⟩ s s' outcome) : Allows P fn x s s' outcome.answer

end Kaka.Memory
