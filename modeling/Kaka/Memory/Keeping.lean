import Kaka.Memory.KeyHistory
import Kaka.Memory.Serial

/-! # A call alone on a store that keeps its keys

Where nothing expires and nothing is evicted, a call that has the store to
itself runs its callback on the state of its key, or it finds the store full
and its key new.  No other key is touched.
-/

namespace Kaka.Memory

open Interleaving

variable {σ ρ : Type}

/-- The places on the way of a key that is stored, up to the callback. -/
def Pc.Fast {n : Nat} : Pc n ρ → Prop
  | .lock | .lookup | .run => True
  | .expire _ next => next = .run
  | _ => False

namespace Params

variable {P : Params σ} {tid : Tid} {choice : List Key} {s s' : Store P.shardCount σ} {c : Call σ ρ}
  {pc pc' : Pc P.shardCount ρ} {fn : σ → Int → σ × Result} {x : Key × Int}

theorem Step.fast (h : P.Step tid choice s c pc s' pc') (hGood : P.Good s) (hCalm : pc.Calm)
    (hStored : (P.value s c.key).isSome = true) (hFast : pc.Fast) (hPc : pc ≠ .run) : pc'.Fast := by
  cases h with
  | lock => trivial
  | hit => rfl
  | miss hMiss =>
    have hNew : ¬ P.Stored s c.key := (Shard.hit_eq_none (hGood.wf _) c.key c.now).mp hMiss
    exact absurd ((hGood.stored_iff c.key).mpr hStored) hNew
  | expireDone =>
    cases hFast
    trivial
  | expireDrop | expireSkip => cases hCalm
  | run => exact absurd rfl hPc
  | _ => cases hFast

/-- How far a call is that started on `s₀`. -/
inductive Progress (P : Params σ) (c : Call σ ρ) (s₀ s : Store P.shardCount σ)
    (pc : Pc P.shardCount ρ) : Prop
  | untouched (hValue : ∀ key, P.value s key = P.value s₀ key) (hAnswer : pc.answer = none)
      (hFast : (P.value s₀ c.key).isSome = true → pc.Fast)
  | created (hPc : pc = .run) (hNew : P.value s₀ c.key = none)
      (hValue : ∀ key, P.value s key = if key = c.key then some (P.create c.now) else P.value s₀ key)
  | served {v} (hFound : P.value s₀ c.key = some v ∨ P.value s₀ c.key = none ∧ v = P.create c.now)
      (hAnswer : pc.answer = some (c.fn v c.now).2)
      (hValue : ∀ key, P.value s key = if key = c.key then some (c.fn v c.now).1 else P.value s₀ key)

theorem Progress.step {s₀ : Store P.shardCount σ} (h : P.Progress c s₀ s pc) (hGood : P.Good s)
    (hCalm : pc.Calm) (hStep : P.Step tid choice s c pc s' pc') (hServe : P.Serve c s s' pc pc') :
    P.Progress c s₀ s' pc' := by
  cases h with
  | untouched hOld hNone hFast =>
    cases hServe with
    | still hValue hPc hAnswer =>
      refine .untouched (fun key => (hValue key).trans (hOld key)) (hAnswer.trans hNone) fun hStored => ?_
      exact hStep.fast hGood hCalm (by rw [hOld]; exact hStored) (hFast hStored) hPc
    | create hPc hPc' hNew hValue =>
      refine .created hPc' ((hOld c.key).symm.trans hNew) fun key => ?_
      rw [hValue, hOld]
    | run hPc hPc' hFound hValue =>
      refine .served (.inl ((hOld c.key).symm.trans hFound)) (by rw [hPc']; rfl) fun key => ?_
      rw [hValue, hOld]
  | created hRun hNew hOld =>
    cases hServe with
    | still _ hPc => exact absurd hRun hPc
    | create hPc => cases hRun.symm.trans hPc
    | run _ hPc' hFound hValue =>
      rw [hOld, if_pos rfl] at hFound
      obtain rfl := Option.some.inj hFound
      refine .served (.inr ⟨hNew, rfl⟩) (by rw [hPc']; rfl) fun key => ?_
      rw [hValue, hOld]
      split <;> rfl
  | served hFound hDone hOld =>
    cases hServe with
    | still hValue _ hAnswer =>
      exact .served hFound (hAnswer.trans hDone) fun key => (hValue key).trans (hOld key)
    | create hPc =>
      rw [hPc] at hDone
      cases hDone
    | run hPc =>
      rw [hPc] at hDone
      cases hDone

theorem Returns.progress {outcome : Outcome ρ} (h : P.Returns tid c s s' outcome) (hKeeps : P.Keeps)
    (hGood : P.Good s) : P.Progress c s s' (.done outcome) := by
  have hEnd : (P.Good s' ∧ P.PcOk s' c (.done outcome) ∧
      (Pc.done outcome : Pc P.shardCount ρ).Calm) ∧
      P.Progress c s s' (.done outcome) := by
    refine h.invariant (I := fun s₁ pc => (P.Good s₁ ∧ P.PcOk s₁ c pc ∧ pc.Calm) ∧ P.Progress c s s₁ pc) ?_
      ⟨⟨hGood, trivial, trivial⟩, .untouched (fun _ => rfl) rfl fun _ => trivial⟩
    rintro choice s₁ pc s₂ pc' ⟨⟨hGood, hOk, hCalm⟩, hProgress⟩ hStep
    exact ⟨⟨hStep.good hGood hOk, hStep.ok hGood hOk, hStep.calm hKeeps.ttl hGood hCalm⟩,
      hProgress.step hGood hCalm hStep (hStep.serve hKeeps hGood hOk hCalm)⟩
  exact hEnd.2

/-- What a call of `Allow` does. -/
inductive Does (P : Params σ) (fn : σ → Int → σ × Result) (x : Key × Int) (s s' : Store P.shardCount σ) :
    Answer → Prop
  | fails {result err} (hNew : validateKey x.1 ≠ none ∨ P.value s x.1 = none)
      (hValue : ∀ key, P.value s' key = P.value s key) : Does P fn x s s' (result, some err)
  | answers {v} (hKey : validateKey x.1 = none)
      (hFound : P.value s x.1 = some v ∨ P.value s x.1 = none ∧ v = P.create x.2)
      (hValue : ∀ key, P.value s' key = if key = x.1 then some (fn v x.2).1 else P.value s key) :
      Does P fn x s s' ((fn v x.2).2, none)

theorem Allows.does {a : Answer} (h : P.Allows fn x s s' a) (hKeeps : P.Keeps) (hGood : P.Good s) :
    P.Does fn x s s' a := by
  cases h with
  | invalid hKey => exact .fails (.inl (by rw [hKey]; exact Option.some_ne_none _)) fun _ => rfl
  | @returned tid s s' outcome hKey hReturns =>
    cases hReturns.progress hKeeps hGood with
    | untouched hValue hAnswer hFast =>
      cases outcome with
      | ok => cases hAnswer
      | errMaxKeysExceeded =>
        refine .fails (.inr ?_) hValue
        rw [← Option.not_isSome_iff_eq_none]
        exact hFast
    | created hPc => cases hPc
    | served hFound hAnswer hValue =>
      cases outcome with
      | ok =>
        cases hAnswer
        exact .answers hKey hFound hValue
      | errMaxKeysExceeded => cases hAnswer

end Params

end Kaka.Memory
