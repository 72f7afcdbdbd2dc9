import Mathlib.Logic.Relation

/-! # What every run comes to

A state property is inevitable where no run avoids it: none gets stuck, and
none goes on for ever, before it holds.  On a step relation with a rank that
falls, that is an invariant and a step from every state that is not there yet.
-/

/-- Every run from the state comes to one in `Q`. -/
inductive Inevitable {α : Type} (step : α → α → Prop) (Q : α → Prop) : α → Prop
  | here {x} (hQ : Q x) : Inevitable step Q x
  | next {x} (hMove : ∃ y, step x y) (hAll : ∀ y, step x y → Inevitable step Q y) :
      Inevitable step Q x

namespace Inevitable

variable {α : Type} {step : α → α → Prop} {Q : α → Prop} {x y : α}

theorem of_rank {I : α → Prop} (rank : α → Nat) (hMove : ∀ x, I x → ¬ Q x → ∃ y, step x y)
    (hKeep : ∀ x y, I x → step x y → I y) (hFall : ∀ x y, I x → step x y → rank y < rank x)
    (hx : I x) : Inevitable step Q x := by
  induction hRank : rank x using Nat.strongRecOn generalizing x with
  | ind n ih =>
    subst hRank
    by_cases hQ : Q x
    · exact .here hQ
    · exact .next (hMove x hx hQ) fun y hStep => ih _ (hFall x y hx hStep) (hKeep x y hx hStep) rfl

theorem mono_run {R : α → Prop} (h : Inevitable step Q x)
    (hQ : ∀ y, Relation.ReflTransGen step x y → Q y → R y) : Inevitable step R x := by
  induction h with
  | here hEnd => exact .here (hQ _ .refl hEnd)
  | next hMove _ ih =>
    exact .next hMove fun y hStep => ih y hStep fun z hRun => hQ z (.head hStep hRun)

theorem exists_run (h : Inevitable step Q x) : ∃ y, Relation.ReflTransGen step x y ∧ Q y := by
  induction h with
  | here hQ => exact ⟨_, .refl, hQ⟩
  | next hMove _ ih =>
    obtain ⟨y, hStep⟩ := hMove
    obtain ⟨z, hRun, hQ⟩ := ih y hStep
    exact ⟨z, .head hStep hRun, hQ⟩

end Inevitable
