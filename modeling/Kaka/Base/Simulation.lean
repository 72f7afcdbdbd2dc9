import Kaka.Base.Interleaving

/-! # Simulations between programs

A concrete program is read as an abstract one: the shared state and every
thread stand for abstract ones, and each step of a concrete thread is zero or
more steps of the thread it stands for. Then what holds in every reachable
configuration of the abstract program holds of what the concrete one stands for.
-/

namespace Interleaving

namespace Program

variable {S T ι κ ο S' T' ι' κ' ο' : Type} {M : Program S T ι κ ο} {N : Program S' T' ι' κ' ο'}

/-- StepsTo of the thread `tid` and of no other. -/
inductive StepsTo (N : Program S' T' ι' κ' ο') (tid : Tid) (s : S') (t : T') : S' → T' → Prop
  | refl : StepsTo N tid s t s t
  | tail {s₁ t₁ choice s₂ t₂} (hBefore : StepsTo N tid s t s₁ t₁)
      (hStep : N.step tid choice s₁ t₁ = some (s₂, t₂)) : StepsTo N tid s t s₂ t₂

theorem StepsTo.single {tid : Tid} {s s' : S'} {t t' : T'} (choice : κ')
    (hStep : N.step tid choice s t = some (s', t')) : N.StepsTo tid s t s' t' :=
  .tail .refl hStep

theorem StepsTo.trans {tid : Tid} {s s₁ s₂ : S'} {t t₁ t₂ : T'} (hFirst : N.StepsTo tid s t s₁ t₁)
    (hSecond : N.StepsTo tid s₁ t₁ s₂ t₂) : N.StepsTo tid s t s₂ t₂ := by
  induction hSecond with
  | refl => exact hFirst
  | tail _ hStep ih => exact .tail ih hStep

theorem Reach.stepsTo {g : Config S' T' ο'} {tid : Tid} {t t' : T'} {s' : S'} (hReach : N.Reachable g)
    (ht : g.threads[tid]? = some t) (hSteps : N.StepsTo tid g.shared t s' t') :
    ∃ history, N.Reachable ⟨s', g.threads.set tid t', history⟩ := by
  induction hSteps with
  | refl =>
    obtain ⟨hLt, rfl⟩ := List.getElem?_eq_some_iff.mp ht
    refine ⟨g.history, ?_⟩
    rw [List.set_getElem_self]
    exact hReach
  | @tail s₁ t₁ choice s₂ t₂ _ hStep ih =>
    obtain ⟨history, hBefore⟩ := ih
    have hThread : (g.threads.set tid t₁)[tid]? = some t₁ := getElem?_set_moved ht
    have hNext : N.next ⟨s₁, g.threads.set tid t₁, history⟩ (.step tid choice) =
        some ⟨s₂, g.threads.set tid t₂, history ++ returned tid (N.result t₂)⟩ := by
      simp only [Program.next, hThread, hStep, List.set_set]
    exact ⟨_, hBefore.next trivial hNext⟩

/-- `shared` and `thread` read the program `M` as the program `N`. -/
structure Simulation (M : Program S T ι κ ο) (N : Program S' T' ι' κ' ο') (shared : S → S')
    (thread : T → T') : Prop where
  init : shared M.init = N.init
  start : ∀ x, ∃ y, thread (M.start x) = N.start y
  step : ∀ tid choice s t s' t', M.step tid choice s t = some (s', t') →
    N.StepsTo tid (shared s) (thread t) (shared s') (thread t')

theorem Simulation.reachable {shared : S → S'} {thread : T → T'} (h : Simulation M N shared thread)
    {g : Config S T ο} (hReach : M.Reachable g) :
    ∃ history, N.Reachable ⟨shared g.shared, g.threads.map thread, history⟩ := by
  refine hReach.invariant (I := fun g => ∃ history, N.Reachable
    ⟨shared g.shared, g.threads.map thread, history⟩) ?_ ?_
  · refine ⟨[], ?_⟩
    rw [initial, h.init]
    exact Reach.init
  · rintro g a g' _ ⟨history, hBefore⟩ _ hNext
    rcases next_cases hNext with ⟨x, _, rfl⟩ | ⟨tid, choice, t, s', t', _, ht, hStep, rfl⟩
    · obtain ⟨y, hStart⟩ := h.start x
      rw [List.map_append, List.map_singleton, hStart]
      exact ⟨_, hBefore.next (a := .start y) trivial rfl⟩
    · have hThread : (g.threads.map thread)[tid]? = some (thread t) := by
        rw [List.getElem?_map, ht]
        rfl
      rw [List.map_set]
      exact hBefore.stepsTo hThread (h.step tid choice _ t s' t' hStep)

end Program

end Interleaving
