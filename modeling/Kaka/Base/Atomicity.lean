import Kaka.Base.Interleaving

/-! # Blocks without interruption

The places inside a block are skipped by a coarser program, which takes the
steps of a thread up to the end of its block as one. Its runs are runs of
the finer program, seen only where no thread is inside a block.
-/

namespace Interleaving

namespace Program

variable {S T ι κ ο : Type} (M : Program S T ι κ ο) (inside : T → Bool)

/-- The steps of one thread until it is outside the block, at most `n` of them. -/
def through (tid : Tid) (choice : κ) : Nat → S → T → Option (S × T)
  | 0, _, _ => none
  | n + 1, s, t =>
    match M.step tid choice s t with
    | none => none
    | some (s', t') => if inside t' then through tid choice n s' t' else some (s', t')

def atomically (n : Nat) : Program S T ι κ ο :=
  { M with step := fun tid choice => M.through inside tid choice n }

variable {M} {inside} {n : Nat} {tid : Tid} {choice : κ} {g : Config S T ο} {s s' : S} {t t' : T}

theorem inside_of_through (hStep : M.through inside tid choice n s t = some (s', t')) :
    inside t' = false := by
  induction n generalizing s t with
  | zero => cases hStep
  | succ n ih =>
    rw [through] at hStep
    split at hStep
    · cases hStep
    · split at hStep
      · exact ih hStep
      · cases hStep
        exact Bool.eq_false_iff.mpr ‹_›

theorem Reach.through (hQuiet : ∀ t, inside t = true → M.result t = none) (hReach : M.Reachable g)
    (ht : g.threads[tid]? = some t) (hStep : M.through inside tid choice n g.shared t = some (s', t')) :
    M.Reachable ⟨s', g.threads.set tid t', g.history ++ returned tid (M.result t')⟩ := by
  induction n generalizing g t with
  | zero => cases hStep
  | succ n ih =>
    rw [Program.through] at hStep
    split at hStep
    · cases hStep
    · rename_i s₁ t₁ hFirst
      have hNext : M.next g (.step tid choice) =
          some ⟨s₁, g.threads.set tid t₁, g.history ++ returned tid (M.result t₁)⟩ := by
        simp only [Program.next, ht, hFirst]
      have hMiddle := hReach.next trivial hNext
      split at hStep
      · rename_i hInside
        -- no event is recorded inside the block
        rw [hQuiet t₁ hInside, returned, List.append_nil] at hMiddle
        have hEnd := ih hMiddle (getElem?_set_moved ht) hStep
        rwa [List.set_set] at hEnd
      · cases hStep
        exact hMiddle

theorem Reach.of_atomically (hQuiet : ∀ t, inside t = true → M.result t = none)
    (hReach : (M.atomically inside n).Reachable g) : M.Reachable g := by
  apply Reach.invariant (M := M.atomically inside n) (I := fun g => M.Reachable g) ?_ ?_ hReach
  · exact Reach.init
  · intro g a g' _ ih _ hNext
    rcases next_cases hNext with ⟨call, rfl, rfl⟩ | ⟨tid, choice, t, s', t', _, ht, hStep, rfl⟩
    · exact ih.next (a := .start call) trivial rfl
    · exact ih.through hQuiet ht hStep

theorem Reach.outside (hStart : ∀ call, inside (M.start call) = false)
    (hReach : (M.atomically inside n).Reachable g) : ∀ t ∈ g.threads, inside t = false := by
  refine hReach.threads (p := fun t => inside t = false) ?_ ?_
  · exact hStart
  · intro g tid choice t s' t' _ _ _ hStep
    exact inside_of_through hStep

end Program

end Interleaving
