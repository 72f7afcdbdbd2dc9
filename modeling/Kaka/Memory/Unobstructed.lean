import Kaka.Memory.Handoff
import Kaka.Memory.Return

/-! # Calls suspended off the locks

A call that holds no mutex owes nothing to `live` either, so wherever it is
suspended the store serves the next call as if it were alone: in a number of
steps that depends on the shards only, and under `EvictLRU` with a result.
-/

namespace Kaka.Memory

open Interleaving

variable {σ ρ : Type}

namespace Params

/-- The call holds no mutex. -/
def Off {P : Params σ} (t : Thread P.shardCount σ ρ) : Prop :=
  t.pc.holds (P.self t.call) = none ∧ t.pc.sweeps = false

instance {P : Params σ} (t : Thread P.shardCount σ ρ) : Decidable (Off t) :=
  inferInstanceAs (Decidable (_ ∧ _))

variable {P : Params σ} {g g₁ h : P.State ρ} {t : Thread P.shardCount σ ρ} {tid : Tid} {c : Call σ ρ}
  {s : Store P.shardCount σ} {pc : Pc P.shardCount ρ}

/-! ## A store in the hands of one call -/

theorem debt_of_holds (hNone : pc.holds (P.self c) = none) : debt pc = 0 := by
  cases pc with
  | expired | evicted | recheck | giveBack => cases hNone
  | _ => rfl

theorem Inv.debts (ht : g.threads[tid]? = some t)
    (hOthers : ∀ u x, g.threads[u]? = some x → u ≠ tid → Off x) :
    (g.threads.map fun x => debt x.pc).sum = debt t.pc := by
  have hSet : ((g.threads.set tid ⟨t.call, .lock⟩).map fun x => debt x.pc).sum =
      (g.threads.map fun x => debt x.pc).sum + debt (.lock : Pc P.shardCount ρ) - debt t.pc :=
    sum_map_set (fun x => debt x.pc) ht
  have hZero : ((g.threads.set tid ⟨t.call, .lock⟩).map fun x => debt x.pc).sum = 0 := by
    apply List.sum_eq_zero
    intro d hd
    obtain ⟨x, hx, rfl⟩ := List.mem_map.mp hd
    obtain ⟨u, hu⟩ := List.mem_iff_getElem?.mp hx
    rcases getElem?_set_cases hu ht with ⟨_, rfl⟩ | ⟨hNe, hu⟩
    · rfl
    · exact debt_of_holds (hOthers u x hu hNe).1
  rw [hZero, show debt (.lock : Pc P.shardCount ρ) = 0 from rfl] at hSet
  omega

theorem Inv.solo (hInv : P.Inv g) (ht : g.threads[tid]? = some t)
    (hOthers : ∀ u x, g.threads[u]? = some x → u ≠ tid → Off x) : P.Solo g.shared t.call t.pc := by
  -- whoever owns a mutex is the call itself
  have hSelf : ∀ {u : Tid} {x}, g.threads[u]? = some x → ¬ Off x → x = t := by
    intro u x hx hOn
    by_cases hEq : u = tid
    · subst hEq
      exact Option.some.inj (hx.symm.trans ht)
    · exact absurd (hOthers u x hx hEq) hOn
  refine ⟨hInv.good, hInv.ok tid t ht, ?_, ?_, ?_, hInv.cap⟩
  · intro i hNone
    rw [Option.eq_none_iff_forall_ne_some]
    intro u hTaken
    obtain ⟨x, hx, hHolds⟩ := (hInv.locks.shard i u).mp hTaken
    obtain rfl := hSelf hx fun hOff => by simp [hOff.1] at hHolds
    exact hNone hHolds
  · intro hNone
    rw [Option.eq_none_iff_forall_ne_some]
    intro u hTaken
    obtain ⟨x, hx, hSweeps⟩ := (hInv.locks.sweep () u).mp hTaken
    obtain rfl := hSelf hx fun hOff => by simp [hOff.2] at hSweeps
    rw [hNone] at hSweeps
    cases hSweeps
  · rw [hInv.count, Inv.debts ht hOthers]

/-! ## The next call -/

/-- Only the call `tid` is scheduled. -/
def OnlyBy (tid : Tid) (_ : P.State ρ) (a : Act (Call σ ρ) (List Key)) : Prop :=
  ∃ choice, a = .step tid choice

instance (g : P.State ρ) (a : Act (Call σ ρ) (List Key)) : Decidable (OnlyBy tid g a) :=
  match a with
  | .start _ => isFalse nofun
  | .step u choice =>
    decidable_of_iff (u = tid)
      ⟨fun hEq => ⟨choice, hEq ▸ rfl⟩, fun ⟨_, hEq⟩ => (Act.step.inj hEq).1⟩

/-- The run of a new call that the scheduler gives the store to. -/
structure Running (P : Params σ) (g : P.State ρ) (c : Call σ ρ) (steps : Nat) (h : P.State ρ) : Prop where
  reach : P.program.Reachable h
  threads : ∃ pc, h.threads = g.threads ++ [⟨c, pc⟩] ∧ P.Knows h.shared c pc ∧
    steps + P.rank h.shared pc ≤ P.rank g.shared (.lock : Pc P.shardCount ρ)

theorem Running.solo {n : Nat} (hRun : P.Running g c n h) (hOff : ∀ t ∈ g.threads, Off t)
    (hThreads : h.threads = g.threads ++ [⟨c, pc⟩]) : P.Solo h.shared c pc := by
  have ht : h.threads[g.threads.length]? = some ⟨c, pc⟩ := by
    rw [hThreads, List.getElem?_concat_length]
  refine (inv hRun.reach).solo ht ?_
  intro u x hx hNe
  rw [hThreads] at hx
  rcases getElem?_snoc_cases hx with ⟨rfl, _⟩ | hx
  · exact absurd rfl hNe
  · exact hOff x (List.mem_of_getElem? hx)

theorem Running.step {n : Nat} {h' : P.State ρ} {choice : List Key} (hRun : P.Running g c n h)
    (hOff : ∀ t ∈ g.threads, Off t)
    (hNext : P.program.next h (.step g.threads.length choice) = some h') : P.Running g c (n + 1) h' := by
  obtain ⟨pc, hThreads, hKnows, hRank⟩ := hRun.threads
  refine ⟨hRun.reach.next trivial hNext, ?_⟩
  obtain ⟨t, s', pc', ht, hStep, rfl, -⟩ := step_cases hNext
  obtain rfl : ⟨c, pc⟩ = t := by
    rw [hThreads, List.getElem?_concat_length] at ht
    exact Option.some.inj ht
  refine ⟨pc', ?_, hStep.knows (hRun.solo hOff hThreads) hKnows, ?_⟩
  · rw [hThreads, List.set_append_right _ _ le_rfl, Nat.sub_self]
    rfl
  · have hFall : P.rank s' pc' < P.rank h.shared pc := hStep.rank_lt hKnows
    change n + 1 + P.rank s' pc' ≤ _
    omega

theorem running {seen : List (P.State ρ)} (hReach : P.program.Reachable g)
    (hOff : ∀ t ∈ g.threads, Off t) (hStart : P.program.next g (.start c) = some g₁)
    (hPath : P.program.Path (OnlyBy g.threads.length) g₁ seen h) : P.Running g c seen.length h := by
  induction hPath with
  | nil =>
    refine ⟨hReach.next trivial hStart, .lock, ?_, trivial, ?_⟩
    · cases hStart
      rfl
    · cases hStart
      exact (Nat.zero_add _).le
  | snoc _ hOnly hNext ih =>
    obtain ⟨choice, rfl⟩ := hOnly
    rw [List.length_append]
    exact ih.step hOff hNext

/-- Wherever the other calls are suspended, as long as they hold no mutex: a
new call can always move until it has returned, and returns within a number
of steps that is fixed by the number of shards. -/
theorem returns_unobstructed {seen : List (P.State ρ)} (hReach : P.program.Reachable g)
    (hOff : ∀ t ∈ g.threads, Off t) (hStart : P.program.next g (.start c) = some g₁)
    (hPath : P.program.Path (OnlyBy g.threads.length) g₁ seen h) :
    seen.length ≤ 24 + 2 * P.shardCount + (P.shardCount + 1) * passCost ∧
    ((∃ outcome, pcOf h g.threads.length = some (.done outcome) ∧
        (P.ev = .evictLRU → ∃ r, outcome = .ok r)) ∨
      ∃ h', P.program.next h (.step g.threads.length []) = some h') := by
  have hRun := running hReach hOff hStart hPath
  obtain ⟨pc, hThreads, hKnows, hRank⟩ := hRun.threads
  have hLast : h.threads[g.threads.length]? = some ⟨c, pc⟩ := by
    rw [hThreads, List.getElem?_concat_length]
  constructor
  · exact (Nat.le_add_right _ _).trans hRank
  · cases hDone : outcome? pc with
    | some outcome =>
      left
      obtain rfl : pc = .done outcome := by
        cases pc with
        | done o =>
          cases hDone
          rfl
        | _ => cases hDone
      refine ⟨outcome, by rw [pcOf, hLast]; rfl, ?_⟩
      intro hEv
      cases outcome with
      | ok r => exact ⟨r, rfl⟩
      | errMaxKeysExceeded =>
        have hReject := (hKnows rfl).1
        rw [hEv] at hReject
        cases hReject
    | none =>
      right
      obtain ⟨s', pc', hStep⟩ := (hRun.solo hOff hThreads).exists_step hDone g.threads.length
      simp only [Program.next, hLast, program, hStep.advance, Option.map_some]
      exact ⟨_, rfl⟩

/-- A call that has found the store full and swept it is about to retake its lock. -/
def pausedRun : List (Act (Call Nat Nat) (List Key)) :=
  .start (demoCall 97 1000) :: steps 0 9 ++ .start (demoCall 98 1100) :: steps 1 19

theorem returns_unobstructed_pausedRun :
    ∃ g g₁ : race.State Nat, ∃ seen, pcOf g 1 = some .relock ∧
      race.program.next g (.start (demoCall 98 1101)) = some g₁ ∧
      race.program.Path (OnlyBy g.threads.length) g₁ seen (seen.getLastD g₁) ∧ 9 ≤ seen.length ∧
      seen.length ≤ 24 + 2 * race.shardCount + (race.shardCount + 1) * passCost := by
  let g := race.program.final (fun _ _ => True) pausedRun
  let g₁ : race.State Nat := ⟨g.shared, g.threads ++ [⟨demoCall 98 1101, .lock⟩],
    g.history ++ [.call g.threads.length]⟩
  have hReach : race.program.Reachable g := .final pausedRun (by decide +kernel)
  have hRun : ((race.program.trace (OnlyBy g.threads.length) g₁ (steps 2 9)).map List.length) = some 9 := by
    decide +kernel
  obtain ⟨seen, hSeen, hLength⟩ := Option.map_eq_some_iff.mp hRun
  have hPath := Program.Path.of_trace (steps 2 9) hSeen
  exact ⟨g, g₁, seen, by decide +kernel, rfl, hPath, hLength.ge,
    (returns_unobstructed hReach (by decide +kernel) rfl hPath).1⟩

end Params

end Kaka.Memory
