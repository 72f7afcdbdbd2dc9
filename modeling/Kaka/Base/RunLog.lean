import Kaka.Base.Interleaving

/-! # Runs with a log

A run keeps a log beside its configuration: what `note` reads off each step
before the step is taken. The log constrains nothing, so every run has one.
-/

namespace Interleaving

namespace Program

variable {S T ι κ ο E : Type} (M : Program S T ι κ ο) (note : Config S T ο → Act ι κ → List E)

inductive Logged : List E → Config S T ο → Prop
  | init : Logged [] M.initial
  | next {log g a g'} (hBefore : Logged log g) (hNext : M.next g a = some g') :
      Logged (log ++ note g a) g'

/-- The log of one given run, for runs on explicit inputs. -/
def record (g : Config S T ο) : List (Act ι κ) → Option (List E × Config S T ο)
  | [] => some ([], g)
  | a :: rest =>
    (M.next g a).bind fun g' => (record g' rest).map fun out => (note g a ++ out.1, out.2)

variable {M} {note} {log : List E} {g : Config S T ο}

theorem Logged.reachable (h : M.Logged note log g) : M.Reachable g := by
  induction h with
  | init => exact .init
  | next _ hNext ih => exact ih.next trivial hNext

theorem Logged.record {g' : Config S T ο} {log' : List E} (h : M.Logged note log g)
    (acts : List (Act ι κ)) (hRun : M.record note g acts = some (log', g')) :
    M.Logged note (log ++ log') g' := by
  induction acts generalizing log log' g with
  | nil =>
    cases hRun
    rw [List.append_nil]
    exact h
  | cons a rest ih =>
    obtain ⟨g₁, hNext, hRest⟩ := Option.bind_eq_some_iff.mp hRun
    obtain ⟨⟨tail, _⟩, hTail, hEq⟩ := Option.map_eq_some_iff.mp hRest
    cases hEq
    rw [← List.append_assoc]
    exact ih (h.next hNext) hTail

end Program

/-- Every event of the log is justified by those before it. -/
def Accounts {E : Type} (justified : List E → E → Prop) (log : List E) : Prop :=
  ∀ i e, log[i]? = some e → justified (log.take i) e

theorem Accounts.snoc {E : Type} {justified : List E → E → Prop} {log : List E} {e : E}
    (h : Accounts justified log) (hLast : justified log e) : Accounts justified (log ++ [e]) := by
  intro i x hx
  rcases getElem?_snoc_cases hx with ⟨rfl, rfl⟩ | hOld
  · rw [List.take_left]
    exact hLast
  · have hLt := (List.getElem?_eq_some_iff.mp hOld).1
    rw [List.take_append_of_le_length hLt.le]
    exact h i x hOld

theorem Accounts.append {E : Type} {justified : List E → E → Prop} {log events : List E}
    (h : Accounts justified log) (hEvents : ∀ e ∈ events, ∀ before, justified before e) :
    Accounts justified (log ++ events) := by
  induction events generalizing log with
  | nil => rwa [List.append_nil]
  | cons e rest ih =>
    rw [List.append_cons]
    exact ih (h.snoc (hEvents e List.mem_cons_self log)) fun x hx => hEvents x (List.mem_cons_of_mem e hx)

end Interleaving
