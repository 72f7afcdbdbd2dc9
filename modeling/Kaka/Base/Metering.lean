import Mathlib.Algebra.Order.Field.Rat
import Mathlib.Data.List.Chain
import Mathlib.Data.Rat.Cast.Order
import Mathlib.Tactic.Linarith
import Mathlib.Tactic.NormNum
import Mathlib.Tactic.Ring

/-! # Metering

A meter holds a level that grows at most at a fixed rate up to a capacity,
and pays one unit for every request it allows.  Its credit, the level less
what the rate yields up to its time, never rises, even where time runs
backwards; so the requests allowed at times between `a` and `b` cost at most
the capacity and the yield of `b - a`.
-/

namespace Metering

/-- The meter after one request. -/
structure Tick where
  time : ℚ
  level : ℚ
  allowed : Bool

namespace Tick

def cost (x : Tick) : ℚ := if x.allowed then 1 else 0

def credit (rate : ℚ) (x : Tick) : ℚ := x.level - rate * x.time

/-- The request was allowed at a time between `a` and `b`. -/
def Counts (a b : ℚ) (x : Tick) : Prop := x.allowed = true ∧ a ≤ x.time ∧ x.time ≤ b

instance (a b : ℚ) (x : Tick) : Decidable (x.Counts a b) := inferInstanceAs (Decidable (_ ∧ _ ∧ _))

end Tick

def Pays (rate : ℚ) (x y : Tick) : Prop := y.credit rate + y.cost ≤ x.credit rate

/-- An allowed request found a unit in the meter, and no more than fits. -/
def Tick.Covered (capacity : ℚ) (x : Tick) : Prop :=
  x.allowed = true → 0 ≤ x.level ∧ x.level + 1 ≤ capacity

structure Metered (capacity rate : ℚ) (trace : List Tick) : Prop where
  pays : trace.IsChain (Pays rate)
  covered : ∀ x ∈ trace, x.Covered capacity

def count (a b : ℚ) (trace : List Tick) : Nat := trace.countP fun x => x.Counts a b

variable {capacity rate a b : ℚ} {x y : Tick} {trace : List Tick}

theorem count_cons : count a b (x :: trace) = count a b trace + if x.Counts a b then 1 else 0 := by
  rw [count, List.countP_cons]
  simp only [decide_eq_true_eq]
  rfl

theorem Tick.covered_of_denied (hDenied : x.allowed = false) : x.Covered capacity := by
  intro hAllowed
  rw [hDenied] at hAllowed
  cases hAllowed

theorem Metered.single (hCovered : x.Covered capacity) : Metered capacity rate [x] :=
  ⟨.singleton x, by simpa using hCovered⟩

theorem Metered.cons (hCovered : x.Covered capacity) (hPays : Pays rate x y)
    (h : Metered capacity rate (y :: trace)) : Metered capacity rate (x :: y :: trace) :=
  ⟨List.isChain_cons_cons.mpr ⟨hPays, h.pays⟩, List.forall_mem_cons.mpr ⟨hCovered, h.covered⟩⟩

theorem Metered.of_isInfix (h : Metered capacity rate trace) {part : List Tick}
    (hPart : part <:+: trace) : Metered capacity rate part :=
  ⟨ List.IsChain.infix h.pays hPart, fun x hx => h.covered x (hPart.subset hx)⟩

theorem Metered.tail (h : Metered capacity rate (x :: trace)) : Metered capacity rate trace :=
  h.of_isInfix (List.suffix_cons x trace).isInfix

/-- What is counted after a tick is paid from its credit. -/
theorem Metered.credit_ge (h : Metered capacity rate (x :: trace)) (hRate : 0 ≤ rate)
    (hSome : 0 < count a b trace) : count a b trace - rate * b ≤ x.credit rate := by
  induction trace generalizing x with
  | nil => simp [count] at hSome
  | cons y rest ih =>
    have hPays : y.credit rate + y.cost ≤ x.credit rate := h.pays.rel
    rw [count_cons] at hSome ⊢
    have hCost : 0 ≤ y.cost := by
      unfold Tick.cost
      split <;> norm_num
    split
    · rename_i hCounts
      have hOne : y.cost = 1 := if_pos hCounts.1
      rcases Nat.eq_zero_or_pos (count a b rest) with hNone | hMore
      · -- the last one counted: its level is not negative and its time at most `b`
        have hLevel := (h.covered y (List.mem_cons_of_mem x List.mem_cons_self) hCounts.1).1
        have hTime := mul_le_mul_of_nonneg_left hCounts.2.2 hRate
        rw [hNone]
        unfold Tick.credit at hPays ⊢
        push_cast
        linarith
      · have := ih h.tail hMore
        push_cast
        linarith
    · rename_i hNot
      rw [if_neg hNot, Nat.add_zero] at hSome
      have := ih h.tail hSome
      push_cast
      linarith

theorem Metered.count_le (h : Metered capacity rate trace) (hCapacity : 0 ≤ capacity)
    (hRate : 0 ≤ rate) (hab : a ≤ b) : (count a b trace : ℚ) ≤ capacity + rate * (b - a) := by
  have hYield : 0 ≤ rate * (b - a) := mul_nonneg hRate (by linarith)
  induction trace with
  | nil =>
    have : count a b [] = 0 := rfl
    rw [this]
    push_cast
    linarith
  | cons x rest ih =>
    rw [count_cons]
    split
    · rename_i hCounts
      obtain ⟨hLow, hHigh⟩ := h.covered x List.mem_cons_self hCounts.1
      rcases Nat.eq_zero_or_pos (count a b rest) with hNone | hMore
      · rw [hNone]
        push_cast
        linarith
      · have hPaid := h.credit_ge hRate hMore
        have hTime := mul_le_mul_of_nonneg_left hCounts.2.1 hRate
        unfold Tick.credit at hPaid
        push_cast
        linarith
    · have := ih h.tail
      push_cast
      linarith

theorem Metered.countP_le (h : Metered capacity rate trace) (hCapacity : 0 ≤ capacity)
    (hRate : 0 ≤ rate) (hab : a ≤ b) (hTimes : ∀ x ∈ trace, a ≤ x.time ∧ x.time ≤ b) :
    (trace.countP Tick.allowed : ℚ) ≤ capacity + rate * (b - a) := by
  have hAll : trace.countP Tick.allowed = count a b trace := by
    refine List.countP_congr fun x hx => ?_
    simp [Tick.Counts, hTimes x hx]
  rw [hAll]
  exact h.count_le hCapacity hRate hab

end Metering
