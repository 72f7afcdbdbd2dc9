import Mathlib.Algebra.Group.Nat.Defs
import Mathlib.Data.List.Basic

/-! # Slices of a backing array

A slice is the first `len` cells of an array; the other cells are spare
capacity and keep what was last stored there. The operations record what
the runtime does to the arrays. `append` stores in place while there is
spare capacity and otherwise moves to an array of the runtime's choice.
-/

namespace Slices

/-- `alloc` and `grow` take a new array of `cap` cells, for a `make` and for an
`append` on a full slice; `write` stores into one cell of an array. -/
inductive Op where
  | alloc (cap : Nat)
  | grow (cap : Nat)
  | write (index cap : Nat)
  deriving DecidableEq

/-- The runtime panics on an array of more than `maxCap` elements of `size`
bytes each; the bytes of an array can be counted in an `int`. -/
structure Runtime (size : Nat) where
  maxCap : Nat
  fits : maxCap * size < 2 ^ 63
  grow : Nat → Nat

/-- A computation that records its operations, or panics. -/
abbrev Exec (α : Type) := StateT (List Op) Option α

def record (ops : List Op) : Exec Unit := modify (· ++ ops)

structure Slice (α : Type) where
  array : List α
  len : Nat
  len_le : len ≤ array.length
  deriving DecidableEq

variable {α : Type} {size : Nat}

namespace Slice

def cap (s : Slice α) : Nat := s.array.length

def items (s : Slice α) : List α := s.array.take s.len

def empty : Slice α := ⟨[], 0, Nat.le_refl 0⟩

theorem len_le_cap (s : Slice α) : s.len ≤ s.cap := s.len_le

@[simp] theorem length_items (s : Slice α) : s.items.length = s.len :=
  List.length_take_of_le s.len_le

end Slice

open Slice

/-- `make([]T, len, cap)` -/
def make [Inhabited α] (R : Runtime size) (len : Nat) (cap : Int) : Exec (Slice α) :=
  if h : (len : Int) ≤ cap ∧ cap ≤ R.maxCap then do
    record [.alloc cap.toNat]
    pure ⟨List.replicate cap.toNat default, len, by rw [List.length_replicate]; omega⟩
  else failure

/-- `copy(dst, src)`, where `src` may lie in the same array. -/
def copy (dst : Slice α) (src : List α) : Exec (Slice α × Nat) := do
  let n := min dst.len src.length
  record ((List.range n).map fun i => .write i dst.cap)
  pure (⟨src.take n ++ dst.array.drop n, dst.len, by have := dst.len_le; simp; omega⟩, n)

/-- `s[:n]` -/
def upTo (s : Slice α) (n : Nat) : Exec (Slice α) :=
  if h : n ≤ s.cap then pure ⟨s.array, n, h⟩ else failure

/-- `append(s, v)` -/
def append [Inhabited α] (R : Runtime size) (s : Slice α) (v : α) : Exec (Slice α) :=
  if h : s.len < s.cap then do
    record [.write s.len s.cap]
    pure ⟨s.array.set s.len v, s.len + 1, by rw [List.length_set]; exact h⟩
  else
    let cap := max (R.grow s.cap) (s.len + 1)
    if cap ≤ R.maxCap then do
      record (.grow cap :: (List.range (s.len + 1)).map fun i => .write i cap)
      pure ⟨s.items ++ v :: List.replicate (cap - s.len - 1) default, s.len + 1, by simp⟩
    else failure

/-! ## One equation for each operation -/

theorem run_bind_some {β : Type} {x : Exec α} {a : α} {ops ops' : List Op}
    (hRun : x.run ops = some (a, ops')) (f : α → Exec β) : (x >>= f).run ops = (f a).run ops' := by
  rw [StateT.run_bind, hRun]
  rfl

theorem run_bind_none {β : Type} {x : Exec α} {ops : List Op} (hRun : x.run ops = none)
    (f : α → Exec β) : (x >>= f).run ops = none := by
  rw [StateT.run_bind, hRun]
  rfl

section Equations

variable [Inhabited α] (R : Runtime size) (s : Slice α) (ops : List Op)

theorem make_run (len : Nat) (cap : Int) (hLen : (len : Int) ≤ cap) (hCap : cap ≤ R.maxCap) :
    ∃ next : Slice α, (make R len cap).run ops = some (next, ops ++ [.alloc cap.toNat]) ∧
      next.len = len ∧ next.cap = cap.toNat := by
  refine ⟨⟨List.replicate cap.toNat default, len, by rw [List.length_replicate]; omega⟩, ?_, rfl, ?_⟩
  · rw [make, dif_pos ⟨hLen, hCap⟩]
    rfl
  · exact List.length_replicate

theorem make_panics {len : Nat} {cap : Int} (hCap : R.maxCap < cap) :
    (make R len cap : Exec (Slice α)).run ops = none := by
  rw [make, dif_neg (by omega)]
  rfl

omit [Inhabited α] in
theorem copy_run {src : List α} (hFit : src.length ≤ s.len) :
    ∃ moved : Slice α, (copy s src).run ops = some ((moved, src.length),
        ops ++ (List.range src.length).map fun i => .write i s.cap) ∧
      moved.len = s.len ∧ moved.cap = s.cap ∧ moved.array.take src.length = src := by
  have hMin : min s.len src.length = src.length := Nat.min_eq_right hFit
  have hLen := s.len_le
  refine ⟨⟨src ++ s.array.drop src.length, s.len, by simp; omega⟩, ?_, rfl, ?_, List.take_left⟩
  · simp only [copy, hMin, List.take_length]
    rfl
  · simp only [cap, List.length_append, List.length_drop]
    omega

omit [Inhabited α] in
theorem upTo_run {n : Nat} (hn : n ≤ s.cap) :
    ∃ cut : Slice α, (upTo s n).run ops = some (cut, ops) ∧ cut.len = n ∧ cut.cap = s.cap ∧
      cut.items = s.array.take n := by
  refine ⟨⟨s.array, n, hn⟩, ?_, rfl, rfl, rfl⟩
  rw [upTo, dif_pos hn]
  rfl

theorem append_run (v : α) (hRoom : s.len < s.cap) :
    ∃ next : Slice α, (append R s v).run ops = some (next, ops ++ [.write s.len s.cap]) ∧
      next.cap = s.cap ∧ next.items = s.items ++ [v] := by
  refine ⟨⟨s.array.set s.len v, s.len + 1, by rw [List.length_set]; exact hRoom⟩, ?_, ?_, ?_⟩
  · rw [append, dif_pos hRoom]
    rfl
  · exact List.length_set
  · rw [items, items, List.take_add_one, List.take_set_of_le (Nat.le_refl _), List.getElem?_set_self hRoom]
    rfl

end Equations

end Slices
