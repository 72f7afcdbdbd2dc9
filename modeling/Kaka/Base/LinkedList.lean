import Mathlib.Data.List.Nodup
import Mathlib.Data.List.Perm.Basic

/-! # Linked lists whose elements are held by address

The list is its sequence of elements, front to back, each with the address
at which a caller may hold it. Addresses are never reused, so an address
names at most one element; both facts are fields.
-/

structure LinkedList (α : Type) where
  elems : List (Nat × α)
  fresh : Nat
  nodup : (elems.map Prod.fst).Nodup
  allocated : ∀ x ∈ elems, x.1 < fresh

namespace LinkedList

variable {α : Type}

def empty : LinkedList α := ⟨[], 0, by simp, by simp⟩

def get? (l : LinkedList α) (e : Nat) : Option α :=
  (l.elems.find? (fun x => x.1 == e)).map Prod.snd

def back? (l : LinkedList α) : Option (Nat × α) := l.elems.getLast?

def pushFront (l : LinkedList α) (v : α) : LinkedList α where
  elems := (l.fresh, v) :: l.elems
  fresh := l.fresh + 1
  nodup := by
    rw [List.map_cons, List.nodup_cons]
    refine ⟨?_, l.nodup⟩
    intro hMem
    obtain ⟨x, hx, hEq⟩ := List.mem_map.mp hMem
    have hLt := l.allocated x hx
    simp only at hEq
    omega
  allocated := by
    intro x hx
    rcases List.mem_cons.mp hx with rfl | hx
    · exact Nat.lt_succ_self _
    · exact Nat.lt_succ_of_lt (l.allocated x hx)

def remove (l : LinkedList α) (e : Nat) : LinkedList α where
  elems := l.elems.filter (fun x => x.1 != e)
  fresh := l.fresh
  nodup := l.nodup.sublist (List.filter_sublist.map _)
  allocated x hx := l.allocated x (List.mem_of_mem_filter hx)

def modify (l : LinkedList α) (e : Nat) (f : α → α) : LinkedList α where
  elems := l.elems.map (fun x => if x.1 = e then (x.1, f x.2) else x)
  fresh := l.fresh
  nodup := by
    have hFst : (l.elems.map (fun x => if x.1 = e then (x.1, f x.2) else x)).map Prod.fst =
        l.elems.map Prod.fst := by
      rw [List.map_map]
      apply List.map_congr_left
      intro x _
      simp only [Function.comp]
      split <;> rfl
    rw [hFst]
    exact l.nodup
  allocated := by
    intro x hx
    obtain ⟨y, hy, rfl⟩ := List.mem_map.mp hx
    have hLt := l.allocated y hy
    split <;> exact hLt

theorem perm_of_get (l : LinkedList α) {e : Nat} {v : α} (hMem : (e, v) ∈ l.elems) :
    ((e, v) :: (l.remove e).elems).Perm l.elems := by
  obtain ⟨xs, fresh, hNodup, hAlloc⟩ := l
  simp only [remove] at hMem ⊢
  clear hAlloc
  induction xs with
  | nil => cases hMem
  | cons x xs ih =>
    rw [List.map_cons, List.nodup_cons] at hNodup
    rcases List.mem_cons.mp hMem with rfl | hMem
    · rw [List.filter_cons_of_neg (by simp), List.filter_eq_self.mpr]
      intro y hy
      have hNe : y.1 ≠ e := fun hEq => hNodup.1 (List.mem_map.mpr ⟨y, hy, hEq⟩)
      simpa using hNe
    · have hNe : x.1 ≠ e := fun hEq => hNodup.1 (hEq ▸ List.mem_map_of_mem (f := Prod.fst) hMem)
      rw [List.filter_cons_of_pos (by simpa using hNe)]
      exact (List.Perm.swap _ _ _).trans ((ih hNodup.2 hMem).cons _)

/-- `MoveToFront` leaves the list alone when it does not hold the element. -/
def moveToFront (l : LinkedList α) (e : Nat) : LinkedList α :=
  match hFind : l.get? e with
  | none => l
  | some v =>
    { elems := (e, v) :: (l.remove e).elems
      fresh := l.fresh
      nodup := by
        rw [List.map_cons, List.nodup_cons]
        refine ⟨?_, (l.remove e).nodup⟩
        intro hMem
        obtain ⟨x, hx, hEq⟩ := List.mem_map.mp hMem
        simp [remove] at hx
        exact hx.2 hEq
      allocated := by
        intro x hx
        rcases List.mem_cons.mp hx with rfl | hx
        · obtain ⟨y, hy, _⟩ := Option.map_eq_some_iff.mp hFind
          have hLt := l.allocated y (List.mem_of_find?_eq_some hy)
          have hAddr : y.1 = e := by simpa using List.find?_some hy
          exact hAddr ▸ hLt
        · exact (l.remove e).allocated x hx }

theorem get?_eq_some (l : LinkedList α) (e : Nat) (v : α) :
    l.get? e = some v ↔ (e, v) ∈ l.elems := by
  obtain ⟨xs, fresh, hNodup, hAlloc⟩ := l
  simp only [get?]
  clear hAlloc
  induction xs with
  | nil => simp
  | cons x xs ih =>
    rw [List.map_cons, List.nodup_cons] at hNodup
    rw [List.find?_cons]
    by_cases hEq : x.1 = e
    · have hTail : (e, v) ∉ xs := fun hMem =>
        hNodup.1 (hEq ▸ List.mem_map_of_mem (f := Prod.fst) hMem)
      obtain ⟨a, w⟩ := x
      obtain rfl : a = e := hEq
      simp [hTail, eq_comm]
    · have hHead : (e, v) ≠ x := fun h => hEq (h ▸ rfl)
      simp only [beq_eq_false_iff_ne.mpr hEq]
      rw [ih hNodup.2, List.mem_cons]
      simp [hHead]

theorem mem_unique (l : LinkedList α) {e : Nat} {v w : α} (hv : (e, v) ∈ l.elems)
    (hw : (e, w) ∈ l.elems) : v = w := by
  have hEq := ((l.get?_eq_some e v).mpr hv).symm.trans ((l.get?_eq_some e w).mpr hw)
  exact Option.some.inj hEq

theorem moveToFront_perm (l : LinkedList α) (e : Nat) :
    (l.moveToFront e).elems.Perm l.elems := by
  unfold moveToFront
  split
  · exact .refl _
  · rename_i v hGet
    exact l.perm_of_get ((l.get?_eq_some e v).mp hGet)

theorem moveToFront_elems (l : LinkedList α) {e : Nat} {v : α} (hMem : (e, v) ∈ l.elems) :
    (l.moveToFront e).elems = (e, v) :: (l.remove e).elems := by
  have hGet := (l.get?_eq_some e v).mpr hMem
  unfold moveToFront
  split
  · rename_i hNone
    rw [hGet] at hNone
    cases hNone
  · rename_i w hSome
    rw [hGet] at hSome
    cases hSome
    rfl

theorem remove_modify (l : LinkedList α) (e : Nat) (f : α → α) :
    ((l.modify e f).remove e).elems = (l.remove e).elems := by
  simp only [remove, modify, List.filter_map]
  have hSame : l.elems.filter ((fun x => x.1 != e) ∘ fun x => if x.1 = e then (x.1, f x.2) else x) =
      l.elems.filter fun x => x.1 != e := by
    apply List.filter_congr
    intro x _
    simp only [Function.comp]
    split <;> rfl
  rw [hSame]
  refine (List.map_congr_left fun x hx => ?_).trans (List.map_id _)
  rw [if_neg (by simpa using (List.mem_filter.mp hx).2)]
  rfl

/-- Removing the last element leaves the list before it. -/
theorem remove_back (l : LinkedList α) {x : Nat × α} (hBack : l.back? = some x) :
    (l.remove x.1).elems = l.elems.dropLast := by
  have hSplit := List.dropLast_append_getLast? x hBack
  have hNodup := l.nodup
  rw [← hSplit, List.map_append, List.nodup_append] at hNodup
  have hOthers : ∀ y ∈ l.elems.dropLast, (y.1 != x.1) = true := by
    intro y hy
    simpa using hNodup.2.2 y.1 (List.mem_map_of_mem hy) x.1 (by simp)
  calc l.elems.filter (fun y => y.1 != x.1)
      = (l.elems.dropLast ++ [x]).filter (fun y => y.1 != x.1) := by rw [hSplit]
    _ = l.elems.dropLast := by
      rw [List.filter_append, List.filter_eq_self.mpr hOthers]
      simp

theorem mem_remove (l : LinkedList α) (e : Nat) (x : Nat × α) :
    x ∈ (l.remove e).elems ↔ x ∈ l.elems ∧ x.1 ≠ e := by
  simp [remove]

theorem mem_modify (l : LinkedList α) (e : Nat) (f : α → α) (e' : Nat) (v : α) :
    (e', v) ∈ (l.modify e f).elems ↔
      if e' = e then ∃ w, (e, w) ∈ l.elems ∧ f w = v else (e', v) ∈ l.elems := by
  simp only [modify, List.mem_map]
  constructor
  · rintro ⟨⟨a, w⟩, hMem, hEq⟩
    by_cases ha : a = e
    · simp only [ha, if_true, Prod.mk.injEq] at hEq
      simp only [← hEq.1, if_true]
      exact ⟨w, ha ▸ hMem, hEq.2⟩
    · simp only [ha, if_false, Prod.mk.injEq] at hEq
      rw [← hEq.1, ← hEq.2, if_neg ha]
      exact hMem
  · intro h
    split at h
    · rename_i hEq
      obtain ⟨w, hMem, rfl⟩ := h
      exact ⟨(e, w), hMem, by simp [hEq]⟩
    · rename_i hNe
      exact ⟨(e', v), h, by simp [hNe]⟩

theorem map_modify {β : Type} (l : LinkedList α) (e : Nat) (f : α → α) (p : α → β)
    (hf : ∀ v, p (f v) = p v) :
    (l.modify e f).elems.map (fun x => p x.2) = l.elems.map (fun x => p x.2) := by
  simp only [modify, List.map_map]
  apply List.map_congr_left
  intro x _
  simp only [Function.comp]
  split
  · exact hf x.2
  · rfl

theorem back?_mem (l : LinkedList α) {x : Nat × α} (h : l.back? = some x) : x ∈ l.elems :=
  List.mem_of_getLast? h

theorem back?_eq_none (l : LinkedList α) : l.back? = none ↔ l.elems = [] :=
  List.getLast?_eq_none_iff

end LinkedList
