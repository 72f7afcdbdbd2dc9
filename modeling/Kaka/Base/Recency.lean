import Mathlib.Data.List.Dedup
import Mathlib.Data.List.Induction

/-! # Keys by their most recent call

The calls are keys with a stamp each.  `recent` keeps the last call of every
key, the most recent first: a call moves its key to the front.
-/

namespace Recency

variable {κ τ : Type}

/-- The last call on `key` comes before a call on `other`. -/
def CalledBefore (calls : List κ) (key other : κ) : Prop :=
  ∃ before later, calls = before ++ key :: later ∧ key ∉ later ∧ other ∈ later

theorem CalledBefore.snoc {calls : List κ} {key other : κ} (h : CalledBefore calls key other)
    {last : κ} (hNe : key ≠ last) : CalledBefore (calls ++ [last]) key other := by
  obtain ⟨before, later, rfl, hNew, hOther⟩ := h
  exact ⟨before, later ++ [last], by simp, by simp [hNew, hNe], List.mem_append_left _ hOther⟩

theorem calledBefore_last {calls : List κ} {key last : κ} (hMem : key ∈ calls) (hNe : key ≠ last) :
    CalledBefore (calls ++ [last]) key last := by
  obtain ⟨later, before, hSplit, hNew⟩ := List.eq_append_cons_of_mem (List.mem_reverse.mpr hMem)
  refine ⟨before.reverse, later.reverse ++ [last], ?_, by simp [hNew, hNe], by simp⟩
  rw [List.reverse_eq_iff] at hSplit
  simp [hSplit]

variable [DecidableEq κ]

def recent (calls : List (κ × τ)) : List (κ × τ) :=
  calls.foldl (fun list x => x :: list.filter fun y => y.1 ≠ x.1) []

variable (calls : List (κ × τ)) (x : κ × τ)

theorem recent_snoc : recent (calls ++ [x]) = x :: (recent calls).filter fun y => y.1 ≠ x.1 := by
  rw [recent, List.foldl_concat]
  rfl

theorem recent_sublist : (recent calls).Sublist calls.reverse := by
  induction calls using List.reverseRecOn with
  | nil => exact .slnil
  | append_singleton calls x ih =>
    rw [recent_snoc, List.reverse_concat]
    exact (List.filter_sublist.trans ih).cons_cons x

theorem recent_of_nodup {calls : List (κ × τ)} (hNodup : (calls.map Prod.fst).Nodup) :
    recent calls = calls.reverse := by
  induction calls using List.reverseRecOn with
  | nil => rfl
  | append_singleton calls x ih =>
    rw [List.map_append, List.map_singleton, List.nodup_append] at hNodup
    obtain ⟨hBefore, -, hNew⟩ := hNodup
    rw [recent_snoc, ih hBefore, List.reverse_concat, List.filter_eq_self.mpr]
    intro y hy
    have hMem := List.mem_map_of_mem (f := Prod.fst) (List.mem_reverse.mp hy)
    exact decide_eq_true (hNew _ hMem _ List.mem_cons_self)

theorem dedup_concat (keys : List κ) (key : κ) :
    (keys ++ [key]).dedup = (keys.dedup.filter fun k => k ≠ key) ++ [key] := by
  induction keys with
  | nil => rfl
  | cons k keys ih =>
    by_cases hMem : k ∈ keys
    · rw [List.cons_append, List.dedup_cons_of_mem (List.mem_append_left _ hMem), ih,
        List.dedup_cons_of_mem hMem]
    · by_cases hKey : k = key
      · subst hKey
        rw [List.cons_append, List.dedup_cons_of_mem (by simp), ih, List.dedup_cons_of_notMem hMem,
          List.filter_cons_of_neg (by simp)]
      · rw [List.cons_append, List.dedup_cons_of_notMem (by simp [hMem, hKey]), ih,
          List.dedup_cons_of_notMem hMem, List.filter_cons_of_pos (by simpa using hKey),
          List.cons_append]

theorem pairwise_recent : (recent calls).Pairwise fun x y =>
    CalledBefore (calls.map Prod.fst) y.1 x.1 := by
  induction calls using List.reverseRecOn with
  | nil => exact .nil
  | append_singleton calls x ih =>
    rw [recent_snoc, List.map_append, List.map_singleton, List.pairwise_cons]
    constructor
    · intro y hy
      obtain ⟨hMem, hNe⟩ := List.mem_filter.mp hy
      have hCalled := List.mem_reverse.mp ((recent_sublist calls).subset hMem)
      exact calledBefore_last (List.mem_map_of_mem hCalled) (by simpa using hNe)
    · refine (ih.filter _).imp_of_mem fun {y z} _ hz hBefore => ?_
      exact hBefore.snoc (by simpa using (List.mem_filter.mp hz).2)

theorem filter_ne_self {keys : List κ} {key : κ} (hNew : key ∉ keys) :
    (keys.filter fun k => k ≠ key) = keys :=
  List.filter_eq_self.mpr fun _ hk => decide_eq_true fun hEq => hNew (hEq ▸ hk)

/-- Cut to `n + 1` keys, the list after a call is the key and what the cut
list before it keeps. -/
theorem take_filter_ne {keys : List κ} (hNodup : keys.Nodup) (key : κ) (n : Nat) :
    (keys.filter fun k => k ≠ key).take n = ((keys.take (n + 1)).filter fun k => k ≠ key).take n := by
  induction keys generalizing n with
  | nil => rfl
  | cons k keys ih =>
    obtain ⟨hNew, hRest⟩ := List.nodup_cons.mp hNodup
    rw [List.take_succ_cons]
    by_cases hKey : k = key
    · subst hKey
      rw [List.filter_cons_of_neg (by simp), List.filter_cons_of_neg (by simp), filter_ne_self hNew,
        filter_ne_self fun h => hNew (List.mem_of_mem_take h), List.take_take, Nat.min_self]
    · rw [List.filter_cons_of_pos (by simpa using hKey), List.filter_cons_of_pos (by simpa using hKey)]
      cases n with
      | zero => rfl
      | succ n => rw [List.take_succ_cons, List.take_succ_cons, ih hRest n]

/-- Where everything from some place of the list on meets `p`, its first `n`
elements reach one of these if and only if fewer than `n` come before. -/
theorem exists_mem_take_iff {α : Type} {p : α → Prop} [DecidablePred p] {list : List α}
    (hLate : list.Pairwise fun x y => p x → p y) (hSome : ∃ x ∈ list, p x) (n : Nat) :
    (∃ x ∈ list.take n, p x) ↔ (list.filter fun x => ¬ p x).length < n := by
  induction list generalizing n with
  | nil =>
    obtain ⟨x, hx, _⟩ := hSome
    cases hx
  | cons a rest ih =>
    obtain ⟨hFirst, hRest⟩ := List.pairwise_cons.mp hLate
    cases n with
    | zero => simp
    | succ n =>
      by_cases ha : p a
      · have hNone : ((a :: rest).filter fun x => ¬ p x) = [] := by
          rw [List.filter_eq_nil_iff]
          rintro x hx
          rcases List.mem_cons.mp hx with rfl | hLater
          · simpa using ha
          · simpa using hFirst x hLater ha
        rw [hNone]
        exact ⟨fun _ => Nat.succ_pos n, fun _ => ⟨a, List.mem_cons_self, ha⟩⟩
      · have hOthers : ∀ l : List α, (∃ x ∈ a :: l, p x) ↔ ∃ x ∈ l, p x := by
          intro l
          rw [List.exists_mem_cons_iff, or_iff_right ha]
        rw [List.take_succ_cons, hOthers, ih hRest ((hOthers rest).mp hSome),
          List.filter_cons_of_pos (by simpa using ha), List.length_cons, Nat.succ_lt_succ_iff]

end Recency
