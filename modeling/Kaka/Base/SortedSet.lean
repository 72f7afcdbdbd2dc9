import Mathlib.Data.List.Sort
import Mathlib.Data.Prod.Lex

/-! # Sorted sets

Members with a score each, in the order of the scores, and of the members
where scores are equal.  Adding a member that is there already moves it to
its new score.
-/

structure SortedSet (S M : Type) [LinearOrder S] [LinearOrder M] where
  entries : List (S ×ₗ M)
  sorted : entries.Pairwise (· ≤ ·)
  nodup : (entries.map fun e => (ofLex e).2).Nodup

namespace SortedSet

variable {S M : Type} [LinearOrder S] [LinearOrder M]

def empty : SortedSet S M := ⟨[], .nil, .nil⟩

def scores (s : SortedSet S M) : List S := s.entries.map fun e => (ofLex e).1

def members (s : SortedSet S M) : List M := s.entries.map fun e => (ofLex e).2

def card (s : SortedSet S M) : Nat := s.entries.length

/-- The lowest score. -/
def first? (s : SortedSet S M) : Option S := s.entries.head?.map fun e => (ofLex e).1

def others (s : SortedSet S M) (member : M) : List (S ×ₗ M) :=
  s.entries.filter fun e => (ofLex e).2 ≠ member

def add (s : SortedSet S M) (score : S) (member : M) : SortedSet S M where
  entries := (s.others member).orderedInsert (· ≤ ·) (toLex (score, member))
  sorted := (s.sorted.filter _).orderedInsert _ _
  nodup := by
    have hPerm := (List.perm_orderedInsert (· ≤ ·) (toLex (score, member)) (s.others member)).map
      fun e => (ofLex e).2
    refine hPerm.nodup_iff.mpr (List.nodup_cons.mpr ⟨?_, ?_⟩)
    · simp [others]
    · exact s.nodup.sublist (List.filter_sublist.map _)

/-- Removes the members with a score up to `top`, `top` included. -/
def removeUpTo (s : SortedSet S M) (top : S) : SortedSet S M where
  entries := s.entries.filter fun e => top < (ofLex e).1
  sorted := s.sorted.filter _
  nodup := s.nodup.sublist (List.filter_sublist.map _)

variable (s : SortedSet S M)

theorem sorted_scores : s.scores.Pairwise (· ≤ ·) :=
  List.pairwise_map.mpr (s.sorted.imp fun h => Prod.Lex.monotone_fst _ _ h)

theorem eq_empty {s : SortedSet S M} (hEmpty : s.card = 0) : s = empty := by
  obtain ⟨entries, _, _⟩ := s
  obtain rfl := List.eq_nil_of_length_eq_zero hEmpty
  rfl

theorem card_eq : s.card = s.scores.length := (List.length_map _).symm

theorem first?_eq : s.first? = s.scores.head? := List.head?_map.symm

theorem scores_removeUpTo (top : S) : (s.removeUpTo top).scores = s.scores.filter (top < ·) := by
  rw [scores, removeUpTo, scores, List.filter_map]
  rfl

theorem others_of_notMem {member : M} (hNew : member ∉ s.members) : s.others member = s.entries := by
  refine List.filter_eq_self.mpr fun e he => ?_
  have : (ofLex e).2 ≠ member := fun hEq => hNew (hEq ▸ List.mem_map_of_mem he)
  simpa using this

theorem entries_add_perm (score : S) (member : M) :
    (s.add score member).entries.Perm (toLex (score, member) :: s.others member) :=
  List.perm_orderedInsert _ _ _

theorem mem_scores_add {score x : S} {member : M} (hMem : x ∈ (s.add score member).scores) :
    x = score ∨ x ∈ s.scores := by
  obtain ⟨e, he, rfl⟩ := List.mem_map.mp hMem
  rcases List.mem_cons.mp ((s.entries_add_perm score member).mem_iff.mp he) with rfl | hOther
  · exact .inl rfl
  · exact .inr (List.mem_map_of_mem (List.mem_filter.mp hOther).1)

/-- A new member with the highest score comes last. -/
theorem scores_add {score : S} {member : M} (hNew : member ∉ s.members)
    (hHighest : ∀ x ∈ s.scores, x ≤ score) : (s.add score member).scores = s.scores ++ [score] := by
  have hPerm : (s.add score member).scores.Perm (s.scores ++ [score]) := by
    have hInsert := (s.entries_add_perm score member).map fun e => (ofLex e).1
    rw [s.others_of_notMem hNew] at hInsert
    exact hInsert.trans (List.perm_append_singleton score s.scores).symm
  have hSorted : (s.scores ++ [score]).Pairwise (· ≤ ·) := by
    refine List.pairwise_append.mpr ⟨s.sorted_scores, List.pairwise_singleton _ _, ?_⟩
    simpa using hHighest
  exact hPerm.eq_of_pairwise' (s.add score member).sorted_scores hSorted

end SortedSet
