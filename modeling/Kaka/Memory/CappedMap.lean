import Kaka.Base.Linearization
import Kaka.Memory.Store
import Mathlib.Data.Finset.Card

/-! # The capped map

The purpose of the store without expiry and eviction, as a sequential
object: one state per key, created at the key's first admitted call, and a
cap on the number of keys.  A key once refused is refused for ever, so the
answers on a key are those of the key on its own, or refusals throughout.
-/

namespace Kaka.Memory

open Interleaving

variable {σ ρ : Type}

def cappedMap (maxKeys : Int) (create : Int → σ) :
    Spec (AList fun _ : Key => σ) (Call σ ρ) (Outcome ρ) where
  init := ∅
  apply m c :=
    match m.lookup c.key with
    | some v => (m.insert c.key (c.fn v c.now).1, .ok (c.fn v c.now).2)
    | none =>
      if 0 < maxKeys ∧ maxKeys ≤ m.keys.length then (m, .errMaxKeysExceeded)
      else (m.insert c.key (c.fn (create c.now) c.now).1, .ok (c.fn (create c.now) c.now).2)

/-- One key on its own, without any store. -/
def oneKey (create : Int → σ) : Spec (Option σ) (Call σ ρ) (Outcome ρ) where
  init := none
  apply v c :=
    (some (c.fn (v.getD (create c.now)) c.now).1, .ok (c.fn (v.getD (create c.now)) c.now).2)

/-- The answers to the calls for one key, in order. -/
def answersOn (key : Key) (calls : List (Call σ ρ)) (outcomes : List (Outcome ρ)) :
    List (Outcome ρ) :=
  ((calls.zip outcomes).filter fun x => x.1.key = key).map Prod.snd

def callsOn (key : Key) (calls : List (Call σ ρ)) : List (Call σ ρ) :=
  calls.filter fun c => c.key = key

namespace CappedMap

variable {maxKeys : Int} {create : Int → σ} {m : AList fun _ : Key => σ} {c : Call σ ρ}
  {calls : List (Call σ ρ)} {key : Key}

theorem apply_hit {v : σ} (hLookup : m.lookup c.key = some v) :
    (cappedMap maxKeys create).apply m c =
      (m.insert c.key (c.fn v c.now).1, .ok (c.fn v c.now).2) := by
  simp [cappedMap, hLookup]

theorem apply_full (hLookup : m.lookup c.key = none) (hMax : 0 < maxKeys)
    (hFull : maxKeys ≤ m.keys.length) :
    (cappedMap maxKeys create).apply m c = (m, .errMaxKeysExceeded) := by
  simp [cappedMap, hLookup, hMax, hFull]

theorem apply_new (hLookup : m.lookup c.key = none)
    (hRoom : ¬ (0 < maxKeys ∧ maxKeys ≤ m.keys.length)) :
    (cappedMap maxKeys create).apply m c =
      (m.insert c.key (c.fn (create c.now) c.now).1, .ok (c.fn (create c.now) c.now).2) := by
  simp [cappedMap, hLookup, hRoom]

theorem length_insert_mem (v : σ) (hMem : key ∈ m) : (m.insert key v).keys.length = m.keys.length :=
  (Shard.keys_insert_perm v hMem).length_eq

theorem length_insert_new (v : σ) (hNew : m.lookup key = none) :
    (m.insert key v).keys.length = m.keys.length + 1 := by
  rw [Shard.keys_insert_new v (AList.lookup_eq_none.mp hNew), List.length_cons]

theorem mem_of_lookup {v : σ} (hLookup : m.lookup key = some v) : key ∈ m := by
  rw [← AList.lookup_isSome, hLookup]
  rfl

/-- What the calls so far say about the keys with a state. -/
structure Keys (maxKeys : Int) (calls : List (Call σ ρ)) (m : AList fun _ : Key => σ) : Prop where
  cap : 0 < maxKeys → m.keys.length ≤ maxKeys
  called : ∀ key ∈ m, ∃ c ∈ calls, c.key = key
  refused : ∀ c ∈ calls, c.key ∉ m → 0 < maxKeys ∧ maxKeys ≤ m.keys.length

theorem Keys.apply (h : Keys maxKeys calls m) :
    Keys maxKeys (calls ++ [c]) ((cappedMap maxKeys create).apply m c).1 := by
  have hCalled : ∀ key ∈ m, ∃ x ∈ calls ++ [c], x.key = key := by
    intro key hMem
    obtain ⟨x, hx, hKey⟩ := h.called key hMem
    exact ⟨x, List.mem_append_left _ hx, hKey⟩
  have hInsert : ∀ v, ∀ key ∈ m.insert c.key v, ∃ x ∈ calls ++ [c], x.key = key := by
    intro v key hMem
    rcases (AList.mem_insert _).mp hMem with rfl | hOld
    · exact ⟨c, List.mem_append_right _ (List.mem_singleton_self c), rfl⟩
    · exact hCalled key hOld
  have hLast : ∀ v, ∀ x ∈ calls ++ [c], x.key ∉ m.insert c.key v → x ∈ calls ∧ x.key ∉ m := by
    intro v x hx hNew
    rw [AList.mem_insert, not_or] at hNew
    refine ⟨(List.mem_append.mp hx).resolve_right fun hEq => ?_, hNew.2⟩
    exact hNew.1 (congrArg Call.key (List.mem_singleton.mp hEq))
  cases hLookup : m.lookup c.key with
  | some v =>
    have hMem := mem_of_lookup hLookup
    rw [apply_hit hLookup]
    refine ⟨?_, hInsert _, ?_⟩
    · rw [length_insert_mem _ hMem]
      exact h.cap
    · intro x hx hNew
      obtain ⟨hOld, hOut⟩ := hLast _ x hx hNew
      rw [length_insert_mem _ hMem]
      exact h.refused x hOld hOut
  | none =>
    by_cases hFull : 0 < maxKeys ∧ maxKeys ≤ m.keys.length
    · rw [apply_full hLookup hFull.1 hFull.2]
      exact ⟨h.cap, hCalled, fun _ _ _ => hFull⟩
    · rw [apply_new hLookup hFull]
      refine ⟨?_, hInsert _, ?_⟩
      · intro hMax
        rw [length_insert_new _ hLookup]
        omega
      · -- room now means that nothing was refused before
        intro x hx hNew
        obtain ⟨hOld, hOut⟩ := hLast _ x hx hNew
        exact absurd (h.refused x hOld hOut) hFull

theorem keys_after (maxKeys : Int) (create : Int → σ) (calls : List (Call σ ρ)) :
    Keys maxKeys calls ((cappedMap maxKeys create).after calls) := by
  induction calls using List.reverseRecOn with
  | nil =>
    refine ⟨?_, ?_, ?_⟩
    · intro hMax
      exact le_of_lt hMax
    · intro key hMem
      exact absurd hMem (AList.notMem_empty key)
    · intro x hx
      cases hx
  | append_singleton calls c ih =>
    rw [Spec.after_snoc]
    exact ih.apply

/-- Exactly `min (number of keys called) maxKeys` keys have a state. -/
theorem length_after (hMax : 0 < maxKeys) (calls : List (Call σ ρ)) :
    (((cappedMap maxKeys create).after calls).keys.length : Int) =
      min ((calls.map Call.key).toFinset.card : Int) maxKeys := by
  have hKeys := keys_after maxKeys create calls
  generalize (cappedMap maxKeys create).after calls = m at hKeys
  have hCap := hKeys.cap hMax
  have hSub : m.keys.toFinset ⊆ (calls.map Call.key).toFinset := by
    intro key hMem
    obtain ⟨x, hx, rfl⟩ := hKeys.called key (AList.mem_keys.mpr (List.mem_toFinset.mp hMem))
    exact List.mem_toFinset.mpr (List.mem_map.mpr ⟨x, hx, rfl⟩)
  have hCard := Finset.card_le_card hSub
  rw [List.toFinset_card_of_nodup m.keys_nodup] at hCard
  by_cases hAll : ∀ x ∈ calls, x.key ∈ m
  · have hEq : m.keys.toFinset = (calls.map Call.key).toFinset := by
      refine hSub.antisymm fun key hMem => ?_
      obtain ⟨x, hx, rfl⟩ := List.mem_map.mp (List.mem_toFinset.mp hMem)
      exact List.mem_toFinset.mpr (AList.mem_keys.mp (hAll x hx))
    rw [← hEq, List.toFinset_card_of_nodup m.keys_nodup]
    omega
  · push Not at hAll
    obtain ⟨x, hx, hOut⟩ := hAll
    have hFull := (hKeys.refused x hx hOut).2
    omega

/-! ## Answers -/

theorem mem_apply (hMem : key ∈ m) : key ∈ ((cappedMap maxKeys create).apply m c).1 := by
  cases hLookup : m.lookup c.key with
  | some v =>
    rw [apply_hit hLookup]
    exact (AList.mem_insert m).mpr (.inr hMem)
  | none =>
    by_cases hFull : 0 < maxKeys ∧ maxKeys ≤ m.keys.length
    · rw [apply_full hLookup hFull.1 hFull.2]
      exact hMem
    · rw [apply_new hLookup hFull]
      exact (AList.mem_insert m).mpr (.inr hMem)

theorem lookup_apply_ne (hNe : c.key ≠ key) :
    ((cappedMap maxKeys create).apply m c).1.lookup key = m.lookup key := by
  cases hLookup : m.lookup c.key with
  | some v => rw [apply_hit hLookup, AList.lookup_insert_ne hNe.symm]
  | none =>
    by_cases hFull : 0 < maxKeys ∧ maxKeys ≤ m.keys.length
    · rw [apply_full hLookup hFull.1 hFull.2]
    · rw [apply_new hLookup hFull, AList.lookup_insert_ne hNe.symm]

theorem answersOn_snoc {outcomes : List (Outcome ρ)} {o : Outcome ρ}
    (hLength : calls.length = outcomes.length) :
    answersOn key (calls ++ [c]) (outcomes ++ [o]) =
      answersOn key calls outcomes ++ if c.key = key then [o] else [] := by
  rw [answersOn, List.zip_append hLength, List.filter_append, List.map_append, answersOn]
  by_cases hKey : c.key = key <;> simp [hKey]

theorem callsOn_snoc : callsOn key (calls ++ [c]) =
    callsOn key calls ++ if c.key = key then [c] else [] := by
  rw [callsOn, List.filter_append, callsOn]
  by_cases hKey : c.key = key <;> simp [hKey]

/-- A key with a state has been answered, and stands, as it would on its
own; a key without one has been refused every time. -/
def Independent (create : Int → σ) (key : Key) (calls : List (Call σ ρ))
    (outcomes : List (Outcome ρ)) (state : Option σ) : Prop :=
  match state with
  | some v => answersOn key calls outcomes = (oneKey create).outcomes (callsOn key calls) ∧
      (oneKey create).after (callsOn key calls) = some v
  | none => answersOn key calls outcomes = (callsOn key calls).map fun _ => .errMaxKeysExceeded

theorem Independent.other {outcomes : List (Outcome ρ)} {o : Outcome ρ} {state : Option σ}
    (h : Independent create key calls outcomes state) (hLength : calls.length = outcomes.length)
    (hNe : c.key ≠ key) :
    Independent create key (calls ++ [c]) (outcomes ++ [o]) state := by
  cases state with
  | some v =>
    rw [Independent, answersOn_snoc hLength, callsOn_snoc, if_neg hNe, if_neg hNe,
      List.append_nil, List.append_nil]
    exact h
  | none =>
    rw [Independent, answersOn_snoc hLength, callsOn_snoc, if_neg hNe, if_neg hNe,
      List.append_nil, List.append_nil]
    exact h

theorem Independent.accept {outcomes : List (Outcome ρ)} {state : Option σ}
    (hAnswers : answersOn c.key calls outcomes = (oneKey create).outcomes (callsOn c.key calls))
    (hAfter : (oneKey create).after (callsOn c.key calls) = state)
    (hLength : calls.length = outcomes.length) :
    Independent create c.key (calls ++ [c])
      (outcomes ++ [.ok (c.fn (state.getD (create c.now)) c.now).2])
      (some (c.fn (state.getD (create c.now)) c.now).1) := by
  rw [Independent, answersOn_snoc hLength, callsOn_snoc, if_pos rfl, if_pos rfl,
    Spec.outcomes_snoc, Spec.after_snoc, hAfter, hAnswers]
  exact ⟨rfl, rfl⟩

theorem callsOn_eq_nil (hKeys : Keys maxKeys calls m) (hNew : key ∉ m)
    (hRoom : ¬ (0 < maxKeys ∧ maxKeys ≤ m.keys.length)) : callsOn key calls = [] := by
  refine List.filter_eq_nil_iff.mpr fun x hx hKey => hRoom (hKeys.refused x hx ?_)
  rw [of_decide_eq_true hKey]
  exact hNew

theorem independent (key : Key) (calls : List (Call σ ρ)) :
    Independent create key calls ((cappedMap maxKeys create).outcomes calls)
      (((cappedMap maxKeys create).after calls).lookup key) := by
  induction calls using List.reverseRecOn with
  | nil => exact rfl
  | append_singleton calls c ih =>
    have hKeys := keys_after maxKeys create calls
    have hLength : calls.length = ((cappedMap maxKeys create).outcomes calls).length :=
      (Spec.length_outcomes _).symm
    rw [Spec.outcomes_snoc, Spec.after_snoc]
    generalize (cappedMap maxKeys create).after calls = m at hKeys ih ⊢
    generalize (cappedMap maxKeys create).outcomes calls = outcomes at hLength ih ⊢
    by_cases hEq : c.key = key
    · subst hEq
      cases hLookup : m.lookup c.key with
      | some v =>
        rw [hLookup] at ih
        rw [apply_hit hLookup, AList.lookup_insert]
        exact .accept ih.1 ih.2 hLength
      | none =>
        rw [hLookup] at ih
        by_cases hFull : 0 < maxKeys ∧ maxKeys ≤ m.keys.length
        · rw [apply_full hLookup hFull.1 hFull.2, hLookup, Independent, answersOn_snoc hLength,
            callsOn_snoc, if_pos rfl, if_pos rfl, List.map_append]
          exact congrArg (· ++ [Outcome.errMaxKeysExceeded]) ih
        · have hNil := callsOn_eq_nil hKeys (AList.lookup_eq_none.mp hLookup) hFull
          rw [Independent, hNil] at ih
          rw [apply_new hLookup hFull, AList.lookup_insert]
          have hAnswers : answersOn c.key calls outcomes =
              (oneKey create).outcomes (callsOn c.key calls) := by
            rw [ih, hNil]
            rfl
          have hAfter : (oneKey create).after (callsOn c.key calls) = none := by
            rw [hNil]
            rfl
          exact .accept hAnswers hAfter hLength
    · rw [lookup_apply_ne hEq]
      exact ih.other hLength hEq

/-- A call is answered with a result just when its key has a state at the end. -/
theorem ok_iff (calls : List (Call σ ρ)) {i : Nat} {o : Outcome ρ} (hCall : calls[i]? = some c)
    (hOutcome : ((cappedMap maxKeys create).outcomes calls)[i]? = some o) :
    (∃ r, o = .ok r) ↔ c.key ∈ (cappedMap maxKeys create).after calls := by
  induction calls using List.reverseRecOn generalizing i c o with
  | nil => cases hCall
  | append_singleton calls last ih =>
    have hKeys := keys_after maxKeys create calls
    rw [Spec.outcomes_snoc] at hOutcome
    rw [Spec.after_snoc]
    rcases getElem?_snoc_cases hCall with ⟨rfl, rfl⟩ | hOld
    · rw [List.getElem?_append_right (by simp), Spec.length_outcomes, Nat.sub_self] at hOutcome
      obtain rfl := Option.some.inj hOutcome
      generalize (cappedMap maxKeys create).after calls = m at hKeys ⊢
      cases hLookup : m.lookup c.key with
      | some v => simp [apply_hit hLookup]
      | none =>
        by_cases hFull : 0 < maxKeys ∧ maxKeys ≤ m.keys.length
        · simp [apply_full hLookup hFull.1 hFull.2, AList.lookup_eq_none.mp hLookup]
        · simp [apply_new hLookup hFull]
    · have hLt : i < ((cappedMap maxKeys create).outcomes calls).length := by
        rw [Spec.length_outcomes]
        exact (List.getElem?_eq_some_iff.mp hOld).1
      rw [List.getElem?_append_left hLt] at hOutcome
      rw [ih hOld hOutcome]
      refine ⟨mem_apply, fun hMem => ?_⟩
      by_contra hOut
      have hFull := hKeys.refused c (List.mem_of_getElem? hOld) hOut
      by_cases hEq : last.key = c.key
      · rw [apply_full (hEq ▸ AList.lookup_eq_none.mpr hOut) hFull.1 hFull.2] at hMem
        exact hOut hMem
      · rw [← AList.lookup_isSome, lookup_apply_ne hEq, AList.lookup_isSome] at hMem
        exact hOut hMem

end CappedMap

end Kaka.Memory
