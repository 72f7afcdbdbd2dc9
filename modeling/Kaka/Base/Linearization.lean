import Kaka.Base.Interleaving
import Mathlib.Data.List.Induction
import Mathlib.Data.List.Nodup

/-! # Linearizations

A sequential object answers one call at a time.  A linearization of a
configuration orders the calls that have taken effect, all completed ones
among them, so that the object answers each as it was answered and a call
that returned before another started comes first.  The rule at the end
derives one from linearization points: a step of a thread after which its
answer is promised.
-/

namespace Interleaving

structure Spec (A ι ο : Type) where
  init : A
  apply : A → ι → A × ο

namespace Spec

variable {A ι ο : Type} (Q : Spec A ι ο)

def after (calls : List ι) : A := calls.foldl (fun a c => (Q.apply a c).1) Q.init

def outcomesFrom (a : A) : List ι → List ο
  | [] => []
  | c :: rest => (Q.apply a c).2 :: outcomesFrom (Q.apply a c).1 rest

def outcomes (calls : List ι) : List ο := Q.outcomesFrom Q.init calls

variable {calls : List ι} {c : ι}

theorem after_snoc : Q.after (calls ++ [c]) = (Q.apply (Q.after calls) c).1 := by
  simp [after]

theorem outcomesFrom_snoc (a : A) : Q.outcomesFrom a (calls ++ [c]) =
    Q.outcomesFrom a calls ++ [(Q.apply (calls.foldl (fun a c => (Q.apply a c).1) a) c).2] := by
  induction calls generalizing a with
  | nil => rfl
  | cons head tail ih => simp [outcomesFrom, ih]

theorem outcomes_snoc :
    Q.outcomes (calls ++ [c]) = Q.outcomes calls ++ [(Q.apply (Q.after calls) c).2] :=
  Q.outcomesFrom_snoc Q.init

@[simp] theorem length_outcomes : (Q.outcomes calls).length = calls.length := by
  induction calls using List.reverseRecOn with
  | nil => rfl
  | append_singleton calls c ih => simp [outcomes_snoc, ih]

end Spec

variable {S T ι κ ο A : Type}

/-- Call `a` returned before call `b` started. -/
def Precedes (history : List (Event ο)) (a b : Tid) : Prop :=
  ∃ (i j : Nat) (o : ο), i < j ∧ history[i]? = some (.ret a o) ∧ history[j]? = some (.call b)

theorem Precedes.of_snoc {history : List (Event ο)} {e : Event ο} {a b : Tid}
    (h : Precedes (history ++ [e]) a b) :
    Precedes history a b ∨ (e = .call b ∧ ∃ o, .ret a o ∈ history) := by
  obtain ⟨i, j, o, hLt, hRet, hCall⟩ := h
  have hInside : i < history.length := by
    have := (List.getElem?_eq_some_iff.mp hCall).1
    rw [List.length_append, List.length_singleton] at this
    omega
  rw [List.getElem?_append_left hInside] at hRet
  rcases getElem?_snoc_cases hCall with ⟨_, hLast⟩ | hOld
  · exact .inr ⟨hLast.symm, o, List.mem_of_getElem? hRet⟩
  · exact .inl ⟨i, j, o, hLt, hRet, hOld⟩

structure Linearization (Q : Spec A ι ο) (input : T → ι) (g : Config S T ο)
    (order : List (Tid × ι)) : Prop where
  nodup : (order.map Prod.fst).Nodup
  calls : ∀ x ∈ order, ∃ t, g.threads[x.1]? = some t ∧ input t = x.2
  complete : ∀ tid o, .ret tid o ∈ g.history → tid ∈ order.map Prod.fst
  realTime : ∀ a b, Precedes g.history a b → b ∈ order.map Prod.fst →
    [a, b].Sublist (order.map Prod.fst)
  outcomes : ∀ (i : Nat) tid c o, order[i]? = some (tid, c) → .ret tid o ∈ g.history →
    (Q.outcomes (order.map Prod.snd))[i]? = some o

/-! ## Linearization points -/

/-- The answer that a thread has been promised by the object, if any. -/
def promisedAt (promised : S → T → Option ο) (g : Config S T ο) (tid : Tid) : Option ο :=
  (g.threads[tid]?).bind (promised g.shared)

theorem promisedAt_start {promised : S → T → Option ο} {g : Config S T ο} {t : T}
    {history : List (Event ο)} (hNone : promised g.shared t = none) (u : Tid) :
    promisedAt promised ⟨g.shared, g.threads ++ [t], history⟩ u = promisedAt promised g u := by
  rcases Nat.lt_trichotomy u g.threads.length with hLt | rfl | hGt
  · rw [promisedAt, promisedAt, List.getElem?_append_left hLt]
  · rw [promisedAt, promisedAt, List.getElem?_concat_length, List.getElem?_eq_none le_rfl]
    exact hNone
  · rw [promisedAt, promisedAt, List.getElem?_eq_none (by simp; omega), List.getElem?_eq_none hGt.le]

theorem promisedAt_moved {promised : S → T → Option ο} {g : Config S T ο} {tid : Tid} {t t' : T} {s : S}
    {history : List (Event ο)} (ht : g.threads[tid]? = some t) :
    promisedAt promised ⟨s, g.threads.set tid t', history⟩ tid = promised s t' := by
  rw [promisedAt, getElem?_set_moved ht]
  rfl

theorem promisedAt_of_ne {promised : T → Option ο} {g : Config S T ο} {tid u : Tid} {t' : T} {s : S}
    {history : List (Event ο)} (hNe : u ≠ tid) :
    promisedAt (fun _ => promised) ⟨s, g.threads.set tid t', history⟩ u =
      promisedAt (fun _ => promised) g u := by
  rw [promisedAt, List.getElem?_set_ne (Ne.symm hNe), promisedAt]

/-- The obligations of the rule. `R` relates a configuration to the state of
the object after the calls that have taken effect. -/
structure Points (M : Program S T ι κ ο) (ok : Config S T ο → Act ι κ → Prop) (Q : Spec A ι ο)
    (input : T → ι) (promised : S → T → Option ο) (R : Config S T ο → A → Prop) : Prop where
  init : R M.initial Q.init
  input_step : ∀ tid choice s t s' t', M.step tid choice s t = some (s', t') → input t' = input t
  finished : ∀ tid choice s t o, M.result t = some o → M.step tid choice s t = none
  result : ∀ s t o, M.result t = some o → promised s t = some o
  step : ∀ g act g' a, M.Reach ok g → ok g act → M.next g act = some g' → R g a →
    (R g' a ∧ ∀ tid, promisedAt promised g' tid = promisedAt promised g tid) ∨
    ∃ tid t, g.threads[tid]? = some t ∧ promised g.shared t = none ∧
      promisedAt promised g' tid = some (Q.apply a (input t)).2 ∧
      R g' (Q.apply a (input t)).1 ∧
      ∀ u, u ≠ tid → promisedAt promised g' u = promisedAt promised g u

namespace Points

variable {M : Program S T ι κ ο} {ok : Config S T ο → Act ι κ → Prop} {Q : Spec A ι ο}
  {input : T → ι} {promised : S → T → Option ο} {R : Config S T ο → A → Prop}

/-- The history records the returns of the threads that have finished. -/
theorem ret_result (h : Points M ok Q input promised R) {g : Config S T ο} (hReach : M.Reach ok g)
    {tid : Tid} {o : ο} (hRet : .ret tid o ∈ g.history) :
    ∃ t, g.threads[tid]? = some t ∧ M.result t = some o := by
  revert tid o
  refine Program.Reach.invariant (I := fun g => ∀ {tid : Tid} {o : ο}, .ret tid o ∈ g.history →
    ∃ t, g.threads[tid]? = some t ∧ M.result t = some o) ?_ ?_ hReach
  · intro _ _ hRet
    cases hRet
  · intro g act g' _ ih _ hNext tid o hRet
    rcases Program.next_cases hNext with ⟨c, _, rfl⟩ | ⟨u, choice, t, s, t', _, ht, hStep, rfl⟩
    · rcases List.mem_append.mp hRet with hOld | hNew
      · obtain ⟨x, hx, hResult⟩ := ih hOld
        exact ⟨x, by rw [List.getElem?_append_left (List.getElem?_eq_some_iff.mp hx).1, hx], hResult⟩
      · simp at hNew
    · rcases List.mem_append.mp hRet with hOld | hNew
      · obtain ⟨x, hx, hResult⟩ := ih hOld
        have hNe : u ≠ tid := by
          rintro rfl
          rw [ht] at hx
          cases hx
          rw [h.finished u choice g.shared t o hResult] at hStep
          cases hStep
        exact ⟨x, by rw [List.getElem?_set_ne hNe, hx], hResult⟩
      · cases hResult : M.result t' with
        | none =>
          rw [hResult] at hNew
          cases hNew
        | some o' =>
          rw [hResult] at hNew
          simp only [returned, List.mem_singleton, Event.ret.injEq] at hNew
          obtain ⟨rfl, rfl⟩ := hNew
          exact ⟨t', getElem?_set_moved ht, hResult⟩

theorem input_next (h : Points M ok Q input promised R) {g g' : Config S T ο} {act : Act ι κ}
    (hNext : M.next g act = some g') {tid : Tid} {t : T} (ht : g.threads[tid]? = some t) :
    ∃ t', g'.threads[tid]? = some t' ∧ input t' = input t := by
  have hLt := (List.getElem?_eq_some_iff.mp ht).1
  rcases Program.next_cases hNext with ⟨c, _, rfl⟩ | ⟨u, choice, x, s, x', _, hx, hStep, rfl⟩
  · exact ⟨t, by rw [List.getElem?_append_left hLt, ht], rfl⟩
  · by_cases hEq : u = tid
    · subst hEq
      rw [ht] at hx
      cases hx
      exact ⟨x', getElem?_set_moved ht, h.input_step u choice _ t _ _ hStep⟩
    · exact ⟨t, getElem?_set_other (Ne.symm hEq) ht, rfl⟩

theorem precedes_next {g g' : Config S T ο} {act : Act ι κ} (hNext : M.next g act = some g')
    {a b : Tid} (hPrec : Precedes g'.history a b) :
    Precedes g.history a b ∨ (g.threads.length = b ∧ ∃ o, .ret a o ∈ g.history) := by
  rcases Program.next_cases hNext with ⟨c, _, rfl⟩ | ⟨u, choice, x, s, x', _, hx, hStep, rfl⟩
  · rcases hPrec.of_snoc with hOld | ⟨hCall, hRet⟩
    · exact .inl hOld
    · cases hCall
      exact .inr ⟨rfl, hRet⟩
  · cases hResult : M.result x' with
    | none =>
      rw [hResult] at hPrec
      exact .inl (by simpa [returned] using hPrec)
    | some o =>
      rw [hResult] at hPrec
      rcases Precedes.of_snoc hPrec with hOld | ⟨hCall, _⟩
      · exact .inl hOld
      · cases hCall

/-- The order of the promises made so far. -/
structure Ordered (Q : Spec A ι ο) (input : T → ι) (promised : S → T → Option ο)
    (R : Config S T ο → A → Prop) (g : Config S T ο) (order : List (Tid × ι)) : Prop where
  nodup : (order.map Prod.fst).Nodup
  calls : ∀ x ∈ order, ∃ t, g.threads[x.1]? = some t ∧ input t = x.2
  mem_iff : ∀ tid, tid ∈ order.map Prod.fst ↔ (promisedAt promised g tid).isSome
  realTime : ∀ a b, Precedes g.history a b → b ∈ order.map Prod.fst →
    [a, b].Sublist (order.map Prod.fst)
  outcomes : ∀ (i : Nat) tid c, order[i]? = some (tid, c) →
    (Q.outcomes (order.map Prod.snd))[i]? = promisedAt promised g tid
  rel : R g (Q.after (order.map Prod.snd))

theorem Ordered.ret_mem {g : Config S T ο} {order : List (Tid × ι)}
    (hOrder : Ordered Q input promised R g order) (h : Points M ok Q input promised R)
    (hReach : M.Reach ok g) {tid : Tid} {o : ο} (hRet : .ret tid o ∈ g.history) :
    tid ∈ order.map Prod.fst ∧ promisedAt promised g tid = some o := by
  obtain ⟨t, ht, hResult⟩ := h.ret_result hReach hRet
  have hPromised : promisedAt promised g tid = some o := by
    rw [promisedAt, ht]
    exact h.result g.shared t o hResult
  exact ⟨(hOrder.mem_iff tid).mpr (by rw [hPromised]; rfl), hPromised⟩

theorem Ordered.not_mem_length {g : Config S T ο} {order : List (Tid × ι)}
    (hOrder : Ordered Q input promised R g order) : g.threads.length ∉ order.map Prod.fst := by
  rw [hOrder.mem_iff, promisedAt, List.getElem?_eq_none le_rfl]
  simp

/-- A step without a promise leaves the order as it is. -/
theorem Ordered.keep (h : Points M ok Q input promised R) {g g' : Config S T ο} {act : Act ι κ}
    {order : List (Tid × ι)} (hOrder : Ordered Q input promised R g order)
    (hNext : M.next g act = some g') (hRel : R g' (Q.after (order.map Prod.snd)))
    (hSame : ∀ tid, promisedAt promised g' tid = promisedAt promised g tid) :
    Ordered Q input promised R g' order := by
  refine ⟨hOrder.nodup, ?_, ?_, ?_, ?_, hRel⟩
  · intro x hx
    obtain ⟨t, ht, hInput⟩ := hOrder.calls x hx
    obtain ⟨t', ht', hInput'⟩ := h.input_next hNext ht
    exact ⟨t', ht', hInput'.trans hInput⟩
  · intro tid
    rw [hSame, hOrder.mem_iff]
  · intro a b hPrec hb
    rcases precedes_next hNext hPrec with hOld | ⟨rfl, _⟩
    · exact hOrder.realTime a b hOld hb
    · exact absurd hb hOrder.not_mem_length
  · intro i tid c hi
    rw [hSame, hOrder.outcomes i tid c hi]

/-- A step that promises an answer puts its call at the end. -/
theorem Ordered.commit (h : Points M ok Q input promised R) {g g' : Config S T ο} {act : Act ι κ}
    {order : List (Tid × ι)} (hOrder : Ordered Q input promised R g order) (hReach : M.Reach ok g)
    (hNext : M.next g act = some g') {tid : Tid} {t : T} (ht : g.threads[tid]? = some t)
    (hBefore : promised g.shared t = none)
    (hAfter : promisedAt promised g' tid =
      some (Q.apply (Q.after (order.map Prod.snd)) (input t)).2)
    (hRel : R g' (Q.apply (Q.after (order.map Prod.snd)) (input t)).1)
    (hSame : ∀ u, u ≠ tid → promisedAt promised g' u = promisedAt promised g u) :
    Ordered Q input promised R g' (order ++ [(tid, input t)]) := by
  have hNew : tid ∉ order.map Prod.fst := by
    rw [hOrder.mem_iff, promisedAt, ht]
    simp [hBefore]
  have hFst : (order ++ [(tid, input t)]).map Prod.fst = order.map Prod.fst ++ [tid] := by simp
  have hSnd : (order ++ [(tid, input t)]).map Prod.snd = order.map Prod.snd ++ [input t] := by simp
  refine ⟨?_, ?_, ?_, ?_, ?_, ?_⟩
  · rw [hFst, List.nodup_append]
    refine ⟨hOrder.nodup, List.nodup_singleton tid, ?_⟩
    intro a ha b hb hEq
    rw [List.mem_singleton.mp hb] at hEq
    exact hNew (hEq ▸ ha)
  · intro x hx
    rcases List.mem_append.mp hx with hOld | hLast
    · obtain ⟨y, hy, hInput⟩ := hOrder.calls x hOld
      obtain ⟨y', hy', hInput'⟩ := h.input_next hNext hy
      exact ⟨y', hy', hInput'.trans hInput⟩
    · obtain rfl := List.mem_singleton.mp hLast
      exact h.input_next hNext ht
  · intro u
    rw [hFst, List.mem_append, List.mem_singleton]
    by_cases hEq : u = tid
    · subst hEq
      simp [hAfter]
    · rw [hSame u hEq, hOrder.mem_iff]
      simp [hEq]
  · intro a b hPrec hb
    rw [hFst] at hb ⊢
    rcases precedes_next hNext hPrec with hOld | ⟨rfl, _⟩
    · rcases List.mem_append.mp hb with hIn | hLast
      · exact (hOrder.realTime a b hOld hIn).trans (List.sublist_append_left _ _)
      · -- everything that returned before `b` is already ordered
        obtain rfl := List.mem_singleton.mp hLast
        obtain ⟨i, j, o, _, hRet, _⟩ := hOld
        have ha := (hOrder.ret_mem h hReach (List.mem_of_getElem? hRet)).1
        exact (List.singleton_sublist.mpr ha).append (List.Sublist.refl [b])
    · rcases List.mem_append.mp hb with hIn | hLast
      · exact absurd hIn hOrder.not_mem_length
      · have hLt := (List.getElem?_eq_some_iff.mp ht).1
        exact absurd (List.mem_singleton.mp hLast) (Nat.ne_of_gt hLt)
  · intro i u c hi
    rw [hSnd, Q.outcomes_snoc]
    rcases getElem?_snoc_cases hi with ⟨rfl, hEq⟩ | hOld
    · cases hEq
      rw [hAfter, List.getElem?_append_right (by simp)]
      simp
    · have hLt := (List.getElem?_eq_some_iff.mp hOld).1
      have hNe : u ≠ tid := by
        rintro rfl
        exact hNew (List.mem_map.mpr ⟨_, List.mem_of_getElem? hOld, rfl⟩)
      rw [List.getElem?_append_left (by simpa using hLt), hSame u hNe, hOrder.outcomes i u c hOld]
  · rw [hSnd, Q.after_snoc]
    exact hRel

theorem ordered (h : Points M ok Q input promised R) {g : Config S T ο} (hReach : M.Reach ok g) :
    ∃ order, Ordered Q input promised R g order := by
  refine Program.Reach.invariant (I := fun g => ∃ order, Ordered Q input promised R g order)
    ?_ ?_ hReach
  · refine ⟨[], List.nodup_nil, ?_, ?_, ?_, ?_, h.init⟩
    · intro x hx
      cases hx
    · intro tid
      simp [promisedAt, Program.initial]
    · intro a b _ hb
      cases hb
    · intro i tid c hi
      cases hi
  · rintro g act g' hReach ⟨order, hOrder⟩ hOk hNext
    rcases h.step g act g' _ hReach hOk hNext hOrder.rel with
      ⟨hRel, hSame⟩ | ⟨tid, t, ht, hBefore, hAfter, hRel, hSame⟩
    · exact ⟨order, hOrder.keep h hNext hRel hSame⟩
    · exact ⟨_, hOrder.commit h hReach hNext ht hBefore hAfter hRel hSame⟩

theorem Ordered.index {g : Config S T ο} {order : List (Tid × ι)}
    (hOrder : Ordered Q input promised R g order) {tid : Tid} {t : T} {o : ο}
    (ht : g.threads[tid]? = some t) (hPromised : promised g.shared t = some o) :
    ∃ i : Nat, order[i]? = some (tid, input t) ∧
      (Q.outcomes (order.map Prod.snd))[i]? = some o := by
  have hAt : promisedAt promised g tid = some o := by
    rw [promisedAt, ht]
    exact hPromised
  obtain ⟨⟨u, c⟩, hMem, rfl⟩ := List.mem_map.mp ((hOrder.mem_iff tid).mpr (by rw [hAt]; rfl))
  obtain ⟨t', ht', hInput⟩ := hOrder.calls _ hMem
  obtain rfl : t = t' := Option.some.inj (ht.symm.trans ht')
  obtain ⟨i, hi⟩ := List.mem_iff_getElem?.mp hMem
  refine ⟨i, by rw [hi, hInput], ?_⟩
  rw [hOrder.outcomes i u c hi, hAt]

theorem Ordered.perm {g : Config S T ο} {order : List (Tid × ι)}
    (hOrder : Ordered Q input promised R g order)
    (hAll : ∀ t ∈ g.threads, ∃ o, promised g.shared t = some o) :
    (order.map Prod.fst).Perm (List.range g.threads.length) := by
  refine (List.perm_ext_iff_of_nodup hOrder.nodup List.nodup_range).mpr fun tid => ?_
  rw [List.mem_range]
  constructor
  · intro hMem
    obtain ⟨x, hx, rfl⟩ := List.mem_map.mp hMem
    obtain ⟨t, ht, _⟩ := hOrder.calls x hx
    exact (List.getElem?_eq_some_iff.mp ht).1
  · intro hLt
    obtain ⟨o, hPromised⟩ := hAll _ (List.getElem_mem hLt)
    obtain ⟨i, hi, _⟩ := hOrder.index (List.getElem?_eq_getElem hLt) hPromised
    exact List.mem_map.mpr ⟨_, List.mem_of_getElem? hi, rfl⟩

theorem Ordered.linearization {g : Config S T ο} {order : List (Tid × ι)}
    (hOrder : Ordered Q input promised R g order) (h : Points M ok Q input promised R)
    (hReach : M.Reach ok g) : Linearization Q input g order where
  nodup := hOrder.nodup
  calls := hOrder.calls
  complete tid o hRet := (hOrder.ret_mem h hReach hRet).1
  realTime := hOrder.realTime
  outcomes i tid c o hi hRet := by
    rw [hOrder.outcomes i tid c hi, (hOrder.ret_mem h hReach hRet).2]

end Points

end Interleaving
