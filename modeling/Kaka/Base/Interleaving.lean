import Mathlib.Data.List.Basic
import Mathlib.Algebra.BigOperators.Group.List.Basic
import Mathlib.Tactic.Linarith

/-! # Interleavings of a growing pool of threads

A program gives the atomic steps of one thread over a shared state.
A configuration is the shared state, the threads started so far and the
history of their calls and returns; any thread may take the next step.
Runs carry a guard on every step, so that a theorem about the runs whose
steps all meet a condition has the same shape as one about every run.
-/

namespace Interleaving

abbrev Tid := Nat

/-- `step` is `none` where the thread is blocked or has finished. The
choice `κ` resolves what the code itself leaves open. -/
structure Program (S T ι κ ο : Type) where
  init : S
  start : ι → T
  step : Tid → κ → S → T → Option (S × T)
  result : T → Option ο

inductive Event (ο : Type) where
  | call (tid : Tid)
  | ret (tid : Tid) (outcome : ο)
  deriving DecidableEq

structure Config (S T ο : Type) where
  shared : S
  threads : List T
  history : List (Event ο)

inductive Act (ι κ : Type) where
  | start (call : ι)
  | step (tid : Tid) (choice : κ)

variable {S T ι κ ο : Type}

def Act.map {ι' : Type} (f : ι' → ι) : Act ι' κ → Act ι κ
  | .start x => .start (f x)
  | .step tid choice => .step tid choice

def returned (tid : Tid) : Option ο → List (Event ο)
  | some o => [.ret tid o]
  | none => []

namespace Program

variable (M : Program S T ι κ ο)

def initial : Config S T ο := ⟨M.init, [], []⟩

def next (g : Config S T ο) : Act ι κ → Option (Config S T ο)
  | .start call =>
    some ⟨g.shared, g.threads ++ [M.start call], g.history ++ [.call g.threads.length]⟩
  | .step tid choice =>
    match g.threads[tid]? with
    | none => none
    | some t =>
      match M.step tid choice g.shared t with
      | none => none
      | some (s, t') => some ⟨s, g.threads.set tid t', g.history ++ returned tid (M.result t')⟩

/-- `Path ok g seen h`: a run from `g` to `h` whose steps all meet `ok`;
`seen` lists the configurations after each step, in order. -/
inductive Path (ok : Config S T ο → Act ι κ → Prop) (g : Config S T ο) :
    List (Config S T ο) → Config S T ο → Prop
  | nil : Path ok g [] g
  | snoc {seen h a h'} : Path ok g seen h → ok h a → M.next h a = some h' →
      Path ok g (seen ++ [h']) h'

/-- The configurations of one given run, for runs on explicit inputs. -/
def trace (ok : Config S T ο → Act ι κ → Prop) [∀ g a, Decidable (ok g a)]
    (g : Config S T ο) : List (Act ι κ) → Option (List (Config S T ο))
  | [] => some []
  | a :: rest =>
    if ok g a then (M.next g a).bind fun g' => (trace ok g' rest).map fun seen => g' :: seen
    else none

def final (ok : Config S T ο → Act ι κ → Prop) [∀ g a, Decidable (ok g a)]
    (acts : List (Act ι κ)) : Config S T ο :=
  ((M.trace ok M.initial acts).getD []).getLastD M.initial

def Reach (ok : Config S T ο → Act ι κ → Prop) (g : Config S T ο) : Prop :=
  ∃ seen, M.Path ok M.initial seen g

/-- No condition on the steps: every run. -/
abbrev Reachable (g : Config S T ο) : Prop := M.Reach (fun _ _ => True) g

variable {M} {ok : Config S T ο → Act ι κ → Prop}

theorem Path.trans {g h k : Config S T ο} {seen seen' : List (Config S T ο)}
    (hLeft : M.Path ok g seen h) (hRight : M.Path ok h seen' k) :
    M.Path ok g (seen ++ seen') k := by
  induction hRight with
  | nil => simpa using hLeft
  | snoc _ hOk hNext ih =>
    rw [← List.append_assoc]
    exact .snoc ih hOk hNext

theorem Path.weaken {ok' : Config S T ο → Act ι κ → Prop} (hOk : ∀ g a, ok g a → ok' g a)
    {g h : Config S T ο} {seen : List (Config S T ο)} (hPath : M.Path ok g seen h) :
    M.Path ok' g seen h := by
  induction hPath with
  | nil => exact .nil
  | snoc _ hStep hNext ih => exact .snoc ih (hOk _ _ hStep) hNext

theorem Path.last_mem {g h : Config S T ο} {seen : List (Config S T ο)}
    (hPath : M.Path ok g seen h) : h ∈ g :: seen := by
  cases hPath with
  | nil => exact List.mem_cons_self
  | snoc => exact List.mem_cons_of_mem _ (List.mem_append_right _ List.mem_cons_self)

theorem Path.of_trace [∀ g a, Decidable (ok g a)] {g : Config S T ο} {seen : List (Config S T ο)}
    (acts : List (Act ι κ)) (hRun : M.trace ok g acts = some seen) :
    M.Path ok g seen (seen.getLastD g) := by
  induction acts generalizing g seen with
  | nil =>
    cases hRun
    exact .nil
  | cons a rest ih =>
    simp only [trace] at hRun
    split at hRun
    · rename_i hOk
      obtain ⟨g', hNext, hRest⟩ := Option.bind_eq_some_iff.mp hRun
      obtain ⟨tail, hTail, rfl⟩ := Option.map_eq_some_iff.mp hRest
      have hFirst : M.Path ok g [g'] g' := .snoc .nil hOk hNext
      rw [List.getLastD_cons]
      exact hFirst.trans (ih hTail)
    · cases hRun

theorem Reach.init : M.Reach ok M.initial := ⟨[], .nil⟩

theorem Reach.next {g g' : Config S T ο} {a : Act ι κ} (hReach : M.Reach ok g) (hOk : ok g a)
    (hNext : M.next g a = some g') : M.Reach ok g' := by
  obtain ⟨seen, hPath⟩ := hReach
  exact ⟨seen ++ [g'], .snoc hPath hOk hNext⟩

theorem Reach.weaken {ok' : Config S T ο → Act ι κ → Prop} (hOk : ∀ g a, ok g a → ok' g a)
    {g : Config S T ο} (hReach : M.Reach ok g) : M.Reach ok' g := by
  obtain ⟨seen, hPath⟩ := hReach
  exact ⟨seen, hPath.weaken hOk⟩

theorem Reach.reachable {g : Config S T ο} (hReach : M.Reach ok g) : M.Reachable g :=
  hReach.weaken fun _ _ _ => trivial

theorem Reach.final [∀ g a, Decidable (ok g a)] (acts : List (Act ι κ))
    (hRun : (M.trace ok M.initial acts).isSome = true) : M.Reach ok (M.final ok acts) := by
  obtain ⟨seen, hSeen⟩ := Option.isSome_iff_exists.mp hRun
  rw [Program.final, hSeen]
  exact ⟨seen, .of_trace acts hSeen⟩

/-- The invariant rule. The guard holds at every step and the run so far
was a guarded one, so earlier results about such runs may be used. -/
theorem Reach.invariant {I : Config S T ο → Prop} (hInit : I M.initial)
    (hKeep : ∀ g a g', M.Reach ok g → I g → ok g a → M.next g a = some g' → I g')
    {g : Config S T ο} (hReach : M.Reach ok g) : I g := by
  obtain ⟨seen, hPath⟩ := hReach
  induction hPath with
  | nil => exact hInit
  | snoc hBefore hOk hNext ih => exact hKeep _ _ _ ⟨_, hBefore⟩ ih hOk hNext

/-- A step of the pool is a new thread or one step of one thread. -/
theorem next_cases {g g' : Config S T ο} {a : Act ι κ} (hNext : M.next g a = some g') :
    (∃ call, a = .start call ∧ g' = ⟨g.shared, g.threads ++ [M.start call],
      g.history ++ [.call g.threads.length]⟩) ∨
    (∃ tid choice t s t', a = .step tid choice ∧ g.threads[tid]? = some t ∧
      M.step tid choice g.shared t = some (s, t') ∧
      g' = ⟨s, g.threads.set tid t', g.history ++ returned tid (M.result t')⟩) := by
  cases a with
  | start call => exact .inl ⟨call, rfl, (Option.some.inj hNext).symm⟩
  | step tid choice =>
    simp only [next] at hNext
    split at hNext
    · cases hNext
    · rename_i t hThread
      split at hNext
      · cases hNext
      · rename_i s t' hStep
        exact .inr ⟨tid, choice, t, s, t', rfl, hThread, hStep, (Option.some.inj hNext).symm⟩

/-- The invariant rule for what holds of each thread. -/
theorem Reach.threads {p : T → Prop} (hStart : ∀ call, p (M.start call))
    (hStep : ∀ g tid choice t s t', M.Reach ok g → g.threads[tid]? = some t → p t →
      M.step tid choice g.shared t = some (s, t') → p t')
    {g : Config S T ο} (hReach : M.Reach ok g) : ∀ t ∈ g.threads, p t := by
  refine hReach.invariant (I := fun g => ∀ t ∈ g.threads, p t) ?_ ?_
  · intro t ht
    cases ht
  · intro g a g' hBefore ih _ hNext x hx
    rcases next_cases hNext with ⟨call, _, rfl⟩ | ⟨tid, choice, t, s, t', _, ht, hMove, rfl⟩
    · rcases List.mem_append.mp hx with hOld | hNew
      · exact ih x hOld
      · rw [List.mem_singleton.mp hNew]
        exact hStart call
    · rcases List.mem_or_eq_of_mem_set hx with hOld | rfl
      · exact ih x hOld
      · exact hStep g tid choice t s _ hBefore ht (ih t (List.mem_of_getElem? ht)) hMove

/-! ## Restricting what is started -/

/-- The program whose threads are started from `f x` only. -/
def comap {ι' : Type} (M : Program S T ι κ ο) (f : ι' → ι) : Program S T ι' κ ο :=
  { M with start := fun x => M.start (f x) }

theorem comap_next {ι' : Type} (f : ι' → ι) (g : Config S T ο) (a : Act ι' κ) :
    (M.comap f).next g a = M.next g (a.map f) := by
  cases a <;> rfl

theorem Reach.of_comap {ι' : Type} {f : ι' → ι} {ok : Config S T ο → Act ι' κ → Prop}
    {g : Config S T ο} (hReach : (M.comap f).Reach ok g) : M.Reachable g := by
  refine Reach.invariant (M := M.comap f) (I := fun g => M.Reachable g) ?_ ?_ hReach
  · exact Reach.init
  · intro g a g' _ ih _ hNext
    rw [comap_next] at hNext
    exact ih.next trivial hNext

end Program

section Threads

variable {threads : List T} {tid : Tid} {t t' : T}

theorem getElem?_set_moved (hOld : threads[tid]? = some t) : (threads.set tid t')[tid]? = some t' :=
  List.getElem?_set_self (List.getElem?_eq_some_iff.mp hOld).1

theorem getElem?_set_other {u : Tid} {x : T} (hNe : u ≠ tid) (hx : threads[u]? = some x) :
    (threads.set tid t')[u]? = some x := by
  rw [List.getElem?_set_ne (Ne.symm hNe), hx]

/-- A thread unlike the one that moves stays in the pool. -/
theorem mem_set_other {x : T} (hOld : threads[tid]? = some t) (hx : x ∈ threads) (hNe : x ≠ t) :
    x ∈ threads.set tid t' := by
  obtain ⟨u, hu⟩ := List.mem_iff_getElem?.mp hx
  have hOther : u ≠ tid := by
    rintro rfl
    rw [hOld] at hu
    exact hNe (Option.some.inj hu).symm
  exact List.mem_of_getElem? (getElem?_set_other hOther hu)

theorem getElem?_set_cases {u : Tid} {x : T} (hGet : (threads.set tid t')[u]? = some x)
    (hOld : threads[tid]? = some t) :
    (u = tid ∧ x = t') ∨ (u ≠ tid ∧ threads[u]? = some x) := by
  have hLength : tid < threads.length := (List.getElem?_eq_some_iff.mp hOld).1
  by_cases hEq : u = tid
  · subst hEq
    rw [List.getElem?_set_self hLength] at hGet
    exact .inl ⟨rfl, (Option.some.inj hGet).symm⟩
  · rw [List.getElem?_set_ne (Ne.symm hEq)] at hGet
    exact .inr ⟨hEq, hGet⟩

theorem getElem?_snoc_cases {u : Tid} {x : T} (hGet : (threads ++ [t])[u]? = some x) :
    (u = threads.length ∧ x = t) ∨ threads[u]? = some x := by
  rcases Nat.lt_trichotomy u threads.length with hLt | hEq | hGt
  · rw [List.getElem?_append_left hLt] at hGet
    exact .inr hGet
  · subst hEq
    rw [List.getElem?_concat_length] at hGet
    exact .inl ⟨rfl, (Option.some.inj hGet).symm⟩
  · rw [List.getElem?_eq_none (by simp; omega)] at hGet
    cases hGet

theorem sum_map_set (f : T → Int) (hOld : threads[tid]? = some t) :
    ((threads.set tid t').map f).sum = (threads.map f).sum + f t' - f t := by
  induction threads generalizing tid with
  | nil => simp at hOld
  | cons head tail ih =>
    cases tid with
    | zero =>
      obtain rfl : head = t := by simpa using hOld
      simp only [List.set_cons_zero, List.map_cons, List.sum_cons]
      omega
    | succ tid =>
      simp only [List.set_cons_succ, List.map_cons, List.sum_cons]
      rw [ih (by simpa using hOld)]
      omega

theorem filterMap_set_perm {β : Type} (f : T → Option β) {p : β} (hOld : threads[tid]? = some t)
    (hNone : f t = none) (hSome : f t' = some p) :
    ((threads.set tid t').filterMap f).Perm (threads.filterMap f ++ [p]) := by
  induction threads generalizing tid with
  | nil => simp at hOld
  | cons head tail ih =>
    cases tid with
    | zero =>
      obtain rfl : head = t := by simpa using hOld
      rw [List.set_cons_zero, List.filterMap_cons_some hSome, List.filterMap_cons_none hNone]
      exact (List.perm_append_singleton _ _).symm
    | succ tid =>
      rw [List.set_cons_succ, List.filterMap_cons, List.filterMap_cons]
      cases f head with
      | none => exact ih (by simpa using hOld)
      | some b => exact (ih (by simpa using hOld)).cons b

theorem filterMap_perm_set {β : Type} (f : T → Option β) {p : β} (hOld : threads[tid]? = some t)
    (hSome : f t = some p) (hNone : f t' = none) :
    (threads.filterMap f).Perm ((threads.set tid t').filterMap f ++ [p]) := by
  have hBack := filterMap_set_perm f (getElem?_set_moved hOld) hNone hSome
  obtain ⟨_, rfl⟩ := List.getElem?_eq_some_iff.mp hOld
  rwa [List.set_set, List.set_getElem_self] at hBack

theorem filterMap_set_eq {β : Type} (f : T → Option β) (hOld : threads[tid]? = some t)
    (hSame : f t' = f t) : (threads.set tid t').filterMap f = threads.filterMap f := by
  induction threads generalizing tid with
  | nil => rfl
  | cons head tail ih =>
    cases tid with
    | zero =>
      obtain rfl : head = t := by simpa using hOld
      simp only [List.set_cons_zero, List.filterMap_cons, hSame]
    | succ tid =>
      simp only [List.set_cons_succ, List.filterMap_cons, ih (by simpa using hOld)]

theorem map_set_eq {β : Type} (f : T → β) (hOld : threads[tid]? = some t) (hSame : f t' = f t) :
    (threads.set tid t').map f = threads.map f := by
  rw [← List.filterMap_eq_map]
  exact filterMap_set_eq (some ∘ f) hOld (congrArg some hSame)

end Threads

/-! ## Exclusive resources

A resource records its owner; which resources a thread should own is a
predicate of the thread. `Owned` says that the two agree. -/

section Ownership

variable {R : Type} {owner owner' : R → Option Tid} {holds : T → R → Prop} {threads : List T}

def Owned (owner : R → Option Tid) (holds : T → R → Prop) (threads : List T) : Prop :=
  ∀ r u, owner r = some u ↔ ∃ x, threads[u]? = some x ∧ holds x r

theorem Owned.unique (h : Owned owner holds threads) {r : R} {u v : Tid} {x y : T}
    (hx : threads[u]? = some x) (hxr : holds x r) (hy : threads[v]? = some y)
    (hyr : holds y r) : u = v := by
  have hOwner := (h r u).mpr ⟨x, hx, hxr⟩
  rw [(h r v).mpr ⟨y, hy, hyr⟩] at hOwner
  exact (Option.some.inj hOwner).symm

theorem Owned.start (h : Owned owner holds threads) {t : T} (hNone : ∀ r, ¬ holds t r) :
    Owned owner holds (threads ++ [t]) := by
  intro r u
  rw [h r u]
  constructor
  · rintro ⟨x, hx, hr⟩
    have hLt := (List.getElem?_eq_some_iff.mp hx).1
    exact ⟨x, by rwa [List.getElem?_append_left hLt], hr⟩
  · rintro ⟨x, hx, hr⟩
    rcases getElem?_snoc_cases hx with ⟨_, rfl⟩ | hx
    · exact absurd hr (hNone r)
    · exact ⟨x, hx, hr⟩

/-- A thread may take what nobody owns and give back what it owns. -/
theorem Owned.step (h : Owned owner holds threads) {tid : Tid} {t t' : T}
    (hOld : threads[tid]? = some t)
    (hFrame : ∀ r, ¬ holds t r → ¬ holds t' r → owner' r = owner r)
    (hFree : ∀ r, ¬ holds t r → holds t' r → owner r = none)
    (hTaken : ∀ r, holds t' r → owner' r = some tid)
    (hGiven : ∀ r, holds t r → ¬ holds t' r → owner' r = none) :
    Owned owner' holds (threads.set tid t') := by
  intro r u
  constructor
  · intro hOwner
    by_cases hAfter : holds t' r
    · rw [hTaken r hAfter] at hOwner
      obtain rfl := Option.some.inj hOwner
      exact ⟨t', getElem?_set_moved hOld, hAfter⟩
    · by_cases hBefore : holds t r
      · rw [hGiven r hBefore hAfter] at hOwner
        cases hOwner
      · rw [hFrame r hBefore hAfter] at hOwner
        obtain ⟨x, hx, hr⟩ := (h r u).mp hOwner
        have hNe : u ≠ tid := by
          rintro rfl
          rw [hOld] at hx
          exact hBefore (Option.some.inj hx ▸ hr)
        exact ⟨x, getElem?_set_other hNe hx, hr⟩
  · rintro ⟨x, hx, hr⟩
    rcases getElem?_set_cases hx hOld with ⟨rfl, rfl⟩ | ⟨hNe, hx⟩
    · exact hTaken r hr
    · have hOwner := (h r u).mpr ⟨x, hx, hr⟩
      -- another thread owns `r`, so the moving one neither owned nor took it
      have hBefore : ¬ holds t r := fun hBefore => hNe (h.unique hx hr hOld hBefore)
      have hAfter : ¬ holds t' r := by
        intro hAfter
        rw [hFree r hBefore hAfter] at hOwner
        cases hOwner
      rw [hFrame r hBefore hAfter]
      exact hOwner

end Ownership

end Interleaving
