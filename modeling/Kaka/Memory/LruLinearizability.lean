import Kaka.Base.Linearization
import Kaka.Memory.LruCache
import Kaka.Memory.Unobstructed

/-! # One `EvictLRU` shard is a linearizable LRU cache

With a single shard and no TTL a call never gives up its lock between its
first step and its return: under every interleaving the calls take effect one
at a time, at their callbacks, and the answers are those of the textbook
cache, a list of keys with their states, most recent first and cut to the cap.
-/

namespace Kaka.Memory

open Interleaving Recency

variable {σ ρ : Type}

namespace Params

/-! ## The cache -/

def lruCache (P : Params σ) (ρ : Type) (m : Nat) : Spec (List (Key × σ)) (Call σ ρ) (Outcome ρ) where
  init := []
  apply cache c :=
    let out := c.fn ((cache.lookup c.key).getD (P.create c.now)) c.now
    (((c.key, out.1) :: cache.filter fun x => x.1 ≠ c.key).take m, .ok out.2)

section Cache

variable {P : Params σ} {n : Nat} {cache : List (Key × σ)} {c : Call σ ρ} {key : Key}

abbrev held (cache : List (Key × σ)) (key : Key) : Option σ := cache.lookup key

theorem keys_apply : ((P.lruCache ρ (n + 1)).apply cache c).1.map Prod.fst =
    moved n (cache.map Prod.fst) c := by
  simp only [lruCache, List.take_succ_cons, List.map_cons, List.map_take, moved, List.filter_map]
  rfl

theorem lookup_filter (hNe : key ≠ c.key) :
    (cache.filter fun x => x.1 ≠ c.key).lookup key = cache.lookup key := by
  induction cache with
  | nil => rfl
  | cons x rest ih =>
    by_cases hx : x.1 = c.key
    · have hMiss : (key == x.1) = false := beq_eq_false_iff_ne.mpr (hx ▸ hNe)
      rw [List.filter_cons_of_neg (by simp [hx]), ih, List.lookup_cons, hMiss]
    · rw [List.filter_cons_of_pos (by simp [hx]), List.lookup_cons, List.lookup_cons, ih]

theorem lookup_take (hMem : key ∈ (cache.take n).map Prod.fst) :
    (cache.take n).lookup key = cache.lookup key := by
  induction cache generalizing n with
  | nil => rw [List.take_nil]
  | cons x rest ih =>
    cases n with
    | zero => cases hMem
    | succ n =>
      rw [List.take_succ_cons, List.lookup_cons, List.lookup_cons]
      by_cases hx : key = x.1
      · rw [beq_iff_eq.mpr hx]
      · rw [beq_eq_false_iff_ne.mpr hx]
        exact ih ((List.mem_cons.mp hMem).resolve_left hx)

theorem lookup_apply (hMem : key ∈ moved n (cache.map Prod.fst) c) :
    held ((P.lruCache ρ (n + 1)).apply cache c).1 key = Function.update (held cache) c.key
      (some (c.fn ((held cache c.key).getD (P.create c.now)) c.now).1) key := by
  rw [← keys_apply (P := P)] at hMem
  simp only [lruCache, held] at hMem ⊢
  rw [lookup_take hMem, List.lookup_cons, Function.update_apply]
  by_cases hKey : key = c.key
  · rw [if_pos hKey, beq_iff_eq.mpr hKey]
  · rw [if_neg hKey, beq_eq_false_iff_ne.mpr hKey]
    exact lookup_filter hKey

theorem held_of_new (hNew : key ∉ cache.map Prod.fst) : held cache key = none := by
  rw [held, List.lookup_eq_none_iff]
  intro x hx
  rw [bne_iff_ne]
  rintro rfl
  exact hNew (List.mem_map.mpr ⟨x, hx, rfl⟩)

end Cache

/-! ## The calls in progress -/

inductive Phase where
  | waiting
  | working
  | answered
  | returned
  deriving DecidableEq

/-- A call is at work from its first step to its callback. -/
def phase {n : Nat} : Pc n ρ → Phase
  | .lock => .waiting
  | .unlock _ => .answered
  | .done _ => .returned
  | _ => .working

def answered? {n : Nat} (t : Thread n σ ρ) : Option (Outcome ρ) :=
  match t.pc with
  | .unlock outcome | .done outcome => some outcome
  | _ => none

/-- The store is the cache after the calls that have taken effect, and the
call at work, if any, is about to make the next step of the cache. -/
structure Simulates (P : Params σ) (n : Nat) (g : P.State ρ) (cache : List (Key × σ)) : Prop where
  length : cache.length ≤ n + 1
  settled : (∀ t ∈ g.threads, phase t.pc ≠ .working) →
    ∀ i, P.Cache i (cache.map Prod.fst) (held cache) g.shared
  working : ∀ (tid : Tid) (t : Thread P.shardCount σ ρ), g.threads[tid]? = some t →
    phase t.pc = .working → P.Knows g.shared t.call t.pc ∧
      P.Caches n (cache.map Prod.fst) (held cache) ((held cache t.call.key).getD (P.create t.call.now))
        t.call g.shared t.pc

variable {P : Params σ} {n : Nat} {cache : List (Key × σ)} {tid u : Tid} {choice : List Key}
  {s s' : Store P.shardCount σ} {c : Call σ ρ} {pc pc' : Pc P.shardCount ρ} {g : P.State ρ}
  {t x : Thread P.shardCount σ ρ} {history : List (Event (Outcome ρ))}

theorem Step.phases (h : P.Step tid choice s c pc s' pc') (hEv : P.ev = .evictLRU) :
    (pc = .lock ∧ pc' = .lookup) ∨ (phase pc = .working ∧ phase pc' = .working ∧ pc ≠ .run) ∨
      (pc = .run ∧ ∃ r, pc' = .unlock (.ok r)) ∨ ∃ outcome, pc = .unlock outcome ∧ pc' = .done outcome := by
  cases h with
  | lock => exact .inl ⟨rfl, rfl⟩
  | run => exact .inr (.inr (.inl ⟨rfl, _, rfl⟩))
  | unlock => exact .inr (.inr (.inr ⟨_, rfl, rfl⟩))
  | reject hReject =>
    rw [hEv] at hReject
    cases hReject
  | @expireDone next => exact .inr (.inl ⟨rfl, by cases next <;> rfl, nofun⟩)
  | @counted who => exact .inr (.inl ⟨rfl, by cases who <;> rfl, nofun⟩)
  | @evictNone swept => exact .inr (.inl ⟨rfl, by cases swept <;> rfl, nofun⟩)
  | sweepSkip | sweepRecent | sweepEnd =>
    exact .inr (.inl ⟨rfl, by unfold afterSweep; split <;> rfl, nofun⟩)
  | _ => exact .inr (.inl ⟨rfl, rfl, nofun⟩)

theorem holds_of_caches {K : List Key} {V : Key → Option σ} {v : σ} (hOne : P.shardCount = 1)
    (hCaches : P.Caches n K V v c s pc) (hPhase : phase pc = .working) :
    pc.holds (P.self c) = some (P.self c) := by
  have hSingle : ∀ i j : Fin P.shardCount, i = j := fun i j => by omega
  cases pc with
  | expire todo next =>
    cases next with
    | sweep i => exact hCaches.elim
    | _ => rfl
  | evicted who | counted who => exact congrArg some (hSingle _ _)
  | lock | done | unlock => cases hPhase
  | lookup | reserve | load | cas | full | recheck | giveBack | refresh | run => rfl
  | _ => exact hCaches.elim

/-! ## Every run -/

/-- Whoever holds the lock is the only call that is past its first step and
has not returned. -/
theorem Simulates.off (h : P.Simulates n g cache) (hOne : P.shardCount = 1) (hInv : P.Inv g)
    (ht : g.threads[tid]? = some t) (hHolds : t.pc.holds (P.self t.call) = some (P.self t.call))
    (hx : g.threads[u]? = some x) (hNe : u ≠ tid) : Off x ∧ phase x.pc ≠ .working := by
  have hSingle : ∀ i j : Fin P.shardCount, i = j := fun i j => by omega
  have hFree : x.pc.holds (P.self x.call) ≠ some (P.self x.call) := by
    intro hTaken
    have hSame := hTaken.trans (congrArg some (hSingle _ (P.self t.call)))
    exact hNe (hInv.locks.shard.unique hx hSame ht hHolds)
  have hIdle : phase x.pc ≠ .working :=
    fun hPhase => hFree (holds_of_caches hOne (h.working u x hx hPhase).2 hPhase)
  refine ⟨?_, hIdle⟩
  unfold Off
  revert hFree hIdle
  cases x.pc with
  | lock | done => exact fun _ _ => ⟨rfl, rfl⟩
  | unlock => exact fun hFree _ => absurd rfl hFree
  | _ => exact fun _ hIdle => absurd rfl hIdle

theorem Simulates.idle (h : P.Simulates n g cache) (hOne : P.shardCount = 1) (hInv : P.Inv g)
    (i : Fin P.shardCount) (hFree : (g.shared.shards i).mu = none) :
    ∀ x ∈ g.threads, phase x.pc ≠ .working := by
  intro x hx hPhase
  obtain ⟨u, hu⟩ := List.mem_iff_getElem?.mp hx
  have hHolds := holds_of_caches hOne (h.working u x hu hPhase).2 hPhase
  have hOwner := (hInv.locks.shard (P.self x.call) u).mpr ⟨x, hu, hHolds⟩
  have hSame : P.self x.call = i := by omega
  simp only [hSame, hFree] at hOwner
  cases hOwner

theorem Simulates.lock (h : P.Simulates n g cache) (hOne : P.shardCount = 1) (hInv : P.Inv g)
    (ht : g.threads[tid]? = some t) (hFree : (g.shared.shards (P.self t.call)).mu = none) :
    P.Simulates n ⟨g.shared.lock (P.self t.call) tid, g.threads.set tid ⟨t.call, .lookup⟩, history⟩
      cache := by
  have hIdle := h.idle hOne hInv _ hFree
  refine ⟨h.length, ?_, ?_⟩
  · intro hNone
    exact absurd rfl (hNone _ (List.mem_of_getElem? (getElem?_set_moved ht)))
  · intro u x hx hPhase
    rcases getElem?_set_cases hx ht with ⟨rfl, rfl⟩ | ⟨_, hx⟩
    · refine ⟨trivial, (h.settled hIdle _).congr (keys_mutex _ _ _) fun key => ?_⟩
      rw [value_eq_entry, value_eq_entry]
      exact congrArg _ (entry_mutex (some u) key)
    · exact absurd hPhase (hIdle x (List.mem_of_getElem? hx))

theorem Simulates.unlock {outcome : Outcome ρ} (h : P.Simulates n g cache) (hOne : P.shardCount = 1)
    (hInv : P.Inv g) (ht : g.threads[tid]? = some t) (hPc : t.pc = .unlock outcome) :
    P.Simulates n ⟨g.shared.unlock (P.self t.call), g.threads.set tid ⟨t.call, .done outcome⟩, history⟩
      cache := by
  have hOthers : ∀ (u : Tid) (x : Thread P.shardCount σ ρ), g.threads[u]? = some x →
      phase x.pc ≠ .working := by
    intro u x hx
    by_cases hEq : u = tid
    · subst hEq
      obtain rfl := Option.some.inj (ht.symm.trans hx)
      rw [hPc]
      nofun
    · exact (h.off hOne hInv ht (by rw [hPc]; rfl) hx hEq).2
  refine ⟨h.length, ?_, ?_⟩
  · intro _ i
    refine (h.settled ?_ i).congr (keys_mutex _ _ _) fun key => ?_
    · intro x hx
      obtain ⟨u, hu⟩ := List.mem_iff_getElem?.mp hx
      exact hOthers u x hu
    · rw [value_eq_entry, value_eq_entry]
      exact congrArg _ (entry_mutex none key)
  · intro u x hx hPhase
    rcases getElem?_set_cases hx ht with ⟨rfl, rfl⟩ | ⟨_, hx⟩
    · cases hPhase
    · exact absurd hPhase (hOthers u x hx)

theorem Simulates.caches (h : P.Simulates n g cache) (hOne : P.shardCount = 1) (hEv : P.ev = .evictLRU)
    (hMax : P.opts.maxKeys = n + 1) (hTtl : P.opts.keyTTL ≤ 0) (hInv : P.Inv g)
    (ht : g.threads[tid]? = some t) (hPhase : phase t.pc = .working)
    (hStep : P.Step tid choice g.shared t.call t.pc s' pc') :
    P.Knows s' t.call pc' ∧ P.Caches n (cache.map Prod.fst) (held cache)
      ((held cache t.call.key).getD (P.create t.call.now)) t.call s' pc' := by
  obtain ⟨hKnows, hCaches⟩ := h.working tid t ht hPhase
  have hHolds := holds_of_caches hOne hCaches hPhase
  have hSolo : P.Solo g.shared t.call t.pc :=
    hInv.solo ht fun u x hx hNe => (h.off hOne hInv ht hHolds hx hNe).1
  refine ⟨hStep.knows hSolo hKnows, hStep.caches hOne hEv hMax hTtl ?_ ?_ hSolo hKnows hCaches⟩
  · rw [List.length_map]
    exact h.length
  · split
    · rfl
    · rename_i hNew
      rw [held_of_new hNew]
      rfl

theorem Simulates.work (h : P.Simulates n g cache) (hOne : P.shardCount = 1) (hInv : P.Inv g)
    (ht : g.threads[tid]? = some t) (hPhase : phase t.pc = .working) (hPhase' : phase pc' = .working)
    (hNext : P.Knows s' t.call pc' ∧ P.Caches n (cache.map Prod.fst) (held cache)
      ((held cache t.call.key).getD (P.create t.call.now)) t.call s' pc') :
    P.Simulates n ⟨s', g.threads.set tid ⟨t.call, pc'⟩, history⟩ cache := by
  have hHolds := holds_of_caches hOne (h.working tid t ht hPhase).2 hPhase
  refine ⟨h.length, ?_, ?_⟩
  · intro hNone
    exact absurd hPhase' (hNone _ (List.mem_of_getElem? (getElem?_set_moved ht)))
  · intro u x hx hWorking
    rcases getElem?_set_cases hx ht with ⟨rfl, rfl⟩ | ⟨hNe, hx⟩
    · exact hNext
    · exact absurd hWorking (h.off hOne hInv ht hHolds hx hNe).2

/-- The callback is the step of the cache. -/
theorem Simulates.run {outcome : Outcome ρ} (h : P.Simulates n g cache) (hOne : P.shardCount = 1)
    (hInv : P.Inv g) (ht : g.threads[tid]? = some t) (hPhase : phase t.pc = .working)
    (hCaches : P.Caches n (cache.map Prod.fst) (held cache)
      ((held cache t.call.key).getD (P.create t.call.now)) t.call s' (.unlock outcome)) :
    outcome = ((P.lruCache ρ (n + 1)).apply cache t.call).2 ∧
      P.Simulates n ⟨s', g.threads.set tid ⟨t.call, .unlock outcome⟩, history⟩
        ((P.lruCache ρ (n + 1)).apply cache t.call).1 := by
  obtain ⟨hOutcome, hCache⟩ := hCaches
  have hHolds := holds_of_caches hOne (h.working tid t ht hPhase).2 hPhase
  refine ⟨hOutcome, List.length_take_le _ _, ?_, ?_⟩
  · intro _ i
    obtain rfl : i = P.self t.call := by omega
    refine ⟨hCache.keys.trans keys_apply.symm, ?_⟩
    intro key hKey
    rw [keys_apply] at hKey
    rw [lookup_apply hKey]
    exact hCache.value key hKey
  · intro u x hx hWorking
    rcases getElem?_set_cases hx ht with ⟨rfl, rfl⟩ | ⟨hNe, hx⟩
    · cases hWorking
    · exact absurd hWorking (h.off hOne hInv ht hHolds hx hNe).2

theorem Simulates.init (hEv : P.ev = .evictLRU) :
    P.Simulates n (P.program.initial : P.State ρ) [] :=
  ⟨Nat.zero_le _, fun _ i => ⟨keys_eq_stamps hEv _ i, nofun⟩, nofun⟩

theorem Simulates.start (h : P.Simulates n g cache) (call : Call σ ρ) :
    P.Simulates n ⟨g.shared, g.threads ++ [⟨call, .lock⟩], history⟩ cache := by
  refine ⟨h.length, ?_, ?_⟩
  · intro hNone
    exact h.settled fun x hx => hNone x (List.mem_append_left _ hx)
  · intro u x hx hPhase
    rcases getElem?_snoc_cases hx with ⟨_, rfl⟩ | hx
    · cases hPhase
    · exact h.working u x hx hPhase

theorem answered?_of_working (hPhase : phase t.pc = .working) : answered? t = none := by
  unfold answered?
  split
  · rename_i hPc
    rw [hPc] at hPhase
    cases hPhase
  · rename_i hPc
    rw [hPc] at hPhase
    cases hPhase
  · rfl

theorem keep (ht : g.threads[tid]? = some t) (hSame : answered? (⟨t.call, pc'⟩ : Thread P.shardCount σ ρ) =
    answered? t) (u : Tid) : promisedAt (fun _ => answered?)
      (⟨s', g.threads.set tid ⟨t.call, pc'⟩, history⟩ : P.State ρ) u =
      promisedAt (fun _ => answered?) g u := by
  by_cases hEq : u = tid
  · rw [hEq, promisedAt_moved ht, hSame, promisedAt, ht]
    rfl
  · exact promisedAt_of_ne hEq

theorem lru_points (hOne : P.shardCount = 1) (hEv : P.ev = .evictLRU) (hMax : P.opts.maxKeys = n + 1)
    (hTtl : P.opts.keyTTL ≤ 0) : Points P.program (fun _ _ => True) (P.lruCache ρ (n + 1)) Thread.call
      (fun _ => answered?) (P.Simulates n) where
  init := .init hEv
  input_step tid choice s t s' t' hStep := by
    obtain ⟨pc', rfl, _⟩ := step_of_program hStep
    rfl
  finished tid choice s t o hResult := by
    obtain ⟨call, pc⟩ := t
    cases pc with
    | done outcome => rfl
    | _ => cases hResult
  result s t o hResult := by
    obtain ⟨call, pc⟩ := t
    cases pc with
    | done outcome => exact hResult
    | _ => cases hResult
  step g act g' cache hReach _ hNext hSim := by
    have hInv := inv hReach
    rcases next_cases hNext with ⟨call, _, rfl⟩ | ⟨tid, choice, t, s', pc', _, ht, hStep, rfl⟩
    · exact .inl ⟨hSim.start call, promisedAt_start rfl⟩
    · rcases hStep.phases hEv with ⟨hPc, rfl⟩ | ⟨hPhase, hPhase', _⟩ | ⟨hPc, r, rfl⟩ | ⟨outcome, hPc, rfl⟩
      · rw [hPc] at hStep
        cases hStep with
        | lock hFree =>
          refine .inl ⟨hSim.lock hOne hInv ht hFree, keep ht ?_⟩
          rw [answered?, answered?, hPc]
      · have hNext := hSim.caches hOne hEv hMax hTtl hInv ht hPhase hStep
        refine .inl ⟨hSim.work hOne hInv ht hPhase hPhase' hNext, keep ht ?_⟩
        rw [answered?_of_working hPhase]
        exact answered?_of_working hPhase'
      · have hPhase : phase t.pc = .working := by
          rw [hPc]
          rfl
        have hNext := hSim.caches hOne hEv hMax hTtl hInv ht hPhase hStep
        obtain ⟨hOutcome, hSim'⟩ := hSim.run hOne hInv ht hPhase hNext.2
        refine .inr ⟨tid, t, ht, answered?_of_working hPhase, ?_, hSim', fun u => promisedAt_of_ne⟩
        rw [promisedAt_moved ht]
        exact congrArg some hOutcome
      · rw [hPc] at hStep
        cases hStep with
        | unlock =>
          refine .inl ⟨hSim.unlock hOne hInv ht hPc, keep ht ?_⟩
          rw [answered?, answered?, hPc]

/-- With one shard and no TTL the store is a linearizable LRU cache: every
call succeeds, in an order that respects who returned before whom started,
and once the calls have returned the list of the shard is that of the cache. -/
theorem lru_linearizable (hOne : P.shardCount = 1) (hEv : P.ev = .evictLRU) {m : Nat} (hPos : 0 < m)
    (hMax : P.opts.maxKeys = m) (hTtl : P.opts.keyTTL ≤ 0) (hReach : P.program.Reachable g) :
    ∃ order : List (Tid × Call σ ρ), Linearization (P.lruCache ρ m) Thread.call g order ∧
      ((∀ t ∈ g.threads, ∃ outcome, t.pc = .done outcome) →
        (order.map Prod.fst).Perm (List.range g.threads.length) ∧
        (∀ i, P.keys g.shared i = ((P.lruCache ρ m).after (order.map Prod.snd)).map Prod.fst) ∧
        ∀ key, P.value g.shared key = ((P.lruCache ρ m).after (order.map Prod.snd)).lookup key) := by
  obtain ⟨n, rfl⟩ : ∃ n, m = n + 1 := ⟨m - 1, by omega⟩
  have hPoints := lru_points (ρ := ρ) hOne hEv (by exact_mod_cast hMax) hTtl
  obtain ⟨order, hOrder⟩ := hPoints.ordered hReach
  refine ⟨order, hOrder.linearization hPoints hReach, ?_⟩
  intro hDone
  have hCache := hOrder.rel.settled fun t ht => by
    obtain ⟨outcome, hPc⟩ := hDone t ht
    rw [hPc]
    nofun
  refine ⟨hOrder.perm ?_, fun i => (hCache i).keys, ?_⟩
  · intro t ht
    obtain ⟨outcome, hPc⟩ := hDone t ht
    exact ⟨outcome, by rw [answered?, hPc]⟩
  · intro key
    by_cases hMem : key ∈ ((P.lruCache ρ (n + 1)).after (order.map Prod.snd)).map Prod.fst
    · exact (hCache (P.shardFor key)).value key hMem
    · have hNone : P.value g.shared key = none := by
        rw [← Option.not_isSome_iff_eq_none, ← (inv hReach).good.stored_iff, Stored, (hCache _).keys]
        exact hMem
      rw [hNone]
      exact (held_of_new hMem).symm

/-- The calls of `abac` are started together and served in another order:
`b`, `a`, `c` and the second `a`, which finds itself still there. -/
def crossedRun : List (Act (Call Nat Nat) (List Key)) :=
  abac.map .start ++ steps 1 9 ++ steps 0 9 ++ steps 3 13 ++ steps 2 5

theorem lru_linearizable_crossedRun :
    let g := single.program.final (fun _ _ => True) crossedRun
    g.threads.map Thread.pc = [.done (.ok 0), .done (.ok 0), .done (.ok 1), .done (.ok 0)] ∧
    single.keys g.shared (single.shardFor [97]) = [[97], [99]] ∧
    ∃ order, Linearization (single.lruCache Nat 2) Thread.call g order := by
  refine ⟨by decide +kernel, by decide +kernel, ?_⟩
  obtain ⟨order, hOrder, _⟩ := lru_linearizable (P := single) (ρ := Nat) rfl rfl (by decide) rfl
    (by decide) (.final crossedRun (by decide +kernel))
  exact ⟨order, hOrder⟩

end Params

end Kaka.Memory
