import Kaka.Memory.LruAdmission

/-! # One `EvictLRU` shard is an LRU cache

With a single shard and no TTL the store refines the textbook cache: it holds
the keys of the most recent calls, as many as fit, and for each the state that
the last call on it has left.
-/

namespace Kaka.Memory

open Interleaving Recency

variable {σ ρ : Type}

namespace Params

/-! ## The cache -/

/-- The distinct keys called, by most recent call first, cut to `m`. -/
def cached (m : Nat) (calls : List (Call σ ρ)) : List Key :=
  (calls.map Call.key).dedup.reverse.take m

/-- The state that the last call on `key` has left; the calls are given latest first. -/
def left (P : Params σ) (m : Nat) : List (Call σ ρ) → Key → Option σ
  | [], _ => none
  | c :: earlier, key =>
    if key = c.key then
      let v := if (cached m earlier.reverse).contains c.key then
        (left P m earlier c.key).getD (P.create c.now) else P.create c.now
      some (c.fn v c.now).1
    else left P m earlier key

def received (P : Params σ) (m : Nat) (calls : List (Call σ ρ)) (c : Call σ ρ) : σ :=
  if (cached m calls).contains c.key then (left P m calls.reverse c.key).getD (P.create c.now)
  else P.create c.now

theorem cached_snoc (n : Nat) (calls : List (Call σ ρ)) (c : Call σ ρ) :
    cached (n + 1) (calls ++ [c]) =
      c.key :: ((cached (n + 1) calls).filter fun k => k ≠ c.key).take n := by
  have hNodup : (calls.map Call.key).dedup.reverse.Nodup := List.nodup_reverse.mpr (List.nodup_dedup _)
  rw [cached, List.map_append, List.map_singleton, dedup_concat, List.reverse_concat,
    List.take_succ_cons, ← List.filter_reverse, take_filter_ne hNodup, cached]

theorem left_snoc (P : Params σ) (m : Nat) (calls : List (Call σ ρ)) (c : Call σ ρ) (key : Key) :
    P.left m (calls ++ [c]).reverse key =
      if key = c.key then some (c.fn (P.received m calls c) c.now).1 else P.left m calls.reverse key := by
  rw [List.reverse_concat, left, List.reverse_reverse, received]

theorem received_eq (P : Params σ) (m : Nat) (calls : List (Call σ ρ)) (c : Call σ ρ) :
    P.received m calls c = if c.key ∈ cached m calls then
      (P.left m calls.reverse c.key).getD (P.create c.now) else P.create c.now := by
  simp only [received, List.contains_iff_mem]

/-! ## The store -/

/-- The shard holds `K`, with the states that `V` gives them. -/
structure Cache (P : Params σ) (i : Fin P.shardCount) (K : List Key) (V : Key → Option σ)
    (s : Store P.shardCount σ) : Prop where
  keys : P.keys s i = K
  value : ∀ key ∈ K, P.value s key = V key

def moved (n : Nat) (K : List Key) (c : Call σ ρ) : List Key :=
  c.key :: (K.filter fun k => k ≠ c.key).take n

/-- What holds at each place of a call on one shard that holds `K`, at most
`n + 1` keys; `v` is the state that the callback is to receive. -/
def Caches (P : Params σ) (n : Nat) (K : List Key) (V : Key → Option σ) (v : σ) (c : Call σ ρ)
    (s : Store P.shardCount σ) : Pc P.shardCount ρ → Prop
  | .lock | .lookup => P.Cache (P.self c) K V s
  | .expire todo .run => todo = [] ∧ c.key ∈ K ∧ P.Cache (P.self c) (moved n K c) V s
  | .expire todo .reserve => todo = [] ∧ c.key ∉ K ∧ P.Cache (P.self c) K V s
  | .reserve | .full _ => c.key ∉ K ∧ P.Cache (P.self c) K V s
  | .load _ => c.key ∉ K ∧ (P.Cache (P.self c) K V s ∨ P.Cache (P.self c) (K.take n) V s)
  | .evicted _ | .counted _ | .cas _ _ | .recheck => c.key ∉ K ∧ P.Cache (P.self c) (K.take n) V s
  | .run => P.Cache (P.self c) (moved n K c) (Function.update V c.key (some v)) s
  | .unlock outcome | .done outcome => outcome = .ok (c.fn v c.now).2 ∧
      P.Cache (P.self c) (moved n K c) (Function.update V c.key (some (c.fn v c.now).1)) s
  | _ => False

variable {P : Params σ} {tid : Tid} {choice : List Key} {s s' t : Store P.shardCount σ}
  {c : Call σ ρ} {pc pc' : Pc P.shardCount ρ} {K : List Key} {V : Key → Option σ}

theorem Cache.congr {i : Fin P.shardCount} (h : P.Cache i K V s) (hKeys : P.keys s' i = P.keys s i)
    (hValue : ∀ key, P.value s' key = P.value s key) : P.Cache i K V s' :=
  ⟨hKeys.trans h.keys, fun key hMem => (hValue key).trans (h.value key hMem)⟩

theorem moved_of_mem {n : Nat} (hLength : K.length ≤ n + 1) (hMem : c.key ∈ K) :
    moved n K c = c.key :: K.filter fun k => k ≠ c.key := by
  have hShorter : (K.filter fun k => k ≠ c.key).length < K.length :=
    List.length_filter_lt_length_iff_exists.mpr ⟨c.key, hMem, by simp⟩
  rw [moved, List.take_of_length_le (by omega)]

theorem total_one (hOne : P.shardCount = 1) (s : Store P.shardCount σ) (i : Fin P.shardCount) :
    P.total s = (P.keys s i).length := by
  have hSingle : ∀ j : Fin P.shardCount, j = i := fun j => by omega
  exact Fintype.sum_eq_single i fun j hNe => absurd (hSingle j) hNe

theorem keys_hit {sh : Shard σ} (hEv : P.ev = .evictLRU) (hGood : P.Good s)
    (hHit : (s.shards (P.self c)).hit P.ev c.key c.now = some sh) :
    sh.keys P.ev = c.key :: (P.keys s (P.self c)).filter fun k => k ≠ c.key := by
  rw [hEv] at hHit
  rw [keys_eq_stamps hEv, hEv, Shard.keys_eq_stamps, Shard.stamps_hit (hGood.wf _ hEv) hHit,
    List.map_cons, List.filter_map]
  rfl

section OneShard

variable {n : Nat} {v : σ}

theorem Cache.hit (h : P.Cache (P.self c) K V s) (hEv : P.ev = .evictLRU) (hGood : P.Good s)
    (hLength : K.length ≤ n + 1) {sh : Shard σ}
    (hHit : (s.shards (P.self c)).hit P.ev c.key c.now = some sh)
    (hKeys : P.keys s' (P.self c) = sh.keys P.ev) (hValue : ∀ key, P.value s' key = P.value s key) :
    c.key ∈ K ∧ P.Cache (P.self c) (moved n K c) V s' := by
  have hMem : c.key ∈ K := h.keys ▸ (Shard.hit_spec (hGood.wf _) hHit).2.2.1
  refine ⟨hMem, ?_, fun key hKey => ?_⟩
  · rw [hKeys, keys_hit hEv hGood hHit, h.keys, moved_of_mem hLength hMem]
  · rw [hValue]
    rw [moved_of_mem hLength hMem] at hKey
    rcases List.mem_cons.mp hKey with rfl | hRest
    · exact h.value _ hMem
    · exact h.value key (List.mem_filter.mp hRest).1

theorem Cache.ready (h : P.Cache (P.self c) (moved n K c) V s) (hGood : P.Good s)
    (hv : v = (V c.key).getD (P.create c.now)) :
    P.Cache (P.self c) (moved n K c) (Function.update V c.key (some v)) s := by
  have hFirst : c.key ∈ moved n K c := List.mem_cons_self
  have hStored : P.Stored s c.key := by
    rw [Stored, ← self, h.keys]
    exact hFirst
  obtain ⟨w, hw⟩ := Option.isSome_iff_exists.mp ((hGood.stored_iff c.key).mp hStored)
  refine ⟨h.keys, fun key hKey => ?_⟩
  by_cases hEq : key = c.key
  · have hOwn := h.value c.key hFirst
    rw [hEq, Function.update_self, hv, ← hOwn, hw]
    rfl
  · rw [Function.update_of_ne hEq]
    exact h.value key hKey

theorem Cache.evict (h : P.Cache (P.self c) K V s) (hGood : P.Good s) (hFull : K.length = n + 1) {w : Victim}
    (hKeys : P.keys s (P.self c) = P.keys s' (P.self c) ++ [w.key])
    (hValue : ∀ key, P.value s' key = if key = w.key then none else P.value s key) :
    P.Cache (P.self c) (K.take n) V s' := by
  have hSplit : K = P.keys s' (P.self c) ++ [w.key] := h.keys.symm.trans hKeys
  have hRest : K.take n = P.keys s' (P.self c) := by
    rw [hSplit, List.length_append, List.length_singleton] at hFull
    rw [hSplit, List.take_append_of_le_length (by omega), List.take_of_length_le (by omega)]
  refine ⟨hRest.symm, fun key hKey => ?_⟩
  have hNodup := Shard.keys_nodup (hGood.wf (P.self c))
  rw [show (s.shards (P.self c)).keys P.ev = K from h.keys, hSplit, List.nodup_append] at hNodup
  rw [hRest] at hKey
  rw [hValue, if_neg (hNodup.2.2 key hKey w.key List.mem_cons_self)]
  exact h.value key (hSplit ▸ List.mem_append_left _ hKey)

theorem Cache.create (h : P.Cache (P.self c) (K.take n) V s) (hEv : P.ev = .evictLRU) (hGood : P.Good s)
    (hNew : c.key ∉ K) (hv : v = P.create c.now) :
    P.Cache (P.self c) (moved n K c) (Function.update V c.key (some v)) (s.setShard (P.self c)
      ((s.shards (P.self c)).create P.ev c.key (P.create c.now) c.now)) := by
  have hMiss : ¬ P.Stored s c.key := by
    rw [Stored, ← self, h.keys]
    exact fun hMem => hNew (List.mem_of_mem_take hMem)
  have hValue := value_create hGood hMiss (P.create c.now) c.now
  have hKeys : ((s.shards (P.self c)).create P.ev c.key (P.create c.now) c.now).keys P.ev =
      c.key :: P.keys s (P.self c) := by
    rw [Params.keys, hEv]
    rfl
  refine ⟨?_, fun key hKey => ?_⟩
  · rw [keys_setShard, if_pos rfl, hKeys, h.keys, moved, filter_ne_self hNew]
  · rw [hValue]
    split
    · rename_i hEq
      rw [hEq, Function.update_self, hv]
    · rename_i hNe
      rw [moved, filter_ne_self hNew] at hKey
      rw [Function.update_of_ne hNe]
      exact h.value key ((List.mem_cons.mp hKey).resolve_left hNe)

theorem Cache.run (h : P.Cache (P.self c) (moved n K c) (Function.update V c.key (some v)) s)
    (hEv : P.ev = .evictLRU) (hGood : P.Good s) {e : σ × Int}
    (hPeek : (s.shards (P.self c)).peek P.ev c.key = some e) :
    e.1 = v ∧ P.Cache (P.self c) (moved n K c) (Function.update V c.key (some (c.fn e.1 c.now).1))
      (s.setShard (P.self c) ((s.shards (P.self c)).write P.ev c.key (c.fn e.1 c.now).1)) := by
  have hOwn := h.value c.key List.mem_cons_self
  rw [Function.update_self, Params.value, ← self, hPeek, Option.map_some] at hOwn
  have hKeys : ((s.shards (P.self c)).write P.ev c.key (c.fn e.1 c.now).1).keys P.ev =
      P.keys s (P.self c) := by
    rw [Params.keys, hEv, Shard.keys_eq_stamps, Shard.stamps_write, Shard.keys_eq_stamps]
  refine ⟨Option.some.inj hOwn, ?_, fun key hKey => ?_⟩
  · rw [keys_setShard, if_pos rfl, hKeys, h.keys]
  · rw [value_write hGood hPeek]
    split
    · rename_i hEq
      rw [hEq, Function.update_self]
    · rename_i hNe
      have hOther := h.value key hKey
      rwa [Function.update_of_ne hNe] at hOther ⊢

theorem Step.caches (h : P.Step tid choice s c pc s' pc') (hOne : P.shardCount = 1)
    (hEv : P.ev = .evictLRU) (hMax : P.opts.maxKeys = n + 1) (hTtl : P.opts.keyTTL ≤ 0)
    (hLength : K.length ≤ n + 1)
    (hv : v = if c.key ∈ K then (V c.key).getD (P.create c.now) else P.create c.now)
    (hSolo : P.Solo s c pc) (hKnows : P.Knows s c pc) (hCaches : P.Caches n K V v c s pc) :
    P.Caches n K V v c s' pc' := by
  have hGood := hSolo.good
  have hChange := h.change hGood hSolo.ok
  have hCount : debt pc = 0 → s.live = (P.keys s (P.self c)).length := by
    intro hDebt
    rw [hSolo.count, hDebt, total_one hOne s (P.self c), add_zero]
  cases h with
  | lock => exact Cache.congr hCaches (keys_mutex _ _ _) (hChange.value_eq rfl nofun nofun)
  | @hit sh hHit =>
    have hWF := (Shard.hit_spec (hGood.wf _) hHit).1
    refine ⟨cleanup_nothing choice hTtl hWF c.now, Cache.hit hCaches hEv hGood hLength hHit ?_
      (hChange.value_eq rfl nofun nofun)⟩
    rw [keys_setShard, if_pos rfl, (Shard.cleanup_scan P.opts choice hWF c.now).keys_eq]
  | miss hMiss =>
    refine ⟨cleanup_nothing choice hTtl (hGood.wf _) c.now, ?_,
      Cache.congr hCaches (keys_scan (hGood.wf _)) (hChange.value_eq rfl nofun nofun)⟩
    rw [← hCaches.keys]
    exact (Shard.hit_eq_none (hGood.wf _) c.key c.now).mp hMiss
  | @expireDone next =>
    cases next with
    | run =>
      rw [if_pos hCaches.2.1] at hv
      exact hCaches.2.2.ready hGood hv
    | reserve => exact hCaches.2
    | sweep i => exact hCaches.elim
  | @expireDrop w rest next | @expireSkip w rest next =>
    cases next with
    | run | reserve => cases hCaches.1
    | sweep i => exact hCaches.elim
  | reserveUnlimited hNone => omega
  | reserveLimited => exact ⟨hCaches.1, .inl hCaches.2⟩
  | loadRoom hRoom =>
    refine ⟨hCaches.1, ?_⟩
    rcases hCaches.2 with hAll | hCut
    · rw [hCount rfl, hAll.keys] at hRoom
      rwa [List.take_of_length_le (by omega)]
    · exact hCut
  | loadFull hFull =>
    -- after its eviction the call finds room
    refine ⟨hCaches.1, hCaches.2.resolve_right fun hCut => ?_⟩
    rw [hCount rfl, hCut.keys, List.length_take] at hFull
    omega
  | casWon => exact ⟨hCaches.1, hCaches.2.congr rfl fun _ => rfl⟩
  | casLost hLost => exact absurd hKnows hLost
  | @evictSelf swept w _ hTail =>
    -- the tail goes, which is what the cut to `n` keys leaves out
    have hFull := hKnows.1
    rw [hCount rfl, hCaches.2.keys] at hFull
    rw [hEv]
    refine ⟨hCaches.1, hCaches.2.evict hGood (by omega) (keys_tail hEv hTail) fun key => ?_⟩
    obtain ⟨hMem, hHolds⟩ := Shard.tail?_spec hTail
    rw [← hEv] at hMem hHolds ⊢
    rw [value_eq_entry, entry_drop hGood hMem hHolds]
    split <;> rfl
  | evictNone _ hTail =>
    have hFull := hKnows.1
    rw [hCount rfl, keys_of_tail hEv hTail, List.length_nil] at hFull
    omega
  | reject hReject | release hReject =>
    rw [hEv] at hReject
    cases hReject
  | evictCount => exact ⟨hCaches.1, hCaches.2.congr rfl fun _ => rfl⟩
  | @counted who =>
    have hCut : P.Cache (P.self c) (K.take n) V { s with evicts := s.evicts + 1 } :=
      hCaches.2.congr rfl fun _ => rfl
    cases who with
    | self swept => exact ⟨hCaches.1, .inr hCut⟩
    | other i =>
      -- there is no other shard
      have hNe : i ≠ P.self c := hSolo.ok.2.2
      exact absurd (by omega) hNe
  | recheckStored hHas =>
    have hMem := (Shard.has_iff (hGood.wf _) c.key).mp hHas
    rw [show (s.shards (P.self c)).keys P.ev = K.take n from hCaches.2.keys] at hMem
    exact absurd (List.mem_of_mem_take hMem) hCaches.1
  | recheckCreate =>
    rw [if_neg hCaches.1] at hv
    exact hCaches.2.create hEv hGood hCaches.1 hv
  | run hPeek =>
    obtain ⟨rfl, hNext⟩ := Cache.run hCaches hEv hGood hPeek
    exact ⟨rfl, hNext⟩
  | unlock =>
    exact ⟨hCaches.1, hCaches.2.congr (keys_mutex _ _ _) (hChange.value_eq rfl nofun nofun)⟩
  | _ => exact hCaches.elim

end OneShard

/-! ## Whole runs -/

/-- After `history` the list of the shard, and the next call. -/
structure IsLru (P : Params σ) (m : Nat) (history : List (Call σ ρ × Outcome ρ))
    (s : Store P.shardCount σ) : Prop where
  order : ∀ i, P.keys s i = cached m (history.map Prod.fst)
  succeeds : ∀ c : Call σ ρ,
    Inevitable (P.Moves history.length c) (fun x => ∃ r, x.2 = .done (.ok r)) (s, .lock)
  receives : ∀ (c : Call σ ρ) t, P.Alone history.length c (s, .lock) (t, .run) →
    P.value t c.key = some (P.received m (history.map Prod.fst) c)
  returns : ∀ (c : Call σ ρ) s' outcome, P.Returns history.length c s s' outcome →
    outcome = .ok (c.fn (P.received m (history.map Prod.fst) c) c.now).2

section Runs

variable {n : Nat} {history : List (Call σ ρ × Outcome ρ)}

theorem Serial.caches (h : P.Serial history s) (hOne : P.shardCount = 1) (hEv : P.ev = .evictLRU)
    (hMax : P.opts.maxKeys = n + 1) (hTtl : P.opts.keyTTL ≤ 0) {calls : List (Call σ ρ)}
    (hStart : P.Cache (P.self c) (cached (n + 1) calls) (P.left (n + 1) calls.reverse) s)
    (hAlone : P.Alone history.length c (s, .lock) (t, pc)) :
    P.Caches n (cached (n + 1) calls) (P.left (n + 1) calls.reverse) (P.received (n + 1) calls c)
      c t pc :=
  h.invariant (I := fun t pc => P.Caches n _ _ (P.received (n + 1) calls c) c t pc)
    (fun _ _ _ _ _ hSolo hKnows hCaches hStep => hStep.caches hOne hEv hMax hTtl
      (List.length_take_le _ _) (P.received_eq (n + 1) calls c) hSolo hKnows hCaches) .refl hAlone hStart

theorem Serial.cache (h : P.Serial history s) (hOne : P.shardCount = 1) (hEv : P.ev = .evictLRU)
    (hMax : P.opts.maxKeys = n + 1) (hTtl : P.opts.keyTTL ≤ 0) (i : Fin P.shardCount) :
    P.Cache i (cached (n + 1) (history.map Prod.fst))
      (P.left (n + 1) (history.map Prod.fst).reverse) s := by
  induction h with
  | nil => exact ⟨keys_eq_stamps hEv _ i, nofun⟩
  | @snoc history s last s' outcome hBefore hReturns ih =>
    obtain rfl : i = P.self last := by omega
    obtain ⟨-, hLast⟩ := hBefore.caches hOne hEv hMax hTtl ih hReturns
    rw [List.map_append, List.map_singleton]
    refine ⟨?_, fun key hKey => ?_⟩
    · rw [cached_snoc]
      exact hLast.keys
    · rw [cached_snoc] at hKey
      rw [left_snoc, hLast.value key hKey, Function.update_apply]

end Runs

/-- The store is the textbook LRU cache of its calls, whatever the calls are. -/
theorem textbook_lru (P : Params σ) (hOne : P.shardCount = 1) (hEv : P.ev = .evictLRU) (m : Nat)
    (hPos : 0 < m) (hMax : P.opts.maxKeys = m) (hTtl : P.opts.keyTTL = 0) (calls : List (Call σ ρ)) :
    (∃ history s, P.Serial history s ∧ history.map Prod.fst = calls) ∧
      ∀ history s, P.Serial history s → history.map Prod.fst = calls → P.IsLru m history s := by
  refine ⟨exists_serial P calls, ?_⟩
  rintro history s hSerial -
  cases m with
  | zero => cases hPos
  | succ n =>
    have hMax' : P.opts.maxKeys = n + 1 := by exact_mod_cast hMax
    have hCache := hSerial.cache hOne hEv hMax' hTtl.le
    have hCaches : ∀ (c : Call σ ρ) t pc, P.Alone history.length c (s, .lock) (t, pc) →
        P.Caches n _ _ (P.received (n + 1) (history.map Prod.fst) c) c t pc :=
      fun c t pc => hSerial.caches hOne hEv hMax' hTtl.le (hCache (P.self c))
    refine ⟨fun i => (hCache i).keys, fun c => ?_, fun c t hRun => ?_, fun c s' outcome hReturns => ?_⟩
    · refine (hSerial.inevitable c).mono_run ?_
      rintro ⟨t, pc⟩ hRun ⟨outcome, rfl⟩
      exact ⟨_, congrArg Pc.done (hCaches c t _ hRun).1⟩
    · have hReady := (hCaches c t _ hRun).value c.key List.mem_cons_self
      rwa [Function.update_self] at hReady
    · exact (hCaches c s' _ hReturns).1

def single : Params Nat where
  opts := { maxKeys := 2, eviction := .evictLRU }
  shardCount := 1
  power := one_shard
  create _ := 0

/-- `a` is called again before `c` comes, so `b` is the key that goes. -/
def abac : List (Call Nat Nat) := [demoCall 97 5, demoCall 98 6, demoCall 97 7, demoCall 99 8]

theorem textbook_lru_abac : cached 2 abac = [[99], [97]] ∧
    ∃ history s, single.Serial history s ∧ history.map Prod.fst = abac ∧ single.IsLru 2 history s := by
  obtain ⟨⟨history, s, hSerial, hCalls⟩, hLru⟩ := textbook_lru single rfl rfl 2 (by decide) rfl rfl abac
  exact ⟨by decide, history, s, hSerial, hCalls, hLru history s hSerial hCalls⟩

end Params

end Kaka.Memory
