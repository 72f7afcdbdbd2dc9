import Kaka.Memory.StoreInvariant
import Mathlib.Algebra.BigOperators.Fin

/-! # The store's representation under concurrency

`live` counts the stored keys, the slots reserved and not yet used or
given back, and the entries deleted and not yet subtracted. The statement
is about every state that any interleaving of calls reaches.
-/

namespace Kaka.Memory

open Interleaving

variable {σ ρ : Type}

namespace Params

variable (P : Params σ)

/-- The number of stored keys over all shards. -/
def total (s : Store P.shardCount σ) : Nat := ∑ i, (P.keys s i).length

def len (s : Store P.shardCount σ) : Int := s.live

structure Inv (g : P.State ρ) : Prop where
  locks : Discipline g
  good : P.Good g.shared
  ok : ∀ (tid : Tid) (t : Thread P.shardCount σ ρ), g.threads[tid]? = some t →
    P.PcOk g.shared t.call t.pc
  count : g.shared.live = P.total g.shared + (g.threads.map fun t => debt t.pc).sum
  cap : 0 < P.opts.maxKeys → g.shared.live ≤ P.opts.maxKeys

variable {P} {tid : Tid} {choice : List Key} {s s' : Store P.shardCount σ} {c : Call σ ρ}
  {pc pc' : Pc P.shardCount ρ}

/-! ## One step -/

theorem total_congr (hKeys : ∀ i, (P.keys s' i).Perm (P.keys s i)) : P.total s' = P.total s :=
  Finset.sum_congr rfl fun i _ => (hKeys i).length_eq

theorem total_cons {i : Fin P.shardCount} {key : Key}
    (hKeys : ∀ j, (P.keys s' j).Perm (if j = i then key :: P.keys s j else P.keys s j)) :
    P.total s' = P.total s + 1 := by
  have hLength : ∀ j, (P.keys s' j).length = (P.keys s j).length + if j = i then 1 else 0 := by
    intro j
    rw [(hKeys j).length_eq]
    split <;> rfl
  simp only [total, hLength, Finset.sum_add_distrib, Finset.sum_ite_eq', Finset.mem_univ, if_true]

theorem Change.count (h : P.Change c s s' pc pc') :
    s'.live - s.live = P.total s' + debt pc' - (P.total s + debt pc) := by
  cases h with
  | keep hKeys _ hLive =>
    rw [total_congr hKeys, hLive]
    omega
  | create _ hKeys _ hLive =>
    rw [total_cons hKeys, hLive]
    simp [debt, reserved, deleted]
  | drop i v _ hKeys _ hLive hDebt =>
    have hTotal := total_cons hKeys
    omega
  | run _ hKeys _ hLive =>
    rw [total_congr hKeys, hLive]
    simp [debt, reserved, deleted]

theorem Step.cap (h : P.Step tid choice s c pc s' pc') (hOk : P.PcOk s c pc)
    (hMax : 0 < P.opts.maxKeys) (hCap : s.live ≤ P.opts.maxKeys) : s'.live ≤ P.opts.maxKeys := by
  cases h with
  | reserveUnlimited hNone => omega
  | casWon =>
    have hRoom : s.live < P.opts.maxKeys := hOk.2.2
    simp only [Store.addLive_live]
    omega
  | expireCount | evictCount | giveBack =>
    simp only [Store.addLive_live]
    omega
  | _ => exact hCap

/-! ## Every reachable state -/

theorem Inv.init : P.Inv (P.program.initial : P.State ρ) where
  locks := .init
  good := ⟨fun _ => Shard.wf_new, fun _ key hMem => by
    simp [keys, Program.initial, program, newShardedStoreWithShards] at hMem⟩
  ok := by simp [Program.initial]
  count := by
    simp [Program.initial, program, newShardedStoreWithShards, total, keys]
  cap hMax := hMax.le

theorem Inv.next {g g' : P.State ρ} {a : Act (Call σ ρ) (List Key)} (h : P.Inv g)
    (hNext : P.program.next g a = some g') : P.Inv g' := by
  have hLocks := h.locks.next hNext
  rcases next_cases hNext with ⟨call, _, rfl⟩ | ⟨tid, choice, t, s', pc', _, ht, hStep, rfl⟩
  · refine ⟨hLocks, h.good, ?_, ?_, h.cap⟩
    · intro u x hx
      rcases getElem?_snoc_cases hx with ⟨_, rfl⟩ | hx
      · trivial
      · exact h.ok u x hx
    · rw [h.count]
      simp [debt, reserved, deleted]
  · have hOk := h.ok tid t ht
    refine ⟨hLocks, hStep.good h.good hOk, ?_, ?_, fun hMax => hStep.cap hOk hMax (h.cap hMax)⟩
    · intro u x hx
      rcases getElem?_set_cases hx ht with ⟨_, rfl⟩ | ⟨hNe, hx⟩
      · exact hStep.ok h.good hOk
      · -- the others know only about the shards they hold
        exact (h.ok u x hx).congr fun i hHolds => h.locks.frame ht hx hNe hStep hHolds
    · have hCount := (hStep.change h.good hOk).count
      have hBefore := h.count
      rw [sum_map_set (fun t => debt t.pc) ht]
      simp only
      omega

theorem inv {g : P.State ρ} (hReach : P.program.Reachable g) : P.Inv g :=
  hReach.invariant .init fun _ _ _ _ h _ hNext => h.next hNext

theorem sum_debt (threads : List (Thread P.shardCount σ ρ)) :
    (threads.map fun t => debt t.pc).sum =
      (threads.countP fun t => reserved t.pc) + (threads.countP fun t => deleted t.pc) := by
  induction threads with
  | nil => rfl
  | cons t threads ih =>
    rw [List.map_cons, List.sum_cons, ih, List.countP_cons, List.countP_cons]
    simp only [debt]
    cases reserved t.pc <;> cases deleted t.pc <;> simp <;> omega

/-- The representation of the keys by the counter, the shards and, under
`EvictLRU`, the index and the recency list. -/
structure Representation (g : P.State ρ) : Prop where
  live : g.shared.live = P.total g.shared + (g.threads.countP fun t => reserved t.pc) +
    (g.threads.countP fun t => deleted t.pc)
  cap : 0 < P.opts.maxKeys → (P.total g.shared : Int) ≤ P.opts.maxKeys
  quiet : (∀ t ∈ g.threads, ∃ outcome, t.pc = .done outcome) → P.len g.shared = P.total g.shared
  once : ∀ i, (P.keys g.shared i).Nodup
  shard : ∀ i, ∀ key ∈ P.keys g.shared i,
    i.val = (fnv1a64 key &&& UInt64.ofNat (P.shardCount - 1)).toNat
  order : P.ev = .evictLRU → ∀ i,
    (g.shared.shards i).orderItems.keys.Perm ((g.shared.shards i).order.elems.map fun x => x.2.key) ∧
    ((g.shared.shards i).order.elems.map fun x => x.2.key).Nodup ∧
    ∀ key elem, (g.shared.shards i).orderItems.lookup key = some elem ↔
      ∃ entry, (elem, entry) ∈ (g.shared.shards i).order.elems ∧ entry.key = key

theorem representation {g : P.State ρ} (hReach : P.program.Reachable g) : Representation g := by
  have h := inv hReach
  have hCount := h.count
  rw [sum_debt] at hCount
  refine ⟨by omega, ?_, ?_, ?_, ?_, ?_⟩
  · intro hMax
    have hCap := h.cap hMax
    omega
  · intro hDone
    have hNone : ∀ p : Pc P.shardCount ρ → Bool, (∀ o, p (.done o) = false) →
        (g.threads.countP fun t => p t.pc) = 0 := by
      intro p hp
      rw [List.countP_eq_zero]
      intro t ht
      obtain ⟨outcome, hPc⟩ := hDone t ht
      simp [hPc, hp]
    rw [hNone reserved fun _ => rfl, hNone deleted fun _ => rfl] at hCount
    simpa [len] using hCount
  · exact fun i => Shard.keys_nodup (h.good.wf i)
  · intro i key hMem
    rw [← h.good.placed i key hMem]
    rfl
  · intro hEv i
    have hLinked := h.good.wf i hEv
    exact ⟨hLinked.perm, hLinked.nodup, hLinked.index⟩

theorem one_shard : ∃ k, 1 = 2 ^ k := ⟨0, rfl⟩

theorem two_shards : ∃ k, 2 = 2 ^ k := ⟨1, rfl⟩

/-- Two shards and room for one key. -/
def demo (ev : EvictionPolicy) : Params Nat where
  opts := { maxKeys := 1, eviction := ev }
  shardCount := 2
  power := two_shards
  create _ := 0

def demoCall (key : UInt8) (now : Int) : Call Nat Nat := ⟨[key], now, fun v _ => (v + 1, v)⟩

def steps {ι : Type} (tid : Tid) (n : Nat) : List (Act ι (List Key)) :=
  List.replicate n (.step tid [])

/-- The first call is done; the second has evicted its key and not yet
subtracted it from `live`. -/
def demoRun : List (Act (Call Nat Nat) (List Key)) :=
  [.start (demoCall 97 5), .start (demoCall 98 5)] ++ steps 0 9 ++
    steps 1 10

theorem representation_demoRun :
    Representation ((demo .evictLRU).program.final (fun _ _ => True) demoRun) :=
  representation (.final demoRun (by decide +kernel))

end Params

end Kaka.Memory
