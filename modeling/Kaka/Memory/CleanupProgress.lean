import Kaka.Memory.KeyHistory
import Kaka.Memory.LruOrder

/-! # What a cleanup pass of an `EvictLRU` shard reaches

`cleanupLRU` scans the list from the front, where the keys of the most recent
calls are.  A pass removes an expired key if and only if fewer keys than it
scans are still active.
-/

namespace Kaka.Memory

open Interleaving Recency

variable {σ ρ : Type}

namespace Shard

variable {sh : Shard σ} {opts : Options} {now : Int}

/-! ## One pass -/

def expireAll (ev : EvictionPolicy) (sh : Shard σ) : List Victim → Shard σ
  | [] => sh
  | v :: rest => if sh.has ev v.key then (sh.drop ev v).expireAll ev rest else sh.expireAll ev rest

/-- The whole of `cleanupLRU`, less its count of the keys removed. -/
def passLRU (opts : Options) (sh : Shard σ) (now : Int) : Shard σ :=
  (sh.cleanupLRU opts now).1.expireAll .evictLRU (sh.cleanupLRU opts now).2

theorem stamps_expireAll {todo : List Victim} (hLinked : sh.Linked)
    (hHolds : ∀ v ∈ todo, sh.Holds .evictLRU v) (hNodup : (todo.map Victim.key).Nodup) :
    (sh.expireAll .evictLRU todo).stamps =
      sh.stamps.filter fun x => x.1 ∉ todo.map Victim.key := by
  induction todo generalizing sh with
  | nil => simp [expireAll]
  | cons v rest ih =>
    obtain ⟨hNew, hRest⟩ := List.nodup_cons.mp hNodup
    have hv := hHolds v List.mem_cons_self
    obtain ⟨entry, hMem, hKey⟩ := hv rfl
    have hHas : sh.has .evictLRU v.key = true := by
      rw [has_iff (fun _ => hLinked)]
      exact List.mem_map.mpr ⟨_, hMem, hKey⟩
    have hOthers : ∀ w ∈ rest, (sh.drop .evictLRU v).Holds .evictLRU w := fun w hw =>
      drop_holds hv (hHolds w (List.mem_cons_of_mem _ hw)) fun hEq =>
        hNew (List.mem_map.mpr ⟨w, hw, hEq⟩)
    rw [expireAll, if_pos hHas, ih (hLinked.drop_linked (hv rfl)) hOthers hRest,
      stamps_drop hLinked hv, List.filter_filter]
    refine List.filter_congr fun x _ => ?_
    simp only [List.map_cons, List.mem_cons, not_or, Bool.decide_and, Bool.and_comm]

theorem keys_victims (hTtl : 0 < opts.keyTTL) (hInterval : 0 < opts.cleanupInterval)
    (hDue : opts.cleanupInterval ≤ sub now sh.lastCleanup) :
    (sh.cleanupLRU opts now).2.map Victim.key =
      ((sh.stamps.take cleanupBatchSize).filter fun x => opts.keyTTL ≤ sub now x.2).map Prod.fst := by
  rw [cleanupLRU, if_neg (by omega), if_neg (by omega),
    map_key_victims fun x => opts.keyTTL ≤ sub now x.2.lastSeen, stamps, ← List.map_take,
    List.filter_map, List.map_map]
  rfl

theorem removes_iff (hLinked : sh.Linked) (hEv : opts.eviction = .evictLRU) (hTtl : 0 < opts.keyTTL)
    (hInterval : 0 < opts.cleanupInterval) (hDue : opts.cleanupInterval ≤ sub now sh.lastCleanup) :
    (∃ x ∈ sh.stamps, opts.keyTTL ≤ sub now x.2 ∧ x.1 ∉ (sh.passLRU opts now).keys .evictLRU) ↔
      ∃ x ∈ sh.stamps.take cleanupBatchSize, opts.keyTTL ≤ sub now x.2 := by
  have hScan := cleanupLRU_scan hEv hLinked now
  have hStamps : (sh.passLRU opts now).stamps =
      sh.stamps.filter fun x => x.1 ∉ (sh.cleanupLRU opts now).2.map Victim.key := by
    have hSame : (sh.cleanupLRU opts now).1.stamps = sh.stamps := by rw [stamps, hScan.order, stamps]
    rw [← hSame]
    refine stamps_expireAll (hScan.wf (fun _ => hLinked) rfl) (fun v hv => ?_) hScan.nodup
    rw [← hEv]
    exact hScan.holds' hv
  rw [keys_victims hTtl hInterval hDue] at hStamps
  rw [keys_eq_stamps, hStamps]
  constructor
  · rintro ⟨x, hx, _, hGone⟩
    by_contra hNone
    refine hGone (List.mem_map_of_mem (List.mem_filter.mpr ⟨hx, decide_eq_true fun hVictim => ?_⟩))
    obtain ⟨y, hy, _⟩ := List.mem_map.mp hVictim
    obtain ⟨hScanned, hIdle⟩ := List.mem_filter.mp hy
    exact hNone ⟨y, hScanned, of_decide_eq_true hIdle⟩
  · rintro ⟨x, hScanned, hIdle⟩
    refine ⟨x, List.mem_of_mem_take hScanned, hIdle, fun hKept => ?_⟩
    obtain ⟨y, hy, hKey⟩ := List.mem_map.mp hKept
    have hVictim := of_decide_eq_true (List.mem_filter.mp hy).2
    rw [hKey] at hVictim
    exact hVictim (List.mem_map_of_mem (List.mem_filter.mpr ⟨hScanned, decide_eq_true hIdle⟩))

theorem victims_eq_nil (hYoung : ∀ x ∈ sh.stamps, sub now x.2 < opts.keyTTL) :
    (sh.cleanupLRU opts now).2 = [] := by
  rw [cleanupLRU]
  split
  · rfl
  · split
    · rfl
    · rw [List.filterMap_eq_nil_iff]
      intro x hx
      exact if_neg (not_le.mpr (hYoung _ (List.mem_map_of_mem (List.mem_of_mem_take hx))))

theorem lastCleanup_hit {ev : EvictionPolicy} {key : Key} {sh' : Shard σ}
    (hHit : sh.hit ev key now = some sh') : sh'.lastCleanup = sh.lastCleanup := by
  cases ev with
  | evictReject =>
    simp only [hit, hitMap] at hHit
    split at hHit <;> cases hHit
    rfl
  | evictLRU =>
    simp only [hit, hitLRU] at hHit
    split at hHit <;> cases hHit
    rfl

theorem lastCleanup_create (ev : EvictionPolicy) (sh : Shard σ) (key : Key) (value : σ) (now : Int) :
    (sh.create ev key value now).lastCleanup = sh.lastCleanup := by
  cases ev <;> rfl

theorem lastCleanup_write (ev : EvictionPolicy) (sh : Shard σ) (key : Key) (value : σ) :
    (sh.write ev key value).lastCleanup = sh.lastCleanup := by
  cases ev <;> simp only [write] <;> split <;> rfl

theorem lastCleanup_drop (ev : EvictionPolicy) (sh : Shard σ) (v : Victim) :
    (sh.drop ev v).lastCleanup = sh.lastCleanup := by
  cases ev <;> rfl

end Shard

namespace Params

variable {P : Params σ} {tid : Tid} {s t : Store P.shardCount σ} {c : Call σ ρ}
  {pc : Pc P.shardCount ρ} {i : Fin P.shardCount}

/-! ## The passes of a call -/

theorem inevitable_of_advance {Q : Store P.shardCount σ × Pc P.shardCount ρ → Prop}
    {y : Store P.shardCount σ × Pc P.shardCount ρ}
    (hStep : ∀ choice, P.advance tid choice s c pc = some y) (hNext : Inevitable (P.Moves tid c) Q y) :
    Inevitable (P.Moves tid c) Q (s, pc) := by
  refine .next ⟨y, [], hStep []⟩ ?_
  rintro z ⟨choice, hz⟩
  rw [hStep choice] at hz
  cases hz
  exact hNext

theorem inevitable_expireAll (tid : Tid) (c : Call σ ρ) (next : After P.shardCount)
    (todo : List Victim) (s : Store P.shardCount σ) :
    Inevitable (P.Moves tid c) (fun x => x.2 = next.pc ∧ x.1.shards (next.shard (P.self c)) =
      (s.shards (next.shard (P.self c))).expireAll P.ev todo) (s, .expire todo next) := by
  induction todo generalizing s with
  | nil => exact inevitable_of_advance (fun _ => rfl) (.here ⟨rfl, rfl⟩)
  | cons v rest ih =>
    by_cases hHas : (s.shards (next.shard (P.self c))).has P.ev v.key = true
    · refine inevitable_of_advance (fun choice => Step.advance (.expireDrop hHas)) ?_
      refine inevitable_of_advance (fun choice => Step.advance .expireCount) ?_
      have hRest := ih ((s.setShard (next.shard (P.self c))
        ((s.shards (next.shard (P.self c))).drop P.ev v)).addLive (-1))
      rw [Store.addLive_shards, Store.setShard_self] at hRest
      rwa [Shard.expireAll, if_pos hHas]
    · refine inevitable_of_advance (fun choice => Step.advance (.expireSkip (by simpa using hHas))) ?_
      rw [Shard.expireAll, if_neg hHas]
      exact ih s

theorem cleanup_eq (hEv : P.ev = .evictLRU) (sh : Shard σ) (choice : List Key) (now : Int) :
    sh.cleanup P.opts choice now = sh.cleanupLRU P.opts now := by
  rw [Shard.cleanup, show P.opts.eviction = .evictLRU from hEv]

theorem inevitable_passLRU (hEv : P.ev = .evictLRU) (tid : Tid) (c : Call σ ρ)
    (next : After P.shardCount) (sh : Shard σ) (s : Store P.shardCount σ) :
    Inevitable (P.Moves tid c) (fun x => x.2 = next.pc ∧
      x.1.shards (next.shard (P.self c)) = sh.passLRU P.opts c.now)
      (s.setShard (next.shard (P.self c)) (sh.cleanupLRU P.opts c.now).1,
        .expire (sh.cleanupLRU P.opts c.now).2 next) := by
  have hLoop := inevitable_expireAll tid c next (sh.cleanupLRU P.opts c.now).2
    (s.setShard (next.shard (P.self c)) (sh.cleanupLRU P.opts c.now).1)
  rwa [Store.setShard_self, hEv] at hLoop

/-- The passes of a call: on its own shard after a hit or a miss, and those of
a sweep. -/
theorem inevitable_passes (hEv : P.ev = .evictLRU) (tid : Tid) (c : Call σ ρ)
    (s : Store P.shardCount σ) :
    (∀ sh, (s.shards (P.self c)).hit P.ev c.key c.now = some sh →
      Inevitable (P.Moves tid c) (fun x => x.2 = .run ∧
        x.1.shards (P.self c) = sh.passLRU P.opts c.now) (s, .lookup)) ∧
    ((s.shards (P.self c)).hit P.ev c.key c.now = none →
      Inevitable (P.Moves tid c) (fun x => x.2 = .reserve ∧
        x.1.shards (P.self c) = (s.shards (P.self c)).passLRU P.opts c.now) (s, .lookup)) ∧
    ∀ i, Inevitable (P.Moves tid c) (fun x => x.2 = .sweepUnlock i ∧
        x.1.shards i = (s.shards i).passLRU P.opts c.now) (s, .sweepScan i) := by
  refine ⟨fun sh hHit => ?_, fun hMiss => ?_, fun i => ?_⟩
  · refine inevitable_of_advance (fun choice => ?_) (inevitable_passLRU hEv tid c .run sh s)
    rw [← cleanup_eq hEv sh choice]
    exact Step.advance (.hit hHit)
  · refine inevitable_of_advance (fun choice => ?_) (inevitable_passLRU hEv tid c .reserve _ s)
    rw [← cleanup_eq hEv _ choice]
    exact Step.advance (.miss hMiss)
  · refine inevitable_of_advance (fun choice => ?_) (inevitable_passLRU hEv tid c (.sweep i) _ s)
    rw [← cleanup_eq hEv _ choice]
    exact Step.advance .sweepScan

/-! ## Whole runs -/

variable {history : List (Call σ ρ × Outcome ρ)}

def times (history : List (Call σ ρ × Outcome ρ)) : List Int := history.map fun x => x.1.now

/-- A shard as a pass of the call `c` finds it: the shard of the store, or
with the key of the call moved to the front. -/
def Finds (P : Params σ) (c : Call σ ρ) (t : Store P.shardCount σ) (i : Fin P.shardCount)
    (sh : Shard σ) : Prop :=
  sh = t.shards i ∨ i = P.self c ∧ (t.shards i).hit P.ev c.key c.now = some sh

theorem Serial.latest_first (hEv : P.ev = .evictLRU) (h : P.Serial history s)
    (hTimes : (times history ++ [c.now]).Pairwise (· ≤ ·))
    (hAlone : P.Alone history.length c (s, .lock) (t, pc)) (hPc : pc.accessed = false) {sh : Shard σ}
    (hFinds : P.Finds c t i sh) : sh.stamps.Pairwise fun x y => y.2 ≤ x.2 := by
  have hShown := h.sublist_alone hEv (h.sublist hEv) hAlone i
  rw [seen, hPc, if_neg Bool.false_ne_true] at hShown
  have hLog := hShown.trans (recent_sublist (log history))
  obtain ⟨hBefore, -, hLast⟩ := List.pairwise_append.mp hTimes
  have hOrder : (t.shards i).stamps.Pairwise fun x y => y.2 ≤ x.2 := by
    refine List.Pairwise.sublist hLog (List.pairwise_reverse.mpr ?_)
    rw [log, List.pairwise_map]
    exact List.pairwise_map.mp hBefore
  rcases hFinds with rfl | ⟨rfl, hHit⟩
  · exact hOrder
  · rw [hEv] at hHit
    rw [Shard.stamps_hit ((h.solo hAlone).good.wf _ hEv) hHit, List.pairwise_cons]
    refine ⟨fun x hx => ?_, hOrder.filter _⟩
    obtain ⟨y, hy, rfl⟩ := List.mem_map.mp (List.mem_reverse.mp (hLog.subset (List.mem_filter.mp hx).1))
    exact hLast _ (List.mem_map_of_mem hy) _ List.mem_cons_self

theorem Finds.linked (hEv : P.ev = .evictLRU) (hGood : P.Good t) {sh : Shard σ}
    (hFinds : P.Finds c t i sh) : sh.Linked := by
  rcases hFinds with rfl | ⟨rfl, hHit⟩
  · exact hGood.wf i hEv
  · exact (Shard.hit_spec (hGood.wf _) hHit).1 hEv

/-- A pass that is due, with an expired key in the shard, removes one if and
only if fewer than `cleanupBatchSize` keys of the shard are active. -/
theorem cleanup_progress_iff (P : Params σ) (hEv : P.ev = .evictLRU) (hTtl : 0 < P.opts.keyTTL)
    (hInterval : 0 < P.opts.cleanupInterval) (history : List (Call σ ρ × Outcome ρ))
    (s : Store P.shardCount σ) (h : P.Serial history s) (c : Call σ ρ)
    (hTimes : (times history ++ [c.now]).Pairwise (· ≤ ·))
    (t : Store P.shardCount σ) (pc : Pc P.shardCount ρ)
    (hAlone : P.Alone history.length c (s, .lock) (t, pc)) (hPc : pc.accessed = false)
    (i : Fin P.shardCount) (sh : Shard σ) (hFinds : P.Finds c t i sh)
    (hDue : P.opts.cleanupInterval ≤ sub c.now sh.lastCleanup)
    (hIdle : ∃ x ∈ sh.stamps, P.opts.keyTTL ≤ sub c.now x.2) :
    (∃ x ∈ sh.stamps, P.opts.keyTTL ≤ sub c.now x.2 ∧
        x.1 ∉ (sh.passLRU P.opts c.now).keys .evictLRU) ↔
      (sh.stamps.filter fun x => sub c.now x.2 < P.opts.keyTTL).length < cleanupBatchSize := by
  -- what has expired stands behind all that is active
  have hOlder : sh.stamps.Pairwise fun x y =>
      P.opts.keyTTL ≤ sub c.now x.2 → P.opts.keyTTL ≤ sub c.now y.2 :=
    (h.latest_first hEv hTimes hAlone hPc hFinds).imp fun hTime hLong =>
      hLong.trans (sub_le_sub_right hTime c.now)
  rw [Shard.removes_iff (hFinds.linked hEv (h.solo hAlone).good) hEv hTtl hInterval hDue,
    exists_mem_take_iff hOlder hIdle]
  simp only [not_le]

/-! ## Runs that remove nothing -/

def shown (P : Params σ) (history : List (Call σ ρ × Outcome ρ)) (c : Call σ ρ)
    (pc : Pc P.shardCount ρ) (i : Fin P.shardCount) : List (Key × Int) :=
  (recent (seen history c pc)).filter fun x => P.shardFor x.1 = i

theorem Reorder.exact {s' : Store P.shardCount σ} {pc' : Pc P.shardCount ρ}
    (h : Reorder P c s s' pc pc') (hKept : deleted pc' = false)
    (hBefore : ∀ i, P.stamps s i = P.shown history c pc i) (i : Fin P.shardCount) :
    P.stamps s' i = P.shown history c pc' i := by
  cases h with
  | keep hPc hStamps => rw [hStamps, hBefore, shown, shown, seen, seen, hPc]
  | drop _ hDeleted =>
    rw [hKept] at hDeleted
    cases hDeleted
  | access hPc hPc' hStamps =>
    have hOld := hBefore i
    rw [shown, seen, hPc, if_neg Bool.false_ne_true] at hOld
    rw [hStamps, hOld, shown, seen, hPc', if_pos rfl, recent_snoc, List.filter_cons, List.filter_comm]
    by_cases hSelf : i = P.self c
    · rw [if_pos hSelf, if_pos (decide_eq_true hSelf.symm)]
    · rw [if_neg hSelf, if_neg (by simpa using Ne.symm hSelf), List.filter_filter]
      refine List.filter_congr fun x _ => ?_
      -- the key of the call is in no other shard
      have hOther : P.shardFor x.1 = i → x.1 ≠ c.key := fun hShard hKey =>
        hSelf (hShard.symm.trans (congrArg P.shardFor hKey))
      simpa using hOther

theorem Serial.stamps_eq_alone (hEv : P.ev = .evictLRU) (hMax : P.opts.maxKeys ≤ 0)
    (hTtl : 0 < P.opts.keyTTL) (h : P.Serial history s)
    (hYoung : ∀ x ∈ history, sub c.now x.1.now < P.opts.keyTTL)
    (hStart : ∀ i, P.stamps s i = P.shown history c .lock i)
    (hAlone : P.Alone history.length c (s, .lock) (t, pc)) (i : Fin P.shardCount) :
    P.stamps t i = P.shown history c pc i := by
  have hSeen : ∀ pc : Pc P.shardCount ρ, ∀ x ∈ seen history c pc, sub c.now x.2 < P.opts.keyTTL := by
    intro pc x hx
    have hLog : ∀ x ∈ log history, sub c.now x.2 < P.opts.keyTTL := by
      intro x hx
      obtain ⟨y, hy, rfl⟩ := List.mem_map.mp hx
      exact hYoung y hy
    rw [seen] at hx
    split at hx
    · rcases List.mem_append.mp hx with hOld | hNew
      · exact hLog x hOld
      · rw [List.mem_singleton.mp hNew, sub_self]
        exact hTtl
    · exact hLog x hx
  refine (h.invariant (I := fun t pc => pc.Calm ∧ ∀ i, P.stamps t i = P.shown history c pc i)
    ?_ .refl hAlone ⟨trivial, hStart⟩).2 i
  rintro choice t pc t' pc' hSolo _ ⟨hCalm, hExact⟩ hStep
  have hYoung : ∀ i, ∀ x ∈ (t.shards i).stamps, sub c.now x.2 < P.opts.keyTTL := by
    intro i x hx
    rw [show (t.shards i).stamps = _ from hExact i] at hx
    exact hSeen pc x (List.mem_reverse.mp ((recent_sublist _).subset (List.mem_filter.mp hx).1))
  -- no pass finds an expired key, so only accesses change the lists
  have hCalm' : pc'.Calm := by
    refine hStep.calm_of_scans (fun sh hHit => ?_) (fun i => ?_) hCalm
    · rw [cleanup_eq hEv]
      refine Shard.victims_eq_nil fun x hx => ?_
      rw [hEv] at hHit
      rw [Shard.stamps_hit (hSolo.good.wf _ hEv) hHit] at hx
      rcases List.mem_cons.mp hx with rfl | hOld
      · rw [sub_self]
        exact hTtl
      · exact hYoung _ x (List.mem_filter.mp hOld).1
    · rw [cleanup_eq hEv]
      exact Shard.victims_eq_nil (hYoung i)
  exact ⟨hCalm', (hStep.reorder hEv hSolo.good hSolo.ok).exact
    (hStep.deleted_eq_false (.inr hMax) hSolo.ok hCalm) hExact⟩

theorem Serial.stamps_eq (hEv : P.ev = .evictLRU) (hMax : P.opts.maxKeys ≤ 0)
    (hTtl : 0 < P.opts.keyTTL) (h : P.Serial history s)
    (hYoung : ∀ x ∈ history, ∀ y ∈ history, sub y.1.now x.1.now < P.opts.keyTTL)
    (i : Fin P.shardCount) :
    P.stamps s i = (recent (log history)).filter fun x => P.shardFor x.1 = i := by
  induction h generalizing i with
  | nil => rfl
  | @snoc history s c s' outcome hBefore hReturns ih =>
    have hOld := ih fun x hx y hy =>
      hYoung x (List.mem_append_left _ hx) y (List.mem_append_left _ hy)
    have hEnd := hBefore.stamps_eq_alone hEv hMax hTtl
      (fun x hx => hYoung x (List.mem_append_left _ hx) _ (List.mem_append_right _ List.mem_cons_self))
      hOld hReturns i
    obtain ⟨r, rfl⟩ := hBefore.ok_of_done hEv hReturns
    rw [hEnd, log, List.map_append]
    rfl

/-! ## The time of the last pass -/

theorem lastCleanup_setShard {sh : Shard σ} {now : Int}
    (h : sh.lastCleanup = (s.shards i).lastCleanup ∨ sh.lastCleanup = now) (j : Fin P.shardCount) :
    ((s.setShard i sh).shards j).lastCleanup = (s.shards j).lastCleanup ∨
      ((s.setShard i sh).shards j).lastCleanup = now := by
  rcases eq_or_ne j i with rfl | hNe
  · rwa [Store.setShard_self]
  · rw [Store.setShard_ne _ _ hNe]
    exact .inl rfl

theorem Step.lastCleanup {choice : List Key} {s' : Store P.shardCount σ} {pc' : Pc P.shardCount ρ}
    (h : P.Step tid choice s c pc s' pc') (j : Fin P.shardCount) :
    (s'.shards j).lastCleanup = (s.shards j).lastCleanup ∨ (s'.shards j).lastCleanup = c.now := by
  cases h with
  | lock | relock | sweepLock | otherLock | release | unlock | sweepUnlock | otherEmpty | otherUnlock
  | evictNone =>
    refine lastCleanup_setShard ?_ j
    exact .inl rfl
  | hit hHit =>
    refine lastCleanup_setShard ?_ j
    rw [← Shard.lastCleanup_hit hHit]
    exact (Shard.lastCleanup_cleanup _ _ _ _).symm.imp_left And.left
  | miss | sweepScan =>
    exact lastCleanup_setShard ((Shard.lastCleanup_cleanup _ _ _ _).symm.imp_left And.left) j
  | expireDrop | evictSelf | otherEvict =>
    exact lastCleanup_setShard (.inl (Shard.lastCleanup_drop _ _ _)) j
  | recheckCreate => exact lastCleanup_setShard (.inl (Shard.lastCleanup_create _ _ _ _ _)) j
  | refresh hHit => exact lastCleanup_setShard (.inl (Shard.lastCleanup_hit hHit)) j
  | run => exact lastCleanup_setShard (.inl (Shard.lastCleanup_write _ _ _ _)) j
  | _ => exact .inl rfl

theorem Serial.lastCleanup_le (h : P.Serial history s) {now : Int} (hNow : 0 ≤ now)
    (hTimes : ∀ x ∈ history, x.1.now ≤ now) (i : Fin P.shardCount) :
    (s.shards i).lastCleanup ≤ now := by
  induction h generalizing i with
  | nil => exact hNow
  | @snoc history s c s' outcome hBefore hReturns ih =>
    have hOld := ih fun x hx => hTimes x (List.mem_append_left _ hx)
    have hCall : c.now ≤ now := hTimes _ (List.mem_append_right _ List.mem_cons_self)
    refine hReturns.invariant (I := fun t _ => ∀ i, (t.shards i).lastCleanup ≤ now) ?_ hOld i
    intro choice t pc t' pc' hBound hStep i
    rcases hStep.lastCleanup i with hSame | hMoved
    · exact hSame.trans_le (hBound i)
    · exact hMoved.trans_le hCall

/-! ## One shard without a limit -/

def crowd : Params Nat where
  opts := { keyTTL := 10, cleanupInterval := 5, eviction := .evictLRU }
  shardCount := 1
  power := one_shard
  create _ := 0

theorem exists_crowd (calls : List (Call Nat Nat))
    (hTimes : ∀ t ∈ calls.map Call.now, 1000 ≤ t ∧ t ≤ 1003)
    (hOrder : (calls.map Call.now ++ [1011]).Pairwise (· ≤ ·)) :
    ∃ history : List (Call Nat Nat × Outcome Nat), ∃ s, crowd.Serial history s ∧
      history.map Prod.fst = calls ∧ (times history ++ [1011]).Pairwise (· ≤ ·) ∧
      ∀ i, crowd.opts.cleanupInterval ≤ sub 1011 (s.shards i).lastCleanup ∧
        (s.shards i).stamps = recent (calls.map fun c => (c.key, c.now)) := by
  obtain ⟨history, s, hSerial, rfl⟩ := exists_serial crowd calls
  rw [List.map_map] at hTimes hOrder
  have hNow : ∀ x ∈ history, 1000 ≤ x.1.now ∧ x.1.now ≤ 1003 :=
    fun x hx => hTimes _ (List.mem_map_of_mem hx)
  refine ⟨history, s, hSerial, rfl, hOrder, fun i => ⟨?_, ?_⟩⟩
  · have hLast := hSerial.lastCleanup_le (by decide) (fun x hx => (hNow x hx).2) i
    exact le_trans (by decide) (sub_le_sub_right hLast 1011)
  · have hYoung : ∀ x ∈ history, ∀ y ∈ history, sub y.1.now x.1.now < crowd.opts.keyTTL := by
      intro x hx y hy
      have hShort := (sub_le_sub_left (hNow y hy).2 x.1.now).trans (sub_le_sub_right (hNow x hx).1 1003)
      exact lt_of_le_of_lt hShort (by decide)
    have hStamps := hSerial.stamps_eq rfl (by decide) (by decide) hYoung i
    have hOne : crowd.shardCount = 1 := rfl
    rw [List.filter_eq_self.mpr fun x _ => decide_eq_true (by omega)] at hStamps
    rw [List.map_map]
    exact hStamps

theorem cleanup_progress_lone : ∃ history : List (Call Nat Nat × Outcome Nat), ∃ s,
    crowd.Serial history s ∧ history.map Prod.fst = [demoCall 0 1000] ∧
    ∀ i, ∃ x ∈ (s.shards i).stamps, crowd.opts.keyTTL ≤ sub 1011 x.2 ∧
      x.1 ∉ ((s.shards i).passLRU crowd.opts 1011).keys .evictLRU := by
  obtain ⟨history, s, hSerial, hCalls, hTimes, hShards⟩ :=
    exists_crowd [demoCall 0 1000] (by decide) (by decide)
  refine ⟨history, s, hSerial, hCalls, fun i => ?_⟩
  obtain ⟨hDue, hStamps⟩ := hShards i
  refine (cleanup_progress_iff crowd rfl (by decide) (by decide) history s hSerial (demoCall 1 1011)
    hTimes s .lock .refl rfl i (s.shards i) (.inl rfl) hDue ?_).mpr ?_
  · rw [hStamps]
    decide
  · rw [hStamps]
    decide

def crowdCalls : List (Call Nat Nat) :=
  demoCall 0 1000 :: (List.range 100).map fun k => demoCall (UInt8.ofNat (k + 1)) 1003

/-- At 1011 the first key has expired and a pass is due; it removes nothing,
as the hundred keys that it scans are active. -/
theorem cleanup_stalls : ∃ history : List (Call Nat Nat × Outcome Nat), ∃ s,
    crowd.Serial history s ∧ history.map Prod.fst = crowdCalls ∧
    (times history ++ [1011]).Pairwise (· ≤ ·) ∧ ∀ i,
    crowd.opts.cleanupInterval ≤ sub 1011 (s.shards i).lastCleanup ∧
    (∃ x ∈ (s.shards i).stamps, crowd.opts.keyTTL ≤ sub 1011 x.2) ∧
    ¬ ∃ x ∈ (s.shards i).stamps, crowd.opts.keyTTL ≤ sub 1011 x.2 ∧
      x.1 ∉ ((s.shards i).passLRU crowd.opts 1011).keys .evictLRU := by
  -- both orders are checked on neighbours only
  have hSorted : ((crowdCalls.map fun c => (c.key, c.now)).map Prod.fst).Pairwise (· < ·) :=
    List.isChain_iff_pairwise.mp (by decide +kernel)
  have hNodup : ((crowdCalls.map fun c => (c.key, c.now)).map Prod.fst).Nodup := by
    refine hSorted.imp ?_
    rintro key _ hLt rfl
    exact List.lt_irrefl key hLt
  obtain ⟨history, s, hSerial, hCalls, hTimes, hShards⟩ :=
    exists_crowd crowdCalls (by decide +kernel) (List.isChain_iff_pairwise.mp (by decide +kernel))
  refine ⟨history, s, hSerial, hCalls, hTimes, fun i => ?_⟩
  obtain ⟨hDue, hStamps⟩ := hShards i
  rw [recent_of_nodup hNodup] at hStamps
  refine ⟨hDue, ?_, ?_⟩
  · rw [hStamps]
    exact ⟨([0], 1000), List.mem_reverse.mpr List.mem_cons_self, by decide⟩
  · rw [Shard.removes_iff (hSerial.good.wf i rfl) rfl (by decide) (by decide) hDue, hStamps]
    decide +kernel

end Params

end Kaka.Memory
