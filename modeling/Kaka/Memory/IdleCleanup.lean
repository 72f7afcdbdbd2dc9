import Kaka.Memory.BucketLimit
import Kaka.Memory.Recovery
import Kaka.Memory.Return
import Kaka.Memory.SlidingWindowLimit

/-! # Idle cleanup

A cleanup pass removes a key only after it has been idle for the TTL.  When
the TTL covers the time in which a limiter's state recovers, the store
answers every request as if each key kept its state for ever: what it holds
of a key tracks that state, at every step of every call.
-/

namespace Kaka.Memory

open Interleaving Forgetting

variable {σ ρ : Type}

namespace Params

/-- A limiter on one key. -/
def machine (P : Params σ) (fn : σ → Int → σ × ρ) : Machine σ Int ρ Int := ⟨P.create, fn, id⟩

/-- A cleanup at `now` may remove a key last accessed at `last`. -/
abbrev Expired (P : Params σ) : Int → Int → Prop := Idle P.opts.keyTTL

/-! ## The store and the states it stands for -/

section Mirrors

variable (P : Params σ) (Inv : σ → Int → Prop) (Same : σ → σ → Prop)

/-- What the store holds of `key` at `t` tracks the state `m key`, and was
last accessed not before it. -/
structure MirrorsAt (t : Int) (s : Store P.shardCount σ) (m : Key → Option (σ × Int)) (key : Key) :
    Prop where
  tracks : Tracks P.Expired Inv Same t (P.value s key) (m key)
  seen : ∀ e ∈ P.entry s key, ∀ w ∈ m key, w.2 ≤ e.2

def Mirrors (t : Int) (s : Store P.shardCount σ) (m : Key → Option (σ × Int)) : Prop :=
  ∀ key, P.MirrorsAt Inv Same t s m key

/-- The key of the call is in the store, found there or just created. -/
structure Ready (s : Store P.shardCount σ) (m : Key → Option (σ × Int)) (c : Call σ ρ) : Prop where
  others : ∀ key, key ≠ c.key → P.MirrorsAt Inv Same c.now s m key
  own : ∃ a, Tracks P.Expired Inv Same c.now a (m c.key) ∧
    P.entry s c.key = some (a.getD (P.create c.now), c.now)

/-- Every entry that waits for its deletion has expired. -/
def Doomed (s : Store P.shardCount σ) (now : Int) (todo : List Victim) : Prop :=
  ∀ v ∈ todo, ∃ e, P.entry s v.key = some e ∧ P.Expired e.2 now

def Found (s : Store P.shardCount σ) (c : Call σ ρ) : After P.shardCount → Prop
  | .run => ∃ v, P.entry s c.key = some (v, c.now)
  | .reserve => True
  | .sweep _ => False

/-- What holds at each place of a call while the number of keys is not
limited; `m` are the states before the call. -/
def InStep (s : Store P.shardCount σ) (m : Key → Option (σ × Int)) (c : Call σ ρ) :
    Pc P.shardCount ρ → Prop
  | .lock | .lookup | .reserve | .recheck | .giveBack | .refresh => P.Mirrors Inv Same c.now s m
  | .expire todo next | .expired todo next =>
    P.Mirrors Inv Same c.now s m ∧ P.Doomed s c.now todo ∧ P.Found s c next
  | .run => P.Ready Inv Same s m c
  | .unlock outcome | .done outcome =>
    P.Mirrors Inv Same c.now s ((P.machine c.fn).keyed m (c.key, c.now)).1 ∧
      outcome = .ok ((P.machine c.fn).keyed m (c.key, c.now)).2
  | _ => False

end Mirrors

variable {P : Params σ} {Inv : σ → Int → Prop} {Same : σ → σ → Prop} {tid : Tid}
  {choice : List Key} {s s' : Store P.shardCount σ} {c : Call σ ρ} {pc pc' : Pc P.shardCount ρ}
  {m : Key → Option (σ × Int)} {key : Key} {t : Int}

theorem MirrorsAt.congr (h : P.MirrorsAt Inv Same t s m key)
    (hEntry : P.entry s' key = P.entry s key) : P.MirrorsAt Inv Same t s' m key := by
  constructor
  · rw [value_eq_entry, hEntry]
    exact h.tracks
  · rw [hEntry]
    exact h.seen

theorem Mirrors.congr (h : P.Mirrors Inv Same t s m)
    (hEntry : ∀ key, P.entry s' key = P.entry s key) : P.Mirrors Inv Same t s' m :=
  fun key => (h key).congr (hEntry key)

theorem Mirrors.later {M : Machine σ Int ρ Int} (hRecovers : Recovers M P.Expired Inv Same)
    (h : P.Mirrors Inv Same t s m) {t' : Int} (hTime : t ≤ t') : P.Mirrors Inv Same t' s m :=
  fun key => ⟨(h key).tracks.later hRecovers hTime, (h key).seen⟩

theorem MirrorsAt.touch (h : P.MirrorsAt Inv Same t s m key)
    (hEntry : P.entry s' key = (P.entry s key).map fun e => (e.1, t)) :
    P.MirrorsAt Inv Same t s' m key := by
  constructor
  · rw [value_eq_entry, hEntry, Option.map_map]
    exact h.tracks
  · intro e he w hw
    rw [hEntry] at he
    obtain ⟨e', _, rfl⟩ := Option.map_eq_some_iff.mp he
    exact h.tracks.last_le hw

theorem MirrorsAt.drop (h : P.MirrorsAt Inv Same t s m key) {e : σ × Int}
    (hOld : P.entry s key = some e) (hExpired : P.Expired e.2 t) (hEntry : P.entry s' key = none) :
    P.MirrorsAt Inv Same t s' m key := by
  have hTracks := h.tracks
  rw [value_eq_entry, hOld, Option.map_some] at hTracks
  constructor
  · rw [value_eq_entry, hEntry]
    exact hTracks.forget fun w hw => hExpired.earlier (h.seen e hOld w hw)
  · rw [hEntry]
    rintro e ⟨⟩

theorem Doomed.congr {todo : List Victim} (h : P.Doomed s t todo)
    (hEntry : ∀ v ∈ todo, P.entry s' v.key = P.entry s v.key) : P.Doomed s' t todo := by
  intro v hv
  obtain ⟨e, he, hExpired⟩ := h v hv
  exact ⟨e, (hEntry v hv).trans he, hExpired⟩

theorem Doomed.of_scan {i : Fin P.shardCount} {sh : Shard σ} {out : Shard σ × List Victim}
    (hScan : Shard.Scan P.opts sh t out) (hGood : P.Good (s.setShard i out.1))
    (hScanned : P.Scanned (s.setShard i out.1) i out.2) : P.Doomed (s.setShard i out.1) t out.2 := by
  intro v hv
  obtain ⟨e, hPeek, hIdle⟩ := hScan.idle v hv
  refine ⟨e, ?_, hScan.ttl (List.ne_nil_of_mem hv), hIdle⟩
  rw [entry_setShard, if_pos (hGood.placed i v.key (hScanned.stored v hv)), hScan.peek_eq]
  exact hPeek

/-! ## One step of a call -/

theorem Mirrors.hit (h : P.Mirrors Inv Same c.now s m) (hGood : P.Good s) {sh : Shard σ}
    (hHit : (s.shards (P.self c)).hit P.ev c.key c.now = some sh) :
    P.Mirrors Inv Same c.now (s.setShard (P.self c) sh) m := by
  intro key
  have hEntry := entry_hit hGood hHit key
  split at hEntry
  · rename_i hKey
    subst hKey
    exact (h _).touch hEntry
  · exact (h key).congr hEntry

theorem exists_entry_hit (hGood : P.Good s) {sh : Shard σ}
    (hHit : (s.shards (P.self c)).hit P.ev c.key c.now = some sh) :
    ∃ v, P.value s c.key = some v ∧
      P.entry (s.setShard (P.self c) sh) c.key = some (v, c.now) := by
  obtain ⟨_, _, hMem, _⟩ := Shard.hit_spec (hGood.wf _) hHit
  obtain ⟨e, he⟩ := Option.isSome_iff_exists.mp ((Shard.peek_isSome (hGood.wf _) _).mpr hMem)
  have hEntry : P.entry s c.key = some e := he
  refine ⟨e.1, ?_, ?_⟩
  · rw [value_eq_entry, hEntry, Option.map_some]
  · rw [entry_hit hGood hHit, if_pos rfl, hEntry, Option.map_some]

theorem Mirrors.ready (h : P.Mirrors Inv Same c.now s m) {v : σ}
    (hEntry : P.entry s c.key = some (v, c.now)) : P.Ready Inv Same s m c := by
  constructor
  · exact fun key _ => h key
  · refine ⟨some v, ?_, hEntry⟩
    have hTracks := (h c.key).tracks
    rwa [value_eq_entry, hEntry] at hTracks

theorem Mirrors.create (h : P.Mirrors Inv Same c.now s m) (hGood : P.Good s)
    (hNew : ¬ P.Stored s c.key) :
    P.Ready Inv Same (s.setShard (P.self c)
      ((s.shards (P.self c)).create P.ev c.key (P.create c.now) c.now)) m c := by
  have hEntry := entry_create hGood hNew (P.create c.now) c.now
  have hNone : P.value s c.key = none := by
    rw [← Option.not_isSome_iff_eq_none, ← hGood.stored_iff]
    exact hNew
  constructor
  · intro key hNe
    exact (h key).congr ((hEntry key).trans (if_neg hNe))
  · exact ⟨none, hNone ▸ (h c.key).tracks, (hEntry c.key).trans (if_pos rfl)⟩

/-- The callback: the store answers as the limiter that never forgets. -/
theorem Ready.run (h : P.Ready Inv Same s m c) (hRecovers : Recovers (P.machine c.fn) P.Expired Inv Same)
    (hGood : P.Good s) {e : σ × Int} (hOld : P.entry s c.key = some e) :
    P.InStep Inv Same (s.setShard (P.self c)
        ((s.shards (P.self c)).write P.ev c.key (c.fn e.1 c.now).1)) m c
      (.unlock (.ok (c.fn e.1 c.now).2)) := by
  obtain ⟨a, hTracks, hOwn⟩ := h.own
  obtain rfl : (a.getD (P.create c.now), c.now) = e := Option.some.inj (hOwn.symm.trans hOld)
  have hEntry := entry_write hGood c.key (c.fn (a.getD (P.create c.now)) c.now).1
  have hTime : (P.machine c.fn).time c.now = c.now := rfl
  rw [← hTime] at hTracks
  constructor
  · intro key
    have hAfter := hEntry key
    split at hAfter
    · rename_i hKey
      subst hKey
      rw [hOld, Option.map_some] at hAfter
      constructor
      · rw [value_eq_entry, hAfter, Machine.keyed_self]
        exact hTracks.request hRecovers
      · intro e he w hw
        rw [hAfter] at he
        cases he
        rw [Machine.keyed_self] at hw
        cases hw
        exact le_rfl
    · rename_i hNe
      have hOther := (h.others key hNe).congr hAfter
      constructor
      · rw [Machine.keyed_of_ne _ _ hNe]
        exact hOther.tracks
      · rw [Machine.keyed_of_ne _ _ hNe]
        exact hOther.seen
  · exact congrArg Outcome.ok (hTracks.alike hRecovers).1

theorem InStep.drop {v : Victim} {rest : List Victim} {next : After P.shardCount}
    (h : P.InStep Inv Same s m c (.expire (v :: rest) next)) (hGood : P.Good s)
    (hOk : P.PcOk s c (.expire (v :: rest) next)) :
    P.InStep Inv Same (s.setShard (next.shard (P.self c))
      ((s.shards (next.shard (P.self c))).drop P.ev v)) m c (.expired rest next) := by
  obtain ⟨hMirrors, hDoomed, hFound⟩ := h
  obtain ⟨hScanned, hAfter⟩ := hOk
  have hEntry := entry_drop hGood (hScanned.stored v List.mem_cons_self)
    (hScanned.holds v List.mem_cons_self)
  refine ⟨?_, ?_, ?_⟩
  · intro key
    have hNow := hEntry key
    split at hNow
    · rename_i hKey
      subst hKey
      obtain ⟨e, hOld, hExpired⟩ := hDoomed v List.mem_cons_self
      exact (hMirrors v.key).drop hOld hExpired hNow
    · exact (hMirrors key).congr hNow
  · refine Doomed.congr (fun w hw => hDoomed w (List.mem_cons_of_mem _ hw)) fun w hw => ?_
    rw [hEntry, if_neg]
    intro hEq
    exact (List.nodup_cons.mp hScanned.nodup).1 (List.mem_map.mpr ⟨w, hw, hEq⟩)
  · cases next with
    | run =>
      obtain ⟨w, hOwn⟩ := hFound
      exact ⟨w, by rw [hEntry, if_neg (hAfter.2 v List.mem_cons_self).symm, hOwn]⟩
    | reserve => trivial
    | sweep i => exact hFound

theorem Step.inStep (h : P.Step tid choice s c pc s' pc') (hMax : P.opts.maxKeys ≤ 0)
    (hRecovers : Recovers (P.machine c.fn) P.Expired Inv Same) (hGood : P.Good s)
    (hOk : P.PcOk s c pc) (hInStep : P.InStep Inv Same s m c pc) :
    P.InStep Inv Same s' m c pc' := by
  have hGood' := h.good hGood hOk
  have hOk' := h.ok hGood hOk
  cases h with
  | lock => exact hInStep.congr (entry_mutex (some tid))
  | hit hHit =>
    have hScan := Shard.cleanup_scan P.opts choice (Shard.hit_spec (hGood.wf _) hHit).1 c.now
    obtain ⟨v, _, hEntry⟩ := exists_entry_hit hGood hHit
    exact ⟨(Mirrors.hit hInStep hGood hHit).congr (entry_scan hScan), .of_scan hScan hGood' hOk'.1,
      v, (entry_scan hScan _).trans hEntry⟩
  | miss =>
    have hScan := Shard.cleanup_scan P.opts choice (hGood.wf (P.self c)) c.now
    exact ⟨hInStep.congr fun key => (entry_scan hScan key).trans (entry_mutex _ key),
      .of_scan hScan hGood' hOk'.1, trivial⟩
  | @expireDone next =>
    obtain ⟨hMirrors, _, hFound⟩ := hInStep
    cases next with
    | run =>
      obtain ⟨v, hEntry⟩ := hFound
      exact hMirrors.ready hEntry
    | reserve => exact hMirrors
    | sweep i => exact hFound.elim
  | expireDrop => exact hInStep.drop hGood hOk
  | @expireSkip v rest next =>
    obtain ⟨hMirrors, hDoomed, hFound⟩ := hInStep
    exact ⟨hMirrors, fun w hw => hDoomed w (List.mem_cons_of_mem _ hw), hFound⟩
  | @expireCount rest next =>
    obtain ⟨hMirrors, hDoomed, hFound⟩ := hInStep
    refine ⟨hMirrors.congr fun _ => rfl, hDoomed.congr fun _ _ => rfl, ?_⟩
    cases next <;> exact hFound
  | reserveUnlimited | giveBack => exact hInStep.congr fun _ => rfl
  | recheckStored => exact hInStep
  | recheckCreate hHas =>
    refine Mirrors.create hInStep hGood fun hStored => ?_
    rw [(Shard.has_iff (hGood.wf _) c.key).mpr hStored] at hHas
    cases hHas
  | refresh hHit =>
    obtain ⟨v, _, hEntry⟩ := exists_entry_hit hGood hHit
    exact (Mirrors.hit hInStep hGood hHit).ready hEntry
  | run hPeek => exact hInStep.run hRecovers hGood hPeek
  | unlock => exact ⟨hInStep.1.congr (entry_mutex none), hInStep.2⟩
  | reserveLimited hLimited => omega
  | _ => exact hInStep.elim

/-! ## Whole runs -/

theorem Returns.mirrors {outcome : Outcome ρ} (h : P.Returns tid c s s' outcome)
    (hMax : P.opts.maxKeys ≤ 0) (hRecovers : Recovers (P.machine c.fn) P.Expired Inv Same)
    (hGood : P.Good s) (hMirrors : P.Mirrors Inv Same c.now s m) :
    P.Mirrors Inv Same c.now s' ((P.machine c.fn).keyed m (c.key, c.now)).1 ∧
      outcome = .ok ((P.machine c.fn).keyed m (c.key, c.now)).2 := by
  have hEnd : P.Good s' ∧ P.PcOk s' c (.done outcome) ∧ P.InStep Inv Same s' m c (.done outcome) := by
    refine h.invariant (I := fun s pc => P.Good s ∧ P.PcOk s c pc ∧ P.InStep Inv Same s m c pc) ?_
      ⟨hGood, trivial, hMirrors⟩
    rintro choice s pc s' pc' ⟨hGood, hOk, hInStep⟩ hStep
    exact ⟨hStep.good hGood hOk, hStep.ok hGood hOk, hStep.inStep hMax hRecovers hGood hOk hInStep⟩
  exact hEnd.2.2

/-- The call of `Allow`. -/
def request (fn : σ → Int → σ × ρ) (x : Key × Int) : Call σ ρ := ⟨x.1, x.2, fn⟩

/-- The requests, made one after another on a new store, may have these outcomes. -/
def Answers (P : Params σ) (fn : σ → Int → σ × ρ) (requests : List (Key × Int))
    (outcomes : List (Outcome ρ)) : Prop :=
  ∃ history s, P.Serial history s ∧ history.map Prod.fst = requests.map (request fn) ∧
    history.map Prod.snd = outcomes

/-- The results of a limiter that keeps the state of every key for ever. -/
def results (P : Params σ) (fn : σ → Int → σ × ρ) (requests : List (Key × Int)) : List ρ :=
  (serve (P.machine fn).keyed (fun _ => none) requests).map Prod.snd

theorem results_snoc (fn : σ → Int → σ × ρ) (requests : List (Key × Int)) (x : Key × Int) :
    P.results fn (requests ++ [x]) = P.results fn requests ++
      [((P.machine fn).keyed (after (P.machine fn).keyed (fun _ => none) requests) x).2] := by
  rw [results, serve_snoc, List.map_append, results, List.map_singleton]

theorem Mirrors.new (t : Int) :
    P.Mirrors Inv Same t (newShardedStoreWithShards P.shardCount σ) (fun _ => none) := by
  intro key
  constructor
  · rw [value_new]
    exact .absent
  · rintro e _ w ⟨⟩

theorem Serial.mirrors {fn : σ → Int → σ × ρ} (hMax : P.opts.maxKeys ≤ 0)
    (hRecovers : Recovers (P.machine fn) P.Expired Inv Same) {history : List (Call σ ρ × Outcome ρ)}
    (h : P.Serial history s) {requests : List (Key × Int)}
    (hCalls : history.map Prod.fst = requests.map (request fn))
    (hClock : (requests.map Prod.snd).Pairwise (· ≤ ·)) :
    history.map Prod.snd = (P.results fn requests).map .ok ∧
      ∀ t, (∀ x ∈ requests, x.2 ≤ t) →
        P.Mirrors Inv Same t s (after (P.machine fn).keyed (fun _ => none) requests) := by
  induction h generalizing requests with
  | nil =>
    obtain rfl := List.map_eq_nil_iff.mp hCalls.symm
    exact ⟨rfl, fun t _ => .new t⟩
  | @snoc history s c s' outcome hBefore hReturns ih =>
    rw [List.map_append] at hCalls
    obtain ⟨before, last, rfl, hHistory, hLast⟩ := List.append_eq_map_iff.mp hCalls
    obtain ⟨x, rfl, hCall⟩ := List.map_eq_singleton_iff.mp hLast
    obtain rfl : request fn x = c := hCall
    rw [List.map_append, List.pairwise_append] at hClock
    obtain ⟨hOutcomes, hMirrors⟩ := ih hHistory.symm hClock.1
    have hNow : ∀ y ∈ before, y.2 ≤ x.2 := fun y hy =>
      hClock.2.2 y.2 (List.mem_map_of_mem hy) x.2 (by simp)
    obtain ⟨hAfter, hOutcome⟩ := hReturns.mirrors hMax hRecovers hBefore.good (hMirrors x.2 hNow)
    constructor
    · rw [List.map_append, hOutcomes, results_snoc, List.map_append, List.map_singleton, hOutcome]
      rfl
    · intro t ht
      rw [after_snoc]
      exact hAfter.later hRecovers (ht x (by simp))

theorem answers_iff {fn : σ → Int → σ × ρ} (hMax : P.opts.maxKeys ≤ 0)
    (hRecovers : Recovers (P.machine fn) P.Expired Inv Same) {requests : List (Key × Int)}
    (hClock : (requests.map Prod.snd).Pairwise (· ≤ ·)) (outcomes : List (Outcome ρ)) :
    P.Answers fn requests outcomes ↔ outcomes = (P.results fn requests).map .ok := by
  constructor
  · rintro ⟨history, s, hSerial, hCalls, rfl⟩
    exact (hSerial.mirrors hMax hRecovers hCalls hClock).1
  · rintro rfl
    obtain ⟨history, s, hSerial, hCalls⟩ := exists_serial P (requests.map (request fn))
    exact ⟨history, s, hSerial, hCalls, (hSerial.mirrors hMax hRecovers hCalls hClock).1⟩

def withoutTTL (P : Params σ) : Params σ := { P with opts := { P.opts with keyTTL := 0 } }

/-- Every sequence of requests at non-decreasing times has one sequence of
results, and the store without a TTL gives the same. -/
def CleanupInvisible (P : Params σ) (fn : σ → Int → σ × ρ) : Prop :=
  ∀ requests : List (Key × Int), (requests.map Prod.snd).Pairwise (· ≤ ·) →
    ∃ results : List ρ, ∀ outcomes,
      (P.Answers fn requests outcomes ↔ outcomes = results.map .ok) ∧
      (P.withoutTTL.Answers fn requests outcomes ↔ outcomes = results.map .ok)

theorem cleanupInvisible {fn : σ → Int → σ × ρ} (hMax : P.opts.maxKeys ≤ 0)
    (hRecovers : Recovers (P.machine fn) P.Expired Inv Same)
    (hForever : Recovers (P.machine fn) (Idle 0) Inv Same) : P.CleanupInvisible fn := by
  intro requests hClock
  refine ⟨P.results fn requests, fun outcomes => ⟨answers_iff hMax hRecovers hClock outcomes, ?_⟩⟩
  exact answers_iff (P := P.withoutTTL) hMax hForever hClock outcomes

end Params

/-- No map order, batch, shard count or eviction mode matters. -/
theorem idle_cleanup_invisible (opts : Options) (shardCount : Nat) (power : ∃ k, shardCount = 2 ^ k)
    (hMax : opts.maxKeys = 0) :
    (∀ rates : Rates, rates.capacity / rates.rate ≤ seconds opts.keyTTL →
      (TokenBucket.params rates opts shardCount power).CleanupInvisible
        (TokenBucket.refillAndDecide rates)) ∧
    (∀ rates : Rates, rates.capacity / rates.rate ≤ seconds opts.keyTTL →
      (LeakyBucket.params opts shardCount power).CleanupInvisible
        (LeakyBucket.leakAndDecide rates)) ∧
    (∀ sw : SlidingWindow, sw.window ≤ opts.keyTTL →
      (SlidingWindow.params opts shardCount power).CleanupInvisible sw.recordAndDecide) := by
  refine ⟨?_, ?_, ?_⟩
  · intro rates hTTL
    exact Params.cleanupInvisible hMax.le (TokenBucket.recovers fun _ => hTTL)
      (TokenBucket.recovers fun h => absurd h (lt_irrefl 0))
  · intro rates hTTL
    exact Params.cleanupInvisible hMax.le (LeakyBucket.recovers fun _ => hTTL)
      (LeakyBucket.recovers fun h => absurd h (lt_irrefl 0))
  · intro sw hTTL
    exact Params.cleanupInvisible hMax.le (SlidingWindow.recovers fun _ => hTTL)
      (SlidingWindow.recovers fun h => absurd h (lt_irrefl 0))

/-- Keys expire two seconds after their last access. -/
def twoSecondTTL : Options where
  keyTTL := 2 * 10 ^ 9
  cleanupInterval := 10 ^ 9
  eviction := .evictLRU

theorem idle_cleanup_invisible_twoSecondTTL :
    (TokenBucket.params .onePerSecond twoSecondTTL 2 Params.two_shards).CleanupInvisible
        (TokenBucket.refillAndDecide .onePerSecond) ∧
      (LeakyBucket.params twoSecondTTL 2 Params.two_shards).CleanupInvisible
        (LeakyBucket.leakAndDecide .onePerSecond) ∧
      (SlidingWindow.params twoSecondTTL 2 Params.two_shards).CleanupInvisible
        SlidingWindow.two.recordAndDecide := by
  obtain ⟨hToken, hLeaky, hWindow⟩ := idle_cleanup_invisible twoSecondTTL 2 Params.two_shards rfl
  have hCovers : Rates.onePerSecond.capacity / Rates.onePerSecond.rate ≤
      seconds twoSecondTTL.keyTTL := by
    norm_num [Rates.onePerSecond, seconds, twoSecondTTL]
  exact ⟨hToken _ hCovers, hLeaky _ hCovers, hWindow _ (by decide)⟩

end Kaka.Memory
