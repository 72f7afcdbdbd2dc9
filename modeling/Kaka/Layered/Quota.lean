import Kaka.Base.Interleaving
import Kaka.Layered.Limiter
import Kaka.Redis.BucketClock
import Kaka.Redis.Client
import Kaka.Redis.WindowAgreement
import Mathlib.Order.Interval.Finset.Nat

/-! # The quota of many layered limiters

Any number of limiters with local layers of their own share one key of one
Redis token bucket.  A call that is allowed has the reply of a run of the
script that was made for it, so the runs bound the calls.
-/

namespace Kaka.Layered

open Interleaving Redis

inductive Pc where
  | enter
  | consult
  | remote
  | running (p : Progress)
  | done (answer : Answer)

structure Thread where
  limiter : Nat
  pc : Pc

/-- What a step of a call depends on: the answer of the local layer, whether
the client knows the SHA of the script, what becomes of a command. -/
inductive Choice where
  | go
  | answer (a : Answer)
  | cached (known : Bool)
  | effect (e : Effect)

section System

variable {α : Type} (script : Option (Entry α) → Int → Option (Entry α) × Reply) (opts : Options)
  (key : List UInt8)

def advance (tid : Tid) (s : Server α) : Choice → Pc → Option (Server α × Pc)
  | .go, .enter =>
    match Layered.validateKey key with
    | some err => some (s, .done (⟨false, 0, 0⟩, some err))
    | none => some (s, .consult)
  | .answer a, .consult =>
    match settled a with
    | some b => some (s, .done b)
    | none => some (s, .remote)
  | .cached known, .remote =>
    match Redis.validateKey key with
    | some err => some (s, .done (⟨false, 0, 0⟩, some err))
    | none => some (s, .running (if known then .eval false else .load false))
  | .effect e, .running p =>
    match command script tid s e p with
    | some (s', .ended value) => some (s', .done (opts.result value, none))
    | some (s', p') => some (s', .running p')
    | none => none
  | _, _ => none

def system : Program (Server α) Thread Nat Choice Answer where
  init := ⟨none, []⟩
  start limiter := ⟨limiter, .enter⟩
  step tid choice s t := (advance script opts key tid s choice t.pc).map fun x => (x.1, ⟨t.limiter, x.2⟩)
  result t :=
    match t.pc with
    | .done a => some a
    | _ => none

end System

def Returned {α : Type} (g : Config (Server α) Thread Answer) (tid : Tid) (a : Answer) : Prop :=
  ∃ t, g.threads[tid]? = some t ∧ t.pc = .done a

def granted {α : Type} (g : Config (Server α) Thread Answer) (tid : Tid) : Bool :=
  (g.threads[tid]?).any fun t =>
    match t.pc with
    | .done a => a.1.allowed
    | _ => false

theorem granted_iff {α : Type} {g : Config (Server α) Thread Answer} {tid : Tid} :
    granted g tid = true ↔ ∃ a, Returned g tid a ∧ a.1.allowed = true := by
  rw [granted, Option.any_eq_true]
  constructor
  · rintro ⟨t, ht, hAllowed⟩
    split at hAllowed
    · rename_i a hDone
      exact ⟨a, ⟨t, ht, hDone⟩, hAllowed⟩
    · cases hAllowed
  · rintro ⟨a, ⟨t, ht, hDone⟩, hAllowed⟩
    refine ⟨t, ht, ?_⟩
    rw [hDone]
    exact hAllowed

variable {α : Type} {script : Option (Entry α) → Int → Option (Entry α) × Reply} {opts : Options}
  {key : List UInt8}

/-- A step runs the script at most once; only a run's reply can allow. -/
theorem advance_cases (hClosed : opts.policy = .errorFailClosed) {tid : Tid} {s s' : Server α}
    {choice : Choice} {pc pc' : Pc} (h : advance script opts key tid s choice pc = some (s', pc')) :
    (s' = s ∧ ∀ a, pc' = .done a → a.1.allowed = false) ∨
    ∃ now, s' = s.run script tid now ∧
      ∀ a, pc' = .done a → a = (decode (script s.key now).2, none) := by
  have hFallback : opts.fallback.allowed = false := by rw [Options.fallback, hClosed]
  unfold advance at h
  split at h
  · split at h <;> cases h
    · refine .inl ⟨rfl, ?_⟩
      rintro a ⟨⟩
      rfl
    · exact .inl ⟨rfl, nofun⟩
  · split at h
    · rename_i hSettled
      cases h
      refine .inl ⟨rfl, ?_⟩
      rintro a ⟨⟩
      exact denied_of_settled hSettled
    · cases h
      exact .inl ⟨rfl, nofun⟩
  · split at h <;> cases h
    · refine .inl ⟨rfl, ?_⟩
      rintro a ⟨⟩
      rfl
    · exact .inl ⟨rfl, nofun⟩
  · split at h
    · rename_i hCommand
      cases h
      rcases command_cases hCommand with ⟨rfl, hNone⟩ | ⟨now, rfl, ⟨_, hEval⟩ | hValue⟩
      · refine .inl ⟨rfl, ?_⟩
        rintro a ⟨⟩
        rw [Options.result, hNone _ rfl]
        exact hFallback
      · cases hEval
      · refine .inr ⟨now, rfl, ?_⟩
        rintro a ⟨⟩
        cases hValue
        rw [Options.result_value]
    · rename_i hCommand
      cases h
      rcases command_cases hCommand with ⟨rfl, _⟩ | ⟨now, rfl, _⟩
      · exact .inl ⟨rfl, nofun⟩
      · exact .inr ⟨now, rfl, nofun⟩
    · cases h
  · cases h

/-- The server has run the script only, and an allowed call has the reply of
a run made for it. -/
structure Inv (script : Option (Entry α) → Int → Option (Entry α) × Reply)
    (g : Config (Server α) Thread Answer) : Prop where
  replays : g.shared.Replays script
  own : ∀ tid a, Returned g tid a → a.1.allowed = true →
    ∃ run ∈ g.shared.log, run.tid = tid ∧ a = (decode run.reply, none)

theorem Returned.of_start {g : Config (Server α) Thread Answer} {limiter : Nat} {tid : Tid} {a : Answer}
    {history : List (Event Answer)}
    (h : Returned ⟨g.shared, g.threads ++ [⟨limiter, .enter⟩], history⟩ tid a) : Returned g tid a := by
  obtain ⟨t, ht, hDone⟩ := h
  rcases getElem?_snoc_cases ht with ⟨_, rfl⟩ | hOld
  · cases hDone
  · exact ⟨t, hOld, hDone⟩

theorem Returned.of_step {g : Config (Server α) Thread Answer} {s : Server α} {tid u : Tid} {t t' : Thread}
    {history : List (Event Answer)} {a : Answer} (ht : g.threads[tid]? = some t)
    (h : Returned ⟨s, g.threads.set tid t', history⟩ u a) :
    (u = tid ∧ t'.pc = .done a) ∨ Returned g u a := by
  obtain ⟨x, hx, hDone⟩ := h
  rcases getElem?_set_cases hx ht with ⟨rfl, rfl⟩ | ⟨_, hOld⟩
  · exact .inl ⟨rfl, hDone⟩
  · exact .inr ⟨x, hOld, hDone⟩

theorem inv (hClosed : opts.policy = .errorFailClosed) {g : Config (Server α) Thread Answer}
    (hReach : (system script opts key).Reachable g) : Inv script g := by
  refine Program.Reach.invariant (I := Inv script) ?_ ?_ hReach
  · constructor
    · exact ⟨rfl, rfl⟩
    · rintro tid a ⟨t, ht, _⟩
      cases ht
  · intro g act g' _ ih _ hNext
    rcases Program.next_cases hNext with ⟨limiter, _, rfl⟩ | ⟨tid, choice, t, s, t', _, ht, hStep, rfl⟩
    · exact ⟨ih.replays, fun tid a hReturned => ih.own tid a hReturned.of_start⟩
    · obtain ⟨⟨s', pc'⟩, hAdvance, hEq⟩ := Option.map_eq_some_iff.mp hStep
      cases hEq
      rcases advance_cases hClosed hAdvance with ⟨rfl, hDenied⟩ | ⟨now, rfl, hReply⟩
      · refine ⟨ih.replays, fun u a hReturned hAllowed => ?_⟩
        rcases hReturned.of_step ht with ⟨rfl, hDone⟩ | hOld
        · rw [hDenied a hDone] at hAllowed
          cases hAllowed
        · exact ih.own u a hOld hAllowed
      · refine ⟨ih.replays.run tid now, fun u a hReturned hAllowed => ?_⟩
        rcases hReturned.of_step ht with ⟨rfl, hDone⟩ | hOld
        · exact ⟨_, List.mem_append_right _ List.mem_cons_self, rfl, hReply a hDone⟩
        · obtain ⟨run, hRun, hOwn⟩ := ih.own u a hOld hAllowed
          exact ⟨run, List.mem_append_left _ hRun, hOwn⟩

/-! ## The bound -/

theorem countP_range'_getElem? {β : Type} (p : β → Bool) (l : List β) (i n : Nat) :
    (List.range' i n).countP (fun k => (l[k]?).any p) = ((l.drop i).take n).countP p := by
  induction n generalizing i with
  | zero => rfl
  | succ n ih =>
    rw [List.range'_succ, List.countP_cons, ih]
    cases hGet : l[i]? with
    | none =>
      have hLong := List.getElem?_eq_none_iff.mp hGet
      rw [List.drop_eq_nil_of_le hLong, List.drop_eq_nil_of_le (by omega)]
      simp
    | some b =>
      obtain ⟨hLt, rfl⟩ := List.getElem?_eq_some_iff.mp hGet
      rw [List.drop_eq_getElem_cons hLt, List.take_succ_cons, List.countP_cons]
      rfl

theorem card_le_countP (exec : Tid → Nat) {log : List Run} {calls : Finset Tid} {p : Run → Bool}
    {i j : Nat} (hOwn : ∀ tid ∈ calls, i ≤ exec tid ∧ exec tid ≤ j ∧ (log[exec tid]?).any p = true)
    (hDistinct : Set.InjOn exec calls) :
    calls.card ≤ ((log.drop i).take (j + 1 - i)).countP p := by
  rw [← countP_range'_getElem?]
  have hRuns : ((Finset.Icc i j).filter fun k => (log[k]?).any p = true).card =
      (List.range' i (j + 1 - i)).countP fun k => (log[k]?).any p := by
    rw [List.countP_eq_length_filter, Finset.card_def, Finset.filter_val]
    change ((List.range' i (j + 1 - i)).filter fun k => decide ((log[k]?).any p = true)).length = _
    simp only [Bool.decide_eq_true]
  rw [← hRuns]
  apply Finset.card_le_card_of_injOn exec ?_ hDistinct
  intro tid htid
  obtain ⟨hFrom, hTo, hRun⟩ := hOwn tid htid
  simp [hFrom, hTo, hRun]

theorem granted_runs (tb : Rates) {ttlMs : Int} (hTTL : ttlMs ≤ 0) {s : Server TokenHash}
    (h : s.Replays (TokenBucket.script tb ttlMs)) {i j : Nat} (hij : i ≤ j) (hj : j < s.log.length) :
    ((((s.log.drop i).take (j + 1 - i)).countP fun run => run.reply.allowed == 1 : Nat) : ℚ) ≤
      tb.capacity + tb.rate * (peak (s.log.map Run.now) j - peak (s.log.map Run.now) i) / 1000 := by
  have hSteady := TokenBucket.steady_script tb ttlMs (s.log.map Run.now) (unexpired_of_le hTTL _)
  have hReplies := map_allowed_history (TokenBucket.body tb) ttlMs TokenHash.tokens
    TokenHash.lastRefilledMs none (s.log.map Run.now)
  rw [← TokenBucket.script, ← h.log, List.map_map] at hReplies
  have hCount : ((s.log.drop i).take (j + 1 - i)).countP (fun run => run.reply.allowed == 1) =
      (((history TokenHash.tokens TokenHash.lastRefilledMs (trace (TokenBucket.script tb ttlMs) none
        (s.log.map Run.now))).drop i).take (j + 1 - i)).countP Metering.Tick.allowed := by
    have hMap := congrArg (fun l => ((l.drop i).take (j + 1 - i)).countP id) hReplies
    simp only [← List.map_drop, ← List.map_take, List.countP_map, Function.comp_def] at hMap
    exact hMap.symm
  rw [hCount]
  exact hSteady.granted i j hij (by rw [hSteady.length, List.length_map]; exact hj)

def AllowedBy {α : Type} (g : Config (Server α) Thread Answer) (tid : Tid) (k : Nat) : Prop :=
  ∃ run, g.shared.log[k]? = some run ∧ run.tid = tid ∧ run.reply.allowed = 1 ∧
    Returned g tid (decode run.reply, none)

/-- Each allowed call has a run of its own that answered allowed, and the runs
`i` to `j` allow no more calls than the bucket grants. -/
theorem quota_holds (tb : Rates) (opts : Options) (key : List UInt8)
    (hClosed : opts.policy = .errorFailClosed)
    (hForever : milliseconds opts.keyTTL ≤ 0) {g : Config (Server TokenHash) Thread Answer}
    (hReach : (system (TokenBucket.script tb (milliseconds opts.keyTTL)) opts key).Reachable
      g) :
    ∃ exec : Tid → Nat,
      (∀ tid, granted g tid = true → AllowedBy g tid (exec tid)) ∧
      (∀ tid tid', granted g tid = true → granted g tid' = true → exec tid = exec tid' → tid = tid') ∧
      ∀ i j, i ≤ j → j < g.shared.log.length →
        ((((Finset.range g.threads.length).filter fun tid =>
          granted g tid = true ∧ i ≤ exec tid ∧ exec tid ≤ j).card : Nat) : ℚ) ≤
          tb.capacity + tb.rate *
            (peak (g.shared.log.map Run.now) j - peak (g.shared.log.map Run.now) i) / 1000 := by
  have hInv := inv hClosed hReach
  have hRun : ∀ tid, ∃ k, granted g tid = true → AllowedBy g tid k := by
    intro tid
    cases hGranted : granted g tid with
    | false => exact ⟨0, nofun⟩
    | true =>
      obtain ⟨a, hReturned, hAllowed⟩ := granted_iff.mp hGranted
      obtain ⟨run, hMem, hTid, rfl⟩ := hInv.own tid a hReturned hAllowed
      obtain ⟨k, hk⟩ := List.mem_iff_getElem?.mp hMem
      exact ⟨k, fun _ => ⟨run, hk, hTid, allowed_decode.mp hAllowed, hReturned⟩⟩
  choose exec hExec using hRun
  have hDistinct : ∀ tid tid', granted g tid = true → granted g tid' = true →
      exec tid = exec tid' → tid = tid' := by
    intro tid tid' hGranted hGranted' hEq
    obtain ⟨run, hGet, hTid, _⟩ := hExec tid hGranted
    obtain ⟨run', hGet', hTid', _⟩ := hExec tid' hGranted'
    rw [hEq, hGet'] at hGet
    cases hGet
    exact hTid.symm.trans hTid'
  refine ⟨exec, hExec, hDistinct, fun i j hij hj => ?_⟩
  refine le_trans ?_ (granted_runs tb hForever hInv.replays hij hj)
  refine Nat.cast_le.mpr (card_le_countP exec ?_ ?_)
  · intro tid hMem
    obtain ⟨_, hGranted, hFrom, hTo⟩ := Finset.mem_filter.mp hMem
    obtain ⟨run, hGet, _, hAllowed, _⟩ := hExec tid hGranted
    refine ⟨hFrom, hTo, ?_⟩
    simp [hGet, hAllowed]
  · intro tid hMem tid' hMem' hEq
    exact hDistinct tid tid' (Finset.mem_filter.mp hMem).2.1 (Finset.mem_filter.mp hMem').2.1 hEq

def forever : Options where
  keyTTL := 0

/-- Three calls on two limiters.  The first is allowed; the local layer of the
second fails, the reply of its first run is lost, and after a NOSCRIPT error
the second run denies it; the third is denied locally. -/
def sharedRun : List (Act Nat Choice) :=
  [.start 0, .start 1, .start 1,
    .step 0 .go, .step 0 (.answer (⟨true, 5, 0⟩, none)), .step 0 (.cached true),
    .step 1 .go, .step 1 (.answer (⟨true, 5, 0⟩, some "memory: max keys exceeded")),
    .step 1 (.cached false), .step 1 (.effect (.loaded true)),
    .step 0 (.effect (.served 0)), .step 1 (.effect (.lost 10)), .step 1 (.effect (.refused true)),
    .step 1 (.effect (.loaded true)), .step 1 (.effect (.served 20)),
    .step 2 .go, .step 2 (.answer (⟨false, 0, 7⟩, none))]

theorem quota_holds_sharedRun :
    let g := (system (TokenBucket.script .onePerSecond 0) forever [97]).final (fun _ _ => True) sharedRun
    (granted g 0, granted g 1, granted g 2) = (true, false, false) ∧
    ∃ exec : Tid → Nat, AllowedBy g 0 (exec 0) := by
  intro g
  have hGranted : (granted g 0, granted g 1, granted g 2) = (true, false, false) := by decide +kernel
  have hReach : (system (TokenBucket.script .onePerSecond (milliseconds forever.keyTTL))
      forever [97]).Reachable g := .final sharedRun (by decide +kernel)
  obtain ⟨exec, hOwn, _⟩ := quota_holds .onePerSecond forever [97] rfl le_rfl hReach
  exact ⟨hGranted, exec, hOwn 0 (congrArg Prod.fst hGranted)⟩

end Kaka.Layered
