import Kaka.Base.RunLog
import Kaka.Memory.Handoff
import Kaka.Memory.IdleCleanup

/-! # The lives of a key

Whatever the mode, the TTL and the interleaving, the state of a key is a
history: a callback receives what the last one on the key has left, or a
fresh state where the key was removed since, or never there. An entry is
removed only once the TTL has passed since its last update, or by an
eviction. Each call that succeeds has updated its key once; a call that is
refused has updated nothing.
-/

namespace Kaka.Memory

open Interleaving

variable {σ ρ : Type}

inductive Cause where
  | expired
  | evicted
  deriving DecidableEq

/-- What happens to the state of a key, with the reading of the call that does it. -/
inductive KeyEvent (σ : Type) where
  | updated (tid : Tid) (key : Key) (now : Int) (received left : σ)
  | removed (key : Key) (now : Int) (cause : Cause)
  deriving DecidableEq

namespace KeyEvent

def apply (m : Key → Option (σ × Int)) : KeyEvent σ → Key → Option (σ × Int)
  | .updated _ key now _ left => Function.update m key (some (left, now))
  | .removed key _ _ => Function.update m key none

def isBy (tid : Tid) : KeyEvent σ → Bool
  | .updated u _ _ _ _ => u == tid
  | .removed _ _ _ => false

end KeyEvent

/-- The states that the events leave, with the reading of the last update. -/
def replay (log : List (KeyEvent σ)) : Key → Option (σ × Int) :=
  log.foldl KeyEvent.apply fun _ => none

section Replay

variable (log : List (KeyEvent σ)) (touched key : Key) (now : Int)

theorem replay_snoc (e : KeyEvent σ) : replay (log ++ [e]) = e.apply (replay log) := by
  rw [replay, List.foldl_append]
  rfl

theorem replay_updated (tid : Tid) (received left : σ) :
    replay (log ++ [.updated tid touched now received left]) key =
      if key = touched then some (left, now) else replay log key := by
  rw [replay_snoc]
  exact Function.update_apply ..

theorem replay_removed (cause : Cause) : replay (log ++ [.removed touched now cause]) key =
    if key = touched then none else replay log key := by
  rw [replay_snoc]
  exact Function.update_apply ..

end Replay

def Pc.serving {n : Nat} : Pc n ρ → Bool
  | .expire _ .run | .expired _ .run | .run => true
  | _ => false

namespace Params

/-! ## The log of a run -/

section Log

variable (P : Params σ)

def eventOf (tid : Tid) (s : Store P.shardCount σ) (c : Call σ ρ) :
    Pc P.shardCount ρ → List (KeyEvent σ)
  | .run =>
    match P.value s c.key with
    | some v => [.updated tid c.key c.now v (c.fn v c.now).1]
    | none => []
  | .expire (v :: _) next =>
    if (s.shards (next.shard (P.self c))).has P.ev v.key then [.removed v.key c.now .expired] else []
  | .full _ =>
    match P.ev, (s.shards (P.self c)).tail? with
    | .evictLRU, some v => [.removed v.key c.now .evicted]
    | _, _ => []
  | .evictAt i =>
    match (s.shards i).tail? with
    | some v => [.removed v.key c.now .evicted]
    | none => []
  | _ => []

def noted (g : P.State ρ) : Act (Call σ ρ) (List Key) → List (KeyEvent σ)
  | .start _ => []
  | .step tid _ =>
    match g.threads[tid]? with
    | some t => P.eventOf tid g.shared t.call t.pc
    | none => []

def dueState (log : List (KeyEvent σ)) (key : Key) (now : Int) : σ :=
  ((replay log key).map Prod.fst).getD (P.create now)

def Justified (before : List (KeyEvent σ)) : KeyEvent σ → Prop
  | .updated _ key now received _ => received = P.dueState before key now
  | .removed key now .expired => ∃ e, replay before key = some e ∧ P.Expired e.2 now
  | .removed key _ .evicted => (replay before key).isSome ∧ P.ev = .evictLRU ∧ 0 < P.opts.maxKeys

def Made (tid : Tid) (t : Thread P.shardCount σ ρ) (log : List (KeyEvent σ)) : Prop :=
  match t.pc.answer with
  | some r => ∃ v, r = (t.call.fn v t.call.now).2 ∧ log.filter (KeyEvent.isBy tid) =
      [.updated tid t.call.key t.call.now v (t.call.fn v t.call.now).1]
  | none => log.filter (KeyEvent.isBy tid) = []

/-- Every event of the log is justified by those before it, and every call has
made its update. In a quiet store the entries are those that the log leaves. -/
structure Lives (log : List (KeyEvent σ)) (g : P.State ρ) : Prop where
  justified : Accounts P.Justified log
  made : ∀ tid t, g.threads[tid]? = some t → P.Made tid t log
  entries : (∀ t ∈ g.threads, ∃ outcome, t.pc = .done outcome) →
    ∀ key, P.entry g.shared key = replay log key

end Log

variable {P : Params σ} {tid : Tid} {choice : List Key} {s s' : Store P.shardCount σ}
  {c : Call σ ρ} {pc pc' : Pc P.shardCount ρ} {log : List (KeyEvent σ)}

theorem holds_of_serving (h : pc.serving = true) : pc.holds (P.self c) = some (P.shardFor c.key) := by
  cases pc with
  | expire _ next | expired _ next =>
    cases next with
    | run => rfl
    | _ => cases h
  | run => rfl
  | _ => cases h

/-! ## One step -/

/-- What a step does to the entries, and the events it gives rise to. -/
inductive Touch (P : Params σ) (tid : Tid) (c : Call σ ρ) (s s' : Store P.shardCount σ) :
    Pc P.shardCount ρ → Pc P.shardCount ρ → List (KeyEvent σ) → Prop
  | quiet {pc pc' : Pc P.shardCount ρ} (hRun : pc ≠ .run) (hServing : pc'.serving = pc.serving)
      (hEntry : ∀ key, P.entry s' key = P.entry s key) : Touch P tid c s s' pc pc' []
  | access {pc pc' : Pc P.shardCount ρ} {v : σ} (hBefore : pc.serving = false)
      (hHolds : pc.holds (P.self c) = some (P.shardFor c.key)) (hAfter : pc'.serving = true)
      (hState : v = ((P.entry s c.key).map Prod.fst).getD (P.create c.now))
      (hEntry : ∀ key, P.entry s' key = if key = c.key then some (v, c.now) else P.entry s key) :
      Touch P tid c s s' pc pc' []
  | update {e : σ × Int} (hOld : P.entry s c.key = some e) (hEntry : ∀ key, P.entry s' key =
      if key = c.key then some ((c.fn e.1 c.now).1, e.2) else P.entry s key) :
      Touch P tid c s s' .run (.unlock (.ok (c.fn e.1 c.now).2))
        [.updated tid c.key c.now e.1 (c.fn e.1 c.now).1]
  | remove {pc pc' : Pc P.shardCount ρ} {gone : Key} {cause : Cause} (hRun : pc ≠ .run)
      (hServing : pc'.serving = pc.serving) (hOwn : pc.serving = true → gone ≠ c.key)
      (hHolds : pc.holds (P.self c) = some (P.shardFor gone)) (hOld : (P.entry s gone).isSome)
      (hEntry : ∀ key, P.entry s' key = if key = gone then none else P.entry s key)
      (hExpired : cause = .expired → ∃ e, P.entry s gone = some e ∧ P.Expired e.2 c.now)
      (hEvicted : cause = .evicted → P.ev = .evictLRU ∧ 0 < P.opts.maxKeys) :
      Touch P tid c s s' pc pc' [.removed gone c.now cause]

theorem Touch.drop {i : Fin P.shardCount} {v : Victim} {cause : Cause} (hGood : P.Good s)
    (hMem : v.key ∈ P.keys s i) (hHolds : (s.shards i).Holds P.ev v)
    (hLock : pc.holds (P.self c) = some i) (hRun : pc ≠ .run) (hServing : pc'.serving = pc.serving)
    (hOwn : pc.serving = true → v.key ≠ c.key)
    (hExpired : cause = .expired → ∃ e, P.entry s v.key = some e ∧ P.Expired e.2 c.now)
    (hEvicted : cause = .evicted → P.ev = .evictLRU ∧ 0 < P.opts.maxKeys) :
    P.Touch tid c s (s.setShard i ((s.shards i).drop P.ev v)) pc pc' [.removed v.key c.now cause] := by
  have hPlace : P.shardFor v.key = i := hGood.placed i v.key hMem
  refine .remove hRun hServing hOwn (by rw [hPlace]; exact hLock) ?_ (entry_drop hGood hMem hHolds)
    hExpired hEvicted
  rw [entry, hPlace, Shard.peek_isSome (hGood.wf i)]
  exact hMem

theorem Touch.hit {sh : Shard σ} (hGood : P.Good s)
    (hHit : (s.shards (P.self c)).hit P.ev c.key c.now = some sh) (hBefore : pc.serving = false)
    (hHolds : pc.holds (P.self c) = some (P.shardFor c.key)) (hAfter : pc'.serving = true)
    (hEntry : ∀ key, P.entry s' key = P.entry (s.setShard (P.self c) sh) key) :
    P.Touch tid c s s' pc pc' [] := by
  obtain ⟨v, hValue, hNow⟩ := exists_entry_hit hGood hHit
  refine .access (v := v) hBefore hHolds hAfter ?_ ?_
  · rw [← value_eq_entry, hValue]
    rfl
  · intro key
    rw [hEntry]
    by_cases hKey : key = c.key
    · rw [if_pos hKey, hKey, hNow]
    · rw [entry_hit hGood hHit, if_neg hKey, if_neg hKey]

def Sentenced (P : Params σ) (s : Store P.shardCount σ) (c : Call σ ρ) : Pc P.shardCount ρ → Prop
  | .expire todo _ | .expired todo _ => P.Doomed s c.now todo
  | _ => True

theorem Step.touch (h : P.Step tid choice s c pc s' pc') (hGood : P.Good s) (hOk : P.PcOk s c pc)
    (hSentenced : P.Sentenced s c pc) : P.Touch tid c s s' pc pc' (P.eventOf tid s c pc) := by
  cases h with
  | lock | relock | sweepLock | otherLock => exact .quiet (by rintro ⟨⟩) rfl (entry_mutex (some tid))
  | unlock | sweepUnlock | otherUnlock => exact .quiet (by rintro ⟨⟩) rfl (entry_mutex none)
  | hit hHit =>
    have hScan := Shard.cleanup_scan P.opts choice (Shard.hit_spec (hGood.wf _) hHit).1 c.now
    exact .hit hGood hHit rfl rfl rfl (entry_scan hScan)
  | miss | sweepScan =>
    have hScan := fun i => Shard.cleanup_scan P.opts choice (hGood.wf i) c.now
    exact .quiet (by rintro ⟨⟩) rfl fun key => (entry_scan (hScan _) key).trans (entry_mutex _ key)
  | @expireDone next => exact .quiet (by rintro ⟨⟩) (by cases next <;> rfl) fun _ => rfl
  | @expireDrop v rest next hHas =>
    have hEvent : P.eventOf tid s c (.expire (v :: rest) next) = [.removed v.key c.now .expired] := by
      simp only [eventOf, hHas, if_true]
    rw [hEvent]
    refine .drop hGood (hOk.1.stored v List.mem_cons_self) (hOk.1.holds v List.mem_cons_self) rfl
      (by rintro ⟨⟩) (by cases next <;> rfl) ?_ (fun _ => hSentenced v List.mem_cons_self) (by rintro ⟨⟩)
    intro hServing
    cases next with
    | run => exact hOk.2.2 v List.mem_cons_self
    | _ => cases hServing
  | @expireSkip v rest next hHas =>
    have hEvent : P.eventOf tid s c (.expire (v :: rest) next) = [] := by
      simp only [eventOf, hHas, Bool.false_eq_true, if_false]
    rw [hEvent]
    exact .quiet (by rintro ⟨⟩) (by cases next <;> rfl) fun _ => rfl
  | @expireCount rest next => exact .quiet (by rintro ⟨⟩) (by cases next <;> rfl) fun _ => rfl
  | @evictSelf swept v hEv hTail =>
    obtain ⟨hMem, hHolds⟩ := Shard.tail?_spec hTail
    have hEvent : P.eventOf tid s c (.full swept) = [.removed v.key c.now .evicted] := by
      simp only [eventOf, hEv, hTail]
    rw [hEvent]
    rw [← hEv] at hMem hHolds
    exact .drop hGood hMem hHolds rfl (by rintro ⟨⟩) rfl (by rintro ⟨⟩) (by rintro ⟨⟩)
      fun _ => ⟨hEv, hOk.1⟩
  | @evictNone swept hEv hTail =>
    have hEvent : P.eventOf tid s c (.full swept) = [] := by simp only [eventOf, hEv, hTail]
    rw [hEvent]
    exact .quiet (by rintro ⟨⟩) (by cases swept <;> rfl) (entry_mutex none)
  | @reject hEv =>
    have hEvent : P.eventOf tid s c (.full true) = [] := by simp only [eventOf, hEv]
    rw [hEvent]
    exact .quiet (by rintro ⟨⟩) rfl fun _ => rfl
  | @release hEv =>
    have hEvent : P.eventOf tid s c (.full false) = [] := by simp only [eventOf, hEv]
    rw [hEvent]
    exact .quiet (by rintro ⟨⟩) rfl (entry_mutex none)
  | @otherEvict i v hTail =>
    obtain ⟨hMem, hHolds⟩ := Shard.tail?_spec hTail
    have hEvent : P.eventOf tid s c (.evictAt i) = [.removed v.key c.now .evicted] := by
      simp only [eventOf, hTail]
    rw [hEvent]
    rw [← hOk.1] at hMem hHolds ⊢
    exact .drop hGood hMem hHolds rfl (by rintro ⟨⟩) rfl (by rintro ⟨⟩) (by rintro ⟨⟩)
      fun _ => ⟨hOk.1, hOk.2.1⟩
  | @otherEmpty i hTail =>
    have hEvent : P.eventOf tid s c (.evictAt i) = [] := by simp only [eventOf, hTail]
    rw [hEvent]
    exact .quiet (by rintro ⟨⟩) rfl (entry_mutex none)
  | recheckCreate hHas =>
    have hNew : ¬ P.Stored s c.key := by
      rw [Stored, ← Shard.has_iff (hGood.wf _), hHas]
      exact Bool.false_ne_true
    refine .access rfl rfl rfl ?_ (entry_create hGood hNew (P.create c.now) c.now)
    rw [hGood.stored_iff, Option.not_isSome_iff_eq_none] at hNew
    rw [← value_eq_entry, hNew]
    rfl
  | refresh hHit => exact .hit hGood hHit rfl rfl rfl fun _ => rfl
  | @run e hOld =>
    have hEntry : P.entry s c.key = some e := hOld
    have hEvent : P.eventOf tid s c (.run : Pc P.shardCount ρ) =
        [.updated tid c.key c.now e.1 (c.fn e.1 c.now).1] := by
      simp only [eventOf, value_eq_entry, hEntry, Option.map_some]
    rw [hEvent]
    refine .update hEntry ?_
    intro key
    rw [entry_write hGood, hEntry]
    rfl
  | @counted who => exact .quiet (by rintro ⟨⟩) (by cases who <;> rfl) fun _ => rfl
  | sweepSkip | sweepRecent | sweepEnd =>
    exact .quiet (by rintro ⟨⟩) (by unfold afterSweep; split <;> rfl) fun _ => rfl
  | _ => exact .quiet (by rintro ⟨⟩) rfl fun _ => rfl

theorem Step.sentenced (h : P.Step tid choice s c pc s' pc') (hGood : P.Good s) (hOk : P.PcOk s c pc)
    (hSentenced : P.Sentenced s c pc) : P.Sentenced s' c pc' := by
  have hGood' := h.good hGood hOk
  have hOk' := h.ok hGood hOk
  cases h with
  | hit hHit =>
    exact .of_scan (Shard.cleanup_scan P.opts choice (Shard.hit_spec (hGood.wf _) hHit).1 c.now) hGood'
      hOk'.1
  | miss | sweepScan =>
    exact .of_scan (Shard.cleanup_scan P.opts choice (hGood.wf _) c.now) hGood' hOk'.1
  | @expireDrop v rest next =>
    have hEntry := entry_drop hGood (hOk.1.stored v List.mem_cons_self) (hOk.1.holds v List.mem_cons_self)
    refine Doomed.congr (fun w hw => hSentenced w (List.mem_cons_of_mem _ hw)) ?_
    intro w hw
    rw [hEntry, if_neg]
    intro hEq
    exact (List.nodup_cons.mp hOk.1.nodup).1 (List.mem_map.mpr ⟨w, hw, hEq⟩)
  | expireSkip => exact fun w hw => hSentenced w (List.mem_cons_of_mem _ hw)
  | expireCount => exact hSentenced
  | @expireDone next => cases next <;> trivial
  | @counted who => cases who <;> trivial
  | @evictNone swept => cases swept <;> trivial
  | sweepSkip | sweepRecent | sweepEnd =>
    unfold afterSweep
    split <;> trivial
  | _ => trivial

theorem Sentenced.congr (h : P.Sentenced s c pc) (hGood : P.Good s) (hOk : P.PcOk s c pc)
    (hShard : ∀ i, pc.holds (P.self c) = some i → s'.shards i = s.shards i) : P.Sentenced s' c pc := by
  cases pc with
  | expire todo next | expired todo next =>
    refine Doomed.congr h ?_
    intro v hv
    have hPlace := hGood.placed _ v.key (hOk.1.stored v hv)
    rw [entry, hPlace, hShard _ rfl, entry, hPlace]
  | _ => trivial

/-! ## Every run -/

/-- What the steps keep. A call that serves its key has the entry in its
hands; every other entry is as the log leaves it. -/
structure Chronicle (P : Params σ) (log : List (KeyEvent σ)) (g : P.State ρ) : Prop where
  justified : Accounts P.Justified log
  made : ∀ tid t, g.threads[tid]? = some t → P.Made tid t log
  fresh : ∀ tid, g.threads.length ≤ tid → log.filter (KeyEvent.isBy tid) = []
  serving : ∀ (tid : Tid) (t : Thread P.shardCount σ ρ), g.threads[tid]? = some t →
    t.pc.serving = true →
    P.entry g.shared t.call.key = some (P.dueState log t.call.key t.call.now, t.call.now)
  settled : ∀ key, (∀ t ∈ g.threads, t.call.key = key → t.pc.serving = false) →
    P.entry g.shared key = replay log key
  sentenced : ∀ (tid : Tid) (t : Thread P.shardCount σ ρ), g.threads[tid]? = some t →
    P.Sentenced g.shared t.call t.pc

section Steps

variable {g : P.State ρ} {t x : Thread P.shardCount σ ρ} {u : Tid}
  {history : List (Event (Outcome ρ))} {events : List (KeyEvent σ)} {key : Key}

/-- Only the call that holds the lock of a key's shard can be serving it. -/
theorem Inv.server_unique (hInv : P.Inv g) (ht : g.threads[tid]? = some t)
    (hHolds : t.pc.holds (P.self t.call) = some (P.shardFor key)) (hx : g.threads[u]? = some x)
    (hKey : x.call.key = key) (hServing : x.pc.serving = true) : u = tid := by
  subst hKey
  exact hInv.locks.shard.unique hx (holds_of_serving hServing) ht hHolds

theorem Chronicle.entry_eq_replay (h : P.Chronicle log g) (hInv : P.Inv g)
    (ht : g.threads[tid]? = some t) (hHolds : t.pc.holds (P.self t.call) = some (P.shardFor key))
    (hOwn : t.pc.serving = true → key ≠ t.call.key) : P.entry g.shared key = replay log key := by
  apply h.settled
  intro x hx hKey
  obtain ⟨u, hu⟩ := List.mem_iff_getElem?.mp hx
  by_contra hServing
  rw [Bool.not_eq_false] at hServing
  obtain rfl := hInv.server_unique ht hHolds hu hKey hServing
  obtain rfl : t = x := Option.some.inj (ht.symm.trans hu)
  exact hOwn hServing hKey.symm

theorem Touch.justified (hTouch : P.Touch tid t.call g.shared s' t.pc pc' events)
    (h : P.Chronicle log g) (hInv : P.Inv g) (ht : g.threads[tid]? = some t) :
    Accounts P.Justified (log ++ events) := by
  generalize hPc : t.pc = pc at hTouch
  cases hTouch with
  | quiet | access =>
    rw [List.append_nil]
    exact h.justified
  | @update e hOld =>
    apply h.justified.snoc
    have hDue := h.serving tid t ht (by rw [hPc]; rfl)
    rw [hOld] at hDue
    exact congrArg Prod.fst (Option.some.inj hDue)
  | @remove _ _ gone cause hRun _ hOwn hHolds hOld _ hExpired hEvicted =>
    subst hPc
    apply h.justified.snoc
    have hReplay := h.entry_eq_replay hInv ht hHolds hOwn
    rw [hReplay] at hOld hExpired
    cases cause with
    | expired => exact hExpired rfl
    | evicted => exact ⟨hOld, hEvicted rfl⟩

theorem dueState_congr {log' : List (KeyEvent σ)} (hLog : replay log' key = replay log key) (now : Int) :
    P.dueState log' key now = P.dueState log key now := by
  rw [dueState, hLog, dueState]

theorem Touch.serving (hTouch : P.Touch tid t.call g.shared s' t.pc pc' events)
    (h : P.Chronicle log g) (hInv : P.Inv g) (ht : g.threads[tid]? = some t)
    (hx : (g.threads.set tid ⟨t.call, pc'⟩)[u]? = some x) (hServing : x.pc.serving = true) :
    P.entry s' x.call.key = some (P.dueState (log ++ events) x.call.key x.call.now, x.call.now) := by
  -- a call other than the moving one keeps its entry and its place in the log
  have hKeep : ∀ y : Thread P.shardCount σ ρ, g.threads[u]? = some y → y.pc.serving = true →
      P.entry s' y.call.key = P.entry g.shared y.call.key →
      replay (log ++ events) y.call.key = replay log y.call.key →
      P.entry s' y.call.key = some (P.dueState (log ++ events) y.call.key y.call.now, y.call.now) := by
    intro y hy hServing hEntry hLog
    rw [hEntry, dueState_congr hLog]
    exact h.serving u y hy hServing
  generalize hPc : t.pc = pc at hTouch
  cases hTouch with
  | quiet _ hSame hEntry =>
    rcases getElem?_set_cases hx ht with ⟨rfl, rfl⟩ | ⟨_, hx⟩
    · exact hKeep t ht (by rw [hPc, ← hSame]; exact hServing) (hEntry _) (by rw [List.append_nil])
    · exact hKeep x hx hServing (hEntry _) (by rw [List.append_nil])
  | @access _ _ v hBefore hHolds _ hState hEntry =>
    subst hPc
    rcases getElem?_set_cases hx ht with ⟨rfl, rfl⟩ | ⟨hNe, hx⟩
    · have hReplay := h.entry_eq_replay hInv ht hHolds (by rw [hBefore]; nofun)
      rw [hEntry, if_pos rfl, List.append_nil, hState, hReplay]
      rfl
    · have hKey : x.call.key ≠ t.call.key :=
        fun hKey => hNe (hInv.server_unique ht hHolds hx hKey hServing)
      exact hKeep x hx hServing ((hEntry _).trans (if_neg hKey)) (by rw [List.append_nil])
  | update _ hEntry =>
    rcases getElem?_set_cases hx ht with ⟨rfl, rfl⟩ | ⟨hNe, hx⟩
    · cases hServing
    · have hKey : x.call.key ≠ t.call.key :=
        fun hKey => hNe (hInv.server_unique ht (by rw [hPc]; rfl) hx hKey hServing)
      exact hKeep x hx hServing ((hEntry _).trans (if_neg hKey))
        ((replay_updated ..).trans (if_neg hKey))
  | @remove _ _ gone cause _ hSame hOwn hHolds _ hEntry =>
    subst hPc
    rcases getElem?_set_cases hx ht with ⟨rfl, rfl⟩ | ⟨hNe, hx⟩
    · have hBefore : t.pc.serving = true := hSame.symm.trans hServing
      exact hKeep t ht hBefore ((hEntry _).trans (if_neg (hOwn hBefore).symm))
        ((replay_removed ..).trans (if_neg (hOwn hBefore).symm))
    · have hKey : x.call.key ≠ gone :=
        fun hKey => hNe (hInv.server_unique ht hHolds hx hKey hServing)
      exact hKeep x hx hServing ((hEntry _).trans (if_neg hKey))
        ((replay_removed ..).trans (if_neg hKey))

theorem Touch.settled (hTouch : P.Touch tid t.call g.shared s' t.pc pc' events)
    (h : P.Chronicle log g) (ht : g.threads[tid]? = some t)
    (hIdle : ∀ x ∈ g.threads.set tid ⟨t.call, pc'⟩, x.call.key = key → x.pc.serving = false) :
    P.entry s' key = replay (log ++ events) key := by
  have hMoved : t.call.key = key → pc'.serving = false :=
    hIdle ⟨t.call, pc'⟩ (List.mem_of_getElem? (getElem?_set_moved ht))
  -- nobody served the key before the step either, unless the moving call did
  have hBefore : (t.call.key = key → t.pc.serving = false) → P.entry g.shared key = replay log key := by
    intro hSelf
    apply h.settled
    intro x hx hKey
    by_cases hEq : x = t
    · exact hEq ▸ hSelf (hEq ▸ hKey)
    · exact hIdle x (mem_set_other ht hx hEq) hKey
  generalize hPc : t.pc = pc at hTouch
  cases hTouch with
  | quiet _ hSame hEntry =>
    rw [List.append_nil, hEntry]
    exact hBefore fun hKey => by rw [hPc, ← hSame, hMoved hKey]
  | access hIdleBefore _ hAfter _ hEntry =>
    have hKey : key ≠ t.call.key := by
      intro hKey
      rw [hMoved hKey.symm] at hAfter
      cases hAfter
    rw [List.append_nil, hEntry, if_neg hKey]
    exact hBefore fun _ => by rw [hPc, hIdleBefore]
  | @update e hOld hEntry =>
    rw [hEntry, replay_updated]
    split
    · have hDue := h.serving tid t ht (by rw [hPc]; rfl)
      rw [hOld] at hDue
      rw [Option.some.inj hDue]
    · rename_i hKey
      exact hBefore fun hEq => absurd hEq.symm hKey
  | @remove _ _ gone cause _ hSame _ _ _ hEntry =>
    rw [hEntry, replay_removed]
    split
    · rfl
    · exact hBefore fun hKey => by rw [hPc, ← hSame, hMoved hKey]

theorem Touch.filter_other (hTouch : P.Touch tid c s s' pc pc' events) (hNe : u ≠ tid) :
    (log ++ events).filter (KeyEvent.isBy u) = log.filter (KeyEvent.isBy u) := by
  rw [List.filter_append, List.append_right_eq_self]
  cases hTouch with
  | update => simp [KeyEvent.isBy, Ne.symm hNe]
  | _ => rfl

theorem Touch.made (hTouch : P.Touch tid c s s' pc pc' events) (hMade : P.Made tid ⟨c, pc⟩ log)
    (hAnswer : pc ≠ .run → pc'.answer = pc.answer) : P.Made tid ⟨c, pc'⟩ (log ++ events) := by
  unfold Made at hMade ⊢
  rw [List.filter_append]
  cases hTouch with
  | quiet hRun =>
    simp only [hAnswer hRun, List.filter_nil, List.append_nil]
    exact hMade
  | access hBefore =>
    have hRun : pc ≠ .run := by
      rintro rfl
      cases hBefore
    simp only [hAnswer hRun, List.filter_nil, List.append_nil]
    exact hMade
  | @update e =>
    simp only [Pc.answer] at hMade ⊢
    refine ⟨e.1, rfl, ?_⟩
    rw [hMade]
    simp [KeyEvent.isBy]
  | remove hRun =>
    simp only [hAnswer hRun]
    simpa [KeyEvent.isBy] using hMade

theorem Chronicle.step (h : P.Chronicle log g) (hInv : P.Inv g) (ht : g.threads[tid]? = some t)
    (hStep : P.Step tid choice g.shared t.call t.pc s' pc') :
    P.Chronicle (log ++ P.eventOf tid g.shared t.call t.pc)
      ⟨s', g.threads.set tid ⟨t.call, pc'⟩, history⟩ := by
  have hTouch := hStep.touch hInv.good (hInv.ok tid t ht) (h.sentenced tid t ht)
  refine ⟨hTouch.justified h hInv ht, ?_, ?_, ?_, ?_, ?_⟩
  · intro u x hx
    rcases getElem?_set_cases hx ht with ⟨rfl, rfl⟩ | ⟨hNe, hx⟩
    · exact hTouch.made (h.made _ _ ht) hStep.answer
    · have hMade := h.made u x hx
      unfold Made at hMade ⊢
      rw [hTouch.filter_other hNe]
      exact hMade
  · intro u hu
    rw [List.length_set] at hu
    have hLt := (List.getElem?_eq_some_iff.mp ht).1
    rw [hTouch.filter_other (hLt.trans_le hu).ne']
    exact h.fresh u hu
  · intro u x hx hServing
    exact hTouch.serving h hInv ht hx hServing
  · intro key hIdle
    exact hTouch.settled h ht hIdle
  · intro u x hx
    rcases getElem?_set_cases hx ht with ⟨rfl, rfl⟩ | ⟨hNe, hx⟩
    · exact hStep.sentenced hInv.good (hInv.ok _ _ ht) (h.sentenced _ _ ht)
    · exact (h.sentenced u x hx).congr hInv.good (hInv.ok u x hx)
        fun i hHolds => hInv.locks.frame ht hx hNe hStep hHolds

theorem Chronicle.start (h : P.Chronicle log g) (call : Call σ ρ) :
    P.Chronicle log ⟨g.shared, g.threads ++ [⟨call, .lock⟩], history⟩ := by
  refine ⟨h.justified, ?_, ?_, ?_, ?_, ?_⟩
  · intro u x hx
    rcases getElem?_snoc_cases hx with ⟨rfl, rfl⟩ | hx
    · exact h.fresh _ le_rfl
    · exact h.made u x hx
  · intro u hu
    rw [List.length_append] at hu
    exact h.fresh u (by omega)
  · intro u x hx hServing
    rcases getElem?_snoc_cases hx with ⟨rfl, rfl⟩ | hx
    · cases hServing
    · exact h.serving u x hx hServing
  · intro key hIdle
    exact h.settled key fun x hx => hIdle x (List.mem_append_left _ hx)
  · intro u x hx
    rcases getElem?_snoc_cases hx with ⟨rfl, rfl⟩ | hx
    · trivial
    · exact h.sentenced u x hx

theorem entry_new (key : Key) : P.entry (newShardedStoreWithShards P.shardCount σ) key = none :=
  Option.map_eq_none_iff.mp (value_new key)

theorem chronicle (hLog : P.program.Logged P.noted log g) : P.Chronicle log g := by
  induction hLog with
  | init => exact ⟨nofun, nofun, fun _ _ => rfl, nofun, fun key _ => entry_new key, nofun⟩
  | next hBefore hNext ih =>
    have hInv := inv hBefore.reachable
    rcases next_cases hNext with ⟨call, rfl, rfl⟩ | ⟨tid, choice, t, s', pc', rfl, ht, hStep, rfl⟩
    · rw [noted, List.append_nil]
      exact ih.start call
    · simp only [noted, ht]
      exact ih.step hInv ht hStep

end Steps

/-- No update of a key's state is lost, duplicated or undone, under every
interleaving, mode, TTL and key limit. -/
theorem key_lives {g : P.State ρ} (hLog : P.program.Logged P.noted log g) : P.Lives log g := by
  have h := chronicle hLog
  refine ⟨h.justified, h.made, ?_⟩
  intro hQuiet key
  apply h.settled
  intro t ht _
  obtain ⟨outcome, hDone⟩ := hQuiet t ht
  rw [hDone]
  rfl

theorem key_lives_raceRun : ∃ (log : List (KeyEvent Nat)) (g : race.State Nat),
    race.program.Logged race.noted log g ∧ race.Lives log g ∧
    log = [.updated 0 [97] 1000 0 1, .removed [97] 1100 .expired, .updated 2 [98] 1100 0 1] := by
  have hLog : (race.program.record race.noted race.program.initial raceRun).map Prod.fst =
      some [.updated 0 [97] 1000 0 1, .removed [97] 1100 .expired, .updated 2 [98] 1100 0 1] := by
    decide +kernel
  obtain ⟨⟨log, g⟩, hRun, hEvents⟩ := Option.map_eq_some_iff.mp hLog
  have hLogged : race.program.Logged race.noted log g := Program.Logged.init.record raceRun hRun
  exact ⟨log, g, hLogged, key_lives hLogged, hEvents⟩

end Params

end Kaka.Memory
