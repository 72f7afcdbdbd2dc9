import Kaka.Memory.Representation

/-! # The history of one key

While no entry is removed, the answers given on a key are those of its
callback run on one state, created at the first of them, one call after
another: in the order of the locked sections, whatever the order of the
clock readings.  What holds of every such sequence holds of every
interleaving.
-/

namespace Kaka.Memory

open Interleaving

variable {σ ρ : Type}

/-- The calls served so far on one key, with their readings and answers, and
the state they leave; each was served in a state that meets `ok`. -/
inductive Served (create : Int → σ) (fn : σ → Int → σ × ρ) (ok : σ → Int → Prop) :
    List (Int × ρ) → σ → Prop
  | first (now : Int) (hOk : ok (create now) now) :
      Served create fn ok [(now, (fn (create now) now).2)] (fn (create now) now).1
  | next {history v} (now : Int) (hBefore : Served create fn ok history v) (hOk : ok v now) :
      Served create fn ok (history ++ [(now, (fn v now).2)]) (fn v now).1

/-- The calls served on a key are its requests one after another. -/
theorem Served.replay {create : Int → σ} {fn : σ → Int → σ × ρ} {ok : σ → Int → Prop}
    {history : List (Int × ρ)} {v : σ} (h : Served create fn ok history v) :
    ∃ now rest, history = serve fn (create now) (now :: rest) ∧
      v = after fn (create now) (now :: rest) := by
  induction h with
  | first now => exact ⟨now, [], rfl, rfl⟩
  | next x _ _ ih =>
    obtain ⟨now, rest, rfl, rfl⟩ := ih
    exact ⟨now, rest ++ [x], (serve_snoc fn _ (now :: rest) x).symm,
      (after_snoc fn _ (now :: rest) x).symm⟩

theorem Served.chain {create : Int → σ} {fn : σ → Int → σ × ρ} {time : σ → Int} {R : Int → Int → Prop}
    (hTime : ∀ v now, time (fn v now).1 = now) {history : List (Int × ρ)} {v : σ}
    (h : Served create fn (fun v now => R (time v) now) history v) :
    (history.map Prod.fst).IsChain R ∧ (history.map Prod.fst).getLast? = some (time v) := by
  induction h with
  | first now => exact ⟨.singleton _, by simp [hTime]⟩
  | next now _ hOk ih =>
    obtain ⟨hChain, hLast⟩ := ih
    rw [List.map_append, List.map_singleton]
    refine ⟨List.isChain_append.mpr ⟨hChain, .singleton _, ?_⟩, by simp [hTime]⟩
    intro x hx y hy
    obtain rfl : time _ = x := Option.some.inj (hLast.symm.trans hx)
    obtain rfl : now = y := by simpa using hy
    exact hOk

/-- Calls of a limiter: all run the same callback. -/
def Params.requests (P : Params σ) (fn : σ → Int → σ × ρ) :
    Program (Store P.shardCount σ) (Thread P.shardCount σ ρ) (Key × Int) (List Key) (Outcome ρ) :=
  P.program.comap fun x => ⟨x.1, x.2, fn⟩

namespace Pc

variable {n : Nat}

def answer : Pc n ρ → Option ρ
  | .unlock (.ok r) | .done (.ok r) => some r
  | _ => none

/-- No expired entry waits for its deletion. -/
def Calm : Pc n ρ → Prop
  | .expire todo _ => todo = []
  | .expired _ _ => False
  | _ => True

end Pc

namespace Params

variable {P : Params σ} {tid : Tid} {choice : List Key} {s s' : Store P.shardCount σ}
  {c : Call σ ρ} {pc pc' : Pc P.shardCount ρ} {fn : σ → Int → σ × ρ}

/-- Nothing expires and nothing is evicted. -/
structure Keeps (P : Params σ) : Prop where
  ttl : P.opts.keyTTL ≤ 0
  evicts : P.ev = .evictReject ∨ P.opts.maxKeys ≤ 0

/-- What a step does to the states while nothing is removed. -/
inductive Serve (P : Params σ) (c : Call σ ρ) (s s' : Store P.shardCount σ)
    (pc pc' : Pc P.shardCount ρ) : Prop
  | still (hValue : ∀ key, P.value s' key = P.value s key) (hPc : pc ≠ .run)
      (hAnswer : pc'.answer = pc.answer)
  | create (hPc : pc = .recheck) (hPc' : pc' = .run) (hNew : P.value s c.key = none)
      (hValue : ∀ key, P.value s' key =
        if key = c.key then some (P.create c.now) else P.value s key)
  | run {v} (hPc : pc = .run) (hPc' : pc' = .unlock (.ok (c.fn v c.now).2))
      (hOld : P.value s c.key = some v)
      (hValue : ∀ key, P.value s' key =
        if key = c.key then some (c.fn v c.now).1 else P.value s key)

theorem Step.calm_of_scans (h : P.Step tid choice s c pc s' pc')
    (hHits : ∀ sh, (s.shards (P.self c)).hit P.ev c.key c.now = some sh →
      (sh.cleanup P.opts choice c.now).2 = [])
    (hScans : ∀ i, ((s.shards i).cleanup P.opts choice c.now).2 = []) (hCalm : pc.Calm) :
    pc'.Calm := by
  cases h with
  | hit hHit => exact hHits _ hHit
  | miss | sweepScan => exact hScans _
  | expireDrop | expireSkip => cases hCalm
  | expireCount => exact hCalm.elim
  | @expireDone next => cases next <;> trivial
  | @counted who => cases who <;> trivial
  | @evictNone swept => cases swept <;> trivial
  | sweepSkip | sweepRecent | sweepEnd =>
    unfold afterSweep
    split <;> trivial
  | _ => trivial

theorem Step.calm (h : P.Step tid choice s c pc s' pc') (hTTL : P.opts.keyTTL ≤ 0)
    (hGood : P.Good s) (hCalm : pc.Calm) : pc'.Calm := by
  refine h.calm_of_scans (fun sh hHit => ?_) (fun i => ?_) hCalm
  · exact cleanup_nothing choice hTTL (Shard.hit_spec (hGood.wf _) hHit).1 c.now
  · exact cleanup_nothing choice hTTL (hGood.wf i) c.now

theorem Step.answer (h : P.Step tid choice s c pc s' pc') (hPc : pc ≠ .run) :
    pc'.answer = pc.answer := by
  cases h with
  | run => exact absurd rfl hPc
  | @expireDone next => cases next <;> rfl
  | @counted who => cases who <;> rfl
  | @evictNone swept => cases swept <;> rfl
  | sweepSkip | sweepRecent | sweepEnd =>
    unfold afterSweep
    split <;> rfl
  | @unlock outcome => cases outcome <;> rfl
  | _ => rfl

theorem Step.deleted_eq_false (h : P.Step tid choice s c pc s' pc')
    (hEvicts : P.ev = .evictReject ∨ P.opts.maxKeys ≤ 0) (hOk : P.PcOk s c pc) (hCalm : pc.Calm) :
    deleted pc' = false := by
  have hNone : P.ev = .evictLRU → 0 < P.opts.maxKeys → False := by
    intro hEv hPos
    rcases hEvicts with hReject | hMax
    · rw [hReject] at hEv
      cases hEv
    · omega
  cases h with
  | expireDrop => cases hCalm
  | evictSelf hEv => exact (hNone hEv hOk.1).elim
  | otherEvict => exact (hNone hOk.1 hOk.2.1).elim
  | @expireDone next => cases next <;> rfl
  | @counted who => cases who <;> rfl
  | @evictNone swept => cases swept <;> rfl
  | sweepSkip | sweepRecent | sweepEnd =>
    unfold afterSweep
    split <;> rfl
  | _ => rfl

theorem Step.serve (h : P.Step tid choice s c pc s' pc') (hKeeps : P.Keeps) (hGood : P.Good s)
    (hOk : P.PcOk s c pc) (hCalm : pc.Calm) : P.Serve c s s' pc pc' := by
  rcases ne_or_eq pc .run with hNot | rfl
  · cases h.change hGood hOk with
    | keep _ hValue => exact .still hValue hNot (h.answer hNot)
    | create hNew _ hValue =>
      refine .create rfl rfl ?_ hValue
      rw [← Option.not_isSome_iff_eq_none, ← hGood.stored_iff]
      exact hNew
    | drop _ _ _ _ _ _ _ hDeleted =>
      rw [h.deleted_eq_false hKeeps.evicts hOk hCalm] at hDeleted
      cases hDeleted
    | run => exact absurd rfl hNot
  · cases h with
    | run hEntry =>
      exact .run rfl rfl (congrArg (Option.map Prod.fst) hEntry) (value_write hGood hEntry _)

/-! ## Every run -/

def answerOn (key : Key) (t : Thread P.shardCount σ ρ) : Option (Int × ρ) :=
  if t.call.key = key then t.pc.answer.map fun r => (t.call.now, r) else none

def answered (g : P.State ρ) (key : Key) : List (Int × ρ) := g.threads.filterMap (answerOn key)

/-- The clock never goes backwards: a call reads it when it starts. -/
def Clocked (g : P.State ρ) : Act (Key × Int) (List Key) → Prop
  | .start x => ∀ t ∈ g.threads, t.call.now ≤ x.2
  | .step _ _ => True

instance (g : P.State ρ) (a : Act (Key × Int) (List Key)) : Decidable (Clocked g a) :=
  match a with
  | .start x => inferInstanceAs (Decidable (∀ t ∈ g.threads, t.call.now ≤ x.2))
  | .step _ _ => isTrue trivial

/-- Every callback runs on a state that meets `ok` at its call's reading. -/
def ServedWhen (ok : σ → Int → Prop) (g : P.State ρ) : Act (Key × Int) (List Key) → Prop
  | .start _ => True
  | .step tid _ => ∀ t ∈ g.threads[tid]?, t.pc = .run →
      ∀ v ∈ P.value g.shared t.call.key, ok v t.call.now

instance {ok : σ → Int → Prop} [∀ v now, Decidable (ok v now)] [DecidableEq ρ] (g : P.State ρ)
    (a : Act (Key × Int) (List Key)) : Decidable (ServedWhen ok g a) :=
  match a with
  | .start _ => isTrue trivial
  | .step tid _ => inferInstanceAs (Decidable (∀ t ∈ g.threads[tid]?, t.pc = .run →
      ∀ v ∈ P.value g.shared t.call.key, ok v t.call.now))

inductive KeyState (P : Params σ) (fn : σ → Int → σ × ρ) (ok : σ → Int → Prop) (g : P.State ρ)
    (key : Key) : Prop
  | absent (hValue : P.value g.shared key = none) (hNone : answered g key = [])
  | created {tid : Tid} {t : Thread P.shardCount σ ρ} (ht : g.threads[tid]? = some t)
      (hKey : t.call.key = key) (hPc : t.pc = .run)
      (hValue : P.value g.shared key = some (P.create t.call.now)) (hNone : answered g key = [])
  | served {history v} (hValue : P.value g.shared key = some v)
      (hPerm : history.Perm (answered g key)) (hServed : Served P.create fn ok history v)

section Step

variable {ok : σ → Int → Prop} {g : P.State ρ} {t : Thread P.shardCount σ ρ} {key : Key}

theorem answerOn_ne (hNe : t.call.key ≠ key) : answerOn key t = none := if_neg hNe

theorem answered_set (s' : Store P.shardCount σ) (ht : g.threads[tid]? = some t)
    (hAnswer : pc'.answer = t.pc.answer ∨ t.call.key ≠ key) (history : List (Event (Outcome ρ))) :
    answered (⟨s', g.threads.set tid ⟨t.call, pc'⟩, history⟩ : P.State ρ) key = answered g key := by
  refine filterMap_set_eq _ ht ?_
  rcases hAnswer with hSame | hNe
  · simp only [answerOn, hSame]
  · rw [answerOn_ne hNe, answerOn_ne (show (Thread.mk t.call pc').call.key ≠ key from hNe)]

theorem answered_run (s' : Store P.shardCount σ) (ht : g.threads[tid]? = some t) {r : ρ}
    (hPc : t.pc = .run) (hPc' : pc' = .unlock (.ok r)) (history : List (Event (Outcome ρ))) :
    (answered (⟨s', g.threads.set tid ⟨t.call, pc'⟩, history⟩ : P.State ρ) t.call.key).Perm
      (answered g t.call.key ++ [(t.call.now, r)]) := by
  refine filterMap_set_perm _ ht ?_ ?_
  · rw [answerOn, if_pos rfl, hPc]
    rfl
  · rw [answerOn, if_pos rfl, hPc']
    rfl

theorem KeyState.frame (h : KeyState P fn ok g key) (ht : g.threads[tid]? = some t)
    (hValue : P.value s' key = P.value g.shared key)
    (hAnswer : pc'.answer = t.pc.answer ∨ t.call.key ≠ key)
    (hPc : t.pc ≠ .run ∨ t.call.key ≠ key) (history : List (Event (Outcome ρ))) :
    KeyState P fn ok ⟨s', g.threads.set tid ⟨t.call, pc'⟩, history⟩ key := by
  have hSame := answered_set s' ht hAnswer history
  cases h with
  | absent hOld hNone => exact .absent (hValue.trans hOld) (hSame.trans hNone)
  | @created u x hx hKey hRun hOld hNone =>
    have hNe : u ≠ tid := by
      rintro rfl
      obtain rfl : t = x := Option.some.inj (ht.symm.trans hx)
      rcases hPc with hNot | hNot
      · exact hNot hRun
      · exact hNot hKey
    exact .created (getElem?_set_other hNe hx) hKey hRun (hValue.trans hOld)
      (hSame.trans hNone)
  | served hOld hPerm hServed =>
    exact .served (hValue.trans hOld) (by rw [hSame]; exact hPerm) hServed

theorem KeyState.create (h : KeyState P fn ok g t.call.key) (ht : g.threads[tid]? = some t)
    (hPc : t.pc = .recheck) (hPc' : pc' = .run) (hNew : P.value g.shared t.call.key = none)
    (hValue : P.value s' t.call.key = some (P.create t.call.now))
    (history : List (Event (Outcome ρ))) :
    KeyState P fn ok ⟨s', g.threads.set tid ⟨t.call, pc'⟩, history⟩ t.call.key := by
  have hAnswer : pc'.answer = t.pc.answer := by rw [hPc, hPc']; rfl
  have hNone : answered g t.call.key = [] := by
    cases h with
    | absent _ hNone => exact hNone
    | created _ _ _ hOld => rw [hNew] at hOld; cases hOld
    | served hOld => rw [hNew] at hOld; cases hOld
  refine .created (getElem?_set_moved ht) rfl hPc' hValue ?_
  rw [answered_set s' ht (.inl hAnswer), hNone]

theorem KeyState.run {v : σ} (h : KeyState P fn ok g t.call.key) (ht : g.threads[tid]? = some t)
    (hLocks : Discipline g) (hPc : t.pc = .run) (hPc' : pc' = .unlock (.ok (fn v t.call.now).2))
    (hOld : P.value g.shared t.call.key = some v)
    (hValue : P.value s' t.call.key = some (fn v t.call.now).1) (hMeets : ok v t.call.now)
    (history : List (Event (Outcome ρ))) :
    KeyState P fn ok ⟨s', g.threads.set tid ⟨t.call, pc'⟩, history⟩ t.call.key := by
  have hPerm := answered_run s' ht hPc hPc' history
  cases h with
  | absent hNone => rw [hOld] at hNone; cases hNone
  | @created u x hx hSame hRun hCreated hNone =>
    -- the creator holds the lock, so it is the call that runs
    have hEq : u = tid := by
      refine hLocks.shard.unique hx ?_ ht (r := P.self t.call) (by rw [hPc]; rfl)
      rw [hRun, self, hSame]
      rfl
    subst hEq
    obtain rfl : t = x := Option.some.inj (ht.symm.trans hx)
    obtain rfl : v = P.create t.call.now := Option.some.inj (hOld.symm.trans hCreated)
    rw [hNone] at hPerm
    exact .served hValue hPerm.symm (.first _ hMeets)
  | served hBefore hOrder hServed =>
    obtain rfl := Option.some.inj (hOld.symm.trans hBefore)
    exact .served hValue ((hOrder.append_right _).trans hPerm.symm) (.next _ hServed hMeets)

theorem KeyState.step (h : ∀ key, KeyState P fn ok g key) (hServe : P.Serve t.call g.shared s' t.pc pc')
    (ht : g.threads[tid]? = some t) (hLocks : Discipline g) (hFn : t.call.fn = fn)
    (hOk : t.pc = .run → ∀ v ∈ P.value g.shared t.call.key, ok v t.call.now)
    (history : List (Event (Outcome ρ))) (key : Key) :
    KeyState P fn ok ⟨s', g.threads.set tid ⟨t.call, pc'⟩, history⟩ key := by
  subst hFn
  cases hServe with
  | still hValue hPc hAnswer => exact (h key).frame ht (hValue key) (.inl hAnswer) (.inl hPc) history
  | create hPc hPc' hNew hValue =>
    by_cases hKey : t.call.key = key
    · subst hKey
      exact (h _).create ht hPc hPc' hNew ((hValue _).trans (if_pos rfl)) history
    · exact (h key).frame ht ((hValue key).trans (if_neg (Ne.symm hKey))) (.inr hKey) (.inr hKey)
        history
  | @run v hPc hPc' hOld hValue =>
    by_cases hKey : t.call.key = key
    · subst hKey
      exact (h _).run ht hLocks hPc hPc' hOld ((hValue _).trans (if_pos rfl)) (hOk hPc v hOld) history
    · exact (h key).frame ht ((hValue key).trans (if_neg (Ne.symm hKey))) (.inr hKey) (.inr hKey)
        history

theorem KeyState.start (h : KeyState P fn ok g key) (call : Call σ ρ)
    (history : List (Event (Outcome ρ))) :
    KeyState P fn ok ⟨g.shared, g.threads ++ [⟨call, .lock⟩], history⟩ key := by
  have hSame : answered (⟨g.shared, g.threads ++ [⟨call, .lock⟩], history⟩ : P.State ρ) key =
      answered g key := by
    simp [answered, answerOn, Pc.answer]
  cases h with
  | absent hOld hNone => exact .absent hOld (hSame.trans hNone)
  | created hx hKey hRun hOld hNone =>
    have hHere : (g.threads ++ [⟨call, .lock⟩])[_]? = some _ :=
      (List.getElem?_append_left (List.getElem?_eq_some_iff.mp hx).1).trans hx
    exact .created hHere hKey hRun hOld (hSame.trans hNone)
  | served hOld hPerm hServed => exact .served hOld (by rw [hSame]; exact hPerm) hServed

end Step

theorem requests_fn {ok : P.State ρ → Act (Key × Int) (List Key) → Prop} {g : P.State ρ}
    (hReach : (P.requests fn).Reach ok g) : ∀ t ∈ g.threads, t.call.fn = fn := by
  refine hReach.threads ?_ ?_
  · intro x
    rfl
  · intro g tid choice t s t' _ _ hFn hStep
    obtain ⟨pc', rfl, _⟩ := step_of_program hStep
    exact hFn

theorem calm (hTTL : P.opts.keyTTL ≤ 0) {g : P.State ρ} (hReach : P.program.Reachable g) :
    ∀ t ∈ g.threads, t.pc.Calm := by
  refine hReach.threads ?_ ?_
  · intro call
    trivial
  · intro g tid choice t s t' hBefore _ hCalm hStep
    obtain ⟨pc', rfl, hMove⟩ := step_of_program hStep
    exact hMove.calm hTTL (inv hBefore).good hCalm

theorem keyState {ok : σ → Int → Prop} (hKeeps : P.Keeps) {g : P.State ρ}
    (hReach : (P.requests fn).Reach (ServedWhen ok) g) (key : Key) : KeyState P fn ok g key := by
  revert key
  refine Program.Reach.invariant (M := P.requests fn)
    (I := fun g => ∀ key, KeyState P fn ok g key) ?_ ?_ hReach
  · exact fun key => .absent (value_new key) rfl
  · intro g a g' hBefore ih hGuard hNext key
    have hInv := inv hBefore.of_comap
    have hFn := requests_fn hBefore
    have hCalm := calm hKeeps.ttl hBefore.of_comap
    rw [requests, Program.comap_next] at hNext
    rcases next_cases hNext with ⟨call, _, rfl⟩ | ⟨tid, choice, t, s', pc', hAct, ht, hStep, rfl⟩
    · exact (ih key).start call _
    · have hMem := List.mem_of_getElem? ht
      have hServe := hStep.serve hKeeps hInv.good (hInv.ok tid t ht) (hCalm t hMem)
      have hOk : t.pc = .run → ∀ v ∈ P.value g.shared t.call.key, ok v t.call.now := by
        cases a with
        | start => cases hAct
        | step =>
          cases hAct
          exact hGuard t ht
      exact KeyState.step ih hServe ht hInv.locks (hFn t hMem) hOk _ key

/-- The answers given on a key are those of some readings served one after another. -/
theorem answers_of_reach {time : σ → Int} {R : Int → Int → Prop} (hKeeps : P.Keeps)
    (hTime : ∀ v now, time (fn v now).1 = now) {g : P.State ρ}
    (hReach : (P.requests fn).Reach (ServedWhen fun v now => R (time v) now) g) (key : Key) :
    ∃ readings : List Int, readings.IsChain R ∧ (answers P.create fn readings).Perm (answered g key) := by
  cases keyState hKeeps hReach key with
  | absent _ hNone | created _ _ _ _ hNone => exact ⟨[], .nil, hNone ▸ .refl _⟩
  | served _ hPerm hServed =>
    obtain ⟨hChain, _⟩ := hServed.chain hTime
    obtain ⟨now, rest, rfl, _⟩ := hServed.replay
    rw [map_fst_serve] at hChain
    exact ⟨now :: rest, hChain, hPerm⟩

end Params

end Kaka.Memory
