import Kaka.Memory.CappedMap
import Kaka.Memory.Representation

/-! # The store without expiry and eviction is a capped map

In `EvictReject` mode without `keyTTL` nothing is ever deleted: `live` only
grows, and a call that has found the store full will find it full again.
A call takes effect at its successful lookup, at its reservation, or when it
is refused; the callback runs later, under the same lock.
-/

namespace Kaka.Memory

open Interleaving

variable {σ ρ : Type}

/-- How far a call has come towards its answer. -/
inductive Stage (ρ : Type) where
  | before
  | waiting
  | creating
  | serving
  | answered (outcome : Outcome ρ)
  | never

def Stage.Pending (stage : Stage ρ) : Prop := stage = .creating ∨ stage = .serving

namespace Pc

variable {n : Nat}

/-- The places of `never` are not reached in this mode. -/
def stage : Pc n ρ → Stage ρ
  | .lock | .lookup | .expire [] .reserve | .reserve | .load false | .cas _ false => .before
  | .full _ | .sweepEnter | .relock | .load true => .waiting
  | .recheck => .creating
  | .expire [] .run | .run => .serving
  | .unlock outcome | .done outcome => .answered outcome
  | _ => .never

theorem holds_of_pending {pc : Pc n ρ} (self : Fin n) (hStage : pc.stage.Pending) :
    pc.holds self = some self := by
  unfold Stage.Pending at hStage
  cases pc with
  | recheck | run => rfl
  | expire todo next =>
    cases next with
    | run => rfl
    | reserve => rfl
    | sweep i => cases todo <;> simp [stage] at hStage
  | load swept | cas seen swept => cases swept <;> simp [stage] at hStage
  | _ => simp [stage] at hStage

end Pc

namespace Params

variable (P : Params σ) {tid : Tid} {choice : List Key} {s s' : Store P.shardCount σ}
  {c : Call σ ρ} {pc pc' : Pc P.shardCount ρ}

structure Still (s s' : Store P.shardCount σ) : Prop where
  value : ∀ key, P.value s' key = P.value s key
  live : s'.live = s.live

/-- What a step can do in this mode. -/
inductive Move (c : Call σ ρ) (s s' : Store P.shardCount σ) (pc pc' : Pc P.shardCount ρ) : Prop
  | quiet (hStage : pc'.stage = pc.stage) (hStill : P.Still s s')
  | full (hBefore : pc.stage = .before) (hAfter : pc'.stage = .waiting)
      (hHolds : pc.holds (P.self c) = some (P.self c)) (hStill : P.Still s s')
      (hNew : ¬ P.Stored s c.key) (hMax : 0 < P.opts.maxKeys) (hFull : P.opts.maxKeys ≤ s.live)
  | hit (hBefore : pc.stage = .before) (hAfter : pc'.stage = .serving)
      (hHolds : pc.holds (P.self c) = some (P.self c)) (hStill : P.Still s s')
      (hStored : P.Stored s c.key)
  | reserve (hBefore : pc.stage = .before) (hAfter : pc'.stage = .creating)
      (hHolds : pc.holds (P.self c) = some (P.self c))
      (hValue : ∀ key, P.value s' key = P.value s key) (hLive : s'.live = s.live + 1)
      (hNew : ¬ P.Stored s c.key) (hRoom : ¬ (0 < P.opts.maxKeys ∧ P.opts.maxKeys ≤ s.live))
  | create (hBefore : pc.stage = .creating) (hAfter : pc'.stage = .serving)
      (hValue : ∀ key, P.value s' key =
        if key = c.key then some (P.create c.now) else P.value s key)
      (hLive : s'.live = s.live)
  | run {v} (hBefore : pc.stage = .serving) (hAfter : pc'.stage = .answered (.ok (c.fn v c.now).2))
      (hOld : P.value s c.key = some v)
      (hValue : ∀ key, P.value s' key =
        if key = c.key then some (c.fn v c.now).1 else P.value s key)
      (hLive : s'.live = s.live)
  | reject (hBefore : pc.stage = .waiting) (hAfter : pc'.stage = .answered .errMaxKeysExceeded)
      (hHolds : pc.holds (P.self c) = some (P.self c)) (hStill : P.Still s s')

variable {P}

theorem Change.still (h : P.Change c s s' pc pc') (hDebt : debt pc' = debt pc)
    (hRecheck : pc ≠ .recheck) (hRun : pc ≠ .run) : P.Still s s' := by
  cases h with
  | keep _ hValue hLive => exact ⟨hValue, by omega⟩
  | create => exact absurd rfl hRecheck
  | drop _ _ _ _ _ _ hMore => omega
  | run => exact absurd rfl hRun

theorem Step.move (h : P.Step tid choice s c pc s' pc') (hEv : P.ev = .evictReject)
    (hTTL : P.opts.keyTTL ≤ 0) (hGood : P.Good s) (hOk : P.PcOk s c pc) (hStage : pc.stage ≠ .never)
    (hWaiting : pc.stage = .waiting → P.opts.maxKeys ≤ s.live)
    (hCreating : pc.stage = .creating → ¬ P.Stored s c.key) : P.Move c s s' pc pc' := by
  have hChange := h.change hGood hOk
  cases h with
  | lock | reserveLimited | release | relock | unlock =>
    exact .quiet rfl (hChange.still rfl (by simp) (by simp))
  | hit hHit =>
    obtain ⟨hWF, _, hMem, _⟩ := Shard.hit_spec (hGood.wf _) hHit
    have hNothing := cleanup_nothing choice hTTL hWF c.now
    refine .hit rfl ?_ rfl (hChange.still rfl (by simp) (by simp)) hMem
    rw [hNothing]
    rfl
  | miss =>
    have hNothing := cleanup_nothing choice hTTL (hGood.wf (P.self c)) c.now
    refine .quiet ?_ (hChange.still rfl (by simp) (by simp))
    rw [hNothing]
    rfl
  | @expireDone next =>
    cases next with
    | run => exact .quiet rfl ⟨fun _ => rfl, rfl⟩
    | reserve => exact .quiet rfl ⟨fun _ => rfl, rfl⟩
    | sweep i => exact absurd rfl hStage
  | reserveUnlimited hMax => exact .reserve rfl rfl rfl (fun _ => rfl) rfl hOk (by omega)
  | @loadRoom swept hRoom =>
    cases swept with
    | false => exact .quiet rfl ⟨fun _ => rfl, rfl⟩
    | true =>
      have := hWaiting rfl
      omega
  | @loadFull swept hFull =>
    cases swept with
    | false => exact .full rfl rfl rfl ⟨fun _ => rfl, rfl⟩ (hOk.2 rfl) hOk.1 hFull
    | true => exact .quiet rfl ⟨fun _ => rfl, rfl⟩
  | @casWon swept =>
    cases swept with
    | false =>
      obtain ⟨_, hNew, hSeen⟩ := hOk
      exact .reserve rfl rfl rfl (fun _ => rfl) rfl (hNew rfl) (by omega)
    | true => exact absurd rfl hStage
  | @casLost seen swept =>
    cases swept with
    | false => exact .quiet rfl ⟨fun _ => rfl, rfl⟩
    | true => exact absurd rfl hStage
  | evictSelf hLRU | evictNone hLRU =>
    rw [hEv] at hLRU
    cases hLRU
  | reject => exact .reject rfl rfl rfl ⟨fun _ => rfl, rfl⟩
  | sweepSkip =>
    refine .quiet ?_ ⟨fun _ => rfl, rfl⟩
    rw [afterSweep, hEv]
    rfl
  | sweepEnter hOn => omega
  | recheckStored hHas =>
    exact absurd ((Shard.has_iff (hGood.wf _) _).mp hHas) (hCreating rfl)
  | recheckCreate => exact .create rfl rfl (value_create hGood (hCreating rfl) _ _) rfl
  | run hEntry =>
    exact .run rfl rfl (congrArg (Option.map Prod.fst) hEntry) (value_write hGood hEntry _) rfl
  | _ => exact absurd rfl hStage

/-! ## The calls that have taken effect -/

def StageOk (P : Params σ) (s : Store P.shardCount σ) (m : AList fun _ : Key => σ) (c : Call σ ρ) :
    Stage ρ → Prop
  | .before | .answered _ => True
  | .waiting => 0 < P.opts.maxKeys ∧ P.opts.maxKeys ≤ s.live ∧ m.lookup c.key = none
  | .creating => P.value s c.key = none ∧ m.lookup c.key = some (c.fn (P.create c.now) c.now).1
  | .serving => ∃ v, P.value s c.key = some v ∧ m.lookup c.key = some (c.fn v c.now).1
  | .never => False

/-- The map `m` is ahead of the store by the pending calls. -/
structure Refines (g : P.State ρ) (m : AList fun _ : Key => σ) : Prop where
  live : (m.keys.length : Int) = g.shared.live
  stage : ∀ (tid : Tid) (t : Thread P.shardCount σ ρ), g.threads[tid]? = some t →
    P.StageOk g.shared m t.call t.pc.stage
  idle : ∀ key, (∀ (tid : Tid) (t : Thread P.shardCount σ ρ), g.threads[tid]? = some t →
    t.call.key = key → ¬ t.pc.stage.Pending) →
    m.lookup key = P.value g.shared key

def promised (s : Store P.shardCount σ) (t : Thread P.shardCount σ ρ) : Option (Outcome ρ) :=
  match t.pc.stage with
  | .creating => some (.ok (t.call.fn (P.create t.call.now) t.call.now).2)
  | .serving => (P.value s t.call.key).map fun v => .ok (t.call.fn v t.call.now).2
  | .answered outcome => some outcome
  | _ => none

section Preservation

variable {g : P.State ρ} {m m' : AList fun _ : Key => σ} {t x : Thread P.shardCount σ ρ} {u : Tid}

theorem StageOk.congr {stage : Stage ρ} (h : P.StageOk s m c stage)
    (hValue : P.value s' c.key = P.value s c.key) (hLookup : m'.lookup c.key = m.lookup c.key)
    (hLive : s.live ≤ s'.live) : P.StageOk s' m' c stage := by
  cases stage with
  | before | answered => trivial
  | waiting =>
    obtain ⟨hMax, hFull, hNone⟩ := h
    exact ⟨hMax, by omega, hLookup.trans hNone⟩
  | creating =>
    obtain ⟨hNone, hSome⟩ := h
    exact ⟨hValue.trans hNone, hLookup.trans hSome⟩
  | serving =>
    obtain ⟨v, hOld, hSome⟩ := h
    exact ⟨v, hValue.trans hOld, hLookup.trans hSome⟩
  | never => exact h

/-- While a call holds its key's lock no other call on that key is pending. -/
theorem pending_unique (hLocks : Discipline g) (ht : g.threads[tid]? = some t)
    (hHolds : t.pc.holds (P.self t.call) = some (P.self t.call)) (hx : g.threads[u]? = some x)
    (hKey : x.call.key = t.call.key) (hPending : x.pc.stage.Pending) : u = tid := by
  refine hLocks.shard.unique hx (Pc.holds_of_pending _ hPending) ht (hHolds.trans ?_)
  exact congrArg (fun key => some (P.shardFor key)) hKey.symm

theorem Refines.own (hRef : Refines g m) (hLocks : Discipline g) (ht : g.threads[tid]? = some t)
    (hHolds : t.pc.holds (P.self t.call) = some (P.self t.call)) (hNot : ¬ t.pc.stage.Pending) :
    m.lookup t.call.key = P.value g.shared t.call.key := by
  refine hRef.idle _ fun u x hx hKey hPending => hNot ?_
  obtain rfl := pending_unique hLocks ht hHolds hx hKey hPending
  rw [ht] at hx
  cases hx
  exact hPending

theorem Refines.quiet (hRef : Refines g m) (ht : g.threads[tid]? = some t)
    (hStill : P.Still g.shared s') (hStage : pc'.stage = t.pc.stage)
    (history : List (Event (Outcome ρ))) :
    Refines ⟨s', g.threads.set tid ⟨t.call, pc'⟩, history⟩ m := by
  refine ⟨hRef.live.trans hStill.live.symm, ?_, ?_⟩
  · intro u x hx
    refine StageOk.congr (s := g.shared) (m := m) ?_ (hStill.value _) rfl hStill.live.ge
    rcases getElem?_set_cases hx ht with ⟨_, rfl⟩ | ⟨_, hOld⟩
    · simp only [hStage]
      exact hRef.stage tid t ht
    · exact hRef.stage u x hOld
  · intro key hIdle
    refine (hRef.idle key fun u x hx hKey => ?_).trans (hStill.value key).symm
    by_cases hEq : u = tid
    · subst hEq
      rw [ht] at hx
      cases hx
      have := hIdle u _ (getElem?_set_moved ht) hKey
      simpa only [hStage] using this
    · exact hIdle u x (getElem?_set_other hEq hx) hKey

/-- A step under the key's lock that changes what is known of that key only. -/
theorem Refines.act (hRef : Refines g m) (hLocks : Discipline g) (ht : g.threads[tid]? = some t)
    (hHolds : t.pc.holds (P.self t.call) = some (P.self t.call))
    (hLive : (m'.keys.length : Int) = s'.live) (hMore : g.shared.live ≤ s'.live)
    (hValue : ∀ key, key ≠ t.call.key → P.value s' key = P.value g.shared key)
    (hLookup : ∀ key, key ≠ t.call.key → m'.lookup key = m.lookup key)
    (hFull : 0 < P.opts.maxKeys → P.opts.maxKeys ≤ g.shared.live →
      m.lookup t.call.key = none → m'.lookup t.call.key = none)
    (hSelf : P.StageOk s' m' t.call pc'.stage)
    (hIdle : ¬ pc'.stage.Pending → m'.lookup t.call.key = P.value s' t.call.key)
    (history : List (Event (Outcome ρ))) :
    Refines ⟨s', g.threads.set tid ⟨t.call, pc'⟩, history⟩ m' := by
  refine ⟨hLive, ?_, ?_⟩
  · intro u x hx
    rcases getElem?_set_cases hx ht with ⟨_, rfl⟩ | ⟨hNe, hOld⟩
    · exact hSelf
    · have hStage := hRef.stage u x hOld
      by_cases hKey : x.call.key = t.call.key
      · have hNot : ¬ x.pc.stage.Pending :=
          fun hPending => hNe (pending_unique hLocks ht hHolds hOld hKey hPending)
        cases hCase : x.pc.stage with
        | before | answered => trivial
        | waiting =>
          rw [hCase] at hStage
          obtain ⟨hMax, hAll, hNone⟩ := hStage
          rw [hKey] at hNone
          exact ⟨hMax, hAll.trans hMore, hKey ▸ hFull hMax hAll hNone⟩
        | creating => exact absurd (.inl hCase) hNot
        | serving => exact absurd (.inr hCase) hNot
        | never =>
          rw [hCase] at hStage
          exact hStage
      · exact hStage.congr (hValue _ hKey) (hLookup _ hKey) hMore
  · intro key hNone
    by_cases hKey : key = t.call.key
    · subst hKey
      exact hIdle (hNone tid _ (getElem?_set_moved ht) rfl)
    · have hOld : m.lookup key = P.value g.shared key := by
        refine hRef.idle key fun u x hx hEq => ?_
        have hNe : u ≠ tid := by
          rintro rfl
          rw [ht] at hx
          cases hx
          exact hKey hEq.symm
        exact hNone u x (getElem?_set_other hNe hx) hEq
      rw [hLookup key hKey, hOld]
      exact (hValue key hKey).symm

theorem promised_of_not_pending (hNot : ¬ x.pc.stage.Pending) :
    promised s' x = promised s x := by
  unfold promised
  cases hCase : x.pc.stage with
  | serving => exact absurd (.inr hCase) hNot
  | _ => rfl

theorem promised_congr (hValue : P.value s' x.call.key = P.value s x.call.key) :
    promised s' x = promised s x := by
  unfold promised
  rw [hValue]

theorem Move.others (hMove : P.Move t.call g.shared s' t.pc pc') (hLocks : Discipline g)
    (ht : g.threads[tid]? = some t) (hx : g.threads[u]? = some x) (hNe : u ≠ tid) :
    promised s' x = promised g.shared x := by
  cases hMove with
  | quiet _ hStill | full _ _ _ hStill | hit _ _ _ hStill | reject _ _ _ hStill =>
    exact promised_congr (hStill.value _)
  | reserve _ _ _ hValue => exact promised_congr (hValue _)
  | create hBefore _ hValue =>
    by_cases hKey : x.call.key = t.call.key
    · have hHolds := Pc.holds_of_pending (P.self t.call) (.inl hBefore)
      exact promised_of_not_pending fun hPending =>
        hNe (pending_unique hLocks ht hHolds hx hKey hPending)
    · exact promised_congr ((hValue _).trans (if_neg hKey))
  | run hBefore _ _ hValue =>
    by_cases hKey : x.call.key = t.call.key
    · have hHolds := Pc.holds_of_pending (P.self t.call) (.inr hBefore)
      exact promised_of_not_pending fun hPending =>
        hNe (pending_unique hLocks ht hHolds hx hKey hPending)
    · exact promised_congr ((hValue _).trans (if_neg hKey))

section Points

variable (hRef : Refines g m) (hLocks : Discipline g) (hGood : P.Good g.shared)
  (ht : g.threads[tid]? = some t) (history : List (Event (Outcome ρ)))

include hRef hLocks hGood ht

theorem Refines.full (hBefore : t.pc.stage = .before) (hAfter : pc'.stage = .waiting)
    (hHolds : t.pc.holds (P.self t.call) = some (P.self t.call)) (hStill : P.Still g.shared s')
    (hNew : ¬ P.Stored g.shared t.call.key) (hMax : 0 < P.opts.maxKeys)
    (hFull : P.opts.maxKeys ≤ g.shared.live) :
    Refines ⟨s', g.threads.set tid ⟨t.call, pc'⟩, history⟩ m := by
  have hOwn := hRef.own hLocks ht hHolds (by simp [hBefore, Stage.Pending])
  have hNone : m.lookup t.call.key = none := by
    rw [hOwn, ← Option.not_isSome_iff_eq_none, ← hGood.stored_iff]
    exact hNew
  refine hRef.act hLocks ht hHolds (hRef.live.trans hStill.live.symm) hStill.live.ge
    (fun key _ => hStill.value key) (fun _ _ => rfl) (fun _ _ h => h) ?_ ?_ history
  · rw [hAfter]
    exact ⟨hMax, hStill.live ▸ hFull, hNone⟩
  · intro _
    rw [hOwn, hStill.value]

theorem Refines.hit (hBefore : t.pc.stage = .before) (hAfter : pc'.stage = .serving)
    (hHolds : t.pc.holds (P.self t.call) = some (P.self t.call)) (hStill : P.Still g.shared s')
    (hStored : P.Stored g.shared t.call.key) :
    promised s' ⟨t.call, pc'⟩ = some ((cappedMap P.opts.maxKeys P.create).apply m t.call).2 ∧
    Refines ⟨s', g.threads.set tid ⟨t.call, pc'⟩, history⟩
      ((cappedMap P.opts.maxKeys P.create).apply m t.call).1 := by
  have hOwn := hRef.own hLocks ht hHolds (by simp [hBefore, Stage.Pending])
  obtain ⟨v, hv⟩ := Option.isSome_iff_exists.mp ((hGood.stored_iff _).mp hStored)
  have hLookup : m.lookup t.call.key = some v := hOwn.trans hv
  rw [CappedMap.apply_hit hLookup]
  refine ⟨by simp only [promised, hAfter, hStill.value, hv, Option.map_some], ?_⟩
  refine hRef.act hLocks ht hHolds ?_ hStill.live.ge (fun key _ => hStill.value key) ?_ ?_ ?_ ?_
    history
  · rw [CappedMap.length_insert_mem _ (CappedMap.mem_of_lookup hLookup), hRef.live, hStill.live]
  · exact fun key hNe => AList.lookup_insert_ne hNe
  · intro _ _ hNone
    rw [hLookup] at hNone
    cases hNone
  · rw [hAfter]
    exact ⟨v, (hStill.value _).trans hv, AList.lookup_insert m⟩
  · exact fun hNot => absurd (.inr hAfter) hNot

theorem Refines.reserve (hBefore : t.pc.stage = .before) (hAfter : pc'.stage = .creating)
    (hHolds : t.pc.holds (P.self t.call) = some (P.self t.call))
    (hValue : ∀ key, P.value s' key = P.value g.shared key) (hMore : s'.live = g.shared.live + 1)
    (hNew : ¬ P.Stored g.shared t.call.key)
    (hRoom : ¬ (0 < P.opts.maxKeys ∧ P.opts.maxKeys ≤ g.shared.live)) :
    promised s' ⟨t.call, pc'⟩ = some ((cappedMap P.opts.maxKeys P.create).apply m t.call).2 ∧
    Refines ⟨s', g.threads.set tid ⟨t.call, pc'⟩, history⟩
      ((cappedMap P.opts.maxKeys P.create).apply m t.call).1 := by
  have hLive := hRef.live
  have hOwn := hRef.own hLocks ht hHolds (by simp [hBefore, Stage.Pending])
  have hNone : P.value g.shared t.call.key = none := by
    rw [← Option.not_isSome_iff_eq_none, ← hGood.stored_iff]
    exact hNew
  have hLookup : m.lookup t.call.key = none := hOwn.trans hNone
  rw [CappedMap.apply_new hLookup (hLive ▸ hRoom)]
  refine ⟨by simp only [promised, hAfter], ?_⟩
  refine hRef.act hLocks ht hHolds ?_ (by omega) (fun key _ => hValue key) ?_ ?_ ?_ ?_ history
  · rw [CappedMap.length_insert_new _ hLookup]
    omega
  · exact fun key hNe => AList.lookup_insert_ne hNe
  · exact fun hMax hFull _ => absurd ⟨hMax, hFull⟩ hRoom
  · rw [hAfter]
    exact ⟨(hValue _).trans hNone, AList.lookup_insert m⟩
  · exact fun hNot => absurd (.inl hAfter) hNot

omit hGood in
theorem Refines.create (hBefore : t.pc.stage = .creating) (hAfter : pc'.stage = .serving)
    (hValue : ∀ key, P.value s' key =
      if key = t.call.key then some (P.create t.call.now) else P.value g.shared key)
    (hSame : s'.live = g.shared.live) :
    Refines ⟨s', g.threads.set tid ⟨t.call, pc'⟩, history⟩ m := by
  have hStage := hRef.stage tid t ht
  rw [hBefore] at hStage
  have hHolds := Pc.holds_of_pending (P.self t.call) (.inl hBefore)
  refine hRef.act hLocks ht hHolds (hRef.live.trans hSame.symm) hSame.ge
    (fun key hNe => (hValue key).trans (if_neg hNe)) (fun _ _ => rfl) (fun _ _ h => h) ?_ ?_ history
  · rw [hAfter]
    exact ⟨_, (hValue _).trans (if_pos rfl), hStage.2⟩
  · exact fun hNot => absurd (.inr hAfter) hNot

omit hGood in
theorem Refines.run {v : σ} (hBefore : t.pc.stage = .serving)
    (hAfter : pc'.stage = .answered (.ok (t.call.fn v t.call.now).2))
    (hOld : P.value g.shared t.call.key = some v)
    (hValue : ∀ key, P.value s' key =
      if key = t.call.key then some (t.call.fn v t.call.now).1 else P.value g.shared key)
    (hSame : s'.live = g.shared.live) :
    Refines ⟨s', g.threads.set tid ⟨t.call, pc'⟩, history⟩ m := by
  have hStage := hRef.stage tid t ht
  rw [hBefore] at hStage
  obtain ⟨w, hw, hLookup⟩ := hStage
  rw [hOld] at hw
  cases hw
  have hHolds := Pc.holds_of_pending (P.self t.call) (.inr hBefore)
  refine hRef.act hLocks ht hHolds (hRef.live.trans hSame.symm) hSame.ge
    (fun key hNe => (hValue key).trans (if_neg hNe)) (fun _ _ => rfl) (fun _ _ h => h) ?_ ?_ history
  · rw [hAfter]
    trivial
  · intro _
    rw [hLookup, hValue, if_pos rfl]

omit hGood in
theorem Refines.reject (hBefore : t.pc.stage = .waiting)
    (hAfter : pc'.stage = .answered .errMaxKeysExceeded)
    (hHolds : t.pc.holds (P.self t.call) = some (P.self t.call)) (hStill : P.Still g.shared s') :
    promised s' ⟨t.call, pc'⟩ = some ((cappedMap P.opts.maxKeys P.create).apply m t.call).2 ∧
    Refines ⟨s', g.threads.set tid ⟨t.call, pc'⟩, history⟩
      ((cappedMap P.opts.maxKeys P.create).apply m t.call).1 := by
  have hLive := hRef.live
  have hStage := hRef.stage tid t ht
  rw [hBefore] at hStage
  obtain ⟨hMax, hFull, hLookup⟩ := hStage
  have hOwn := hRef.own hLocks ht hHolds (by simp [hBefore, Stage.Pending])
  rw [CappedMap.apply_full hLookup hMax (hLive ▸ hFull)]
  refine ⟨by simp only [promised, hAfter], ?_⟩
  refine hRef.act hLocks ht hHolds (hLive.trans hStill.live.symm) hStill.live.ge
    (fun key _ => hStill.value key) (fun _ _ => rfl) (fun _ _ h => h) ?_ ?_ history
  · rw [hAfter]
    trivial
  · intro _
    rw [hOwn, hStill.value]

/-- The map answers at the step that hits, reserves or refuses, and at no
other. -/
theorem Move.point (hMove : P.Move t.call g.shared s' t.pc pc') :
    (Refines ⟨s', g.threads.set tid ⟨t.call, pc'⟩, history⟩ m ∧
      promised s' ⟨t.call, pc'⟩ = promised g.shared t) ∨
    (promised g.shared t = none ∧
      promised s' ⟨t.call, pc'⟩ = some ((cappedMap P.opts.maxKeys P.create).apply m t.call).2 ∧
      Refines ⟨s', g.threads.set tid ⟨t.call, pc'⟩, history⟩
        ((cappedMap P.opts.maxKeys P.create).apply m t.call).1) := by
  cases hMove with
  | quiet hSame hStill =>
    refine .inl ⟨hRef.quiet ht hStill hSame history, ?_⟩
    simp only [promised, hSame, hStill.value]
  | full hBefore hAfter hHolds hStill hNew hMax hFull =>
    refine .inl ⟨hRef.full hLocks hGood ht history hBefore hAfter hHolds hStill hNew hMax hFull, ?_⟩
    simp only [promised, hBefore, hAfter]
  | hit hBefore hAfter hHolds hStill hStored =>
    refine .inr ⟨by simp only [promised, hBefore], ?_⟩
    exact hRef.hit hLocks hGood ht history hBefore hAfter hHolds hStill hStored
  | reserve hBefore hAfter hHolds hValue hMore hNew hRoom =>
    refine .inr ⟨by simp only [promised, hBefore], ?_⟩
    exact hRef.reserve hLocks hGood ht history hBefore hAfter hHolds hValue hMore hNew hRoom
  | create hBefore hAfter hValue hSame =>
    refine .inl ⟨hRef.create hLocks ht history hBefore hAfter hValue hSame, ?_⟩
    simp only [promised, hBefore, hAfter, hValue, if_true, Option.map_some]
  | run hBefore hAfter hOld hValue hSame =>
    refine .inl ⟨hRef.run hLocks ht history hBefore hAfter hOld hValue hSame, ?_⟩
    simp only [promised, hBefore, hAfter, hOld, Option.map_some]
  | reject hBefore hAfter hHolds hStill =>
    refine .inr ⟨by simp only [promised, hBefore], ?_⟩
    exact hRef.reject hLocks ht history hBefore hAfter hHolds hStill

end Points

end Preservation

/-! ## Every run -/

theorem Refines.start {g : P.State ρ} {m : AList fun _ : Key => σ} (hRef : Refines g m)
    (call : Call σ ρ) (history : List (Event (Outcome ρ))) :
    Refines ⟨g.shared, g.threads ++ [⟨call, .lock⟩], history⟩ m := by
  refine ⟨hRef.live, ?_, ?_⟩
  · intro tid t ht
    rcases getElem?_snoc_cases ht with ⟨_, rfl⟩ | hOld
    · trivial
    · exact hRef.stage tid t hOld
  · intro key hIdle
    refine hRef.idle key fun tid t ht hKey => hIdle tid t ?_ hKey
    rw [List.getElem?_append_left (List.getElem?_eq_some_iff.mp ht).1, ht]

theorem done_of_result {t : Thread P.shardCount σ ρ} {o : Outcome ρ}
    (hResult : P.program.result t = some o) : t.pc = .done o := by
  obtain ⟨c, pc⟩ := t
  cases pc with
  | done outcome => exact congrArg Pc.done (Option.some.inj hResult)
  | _ => cases hResult

theorem points (hEv : P.ev = .evictReject) (hTTL : P.opts.keyTTL ≤ 0) :
    Points (P.program : Program _ (Thread P.shardCount σ ρ) _ _ _) (fun _ _ => True)
      (cappedMap P.opts.maxKeys P.create) Thread.call promised Refines where
  init := by
    refine ⟨rfl, ?_, ?_⟩
    · intro tid t ht
      cases ht
    · intro key _
      rw [value, hEv]
      rfl
  input_step tid choice s t s' t' hStep := by
    obtain ⟨out, _, hEq⟩ := Option.map_eq_some_iff.mp hStep
    cases hEq
    rfl
  finished tid choice s t o hResult := by
    simp only [program, done_of_result hResult, advance, Option.map_none]
  result s t o hResult := by
    simp only [promised, done_of_result hResult, Pc.stage]
  step g act g' m hReach _ hNext hRef := by
    have hInv := inv hReach
    rcases next_cases hNext with ⟨call, _, rfl⟩ | ⟨tid, choice, t, s', pc', _, ht, hStep, rfl⟩
    · refine .inl ⟨hRef.start call _, fun tid => ?_⟩
      rcases Nat.lt_trichotomy tid g.threads.length with hLt | rfl | hGt
      · rw [promisedAt, promisedAt, List.getElem?_append_left hLt]
      · rw [promisedAt, promisedAt, List.getElem?_concat_length, List.getElem?_eq_none le_rfl]
        rfl
      · rw [promisedAt, promisedAt, List.getElem?_eq_none (by simp; omega),
          List.getElem?_eq_none hGt.le]
    · have hStage := hRef.stage tid t ht
      have hMove := hStep.move hEv hTTL hInv.good (hInv.ok tid t ht)
        (fun hNever => by rw [hNever] at hStage; exact hStage)
        (fun hWaiting => by rw [hWaiting] at hStage; exact hStage.2.1)
        (fun hCreating => by
          rw [hCreating] at hStage
          rw [hInv.good.stored_iff, hStage.1]
          exact Bool.false_ne_true)
      have hSelf : promisedAt promised (⟨s', g.threads.set tid ⟨t.call, pc'⟩,
          g.history ++ returned tid (outcome? pc')⟩ : P.State ρ) tid =
          promised s' ⟨t.call, pc'⟩ := by
        rw [promisedAt, getElem?_set_moved ht]
        rfl
      have hOthers : ∀ u, u ≠ tid → promisedAt promised (⟨s', g.threads.set tid ⟨t.call, pc'⟩,
          g.history ++ returned tid (outcome? pc')⟩ : P.State ρ) u = promisedAt promised g u := by
        intro u hNe
        rw [promisedAt, List.getElem?_set_ne (Ne.symm hNe), promisedAt]
        cases hx : g.threads[u]? with
        | none => rfl
        | some x => exact hMove.others hInv.locks ht hx hNe
      rcases hMove.point hRef hInv.locks hInv.good ht (g.history ++ returned tid (outcome? pc')) with
        ⟨hNew, hSame⟩ | ⟨hBefore, hAfter, hNew⟩
      · refine .inl ⟨hNew, fun u => ?_⟩
        by_cases hEq : u = tid
        · subst hEq
          rw [hSelf, hSame, promisedAt, ht]
          rfl
        · exact hOthers u hEq
      · exact .inr ⟨tid, t, ht, hBefore, hSelf.trans hAfter, hNew, hOthers⟩

section Returned

variable {Q : Spec (AList fun _ : Key => σ) (Call σ ρ) (Outcome ρ)} {g : P.State ρ}
  {order : List (Tid × Call σ ρ)}

theorem keys_of_returned (hOrder : Points.Ordered Q Thread.call promised Refines g order)
    (hAll : ∀ t ∈ g.threads, ∃ o, promised g.shared t = some o) :
    ((order.map Prod.snd).map Call.key).toFinset = (g.threads.map fun t => t.call.key).toFinset := by
  ext key
  simp only [List.mem_toFinset, List.mem_map]
  constructor
  · rintro ⟨_, ⟨x, hx, rfl⟩, rfl⟩
    obtain ⟨t, ht, hCall⟩ := hOrder.calls x hx
    exact ⟨t, List.mem_of_getElem? ht, by rw [hCall]⟩
  · rintro ⟨t, hMem, rfl⟩
    obtain ⟨o, hPromised⟩ := hAll t hMem
    obtain ⟨tid, ht⟩ := List.mem_iff_getElem?.mp hMem
    obtain ⟨i, hi, _⟩ := hOrder.index ht hPromised
    exact ⟨t.call, ⟨_, List.mem_of_getElem? hi, rfl⟩, rfl⟩

end Returned

/-- With no expiry and no eviction the store is linearizable to the capped
map.  The answers on a key are those of the key on its own, or refusals.
Once all calls have returned, the order is one of all of them, and the keys
answered with a result are as many as the cap and the calls allow. -/
theorem linearizable (hEv : P.ev = .evictReject) (hTTL : P.opts.keyTTL ≤ 0) {g : P.State ρ}
    (hReach : P.program.Reachable g) :
    ∃ order : List (Tid × Call σ ρ),
      Linearization (cappedMap P.opts.maxKeys P.create) Thread.call g order ∧
      (∀ key, CappedMap.Independent P.create key (order.map Prod.snd)
        ((cappedMap P.opts.maxKeys P.create).outcomes (order.map Prod.snd))
        (((cappedMap P.opts.maxKeys P.create).after (order.map Prod.snd)).lookup key)) ∧
      ((∀ t ∈ g.threads, ∃ outcome, t.pc = .done outcome) →
        (order.map Prod.fst).Perm (List.range g.threads.length) ∧
        ∃ admitted : Finset Key,
          (∀ t ∈ g.threads, ∀ outcome, t.pc = .done outcome →
            ((∃ r, outcome = .ok r) ↔ t.call.key ∈ admitted)) ∧
          (0 < P.opts.maxKeys → (admitted.card : Int) =
            min ((g.threads.map fun t => t.call.key).toFinset.card : Int) P.opts.maxKeys)) := by
  have hPoints := points (ρ := ρ) hEv hTTL
  obtain ⟨order, hOrder⟩ := hPoints.ordered hReach
  refine ⟨order, hOrder.linearization hPoints hReach, fun key => CappedMap.independent key _, ?_⟩
  intro hDone
  have hPromised : ∀ t ∈ g.threads, ∀ o, t.pc = .done o → promised g.shared t = some o := by
    intro t _ o hPc
    simp only [promised, hPc, Pc.stage]
  have hAll : ∀ t ∈ g.threads, ∃ o, promised g.shared t = some o := by
    intro t hMem
    obtain ⟨o, hPc⟩ := hDone t hMem
    exact ⟨o, hPromised t hMem o hPc⟩
  refine ⟨hOrder.perm hAll,
    ((cappedMap P.opts.maxKeys P.create).after (order.map Prod.snd)).keys.toFinset, ?_, ?_⟩
  · intro t hMem o hPc
    obtain ⟨tid, ht⟩ := List.mem_iff_getElem?.mp hMem
    obtain ⟨i, hi, hOutcome⟩ := hOrder.index ht (hPromised t hMem o hPc)
    have hCall : (order.map Prod.snd)[i]? = some t.call := by rw [List.getElem?_map, hi]; rfl
    rw [List.mem_toFinset, ← AList.mem_keys]
    exact CappedMap.ok_iff _ hCall hOutcome
  · intro hMax
    rw [List.toFinset_card_of_nodup (AList.keys_nodup _), CappedMap.length_after hMax,
      keys_of_returned hOrder hAll]

def demoRefusal : List (Act (Call Nat Nat) (List Key)) :=
  [.start (demoCall 97 5), .start (demoCall 98 5)] ++ steps 0 9 ++ steps 1 11

theorem linearizable_demoRefusal :
    let g := (demo .evictReject).program.final (fun _ _ => True) demoRefusal
    pcOf g 1 = some (.done .errMaxKeysExceeded) ∧
    ∃ order, Linearization (cappedMap 1 fun _ => 0) Thread.call g order := by
  refine ⟨by decide +kernel, ?_⟩
  obtain ⟨order, hOrder, _⟩ := linearizable (P := demo .evictReject) (ρ := Nat) rfl (by decide)
    (.final demoRefusal (by decide +kernel))
  exact ⟨order, hOrder⟩

end Params

end Kaka.Memory
