import Kaka.Layered.Stack

/-! # Scripts that the server has forgotten

`Script.Run` trusts the SHA that its limiter has cached, and loads the script
again when the server answers NOSCRIPT. A call meets that answer only where
the server has forgotten the script since it was loaded, at most twice, and
the second time only where it has done so since the call's own load. It loads
the script at most once before its first `EVALSHA` and at most once after it.
-/

namespace Kaka.Layered

open Interleaving Redis

/-- `loaded`: the server has carried out a `SCRIPT LOAD`. `load`: `Script.Load`
has returned to its call, from the reload where `again` says so. -/
inductive CacheEvent where
  | loaded (tid : Tid)
  | load (tid : Tid) (again : Bool)
  | flushed
  | missing (tid : Tid) (again : Bool)
  deriving DecidableEq

section Events

variable {α : Type}

def cacheEvents (tid : Tid) (b : Backend α) : Input → Place → List CacheEvent
  | .net (.replied _), .load _ | .net (.lost _ none), .load _ => [.loaded tid]
  | .net (.lost _ (some _)), .load again => [.loaded tid, .load tid again]
  | .net (.down _), .load again | .go, .store again => [.load tid again]
  | .net (.replied _), .eval again => if b.loaded then [] else [.missing tid again]
  | .go, .flush => [.flushed]
  | _, _ => []

/-- A script loaded in `log`, by a call that meets `p`, is there unless the
server has forgotten it since. -/
def Held (p : Tid → Prop) (loaded : Bool) (log : List CacheEvent) : Prop :=
  ∃ before u later, log = before ++ .loaded u :: later ∧ p u ∧ (loaded = false → .flushed ∈ later)

def Trusts (tid : Tid) (loaded : Bool) (log : List CacheEvent) : Place → Prop
  | .store _ | .eval true => Held (· = tid) loaded log
  | .eval false => Held (fun _ => True) loaded log
  | _ => True

/-- How far a call has come: it is before the end of its load, of its first
`EVALSHA`, of its reload, of its second `EVALSHA`, or past them all. -/
def Place.stage : Place → Nat
  | .enter | .consult | .remote | .report _ .remote | .load false | .store false => 0
  | .eval false => 1
  | .load true | .store true => 2
  | .eval true => 3
  | _ => 4

/-- The call and the stage that an event brings to its end. -/
def CacheEvent.turn : CacheEvent → Option (Tid × Nat)
  | .load tid again => some (tid, bif again then 2 else 0)
  | .missing tid again => some (tid, bif again then 3 else 1)
  | _ => none

/-- The script was loaded and has been forgotten since; where the call has
loaded it itself, since then. -/
def Forgotten (before : List CacheEvent) : CacheEvent → Prop
  | .missing tid again => ∃ earlier u later, before = earlier ++ .loaded u :: later ∧
      .flushed ∈ later ∧ (again = true → u = tid)
  | _ => True

def passed (g : Config (Backend α) Frame Answer) (tid : Tid) (stage : Nat) : Bool :=
  (g.threads[tid]?).any fun t => stage < t.place.stage

structure CacheInv (log : List CacheEvent) (g : Config (Backend α) Frame Answer) : Prop where
  forgotten : Accounts Forgotten log
  turns : ∀ (e : CacheEvent) (tid : Tid) (stage : Nat), e.turn = some (tid, stage) →
    log.count e ≤ (passed g tid stage).toNat
  sha : ∀ limiter, g.shared.sha limiter = true → Held (fun _ => True) g.shared.loaded log
  trusts : ∀ (tid : Tid) (t : Frame), g.threads[tid]? = some t → Trusts tid g.shared.loaded log t.place

end Events

variable {α : Type} {script : Option (Entry α) → Int → Option (Entry α) × Reply} {name : String}
  {opts : Options} {k : Sinks} {key : List UInt8} {tid : Tid} {limiter : Nat} {b b' : Backend α}
  {input : Input} {place place' : Place} {log : List CacheEvent} {loaded : Bool} {p q : Tid → Prop}

theorem Held.mono (h : Held p loaded log) (hp : ∀ u, p u → q u) : Held q loaded log := by
  obtain ⟨before, u, later, hLog, hu, hFlushed⟩ := h
  exact ⟨before, u, later, hLog, hp u hu, hFlushed⟩

theorem Held.append (h : Held p loaded log) (events : List CacheEvent) {loaded' : Bool}
    (hLoaded : loaded' = false → loaded = true → .flushed ∈ events) : Held p loaded' (log ++ events) := by
  obtain ⟨before, u, later, rfl, hu, hFlushed⟩ := h
  refine ⟨before, u, later ++ events, by simp, hu, ?_⟩
  intro hNow
  rw [List.mem_append]
  cases loaded with
  | true => exact .inr (hLoaded hNow rfl)
  | false => exact .inl (hFlushed rfl)

theorem Trusts.append (h : Trusts tid loaded log place) (events : List CacheEvent) {loaded' : Bool}
    (hLoaded : loaded' = false → loaded = true → .flushed ∈ events) :
    Trusts tid loaded' (log ++ events) place := by
  cases place with
  | store again => exact Held.append h events hLoaded
  | eval again => cases again <;> exact Held.append h events hLoaded
  | _ => trivial

theorem held_cons (log : List CacheEvent) (tid : Tid) (events : List CacheEvent) :
    Held (· = tid) true (log ++ .loaded tid :: events) :=
  ⟨log, tid, events, rfl, rfl, nofun⟩

/-! ## One step -/

inductive Caching (tid : Tid) (b b' : Backend α) : Place → Place → List CacheEvent → Prop
  | quiet {place place' : Place} {events : List CacheEvent} (hEvents : ∀ e ∈ events, ∀ log, Forgotten log e)
      (hLoaded : b'.loaded = b.loaded) (hSha : b'.sha = b.sha)
      (hPlace : ∀ log, Trusts tid b.loaded log place → (∀ limiter, b.sha limiter = true →
        Held (fun _ => True) b.loaded log) → Trusts tid b.loaded log place') :
      Caching tid b b' place place' events
  | loaded {place place' : Place} {events : List CacheEvent} (hEvents : ∀ e ∈ events, ∀ log, Forgotten log e)
      (hLoaded : b'.loaded = true) (hSha : b'.sha = b.sha)
      (hPlace : ∀ log, Held (· = tid) true log → Trusts tid true log place') :
      Caching tid b b' place place' (.loaded tid :: events)
  | store {again : Bool} (hLoaded : b'.loaded = b.loaded) :
      Caching tid b b' (.store again) (.eval again) [.load tid again]
  | missing {again : Bool} {place' : Place} (hLoaded : b.loaded = false) (hSame : b' = b)
      (hPlace : ∀ log, Trusts tid b.loaded log place') :
      Caching tid b b' (.eval again) place' [.missing tid again]
  | flushed (hLoaded : b'.loaded = false) (hSha : b'.sha = b.sha) :
      Caching tid b b' .flush .flushed [.flushed]

theorem trusts_evalFailed (again : Bool) (err : String) :
    Trusts tid loaded log (evalFailed name opts k again err) := by
  unfold evalFailed
  split <;> trivial

theorem Moves.caching (h : Moves script name opts k key tid limiter b input place b' place') :
    Caching tid b b' place place' (cacheEvents tid b input place) := by
  cases h with
  | blank | enter | localError | denied | passed | invalid | unknown | loadDown =>
    exact .quiet (by simp [cacheEvents, Forgotten]) rfl rfl fun _ _ _ => trivial
  | cached _ hSha => exact .quiet (by simp [cacheEvents]) rfl rfl fun _ _ hKnown => hKnown limiter hSha
  | loaded => exact .loaded (by simp) rfl rfl fun _ hHeld => hHeld
  | reload => exact .loaded (by simp) rfl rfl fun _ _ => trivial
  | loadLost => exact .loaded (by simp [Forgotten]) rfl rfl fun _ _ => trivial
  | store => exact .store rfl
  | @served now again hLoaded =>
    have hEvents : cacheEvents tid b (.net (.replied now)) (.eval again) = [] := if_pos hLoaded
    rw [hEvents]
    exact .quiet (by simp) rfl rfl fun _ _ _ => trivial
  | @missing now again hLoaded =>
    have hEvents : cacheEvents tid b (.net (.replied now)) (.eval again) = [.missing tid again] :=
      if_neg (Bool.eq_false_iff.mp hLoaded)
    rw [hEvents]
    exact .missing hLoaded rfl fun _ => trusts_evalFailed again noScript
  | repeated =>
    unfold Backend.run
    refine .quiet (by simp [cacheEvents]) ?_ ?_ fun _ hTrusts _ => hTrusts <;> split <;> rfl
  | evalLost =>
    unfold Backend.run
    refine .quiet (by simp [cacheEvents]) ?_ ?_ fun _ _ _ => trusts_evalFailed _ _ <;> split <;> rfl
  | evalDown => exact .quiet (by simp [cacheEvents]) rfl rfl fun _ _ _ => trusts_evalFailed _ _
  | @reported next => cases next <;> exact .quiet (by simp [cacheEvents]) rfl rfl fun _ _ _ => trivial
  | report => exact .quiet (by simp [cacheEvents]) rfl rfl fun _ _ _ => trivial
  | flush => exact .flushed rfl rfl

theorem stage_failed (err : String) : (failed opts k err).stage = 4 := rfl

theorem stage_served (r : Result) : (served k r).stage = 4 := rfl

theorem stage_evalFailed (again : Bool) (err : String) :
    (Place.eval again).stage < (evalFailed name opts k again err).stage := by
  unfold evalFailed
  split
  · rename_i hAgain
    rw [Bool.and_eq_true, Bool.not_eq_true'] at hAgain
    rw [hAgain.2]
    decide
  · rw [stage_failed]
    cases again <;> decide

theorem Moves.stage_le (h : Moves script name opts k key tid limiter b input place b' place') :
    place.stage ≤ place'.stage := by
  cases h with
  | missing | evalLost | evalDown => exact (stage_evalFailed _ _).le
  | @loadLost _ _ again | @loadDown _ again =>
    rw [stage_failed]
    cases again <;> decide
  | @served _ again =>
    rw [stage_served]
    cases again <;> decide
  | @loaded _ again | @reload _ again | @store again | @repeated _ again => cases again <;> decide
  | @reported next | @report _ _ next => cases next <;> exact le_rfl
  | flush => exact le_rfl
  | _ => exact Nat.zero_le _

/-- An event that ends a stage is the call's own, and the call is past the stage with it. -/
theorem Moves.turned (h : Moves script name opts k key tid limiter b input place b' place') {e : CacheEvent}
    (hMem : e ∈ cacheEvents tid b input place) {u : Tid} {stage : Nat} (hTurn : e.turn = some (u, stage)) :
    u = tid ∧ place.stage ≤ stage ∧ stage < place'.stage := by
  cases h with
  | @loadLost _ _ again =>
    rcases List.mem_cons.mp hMem with rfl | hLast
    · cases hTurn
    · obtain rfl := List.mem_singleton.mp hLast
      cases hTurn
      rw [stage_failed]
      cases again <;> exact ⟨rfl, by decide, by decide⟩
  | @loadDown _ again =>
    obtain rfl := List.mem_singleton.mp hMem
    cases hTurn
    rw [stage_failed]
    cases again <;> exact ⟨rfl, by decide, by decide⟩
  | @store again =>
    obtain rfl := List.mem_singleton.mp hMem
    cases hTurn
    cases again <;> exact ⟨rfl, by decide, by decide⟩
  | served hLoaded =>
    rw [cacheEvents, if_pos hLoaded] at hMem
    cases hMem
  | @missing _ again hLoaded =>
    rw [cacheEvents, if_neg (Bool.eq_false_iff.mp hLoaded)] at hMem
    obtain rfl := List.mem_singleton.mp hMem
    cases hTurn
    have hNext : (Place.eval again).stage < (evalFailed name opts k again noScript).stage :=
      stage_evalFailed again noScript
    cases again <;> exact ⟨rfl, le_rfl, hNext⟩
  | loaded | reload | flush =>
    obtain rfl := List.mem_singleton.mp hMem
    cases hTurn
  | _ => cases hMem

theorem nodup_cacheEvents (tid : Tid) (b : Backend α) (input : Input) (place : Place) :
    (cacheEvents tid b input place).Nodup := by
  unfold cacheEvents
  split
  case h_6 => split <;> simp
  all_goals simp

/-! ## Every run -/

section Runs

variable {g : Config (Backend α) Frame Answer} {t : Frame} {history : List (Event Answer)}
  {events : List CacheEvent}

theorem Caching.flushed_mem (h : Caching tid b b' place place' events) (hNow : b'.loaded = false)
    (hBefore : b.loaded = true) : .flushed ∈ events := by
  cases h with
  | quiet _ hLoaded | store hLoaded =>
    rw [hLoaded, hBefore] at hNow
    cases hNow
  | loaded _ hLoaded =>
    rw [hLoaded] at hNow
    cases hNow
  | missing hLoaded =>
    rw [hBefore] at hLoaded
    cases hLoaded
  | flushed => exact List.mem_cons_self

theorem Caching.sha (h : Caching tid b b' place place' events) (hTrusts : Trusts tid b.loaded log place)
    (hSha : ∀ limiter, b.sha limiter = true → Held (fun _ => True) b.loaded log) (limiter : Nat)
    (hKnown : b'.sha limiter = true) : Held (fun _ => True) b'.loaded (log ++ events) := by
  have hFlushed := h.flushed_mem
  cases h with
  | quiet _ _ hSame | loaded _ _ hSame | flushed _ hSame =>
    rw [hSame] at hKnown
    exact (hSha limiter hKnown).append _ hFlushed
  | store => exact (Held.mono hTrusts fun _ _ => trivial).append _ hFlushed
  | missing _ hSame =>
    rw [hSame] at hKnown
    exact (hSha limiter hKnown).append _ hFlushed

theorem Caching.trusts (h : Caching tid b b' place place' events) (hTrusts : Trusts tid b.loaded log place)
    (hSha : ∀ limiter, b.sha limiter = true → Held (fun _ => True) b.loaded log) :
    Trusts tid b'.loaded (log ++ events) place' := by
  have hFlushed := h.flushed_mem
  cases h with
  | quiet _ _ _ hPlace => exact (hPlace log hTrusts hSha).append _ hFlushed
  | loaded _ hLoaded _ hPlace =>
    rw [hLoaded]
    exact hPlace _ (held_cons log tid _)
  | @store again =>
    cases again with
    | true => exact Held.append hTrusts _ hFlushed
    | false => exact (Held.mono hTrusts fun _ _ => trivial).append _ hFlushed
  | missing _ _ hPlace => exact (hPlace log).append _ hFlushed
  | flushed => trivial

theorem Caching.forgotten (h : Caching tid b b' place place' events) (hTrusts : Trusts tid b.loaded log place)
    (hLog : Accounts Forgotten log) : Accounts Forgotten (log ++ events) := by
  cases h with
  | quiet hEvents => exact hLog.append hEvents
  | loaded hEvents =>
    refine hLog.append ?_
    rw [List.forall_mem_cons]
    exact ⟨fun _ => trivial, hEvents⟩
  | store | flushed => exact hLog.snoc trivial
  | @missing again _ hLoaded =>
    rw [hLoaded] at hTrusts
    refine hLog.snoc ?_
    cases again with
    | true =>
      obtain ⟨before, u, later, rfl, rfl, hFlushed⟩ := hTrusts
      exact ⟨before, u, later, rfl, hFlushed rfl, fun _ => rfl⟩
    | false =>
      obtain ⟨before, u, later, rfl, _, hFlushed⟩ := hTrusts
      exact ⟨before, u, later, rfl, hFlushed rfl, nofun⟩

/-- What a step adds to the count of an event, the stages of its call make room for. -/
theorem CacheInv.count_le (h : CacheInv log g) (ht : g.threads[tid]? = some t)
    (hMoves : Moves script name opts k key tid t.limiter g.shared input t.place b' place')
    {e : CacheEvent} {u : Tid} {stage : Nat} (hTurn : e.turn = some (u, stage)) :
    (log ++ cacheEvents tid g.shared input t.place).count e ≤
      (passed (⟨b', g.threads.set tid ⟨t.limiter, place'⟩, history⟩) u stage).toNat := by
  have hOld := h.turns e u stage hTurn
  have hStage := hMoves.stage_le
  rw [List.count_append]
  by_cases hMem : e ∈ cacheEvents tid g.shared input t.place
  · obtain ⟨rfl, hFrom, hTo⟩ := hMoves.turned hMem hTurn
    have hBefore : passed g u stage = false := by simp [passed, ht, hFrom]
    have hAfter : passed ⟨b', g.threads.set u ⟨t.limiter, place'⟩, history⟩ u stage = true := by
      simp only [passed, getElem?_set_moved ht, Option.any_some, decide_eq_true_eq]
      exact hTo
    have hOne := (nodup_cacheEvents u g.shared input t.place).count (a := e)
    rw [hBefore] at hOld
    rw [hAfter, hOne, if_pos hMem]
    exact Nat.add_le_add_right hOld 1
  · rw [List.count_eq_zero.mpr hMem, Nat.add_zero]
    refine hOld.trans (Bool.toNat_le_toNat ?_)
    by_cases hEq : u = tid
    · subst hEq
      simp only [passed, ht, getElem?_set_moved ht, Option.any_some, Bool.le_iff_imp, decide_eq_true_eq]
      exact fun hBefore => hBefore.trans_le hStage
    · rw [passed, passed, List.getElem?_set_ne (Ne.symm hEq)]

theorem CacheInv.step (h : CacheInv log g) (ht : g.threads[tid]? = some t)
    (hMoves : Moves script name opts k key tid t.limiter g.shared input t.place b' place') :
    CacheInv (log ++ cacheEvents tid g.shared input t.place)
      ⟨b', g.threads.set tid ⟨t.limiter, place'⟩, history⟩ := by
  have hCaching := hMoves.caching
  have hTrusts := h.trusts tid t ht
  refine ⟨hCaching.forgotten hTrusts h.forgotten, fun _ _ _ => h.count_le ht hMoves,
    hCaching.sha hTrusts h.sha, ?_⟩
  intro u x hx
  rcases getElem?_set_cases hx ht with ⟨rfl, rfl⟩ | ⟨_, hx⟩
  · exact hCaching.trusts hTrusts h.sha
  · exact (h.trusts u x hx).append _ hCaching.flushed_mem

theorem CacheInv.start (h : CacheInv log g) (task : Task) :
    CacheInv log ⟨g.shared, g.threads ++ [(stack script name opts k key).start task], history⟩ := by
  refine ⟨h.forgotten, ?_, h.sha, ?_⟩
  · intro e u stage hTurn
    refine (h.turns e u stage hTurn).trans (Bool.toNat_le_toNat ?_)
    rcases Nat.lt_or_ge u g.threads.length with hLt | hGe
    · rw [passed, passed, List.getElem?_append_left hLt]
    · rw [passed, List.getElem?_eq_none hGe]
      exact nofun
  · intro u x hx
    rcases getElem?_snoc_cases hx with ⟨rfl, rfl⟩ | hx
    · cases task <;> trivial
    · exact h.trusts u x hx

end Runs

end Kaka.Layered
