import Kaka.Base.Shielding
import Kaka.Layered.Limiter
import Kaka.Memory.IdleCleanup
import Kaka.Redis.Client

/-! # One layered limiter and its remote layer alone

The requests come one after another, and the remote layer never sees what
the local one denies.  When the local limiter shields the script on every
key, the layered limiter shows the same answers as the remote layer would on
all the requests.
-/

namespace Kaka.Layered

open Forgetting Shielding Redis

theorem validateKey_eq_none {key : List UInt8} : Layered.validateKey key = none ↔ blank key = false := by
  unfold Layered.validateKey
  split <;> simp_all

section Runs

variable {σ α ι ι' : Type} (P : Memory.Params σ) (fn : σ → Int → σ × Result) (opts : Options)
  (script : Option (Entry α) → ι' → Option (Entry α) × Option Reply)

def localLayer (time : ι → Int) (x : List UInt8 × ι) :
    Memory.Store P.shardCount σ → Memory.Store P.shardCount σ → Answer → Prop :=
  P.Allows fn (x.1, time x.2)

def shown (a : Answer) : Bool × Int := (a.1.allowed, a.1.remaining)

/-- The layered limiter has an answer to every one of the requests, and it
shows the same as that of the remote layer alone; the requests come to the
remote layer as `forward` says, and alone as `direct` says. -/
def AnswersAlike (time : ι → Int) (forward direct : ι → ι') (requests : List (List UInt8 × ι)) : Prop :=
  let layered := Serial (localLayer P fn time) (fun r x => opts.allow script r (x.1, forward x.2))
    (Memory.newShardedStoreWithShards P.shardCount σ, fun _ => none)
  let alone := serve (fun r x => opts.allow script r (x.1, direct x.2)) (fun _ => none) requests
  (∃ history v, layered history v ∧ history.map Prod.fst = requests) ∧
  ∀ history v, layered history v → history.map Prod.fst = requests →
    history.map (fun x => shown x.2) = alone.map fun x => shown x.2

end Runs

/-! ## The local layer as a machine that keeps every key -/

section Ideal

variable {σ α ι ι' : Type} {P : Memory.Params σ} {fn : σ → Int → σ × Result} {opts : Options}
  {script : Option (Entry α) → ι' → Option (Entry α) × Option Reply} {Inv : σ → Int → Prop}
  {Same : σ → σ → Prop} {time : ι → Int} {forward direct : ι → ι'}
  {requests : List (List UInt8 × ι)} {x : List UInt8 × ι}

/-- The local layer on one key, with its state kept for ever. -/
def onKey (P : Memory.Params σ) (fn : σ → Int → σ × Result) (time : ι → Int) (s : Option (σ × Int))
    (x : ι) : Option (σ × Int) × Result :=
  (P.machine fn).single s (time x)

variable (P fn opts script time forward) in
/-- `Allow` with a local layer that keeps every key. -/
def ideal (w : (List UInt8 → Option (σ × Int)) × (List UInt8 → Option (Entry α))) (x : List UInt8 × ι) :
    ((List UInt8 → Option (σ × Int)) × (List UInt8 → Option (Entry α))) × Answer :=
  match Layered.validateKey x.1 with
  | some err => (w, (⟨false, 0, 0⟩, some err))
  | none =>
    let front := onKey P fn time (w.1 x.1) x.2
    match settled (front.2, none) with
    | some a => ((Function.update w.1 x.1 front.1, w.2), a)
    | none =>
      let back := opts.allow script w.2 (x.1, forward x.2)
      ((Function.update w.1 x.1 front.1, back.1), back.2)

structure Shadows (P : Memory.Params σ) (Inv : σ → Int → Prop) (Same : σ → σ → Prop) (time : ι → Int)
    (requests : List (List UInt8 × ι))
    (v : Memory.Store P.shardCount σ × (List UInt8 → Option (Entry α)))
    (w : (List UInt8 → Option (σ × Int)) × (List UInt8 → Option (Entry α))) : Prop where
  good : P.Good v.1
  mirrors : ∀ t, (∀ x ∈ requests, time x.2 ≤ t) → P.Mirrors Inv Same t v.1 w.1
  entries : v.2 = w.2

theorem Shadows.local (hMax : P.opts.maxKeys ≤ 0) (hRecovers : Recovers (P.machine fn) P.Expired Inv Same)
    {v : Memory.Store P.shardCount σ × (List UInt8 → Option (Entry α))}
    {w : (List UInt8 → Option (σ × Int)) × (List UInt8 → Option (Entry α))}
    (h : Shadows P Inv Same time requests v w) (hTime : ∀ y ∈ requests, time y.2 ≤ time x.2)
    (hKey : blank x.1 = false) {s' : Memory.Store P.shardCount σ} {a : Answer}
    (hLocal : localLayer P fn time x v.1 s' a) :
    a = ((onKey P fn time (w.1 x.1) x.2).2, none) ∧
      ∀ r : List UInt8 → Option (Entry α), Shadows P Inv Same time (requests ++ [x]) (s', r)
        (Function.update w.1 x.1 (onKey P fn time (w.1 x.1) x.2).1, r) := by
  cases hLocal with
  | invalid hInvalid => simp [Memory.validateKey, hKey] at hInvalid
  | returned _ hReturns =>
    obtain ⟨hAfter, rfl⟩ := hReturns.mirrors hMax hRecovers h.good (h.mirrors (time x.2) hTime)
    refine ⟨rfl, fun r => ⟨hReturns.good h.good, ?_, rfl⟩⟩
    intro t ht
    exact hAfter.later hRecovers (ht x (by simp))

theorem Shadows.allow (hMax : P.opts.maxKeys ≤ 0) (hRecovers : Recovers (P.machine fn) P.Expired Inv Same)
    {v v' : Memory.Store P.shardCount σ × (List UInt8 → Option (Entry α))} {a : Answer}
    {w : (List UInt8 → Option (σ × Int)) × (List UInt8 → Option (Entry α))}
    (h : Shadows P Inv Same time requests v w) (hTime : ∀ y ∈ requests, time y.2 ≤ time x.2)
    (hAllow : Allow (localLayer P fn time) (fun r x => opts.allow script r (x.1, forward x.2)) x v v' a) :
    Shadows P Inv Same time (requests ++ [x]) v' (ideal P fn opts script time forward w x).1 ∧
      a = (ideal P fn opts script time forward w x).2 := by
  cases hAllow with
  | invalid hInvalid =>
    simp only [ideal, hInvalid]
    exact ⟨⟨h.good, fun t ht => h.mirrors t fun y hy => ht y (by simp [hy]), h.entries⟩, trivial⟩
  | denied hValid hLocal hSettled =>
    obtain ⟨rfl, hNext⟩ := h.local hMax hRecovers hTime (validateKey_eq_none.mp hValid) hLocal
    simp only [ideal, hValid, hSettled, ← h.entries]
    exact ⟨hNext _, trivial⟩
  | passed hValid hLocal hOpen =>
    obtain ⟨rfl, hNext⟩ := h.local hMax hRecovers hTime (validateKey_eq_none.mp hValid) hLocal
    simp only [ideal, hValid, hOpen, ← h.entries]
    exact ⟨hNext _, trivial⟩

theorem shadows_serial (hMax : P.opts.maxKeys ≤ 0) (hRecovers : Recovers (P.machine fn) P.Expired Inv Same)
    {history : List ((List UInt8 × ι) × Answer)}
    {v : Memory.Store P.shardCount σ × (List UInt8 → Option (Entry α))}
    (hSerial : Serial (localLayer P fn time) (fun r x => opts.allow script r (x.1, forward x.2))
      (Memory.newShardedStoreWithShards P.shardCount σ, fun _ => none) history v)
    (hClock : ((history.map Prod.fst).map fun x => time x.2).Pairwise (· ≤ ·)) :
    Shadows P Inv Same time (history.map Prod.fst) v
        (after (ideal P fn opts script time forward) (fun _ => none, fun _ => none)
          (history.map Prod.fst)) ∧
      history = serve (ideal P fn opts script time forward) (fun _ => none, fun _ => none)
        (history.map Prod.fst) := by
  induction hSerial with
  | nil => exact ⟨⟨(Memory.Params.Serial.nil (ρ := Result)).good, fun t _ => .new t, rfl⟩, rfl⟩
  | @snoc history v x v' a hBefore hAllow ih =>
    simp only [List.map_append, List.map_singleton] at hClock ⊢
    obtain ⟨hPast, _, hLast⟩ := List.pairwise_append.mp hClock
    obtain ⟨hShadows, hHistory⟩ := ih hPast
    have hTime : ∀ y ∈ history.map Prod.fst, time y.2 ≤ time x.2 := fun y hy =>
      hLast _ (List.mem_map_of_mem hy) _ List.mem_cons_self
    obtain ⟨hNext, hAnswer⟩ := hShadows.allow hMax hRecovers hTime hAllow
    rw [after_snoc, serve_snoc, ← hHistory]
    exact ⟨hNext, by rw [hAnswer]⟩

theorem exists_allow (x : List UInt8 × ι) {s : Memory.Store P.shardCount σ}
    (r : List UInt8 → Option (Entry α)) {calls : List (Memory.Call σ Result × Memory.Outcome Result)}
    (hCalls : P.Serial calls s) :
    ∃ v a, Allow (localLayer P fn time) (fun r x => opts.allow script r (x.1, forward x.2)) x (s, r) v a ∧
      ∃ calls' : List (Memory.Call σ Result × Memory.Outcome Result), P.Serial calls' v.1 := by
  cases hKey : Layered.validateKey x.1 with
  | some err => exact ⟨(s, r), _, .invalid hKey, calls, hCalls⟩
  | none =>
    have hValid : Memory.validateKey x.1 = none := by
      simp [Memory.validateKey, validateKey_eq_none.mp hKey]
    obtain ⟨s', outcome, hReturns⟩ := hCalls.exists_returns ⟨x.1, time x.2, fn⟩
    have hLocal : localLayer P fn time x s s' outcome.answer := .returned hValid hReturns
    have hNext : P.Serial (calls ++ [(⟨x.1, time x.2, fn⟩, outcome)]) s' := .snoc hCalls hReturns
    cases hSettled : settled outcome.answer with
    | some b => exact ⟨(s', r), b, .denied hKey hLocal hSettled, _, hNext⟩
    | none => exact ⟨(s', _), _, .passed hKey hLocal hSettled, _, hNext⟩

theorem exists_serial (requests : List (List UInt8 × ι)) :
    ∃ history v, Serial (localLayer P fn time) (fun r x => opts.allow script r (x.1, forward x.2))
      (Memory.newShardedStoreWithShards P.shardCount σ, fun _ => none) history v ∧
      history.map Prod.fst = requests ∧
      ∃ calls : List (Memory.Call σ Result × Memory.Outcome Result), P.Serial calls v.1 := by
  induction requests using List.reverseRecOn with
  | nil => exact ⟨[], _, .nil, rfl, [], .nil⟩
  | append_singleton requests x ih =>
    obtain ⟨history, ⟨s, r⟩, hSerial, hRequests, calls, hCalls⟩ := ih
    obtain ⟨v, a, hAllow, hNext⟩ := exists_allow x r hCalls
    exact ⟨history ++ [(x, a)], v, .snoc hSerial hAllow, by simp [hRequests], hNext⟩

theorem answersAlike_iff (hMax : P.opts.maxKeys ≤ 0)
    (hRecovers : Recovers (P.machine fn) P.Expired Inv Same)
    (hClock : (requests.map fun x => time x.2).Pairwise (· ≤ ·)) :
    AnswersAlike P fn opts script time forward direct requests ↔
      (serve (ideal P fn opts script time forward) (fun _ => none, fun _ => none) requests).map
          (fun x => shown x.2) =
        (serve (fun r x => opts.allow script r (x.1, direct x.2)) (fun _ => none) requests).map
          fun x => shown x.2 := by
  constructor
  · rintro ⟨⟨history, v, hSerial, rfl⟩, hAlike⟩
    rw [← (shadows_serial hMax hRecovers hSerial hClock).2]
    exact hAlike history v hSerial rfl
  · intro hShown
    constructor
    · obtain ⟨history, v, hSerial, hRequests, _⟩ := exists_serial requests
      exact ⟨history, v, hSerial, hRequests⟩
    · rintro history v hSerial rfl
      rw [← hShown, ← (shadows_serial hMax hRecovers hSerial hClock).2]

end Ideal

/-! ## The local layer in front of the remote one -/

section Shields

variable {σ α ι ι' : Type} {P : Memory.Params σ} {fn : σ → Int → σ × Result} {opts : Options}
  {script : Option (Entry α) → ι' → Option (Entry α) × Option Reply} {time : ι → Int}
  {forward direct : ι → ι'} {Ok : List ι → ι → Prop}
  {Lags : List ι → Option (σ × Int) → Option (Entry α) → Option (Entry α) → Prop}
  {requests : List (List UInt8 × ι)} {x : List UInt8 × ι}

/-- A denial of the local layer, and the reply of the script to the same request. -/
def Refuses (r : Result) (reply : Option Reply) : Prop :=
  r.remaining = 0 ∧ ∃ wait, reply = some ⟨0, 0, wait⟩

theorem allow_blank (entries : List UInt8 → Option (Entry α)) {key : List UInt8} (hBlank : blank key = true)
    (y : ι') : opts.allow script entries (key, y) =
      (entries, (⟨false, 0, 0⟩, some "kaka/redis: key must not be blank")) := by
  simp [Options.allow, Redis.validateKey, hBlank]

theorem allow_key (entries : List UInt8 → Option (Entry α)) {key : List UInt8} (hKey : blank key = false)
    (y : ι') : opts.allow script entries (key, y) =
      (Function.update entries key (script (entries key) y).1,
        (opts.result ((script (entries key) y).2.map Reply.value), none)) := by
  simp [Options.allow, Redis.validateKey, hKey]

def LagsOn (Lags : List ι → Option (σ × Int) → Option (Entry α) → Option (Entry α) → Prop)
    (requests : List (List UInt8 × ι))
    (w : (List UInt8 → Option (σ × Int)) × (List UInt8 → Option (Entry α)))
    (r : List UInt8 → Option (Entry α)) : Prop :=
  ∀ key, blank key = false → Lags (pastOf key requests) (w.1 key) (w.2 key) (r key)

theorem LagsOn.allow (opts : Options)
    (hShields : Shields (onKey P fn time) script forward direct Result.allowed Refuses Ok Lags)
    {w : (List UInt8 → Option (σ × Int)) × (List UInt8 → Option (Entry α))}
    {r : List UInt8 → Option (Entry α)} (h : LagsOn Lags requests w r)
    (hOk : blank x.1 = false → Ok (pastOf x.1 requests) x.2) :
    LagsOn Lags (requests ++ [x]) (ideal P fn opts script time forward w x).1
        (opts.allow script r (x.1, direct x.2)).1 ∧
      shown (ideal P fn opts script time forward w x).2 =
        shown (opts.allow script r (x.1, direct x.2)).2 := by
  cases hBlank : blank x.1 with
  | true =>
    have hInvalid : Layered.validateKey x.1 = some "layered: invalid key" := if_pos hBlank
    rw [allow_blank _ hBlank]
    simp only [ideal, hInvalid]
    refine ⟨?_, rfl⟩
    intro key hKey
    have hNe : x.1 ≠ key := by
      rintro rfl
      rw [hBlank] at hKey
      cases hKey
    rw [pastOf_snoc, if_neg hNe]
    exact h key hKey
  | false =>
    have hValid := validateKey_eq_none.mpr hBlank
    rw [allow_key _ hBlank]
    cases hAllowed : (onKey P fn time (w.1 x.1) x.2).2.allowed with
    | false =>
      obtain ⟨⟨hRemaining, wait, hReply⟩, hNext⟩ := hShields.stop (h x.1 hBlank) (hOk hBlank) hAllowed
      simp only [ideal, hValid, settled_of_denied hAllowed, hReply]
      constructor
      · intro key hKey
        have hAll := lags_update (m := w.1) (a := w.2) hNext fun _ => h key hKey
        rwa [Function.update_eq_self] at hAll
      · simp only [shown, hAllowed, hRemaining, Option.map_some, Options.result_value]
        rfl
    | true =>
      obtain ⟨hReply, hNext⟩ := hShields.pass (h x.1 hBlank) (hOk hBlank) hAllowed
      simp only [ideal, hValid, settled_of_allowed hAllowed, allow_key _ hBlank, hReply, and_true]
      exact fun key hKey => lags_update hNext fun _ => h key hKey

theorem lagsOn_after
    (hShields : Shields (onKey P fn time) script forward direct Result.allowed Refuses Ok Lags)
    (hEmpty : Lags [] none none none) (requests : List (List UInt8 × ι))
    (hOk : ∀ before x rest, requests = before ++ x :: rest → blank x.1 = false →
      Ok (pastOf x.1 before) x.2) :
    LagsOn Lags requests
        (after (ideal P fn opts script time forward) (fun _ => none, fun _ => none) requests)
        (after (fun r x => opts.allow script r (x.1, direct x.2)) (fun _ => none) requests) ∧
      (serve (ideal P fn opts script time forward) (fun _ => none, fun _ => none) requests).map
          (fun x => shown x.2) =
        (serve (fun r x => opts.allow script r (x.1, direct x.2)) (fun _ => none) requests).map
          fun x => shown x.2 := by
  induction requests using List.reverseRecOn with
  | nil => exact ⟨fun _ _ => hEmpty, rfl⟩
  | append_singleton requests x ih =>
    obtain ⟨hLags, hShown⟩ := ih fun before y rest hEq =>
      hOk before y (rest ++ [x]) (by rw [hEq]; simp)
    obtain ⟨hNext, hLast⟩ := hLags.allow opts hShields (hOk _ x [] rfl)
    rw [after_snoc, after_snoc, serve_snoc, serve_snoc, List.map_append, List.map_append, hShown]
    exact ⟨hNext, by rw [List.map_singleton, List.map_singleton, hLast]⟩

/-- The local layer shields the remote one on every key, so nobody can tell. -/
theorem answersAlike_of_shields {Inv : σ → Int → Prop} {Same : σ → σ → Prop}
    (hMax : P.opts.maxKeys ≤ 0) (hRecovers : Recovers (P.machine fn) P.Expired Inv Same)
    (hShields : Shields (onKey P fn time) script forward direct Result.allowed Refuses Ok Lags)
    (hEmpty : Lags [] none none none) (hClock : (requests.map fun x => time x.2).Pairwise (· ≤ ·))
    (hOk : ∀ before x rest, requests = before ++ x :: rest → blank x.1 = false →
      Ok (pastOf x.1 before) x.2) :
    AnswersAlike P fn opts script time forward direct requests :=
  (answersAlike_iff hMax hRecovers hClock).mpr (lagsOn_after hShields hEmpty requests hOk).2

end Shields

end Kaka.Layered
