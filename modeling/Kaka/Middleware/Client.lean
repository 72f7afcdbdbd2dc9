import Kaka.Memory.BucketLimit
import Kaka.Memory.ExpiredKeys
import Kaka.Memory.Keeping
import Kaka.Memory.SlidingWindowLimit
import Kaka.Memory.Waiting
import Kaka.Middleware.Handler
import Mathlib

/-! # A client that obeys `Retry-After`

A server with a middleware before an in-memory limiter that keeps its keys,
one request after another.  Every request is answered; a client that was told
to come back in so many seconds, and does so later than that, is let through
unless another request on its key was.
-/

namespace Kaka.Middleware

open Memory (Call Key Params Reopens Store validateKey newShardedStoreWithShards)

variable {σ : Type}

structure Server (σ : Type) extends Params σ where
  fn : σ → Int → σ × Result
  framework : Framework
  config : Config

namespace Server

variable (S : Server σ)

def key (r : Request) : Key := S.config.key S.framework r

/-- The requests, each with its instant and its response, that take the store `s` to `s'`. -/
inductive Serves : Store S.shardCount σ → List ((Int × Request) × List Action) → Store S.shardCount σ → Prop
  | nil {s} : Serves s [] s
  | cons {s s₁ s' x answer rest} (hAllow : S.toParams.Allows S.fn (S.key x.2, x.1) s s₁ answer)
      (hRest : Serves s₁ rest s') : Serves s ((x, respond S.config answer) :: rest) s'

structure ServesObedient : Prop where
  /-- Whatever has been served, the next request is answered. -/
  answers : ∀ (before : List ((Int × Request) × List Action)) (s : Store S.shardCount σ) (x : Int × Request),
    S.Serves (newShardedStoreWithShards S.shardCount σ) before s →
    ∃ response s', S.Serves (newShardedStoreWithShards S.shardCount σ) (before ++ [(x, response)]) s'
  /-- A client told to wait that comes back later than that is let through,
  unless another request on its key has been in between. -/
  admits : ∀ (before between : List ((Int × Request) × List Action)) (x y : (Int × Request) × List Action)
    (s : Store S.shardCount σ) (text : String) (wait : ℕ),
    S.Serves (newShardedStoreWithShards S.shardCount σ) (before ++ x :: (between ++ [y])) s →
    ((before ++ x :: (between ++ [y])).map fun z => z.1.1).Pairwise (· ≤ ·) →
    .setHeader "Retry-After" text ∈ x.2 → text.toNat? = some wait → wait < 2 ^ 24 →
    (∀ z ∈ between, S.key z.1.2 = S.key x.1.2 → .next ∉ z.2) →
    S.key y.1.2 = S.key x.1.2 → x.1.1 + wait * 10 ^ 9 < y.1.1 → .next ∈ y.2

variable {S} {s s' : Store S.shardCount σ} {x : (Int × Request) × List Action} {k : Key} {v : σ} {t : Int}
  {requests : List ((Int × Request) × List Action)}

theorem Serves.append {more : List ((Int × Request) × List Action)} (h : S.Serves s (requests ++ more) s') :
    ∃ s₁, S.Serves s requests s₁ ∧ S.Serves s₁ more s' := by
  induction requests generalizing s with
  | nil => exact ⟨s, .nil, h⟩
  | cons x rest ih =>
    cases h with
    | cons hAllow hRest =>
      obtain ⟨s₁, hFirst, hMore⟩ := ih hRest
      exact ⟨s₁, .cons hAllow hFirst, hMore⟩

theorem Serves.snoc {s₁ : Store S.shardCount σ} {x : Int × Request} {answer : Answer}
    (h : S.Serves s requests s₁) (hAllow : S.toParams.Allows S.fn (S.key x.2, x.1) s₁ s' answer) :
    S.Serves s (requests ++ [(x, respond S.config answer)]) s' := by
  induction h with
  | nil => exact .cons hAllow .nil
  | cons hFirst _ ih => exact .cons hFirst (ih hAllow)

theorem Serves.solo (h : S.Serves s requests s') (hSolo : ∀ c : Call σ Result, S.Solo s c .lock) :
    ∀ c : Call σ Result, S.Solo s' c .lock := by
  induction h with
  | nil => exact hSolo
  | cons hAllow _ ih =>
    refine ih ?_
    cases hAllow with
    | invalid => exact hSolo
    | returned _ hReturns => exact ((hSolo _).alone hReturns).next_call

theorem Serves.exists_snoc (h : S.Serves (newShardedStoreWithShards S.shardCount σ) requests s)
    (x : Int × Request) :
    ∃ response s', S.Serves (newShardedStoreWithShards S.shardCount σ) (requests ++ [(x, response)]) s' := by
  obtain ⟨s', answer, hAllow⟩ := Params.exists_allows S.fn (S.key x.2, x.1) (h.solo Params.solo_new)
  exact ⟨respond S.config answer, s', h.snoc hAllow⟩

/-- What a request does to the states of the keys. -/
inductive Answered (S : Server σ) (x : (Int × Request) × List Action) (s s' : Store S.shardCount σ) : Prop
  | failed (err : String) (hResponse : x.2 = [if S.config.errorHandler then .errorHandler err else .next])
      (hNew : validateKey (S.key x.1.2) ≠ none ∨ S.value s (S.key x.1.2) = none)
      (hValue : ∀ k, S.value s' k = S.value s k)
  | decided (w : σ) (hResponse : x.2 = respond S.config ((S.fn w x.1.1).2, none))
      (hKey : validateKey (S.key x.1.2) = none)
      (hFound : S.value s (S.key x.1.2) = some w ∨ S.value s (S.key x.1.2) = none ∧ w = S.create x.1.1)
      (hValue : ∀ k, S.value s' k = if k = S.key x.1.2 then some (S.fn w x.1.1).1 else S.value s k)

theorem Serves.answered (hKeeps : S.Keeps) (hGood : S.Good s) (h : S.Serves s (x :: requests) s') :
    ∃ s₁, S.Good s₁ ∧ S.Answered x s s₁ ∧ S.Serves s₁ requests s' := by
  cases h with
  | @cons _ s₁ _ x answer _ hAllow hRest =>
    have hGood' : S.Good s₁ := by
      cases hAllow with
      | invalid => exact hGood
      | returned _ hReturns => exact hReturns.good hGood
    refine ⟨s₁, hGood', ?_, hRest⟩
    cases hAllow.does hKeeps hGood with
    | fails hNew hValue => exact .failed _ rfl hNew hValue
    | answers hKey hFound hValue => exact .decided _ rfl hKey hFound hValue

section Reopens

variable {valid : σ → Int → Prop} {Closed : ℚ → σ → Int → Prop} {due : ℚ}

/-- Every state has been left by a request no later than `t`. -/
def Valid (valid : σ → Int → Prop) (s : Store S.shardCount σ) (t : Int) : Prop :=
  ∀ k, ∀ v ∈ S.value s k, ∃ last ≤ t, valid v last

theorem Valid.later (h : S.Valid valid s t) {u : Int} (hTime : t ≤ u) : S.Valid valid s u := by
  intro k v hv
  obtain ⟨last, hLast, hValid⟩ := h k v hv
  exact ⟨last, hLast.trans hTime, hValid⟩

theorem Valid.found (hReopens : Reopens S.create S.fn valid Closed) (h : S.Valid valid s t)
    (hFound : S.value s k = some v ∨ S.value s k = none ∧ v = S.create t) : ∃ last ≤ t, valid v last := by
  rcases hFound with hOld | ⟨_, rfl⟩
  · exact h k v hOld
  · exact ⟨t, le_rfl, hReopens.fresh t⟩

theorem Answered.keepsValid (hReopens : Reopens S.create S.fn valid Closed) (h : S.Answered x s s')
    (hValid : S.Valid valid s x.1.1) : S.Valid valid s' x.1.1 := by
  intro k w hw
  cases h with
  | failed _ _ _ hValue =>
    rw [hValue] at hw
    exact hValid k w hw
  | decided _ _ _ hFound hValue =>
    rw [hValue] at hw
    split at hw
    · cases hw
      obtain ⟨last, hLast, hOld⟩ := hValid.found hReopens hFound
      exact ⟨x.1.1, le_rfl, hReopens.keeps hOld hLast⟩
    · exact hValid k w hw

/-- The key is denied until `due`. -/
def Shut (Closed : ℚ → σ → Int → Prop) (k : Key) (due : ℚ) (s : Store S.shardCount σ) (t : Int) : Prop :=
  ∃ v, S.value s k = some v ∧ ∃ last ≤ t, Closed due v last

theorem Shut.later (h : S.Shut Closed k due s t) {u : Int} (hTime : t ≤ u) : S.Shut Closed k due s u := by
  obtain ⟨v, hv, last, hLast, hClosed⟩ := h
  exact ⟨v, hv, last, hLast.trans hTime, hClosed⟩

theorem Answered.keepsShut (hReopens : Reopens S.create S.fn valid Closed) (h : S.Answered x s s')
    (hKey : validateKey k = none) (hShut : S.Shut Closed k due s x.1.1)
    (hQuiet : S.key x.1.2 = k → .next ∉ x.2) : S.Shut Closed k due s' x.1.1 := by
  obtain ⟨v, hv, last, hLast, hClosed⟩ := hShut
  cases h with
  | failed _ _ _ hValue => exact ⟨v, (hValue k).trans hv, last, hLast, hClosed⟩
  | decided w hResponse _ hFound hValue =>
    by_cases hSame : k = S.key x.1.2
    · subst hSame
      have hState : w = v := by
        rcases hFound with hOld | ⟨hNone, _⟩
        · exact Option.some.inj (hOld.symm.trans hv)
        · cases hNone.symm.trans hv
      subst hState
      have hDenied := hQuiet rfl
      rw [hResponse, next_mem_respond_iff, Bool.not_eq_true] at hDenied
      exact ⟨_, (hValue _).trans (if_pos rfl), x.1.1, le_rfl, hReopens.stays hClosed hLast hDenied⟩
    · exact ⟨v, ((hValue k).trans (if_neg hSame)).trans hv, last, hLast, hClosed⟩

theorem Serves.keepsValid (hKeeps : S.Keeps) (hReopens : Reopens S.create S.fn valid Closed)
    (h : S.Serves s requests s') (hGood : S.Good s) (hValid : S.Valid valid s t) {u : Int}
    (hClock : (t :: (requests.map fun z => z.1.1) ++ [u]).Pairwise (· ≤ ·)) :
    S.Good s' ∧ S.Valid valid s' u := by
  induction requests generalizing s t with
  | nil =>
    cases h
    exact ⟨hGood, hValid.later ((List.pairwise_cons.mp hClock).1 u (by simp))⟩
  | cons x rest ih =>
    obtain ⟨s₁, hGood', hAnswered, hRest⟩ := h.answered hKeeps hGood
    obtain ⟨hFirst, hLater⟩ := List.pairwise_cons.mp hClock
    exact ih hRest hGood' (hAnswered.keepsValid hReopens (hValid.later (hFirst _ (by simp)))) hLater

theorem Serves.keepsShut (hKeeps : S.Keeps) (hReopens : Reopens S.create S.fn valid Closed)
    (h : S.Serves s requests s') (hGood : S.Good s) (hKey : validateKey k = none)
    (hShut : S.Shut Closed k due s t) {u : Int}
    (hClock : (t :: (requests.map fun z => z.1.1) ++ [u]).Pairwise (· ≤ ·))
    (hQuiet : ∀ z ∈ requests, S.key z.1.2 = k → .next ∉ z.2) :
    S.Good s' ∧ S.Shut Closed k due s' u := by
  induction requests generalizing s t with
  | nil =>
    cases h
    exact ⟨hGood, hShut.later ((List.pairwise_cons.mp hClock).1 u (by simp))⟩
  | cons x rest ih =>
    obtain ⟨s₁, hGood', hAnswered, hRest⟩ := h.answered hKeeps hGood
    obtain ⟨hFirst, hLater⟩ := List.pairwise_cons.mp hClock
    obtain ⟨hNow, hQuiet'⟩ := List.forall_mem_cons.mp hQuiet
    exact ih hRest hGood' (hAnswered.keepsShut hReopens hKey (hShut.later (hFirst _ (by simp))) hNow)
      hLater hQuiet'

/-- Below `2 ^ 24` seconds the header covers the wait. -/
theorem le_of_toNat? {d : Int} {wait : ℕ} (hLow : 0 < d) (hHigh : d ≤ maxDuration)
    (hRead : (retryAfterSeconds d).repr.toNat? = some wait) (hShort : wait < 2 ^ 24) : d ≤ wait * 10 ^ 9 := by
  have hOne : 1 ≤ retryAfterSeconds d := by
    dsimp only [retryAfterSeconds]
    split <;> omega
  obtain ⟨n, hn⟩ := Int.eq_ofNat_of_zero_le (show 0 ≤ retryAfterSeconds d by omega)
  have hSame : n = wait := by
    -- the one lemma here that no smaller part of Mathlib brings along
    rw [hn] at hRead
    exact Option.some.inj ((Nat.toNat?_repr n).symm.trans hRead)
  subst hSame
  rcases le_or_gt d (2 ^ 24 * 10 ^ 9) with hNear | hFar
  · exact hn ▸ (retryAfterSeconds_covers hLow hNear).1
  · have hLarge := le_retryAfterSeconds hFar.le (hHigh.trans (by decide))
    omega

/-- A key whose response tells to wait is denied for no longer than that. -/
theorem Answered.told (hReopens : Reopens S.create S.fn valid Closed) (h : S.Answered x s s')
    (hValid : S.Valid valid s x.1.1) {text : String} {wait : ℕ}
    (hText : .setHeader "Retry-After" text ∈ x.2) (hRead : text.toNat? = some wait) (hShort : wait < 2 ^ 24) :
    validateKey (S.key x.1.2) = none ∧
      ∃ due : ℚ, due < x.1.1 + wait * 10 ^ 9 + 1 ∧ S.Shut Closed (S.key x.1.2) due s' x.1.1 := by
  cases h with
  | failed _ hResponse =>
    rw [hResponse] at hText
    split at hText <;> simp at hText
  | decided v hResponse hKey hFound hValue =>
    rw [hResponse] at hText
    obtain ⟨_, hDenied, hWait, rfl⟩ := (retry_mem_respond_iff _ _ _).mp hText
    obtain ⟨last, hLast, hOld⟩ := hValid.found hReopens hFound
    have hCovers := le_of_toNat? hWait (hReopens.fits hOld hLast) hRead hShort
    have hFits : (S.fn v x.1.1).2.retryAfter < maxDuration := by
      simp only [maxDuration]
      omega
    obtain ⟨due, hDue, hClosed⟩ := hReopens.closes hOld hLast hDenied hFits
    have hSeconds : ((S.fn v x.1.1).2.retryAfter : ℚ) ≤ wait * 10 ^ 9 := by exact_mod_cast hCovers
    exact ⟨hKey, due, by linarith, _, (hValue _).trans (if_pos rfl), x.1.1, le_rfl, hClosed⟩

theorem Answered.next_of_shut (hReopens : Reopens S.create S.fn valid Closed) (h : S.Answered x s s')
    (hKey : validateKey (S.key x.1.2) = none) (hShut : S.Shut Closed (S.key x.1.2) due s x.1.1)
    (hDue : due ≤ x.1.1) : .next ∈ x.2 := by
  obtain ⟨v, hv, last, hLast, hClosed⟩ := hShut
  cases h with
  | failed _ _ hNew =>
    rcases hNew with hInvalid | hNone
    · exact absurd hKey hInvalid
    · cases hNone.symm.trans hv
  | decided w hResponse _ hFound =>
    rcases hFound with hOld | ⟨hNone, _⟩
    · obtain rfl := Option.some.inj (hOld.symm.trans hv)
      rw [hResponse, next_mem_respond_iff]
      exact (hReopens.opens hClosed hLast).mpr hDue
    · cases hNone.symm.trans hv

theorem exists_le_pairwise {l : List Int} (h : l.Pairwise (· ≤ ·)) : ∃ t, (t :: l).Pairwise (· ≤ ·) := by
  cases l with
  | nil => exact ⟨0, List.pairwise_singleton _ _⟩
  | cons a rest =>
    exact ⟨a, List.pairwise_cons.mpr ⟨List.forall_mem_cons.mpr ⟨le_rfl, (List.pairwise_cons.mp h).1⟩, h⟩⟩

theorem servesObedient (hKeeps : S.Keeps) (hReopens : Reopens S.create S.fn valid Closed) :
    S.ServesObedient := by
  refine ⟨fun _ _ x hServes => hServes.exists_snoc x, ?_⟩
  intro before between x y s text wait hServes hClock hText hRead hShort hQuiet hSame hLate
  obtain ⟨s₀, hBefore, hFrom⟩ := hServes.append
  have hPast : ((before.map fun z => z.1.1) ++ [x.1.1]).Pairwise (· ≤ ·) := hClock.sublist (by simp)
  have hFuture : (x.1.1 :: (between.map fun z => z.1.1) ++ [y.1.1]).Pairwise (· ≤ ·) :=
    hClock.sublist (by simp)
  obtain ⟨t, hFirst⟩ := exists_le_pairwise hPast
  have hNew : S.Valid valid (newShardedStoreWithShards S.shardCount σ) t := by
    intro k v hv
    rw [Params.value_new] at hv
    cases hv
  obtain ⟨hGood, hValid⟩ := hBefore.keepsValid hKeeps hReopens (Params.Serial.nil (ρ := Result)).good hNew hFirst
  obtain ⟨s₁, hGood₁, hTold, hRest⟩ := hFrom.answered hKeeps hGood
  obtain ⟨hKey, due, hDue, hShut⟩ := hTold.told hReopens hValid hText hRead hShort
  obtain ⟨s₂, hBetween, hLast⟩ := hRest.append
  obtain ⟨hGood₂, hStill⟩ := hBetween.keepsShut hKeeps hReopens hGood₁ hKey hShut hFuture hQuiet
  obtain ⟨s₃, _, hAnswered, _⟩ := hLast.answered hKeeps hGood₂
  rw [← hSame] at hKey hStill
  refine hAnswered.next_of_shut hReopens hKey hStill ?_
  have hTime : ((x.1.1 + wait * 10 ^ 9 + 1 : Int) : ℚ) ≤ y.1.1 := by exact_mod_cast hLate
  push_cast at hTime
  linarith

end Reopens

end Server

/-! ## The in-memory limiters -/

section Limiters

variable (framework : Framework) (config : Config) (opts : Memory.Options) (shardCount : Nat)
  (power : ∃ k, shardCount = 2 ^ k)

def tokenServer (rates : Rates) : Server Memory.Bucket where
  toParams := Memory.TokenBucket.params rates opts shardCount power
  fn := Memory.TokenBucket.refillAndDecide rates
  framework := framework
  config := config

def leakyServer (rates : Rates) : Server Memory.LeakyState where
  toParams := Memory.LeakyBucket.params opts shardCount power
  fn := Memory.LeakyBucket.leakAndDecide rates
  framework := framework
  config := config

def windowServer (sw : Memory.SlidingWindow) : Server Memory.WindowState where
  toParams := Memory.SlidingWindow.params opts shardCount power
  fn := sw.recordAndDecide
  framework := framework
  config := config

/-- In exact arithmetic, for every middleware and every limiter. -/
theorem obedient_client_served (rates : Rates) (sw : Memory.SlidingWindow) (hWindow : sw.window ≤ maxDuration)
    (hTTL : opts.keyTTL ≤ 0) (hEvicts : opts.eviction = .evictReject ∨ opts.maxKeys ≤ 0) :
    (tokenServer framework config opts shardCount power rates).ServesObedient ∧
    (leakyServer framework config opts shardCount power rates).ServesObedient ∧
    (windowServer framework config opts shardCount power sw).ServesObedient :=
  ⟨Server.servesObedient ⟨hTTL, hEvicts⟩ (Memory.TokenBucket.reopens rates),
    Server.servesObedient ⟨hTTL, hEvicts⟩ (Memory.LeakyBucket.reopens rates),
    Server.servesObedient ⟨hTTL, hEvicts⟩ (sw.reopens hWindow)⟩

end Limiters

/-! ## A run -/

namespace Server

variable (S : Server σ) {s s' : Store S.shardCount σ}

/-- One request, if `Allow` returns within `n` steps. -/
def handle (n : Nat) (s : Store S.shardCount σ) (x : Int × Request) :
    Option (Store S.shardCount σ × List Action) :=
  match validateKey (S.key x.2) with
  | some err => some (s, respond S.config (⟨false, 0, 0⟩, some err))
  | none =>
    match S.runAlone 0 ⟨S.key x.2, x.1, S.fn⟩ n (s, .lock) with
    | (s', .done outcome) => some (s', respond S.config outcome.answer)
    | _ => none

def play (n : Nat) (s : Store S.shardCount σ) :
    List (Int × Request) → Option (List ((Int × Request) × List Action) × Store S.shardCount σ)
  | [] => some ([], s)
  | x :: rest =>
    match S.handle n s x with
    | some (s', response) => (play n s' rest).map fun out => ((x, response) :: out.1, out.2)
    | none => none

theorem serves_play {n : Nat} {requests : List (Int × Request)} {history : List ((Int × Request) × List Action)}
    (hPlay : S.play n s requests = some (history, s')) : S.Serves s history s' := by
  induction requests generalizing s history with
  | nil =>
    cases hPlay
    exact .nil
  | cons x rest ih =>
    rw [play] at hPlay
    split at hPlay
    · rename_i s₁ response hHandle
      obtain ⟨⟨more, s₂⟩, hRest, hEq⟩ := Option.map_eq_some_iff.mp hPlay
      cases hEq
      unfold handle at hHandle
      split at hHandle
      · rename_i err hKey
        cases hHandle
        exact .cons (.invalid hKey) (ih hRest)
      · rename_i hKey
        split at hHandle
        · rename_i s' outcome hRun
          cases hHandle
          have hAlone : S.toParams.Alone 0 ⟨S.key x.2, x.1, S.fn⟩ (s, .lock)
              (S.runAlone 0 ⟨S.key x.2, x.1, S.fn⟩ n (s, .lock)) := Params.alone_runAlone n (s, .lock)
          rw [hRun] at hAlone
          exact .cons (.returned hKey hAlone) (ih hRest)
        · cases hHandle
    · cases hPlay

end Server

/-- A request from the address `a`. -/
def Request.of (a : UInt8) : Request := ⟨[a], [a], [a], [a], []⟩

def remains (n : Nat) : Action := .setHeader "X-RateLimit-Remaining" n.repr

/-- Two requests of one client use its tokens up, the third is told to wait, and
a retry of its own and another client come before the wait is over. -/
def earlyRetry : List ((Int × Request) × List Action) :=
  [((0, .of 97), [remains 1, .next]), ((0, .of 97), [remains 0, .next]),
    ((0, .of 97), [remains 0, .setHeader "Retry-After" "1", .deniedHandler ⟨false, 0, 10 ^ 9⟩]),
    ((5 * 10 ^ 8, .of 97), [remains 0, .setHeader "Retry-After" "1", .deniedHandler ⟨false, 0, 5 * 10 ^ 8⟩]),
    ((5 * 10 ^ 8, .of 98), [remains 1, .next])]

theorem obedient_client_served_earlyRetry :
    let S := tokenServer .gin ⟨none, false, false⟩ { } 2 Memory.Params.two_shards .onePerSecond
    ∃ s response, S.Serves (newShardedStoreWithShards 2 _) (earlyRetry ++ [((10 ^ 9 + 1, .of 97), response)]) s ∧
      .next ∈ response := by
  intro S
  have hPlay : (S.play 20 (newShardedStoreWithShards 2 _)
      (earlyRetry.map Prod.fst ++ [(10 ^ 9 + 1, .of 97)])).map Prod.fst =
        some (earlyRetry ++ [((10 ^ 9 + 1, .of 97), [remains 0, .next])]) := by
    decide +kernel
  obtain ⟨⟨history, s⟩, hSome, rfl⟩ := Option.map_eq_some_iff.mp hPlay
  refine ⟨s, [remains 0, .next], S.serves_play hSome, ?_⟩
  exact (obedient_client_served .gin ⟨none, false, false⟩ { } 2 Memory.Params.two_shards .onePerSecond
    ⟨1, 1, one_pos, one_pos⟩ (by decide) (by decide) (.inl rfl)).1.admits (earlyRetry.take 2) (earlyRetry.drop 3)
    ((0, .of 97), [remains 0, .setHeader "Retry-After" "1", .deniedHandler ⟨false, 0, 10 ^ 9⟩])
    ((10 ^ 9 + 1, .of 97), [remains 0, .next]) s "1" 1 (S.serves_play hSome) (by decide) (by decide)
    (Nat.toNat?_repr 1) (by norm_num) (by decide +kernel) rfl (by norm_num)

end Kaka.Middleware
