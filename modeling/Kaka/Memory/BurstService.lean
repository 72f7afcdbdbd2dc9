import Kaka.Memory.BucketLimit

/-! # A burst on one key

A fresh bucket has room for as many calls as its capacity has whole tokens.
The locked sections run in any order, and a reading earlier than the stored
one takes tokens away; as long as it takes no more than the fraction of a
token that is there, no call of the burst is refused.
-/

namespace Kaka.Memory

open Interleaving

variable {σ ρ : Type}

/-! ## Calls that never find the store full -/

def Pc.plain {n : Nat} : Pc n ρ → Bool
  | .expire _ next | .expired _ next => !next.sweeps
  | .load swept | .cas _ swept => !swept
  | .unlock (.ok _) | .done (.ok _) => true
  | .lock | .lookup | .reserve | .recheck | .giveBack | .refresh | .run => true
  | _ => false

namespace Params

variable {P : Params σ} {tid : Tid} {choice : List Key} {s s' : Store P.shardCount σ}
  {c : Call σ ρ} {pc pc' : Pc P.shardCount ρ} {g : P.State ρ} {key : Key}

theorem Step.plain (h : P.Step tid choice s c pc s' pc') (hPlain : pc.plain = true) :
    pc'.plain = true ∨ (pc = .load false ∧ P.opts.maxKeys ≤ s.live) := by
  cases h with
  | @loadFull swept hFull =>
    cases swept with
    | false => exact .inr ⟨rfl, hFull⟩
    | true => cases hPlain
  | @expireDone next =>
    cases next with
    | run | reserve => exact .inl rfl
    | sweep => cases hPlain
  | @unlock outcome =>
    cases outcome with
    | ok r => exact .inl rfl
    | errMaxKeysExceeded => cases hPlain
  | lock | hit | miss | reserveUnlimited | reserveLimited | casWon => exact .inl rfl
  | recheckStored | recheckCreate | giveBack | refresh | run => exact .inl rfl
  | expireDrop | expireSkip | expireCount | loadRoom | casLost => exact .inl hPlain
  | _ => cases hPlain

theorem holds_of_debt (hPlain : pc.plain = true) (hDebt : debt pc ≠ 0) (i : Fin P.shardCount) :
    pc.holds i = some i := by
  cases pc with
  | recheck | giveBack => rfl
  | expired todo next =>
    cases next with
    | run | reserve => rfl
    | sweep => cases hPlain
  | evicted => cases hPlain
  | _ => exact absurd rfl hDebt

def callKeys (g : P.State ρ) : List Key := g.threads.map fun t => t.call.key

theorem callKeys_set {t : Thread P.shardCount σ ρ} (ht : g.threads[tid]? = some t)
    (s' : Store P.shardCount σ) (history : List (Event (Outcome ρ))) :
    callKeys (⟨s', g.threads.set tid ⟨t.call, pc'⟩, history⟩ : P.State ρ) = callKeys g :=
  map_set_eq _ ht rfl

theorem called_of_stored (hReach : P.program.Reachable g) :
    ∀ key, P.Stored g.shared key → key ∈ callKeys g := by
  refine Program.Reach.invariant (M := P.program)
    (I := fun g => ∀ key, P.Stored g.shared key → key ∈ callKeys g) ?_ ?_ hReach
  · intro key hStored
    rw [(Inv.init (ρ := ρ)).good.stored_iff] at hStored
    simp [Program.initial, program, value_new] at hStored
  · intro g a g' hBefore ih _ hNext key hStored
    have hInv := inv hBefore
    rcases next_cases hNext with ⟨call, _, rfl⟩ | ⟨tid, choice, t, s', pc', _, ht, hStep, rfl⟩
    · rw [callKeys, List.map_append]
      exact List.mem_append_left _ (ih key hStored)
    · have hOk := hInv.ok tid t ht
      rw [callKeys_set ht]
      rcases (hStep.change hInv.good hOk).of_stored hInv.good (hStep.good hInv.good hOk) hStored with
        hOld | ⟨_, _, rfl⟩
      · exact ih key hOld
      · exact List.mem_map_of_mem (List.mem_of_getElem? ht)

def Roomy (g : P.State ρ) (key : Key) : Prop :=
  P.opts.maxKeys ≤ 0 ∨ ∀ k ∈ callKeys g, k = key

/-- With one key only, a call that looks for a slot finds all of them free. -/
theorem Inv.live_eq_zero (h : P.Inv g) (hStored : ∀ k, P.Stored g.shared k → k ∈ callKeys g)
    (hOne : ∀ k ∈ callKeys g, k = key) (hPlain : ∀ t ∈ g.threads, t.pc.plain = true)
    {t : Thread P.shardCount σ ρ} (ht : g.threads[tid]? = some t) (hPc : t.pc = .load false) :
    g.shared.live = 0 := by
  have hKey : ∀ x ∈ g.threads, x.call.key = key := fun x hx => hOne _ (List.mem_map_of_mem hx)
  have hMem := List.mem_of_getElem? ht
  have hAbsent : ¬ P.Stored g.shared key := by
    have hOk := h.ok tid t ht
    rw [hPc] at hOk
    exact hKey t hMem ▸ hOk.2 rfl
  have hTotal : P.total g.shared = 0 := by
    apply Finset.sum_eq_zero
    intro i _
    rw [List.length_eq_zero_iff, List.eq_nil_iff_forall_not_mem]
    intro k hk
    have hHere : P.Stored g.shared k := by
      rw [Stored, h.good.placed i k hk]
      exact hk
    exact hAbsent (hOne k (hStored k hHere) ▸ hHere)
  have hDebts : (g.threads.map fun t => debt t.pc).sum = 0 := by
    apply List.sum_eq_zero
    intro d hd
    obtain ⟨x, hx, rfl⟩ := List.mem_map.mp hd
    by_contra hDebt
    -- the other call in debt would hold the lock that this one holds
    obtain ⟨u, hu⟩ := List.mem_iff_getElem?.mp hx
    have hHolds : x.pc.holds (P.self x.call) = some (P.self t.call) := by
      rw [holds_of_debt (hPlain x hx) hDebt, self, self, hKey x hx, hKey t hMem]
    obtain rfl : u = tid := h.locks.shard.unique hu hHolds ht (by rw [hPc]; rfl)
    obtain rfl : t = x := Option.some.inj (ht.symm.trans hu)
    rw [hPc] at hDebt
    exact hDebt rfl
  rw [h.count, hTotal, hDebts]
  rfl

theorem plain_of_roomy (hReach : P.program.Reachable g) (hRoomy : Roomy g key) :
    ∀ t ∈ g.threads, t.pc.plain = true := by
  revert hRoomy
  refine Program.Reach.invariant (M := P.program)
    (I := fun g => Roomy g key → ∀ t ∈ g.threads, t.pc.plain = true) ?_ ?_ hReach
  · intro _ t ht
    cases ht
  · intro g a g' hBefore ih _ hNext hRoomy x hx
    have hInv := inv hBefore
    rcases next_cases hNext with ⟨call, _, rfl⟩ | ⟨tid, choice, t, s', pc', _, ht, hStep, rfl⟩
    · rcases List.mem_append.mp hx with hOld | hNew
      · refine ih (hRoomy.imp_right fun hOne k hk => hOne k ?_) x hOld
        rw [callKeys, List.map_append]
        exact List.mem_append_left _ hk
      · obtain rfl := List.mem_singleton.mp hNew
        rfl
    · rw [Roomy, callKeys_set ht] at hRoomy
      have hPlain := ih hRoomy
      rcases List.mem_or_eq_of_mem_set hx with hOld | rfl
      · exact hPlain x hOld
      · rcases hStep.plain (hPlain t (List.mem_of_getElem? ht)) with hNext | ⟨hLoad, hFull⟩
        · exact hNext
        · have hOk := hInv.ok tid t ht
          rw [hLoad] at hOk
          rcases hRoomy with hNone | hOne
          · have := hOk.1
            omega
          · have hLive := hInv.live_eq_zero (called_of_stored hBefore) hOne hPlain ht hLoad
            have := hOk.1
            omega

/-! ## What is left for the calls to come -/

theorem Change.old_or_fresh (h : P.Change c s s' pc pc') (hPc : pc ≠ .run) :
    ∀ v ∈ P.value s' key, v ∈ P.value s key ∨ ∃ now, v = P.create now := by
  intro v hv
  cases h with
  | keep _ hValue =>
    rw [hValue] at hv
    exact .inl hv
  | create _ _ hValue =>
    rw [hValue] at hv
    split at hv
    · cases hv
      exact .inr ⟨_, rfl⟩
    · exact .inl hv
  | drop _ _ _ _ hValue =>
    rw [hValue] at hv
    split at hv
    · cases hv
    · exact .inl hv
  | run => exact absurd rfl hPc

end Params

/-- A fresh state is good for `size` calls, one after another, while `ok` holds. -/
structure Lasts (create : Int → σ) (fn : σ → Int → σ × Result) (ok : σ → Int → Prop) (level : σ → ℚ)
    (size : Nat) : Prop where
  create (now) : size ≤ level (create now)
  serve {v now} {m : Nat} : 1 ≤ m → m ≤ size → m ≤ level v → ok v now →
    (fn v now).2.allowed = true ∧ m ≤ level (fn v now).1 + 1

namespace Params

variable {P : Params σ} {tid : Tid} {choice : List Key} {s' : Store P.shardCount σ}
  {pc' : Pc P.shardCount Result} {g : P.State Result} {key : Key} {fn : σ → Int → σ × Result}
  {ok : σ → Int → Prop} {level : σ → ℚ} {size : Nat}

def allowedOn (g : P.State Result) (key : Key) : Nat :=
  (answered g key).countP fun x => x.2.allowed

structure Owes (level : σ → ℚ) (size : Nat) (g : P.State Result) (key : Key) : Prop where
  granted : min (answered g key).length size ≤ allowedOn g key
  left : allowedOn g key < size → ∀ v ∈ P.value g.shared key, size ≤ level v + allowedOn g key

theorem Owes.congr (h : Owes level size g key) {g' : P.State Result}
    (hAnswered : answered g' key = answered g key)
    (hLeft : ∀ v ∈ P.value g'.shared key, v ∈ P.value g.shared key ∨ size ≤ level v) :
    Owes level size g' key := by
  constructor
  · rw [allowedOn, hAnswered]
    exact h.granted
  · rw [allowedOn, hAnswered]
    intro hRoom v hv
    rcases hLeft v hv with hOld | hFresh
    · exact h.left hRoom v hOld
    · have : (0 : ℚ) ≤ allowedOn g key := Nat.cast_nonneg _
      exact hFresh.trans (le_add_of_nonneg_right this)

theorem Owes.run (hLasts : Lasts P.create fn ok level size) {t : Thread P.shardCount σ Result} {v : σ}
    (h : Owes level size g t.call.key) (ht : g.threads[tid]? = some t) (hPc : t.pc = .run)
    (hPc' : pc' = .unlock (.ok (fn v t.call.now).2)) (hOld : P.value g.shared t.call.key = some v)
    (hValue : P.value s' t.call.key = some (fn v t.call.now).1) (hOk : ok v t.call.now)
    (history : List (Event (Outcome Result))) :
    Owes level size (⟨s', g.threads.set tid ⟨t.call, pc'⟩, history⟩ : P.State Result) t.call.key := by
  have hPerm := answered_run s' ht hPc hPc' history
  have hLength := hPerm.length_eq
  have hCount : allowedOn (⟨s', g.threads.set tid ⟨t.call, pc'⟩, history⟩ : P.State Result) t.call.key =
      allowedOn g t.call.key + if (fn v t.call.now).2.allowed then 1 else 0 := by
    rw [allowedOn, hPerm.countP_eq, List.countP_append, List.countP_singleton, allowedOn]
  have hGranted := h.granted
  rw [List.length_append, List.length_singleton] at hLength
  rcases lt_or_ge (allowedOn g t.call.key) size with hRoom | hDone
  · obtain ⟨m, hm⟩ := Nat.exists_eq_add_of_lt hRoom
    have hLevel : ((m + 1 : Nat) : ℚ) ≤ level v := by
      have hLeft := h.left hRoom v hOld
      rw [hm] at hLeft
      push_cast at hLeft ⊢
      linarith
    obtain ⟨hAllowed, hNext⟩ := hLasts.serve (by omega) (by omega) hLevel hOk
    rw [hAllowed, if_pos rfl] at hCount
    constructor
    · omega
    · intro _ w hw
      obtain rfl := Option.some.inj (hValue.symm.trans hw)
      rw [hCount, hm]
      push_cast at hNext ⊢
      linarith
  · constructor
    · omega
    · intro hMore
      omega

theorem Owes.step (hLasts : Lasts P.create fn ok level size) {t : Thread P.shardCount σ Result}
    (h : ∀ key, Owes level size g key) (hInv : P.Inv g) (ht : g.threads[tid]? = some t)
    (hFn : t.call.fn = fn) (hStep : P.Step tid choice g.shared t.call t.pc s' pc')
    (hOk : t.pc = .run → ∀ v ∈ P.value g.shared t.call.key, ok v t.call.now)
    (history : List (Event (Outcome Result))) (key : Key) :
    Owes level size (⟨s', g.threads.set tid ⟨t.call, pc'⟩, history⟩ : P.State Result) key := by
  rcases ne_or_eq t.pc .run with hNot | hRun
  · have hChange := hStep.change hInv.good (hInv.ok tid t ht)
    refine (h key).congr (answered_set s' ht (.inl (hStep.answer hNot)) history) fun v hv => ?_
    refine (hChange.old_or_fresh hNot v hv).imp_right ?_
    rintro ⟨now, rfl⟩
    exact hLasts.create now
  · obtain ⟨call, pc⟩ := t
    subst hRun hFn
    cases hStep with
    | @run entry hEntry =>
      have hOld : P.value g.shared call.key = some entry.1 := congrArg (Option.map Prod.fst) hEntry
      have hValue := value_write hInv.good hEntry (call.fn entry.1 call.now).1
      rcases eq_or_ne key call.key with rfl | hNe
      · exact (h _).run hLasts ht rfl rfl hOld ((hValue _).trans (if_pos rfl)) (hOk rfl _ hOld) history
      · refine (h key).congr (answered_set _ ht (.inr hNe.symm) history) fun v hv => ?_
        rw [hValue, if_neg hNe] at hv
        exact .inl hv

theorem owes (hLasts : Lasts P.create fn ok level size)
    (hReach : (P.requests fn).Reach (ServedWhen ok) g) (key : Key) : Owes level size g key := by
  revert key
  refine Program.Reach.invariant (M := P.requests fn)
    (I := fun g => ∀ key, Owes level size g key) ?_ ?_ hReach
  · intro key
    constructor
    · exact Nat.zero_le _
    · intro _ v hv
      simp [Program.initial, requests, Program.comap, program, value_new] at hv
  · intro g a g' hBefore ih hGuard hNext key
    have hFn := requests_fn hBefore
    have hInv := inv hBefore.of_comap
    rw [requests, Program.comap_next] at hNext
    rcases next_cases hNext with ⟨call, _, rfl⟩ | ⟨tid, choice, t, s', pc', hAct, ht, hStep, rfl⟩
    · refine (ih key).congr ?_ fun v hv => .inl hv
      simp [answered, answerOn, Pc.answer]
    · have hOk : t.pc = .run → ∀ v ∈ P.value g.shared t.call.key, ok v t.call.now := by
        cases a with
        | start => cases hAct
        | step =>
          cases hAct
          exact hGuard t ht
      exact Owes.step hLasts ih hInv ht (hFn t (List.mem_of_getElem? ht)) hStep hOk _ key

/-! ## The burst -/

/-- Once all the calls on a key have returned, `size` of them are allowed, or
all where there are fewer. -/
def ServesBurst (P : Params σ) (fn : σ → Int → σ × Result) (size : Nat)
    (ok : P.State Result → Act (Key × Int) (List Key) → Prop) : Prop :=
  ∀ g, (P.requests fn).Reach ok g → ∀ key, Roomy g key →
    (∀ t ∈ g.threads, t.call.key = key → (outcome? t.pc).isSome = true) →
    min ((callKeys g).count key) size ≤ allowedOn g key

theorem isSome_answer {pc : Pc P.shardCount Result} (hPlain : pc.plain = true)
    (hReturned : (outcome? pc).isSome = true) : pc.answer.isSome = true := by
  cases pc with
  | done outcome =>
    cases outcome with
    | ok r => rfl
    | errMaxKeysExceeded => cases hPlain
  | _ => cases hReturned

theorem length_answered (hAnswer : ∀ t ∈ g.threads, t.call.key = key → t.pc.answer.isSome = true) :
    (answered g key).length = (callKeys g).count key := by
  rw [answered, List.length_filterMap_eq_countP, callKeys, List.count, List.countP_map]
  apply List.countP_congr
  intro t ht
  rw [answerOn]
  split
  · rename_i hKey
    simpa [hKey] using hAnswer t ht hKey
  · rename_i hNe
    simp [hNe]

theorem servesBurst (hLasts : Lasts P.create fn ok level size) :
    P.ServesBurst fn size (ServedWhen ok) := by
  intro g hReach key hRoomy hReturned
  have hPlain := plain_of_roomy hReach.of_comap hRoomy
  have hLength := length_answered fun t ht hKey => isSome_answer (hPlain t ht) (hReturned t ht hKey)
  rw [← hLength]
  exact (owes hLasts hReach key).granted

end Params

/-! ## The buckets -/

/-- What the reading takes off the level is no more than its fraction. -/
def TokenBucket.Spares (rates : Rates) (b : Bucket) (now : Int) : Prop :=
  1 ≤ b.tokens → -(seconds (sub now b.lastRefilled) * rates.rate) ≤ Int.fract b.tokens

def LeakyBucket.Spares (rates : Rates) (b : LeakyState) (now : Int) : Prop :=
  TokenBucket.Spares rates (asTokens rates b) now

instance (rates : Rates) (b : Bucket) (now : Int) : Decidable (TokenBucket.Spares rates b now) :=
  inferInstanceAs (Decidable (_ → _))

theorem TokenBucket.lasts (rates : Rates) : Lasts (create rates) (refillAndDecide rates)
    (Spares rates) Bucket.tokens ⌊rates.capacity⌋₊ where
  create _ := Nat.floor_le (zero_le_one.trans rates.one_le)
  serve {b now m} hPos hSize hLevel hSpares := by
    have hOne : (1 : ℚ) ≤ m := by exact_mod_cast hPos
    have hCost := hSpares (hOne.trans hLevel)
    have hWhole : (m : ℚ) ≤ ⌊b.tokens⌋ := by
      exact_mod_cast Int.le_floor.mpr (show ((m : Int) : ℚ) ≤ b.tokens by exact_mod_cast hLevel)
    have hRefilled : m ≤ refilled rates b now := by
      apply le_min
      · exact (Nat.le_floor_iff (zero_le_one.trans rates.one_le)).mp hSize
      · rw [Int.fract] at hCost
        linarith
    have hAllowed := allowed_iff.mpr (hOne.trans hRefilled)
    refine ⟨hAllowed, ?_⟩
    rw [tokens_refill, hAllowed, if_pos rfl]
    linarith

theorem LeakyBucket.lasts (rates : Rates) : Lasts create (leakAndDecide rates) (Spares rates)
    (fun b => (asTokens rates b).tokens) ⌊rates.capacity⌋₊ where
  create now := by
    rw [asTokens_create]
    exact (TokenBucket.lasts rates).create now
  serve {b now m} hPos hSize hLevel hSpares := by
    have hNext := (TokenBucket.lasts rates).serve hPos hSize hLevel hSpares
    rwa [leakAndDecide_asTokens] at hNext

theorem burst_served (rates : Rates) (opts : Options) (shardCount : Nat)
    (power : ∃ k, shardCount = 2 ^ k) :
    (TokenBucket.params rates opts shardCount power).ServesBurst (TokenBucket.refillAndDecide rates)
        ⌊rates.capacity⌋₊ (Params.ServedWhen (TokenBucket.Spares rates)) ∧
      (LeakyBucket.params opts shardCount power).ServesBurst (LeakyBucket.leakAndDecide rates)
        ⌊rates.capacity⌋₊ (Params.ServedWhen (LeakyBucket.Spares rates)) :=
  ⟨Params.servesBurst (TokenBucket.lasts rates), Params.servesBurst (LeakyBucket.lasts rates)⟩

/-- Two calls read the clock a microsecond apart, and the second one takes the
lock first. -/
def swappedRun : List (Act (Key × Int) (List Key)) :=
  [.start ([97], 0), .start ([97], 1000)] ++ Params.steps 1 7 ++ Params.steps 0 5

def halfMore : Rates := ⟨5 / 2, 10, by norm_num, by norm_num⟩

theorem burst_served_swappedRun :
    let P := TokenBucket.params halfMore {} 2 Params.two_shards
    let g := (P.requests (TokenBucket.refillAndDecide halfMore)).final
      (Params.ServedWhen (TokenBucket.Spares halfMore)) swappedRun
    (Params.callKeys g).count [97] = 2 ∧
      min ((Params.callKeys g).count [97]) ⌊halfMore.capacity⌋₊ ≤ Params.allowedOn g [97] :=
  ⟨by decide +kernel, (burst_served halfMore {} 2 Params.two_shards).1 _
    (.final swappedRun (by decide +kernel)) [97] (.inl (by decide)) (by decide +kernel)⟩

def tenPerSecond : Rates := { halfMore with capacity := 2, one_le := Rates.onePerSecond.one_le }

/-- The call that comes late takes away what is missing to the token it needs. -/
theorem burst_refused :
    ¬ (TokenBucket.params tenPerSecond {} 2 Params.two_shards).ServesBurst
        (TokenBucket.refillAndDecide tenPerSecond) ⌊tenPerSecond.capacity⌋₊ Params.Clocked ∧
      ¬ (LeakyBucket.params {} 2 Params.two_shards).ServesBurst
        (LeakyBucket.leakAndDecide tenPerSecond) ⌊tenPerSecond.capacity⌋₊ Params.Clocked := by
  have hSize : ⌊tenPerSecond.capacity⌋₊ = 2 := Nat.floor_ofNat 2
  rw [hSize]
  constructor
  · intro hServes
    have hTwo := hServes _ (.final swappedRun (by decide +kernel)) [97] (.inl (by decide))
      (by decide +kernel)
    revert hTwo
    decide +kernel
  · intro hServes
    have hTwo := hServes _ (.final swappedRun (by decide +kernel)) [97] (.inl (by decide))
      (by decide +kernel)
    revert hTwo
    decide +kernel

end Kaka.Memory
