import Kaka.Memory.BucketAdmission
import Kaka.Memory.KeyHistory

/-! # The admission bound in every interleaving

Calls on a bucket's store read the clock before they take the lock.  In the
order in which the callbacks of a key run, no reading may lie further before
the one of the callback before than a `time.Duration` can say.
-/

namespace Kaka.Memory

variable {σ : Type} {create : Int → σ} {fn : σ → Int → σ × Result} {time : σ → Int}

theorem near_of_served (hTime : ∀ v now, time (fn v now).1 = now) {history : List (Int × Result)}
    {v : σ} (h : Served create fn (fun v now => Near (time v) now) history v) :
    (history.map Prod.fst).IsChain Near ∧ (history.map Prod.fst).getLast? = some (time v) :=
  h.chain hTime

/-- What bounds the requests served one after another bounds every interleaving. -/
theorem bounded_of_reach {P : Params σ} {capacity rate : ℚ} (hKeeps : P.Keeps)
    (hTime : ∀ v now, time (fn v now).1 = now)
    (hBounded : ∀ readings : List Int, readings.IsChain Near →
      Bounded capacity rate (answers P.create fn readings))
    {g : P.State Result}
    (hReach : (P.requests fn).Reach (Params.ServedWhen fun v now => Near (time v) now) g)
    (key : Key) : Bounded capacity rate (Params.answered g key) := by
  cases Params.keyState hKeeps hReach key with
  | absent _ hNone | created _ _ _ _ hNone =>
    rw [hNone]
    exact hBounded [] .nil
  | served _ hPerm hServed =>
    obtain ⟨hChain, _⟩ := near_of_served hTime hServed
    obtain ⟨now, rest, rfl, _⟩ := hServed.replay
    rw [map_fst_serve] at hChain
    intro a b hab
    rw [← hPerm.countP_eq]
    exact hBounded (now :: rest) hChain a b hab

def TokenBucket.params (tb : Rates) (opts : Options) (shardCount : Nat)
    (power : ∃ k, shardCount = 2 ^ k) : Params Bucket where
  opts := opts
  shardCount := shardCount
  power := power
  create := TokenBucket.create tb

def LeakyBucket.params (opts : Options) (shardCount : Nat) (power : ∃ k, shardCount = 2 ^ k) :
    Params LeakyState where
  opts := opts
  shardCount := shardCount
  power := power
  create := LeakyBucket.create

variable {rates : Rates} {opts : Options} {shardCount : Nat} {power : ∃ k, shardCount = 2 ^ k}

theorem TokenBucket.bounded_requests (hKeeps : (TokenBucket.params rates opts shardCount power).Keeps)
    {g : (TokenBucket.params rates opts shardCount power).State Result}
    (hReach : ((TokenBucket.params rates opts shardCount power).requests
      (TokenBucket.refillAndDecide rates)).Reach
        (Params.ServedWhen fun b now => Near b.lastRefilled now) g) (key : Key) :
    Bounded rates.capacity rates.rate (Params.answered g key) :=
  bounded_of_reach hKeeps (fun _ _ => TokenBucket.lastRefilled_refill)
    (fun readings hNear => TokenBucket.bounded readings hNear) hReach key

theorem LeakyBucket.bounded_requests (hKeeps : (LeakyBucket.params opts shardCount power).Keeps)
    {g : (LeakyBucket.params opts shardCount power).State Result}
    (hReach : ((LeakyBucket.params opts shardCount power).requests
      (LeakyBucket.leakAndDecide rates)).Reach
        (Params.ServedWhen fun b now => Near b.lastLeak now) g) (key : Key) :
    Bounded rates.capacity rates.rate (Params.answered g key) := by
  have hTime : ∀ b now, (LeakyBucket.leakAndDecide rates b now).1.lastLeak = now := by
    intro b now
    have hTokens := congrArg (fun x => x.1.lastRefilled) (LeakyBucket.leakAndDecide_asTokens rates b now)
    exact hTokens.symm.trans TokenBucket.lastRefilled_refill
  refine bounded_of_reach hKeeps hTime (fun readings hNear => ?_) hReach key
  exact (LeakyBucket.answers_asTokens rates readings).symm ▸ TokenBucket.bounded readings hNear

end Kaka.Memory
