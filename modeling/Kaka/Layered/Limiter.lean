import Kaka.Limiter

/-! # The layered limiter

The local layer may only deny.  Whatever it allows, and whatever it fails on,
is left to the remote layer, whose answer is returned as it is.
-/

namespace Kaka.Layered

def validateKey (key : List UInt8) : Option String :=
  if blank key then some "layered: invalid key" else none

/-- What `Allow` returns after the local layer's answer, without the remote layer. -/
def settled : Answer → Option Answer
  | (_, some _) => none
  | (r, none) => if !r.allowed then some (r, none) else none

theorem settled_of_denied {r : Result} (h : r.allowed = false) : settled (r, none) = some (r, none) := by
  simp [settled, h]

theorem settled_of_allowed {r : Result} (h : r.allowed = true) : settled (r, none) = none := by
  simp [settled, h]

theorem denied_of_settled {a b : Answer} (h : settled a = some b) : b.1.allowed = false := by
  obtain ⟨r, error⟩ := a
  cases error with
  | some _ => cases h
  | none =>
    simp only [settled] at h
    split at h
    · cases h
      simpa using ‹(!r.allowed) = true›
    · cases h

/-! ## Calls one after another -/

section Calls

variable {S R ι : Type} (front : List UInt8 × ι → S → S → Answer → Prop)
  (back : R → List UInt8 × ι → R × Answer)

/-- One call of `Allow` with nothing else running, on a local layer that may
leave something open. -/
inductive Allow (x : List UInt8 × ι) : S × R → S × R → Answer → Prop
  | invalid {v err} (hKey : validateKey x.1 = some err) : Allow x v v (⟨false, 0, 0⟩, some err)
  | denied {s s' r a b} (hKey : validateKey x.1 = none) (hLocal : front x s s' a)
      (hSettled : settled a = some b) : Allow x (s, r) (s', r) b
  | passed {s s' r a} (hKey : validateKey x.1 = none) (hLocal : front x s s' a)
      (hOpen : settled a = none) : Allow x (s, r) (s', (back r x).1) (back r x).2

/-- The calls made so far with their answers, and the two layers they leave. -/
inductive Serial (init : S × R) : List ((List UInt8 × ι) × Answer) → S × R → Prop
  | nil : Serial init [] init
  | snoc {history v x v' a} (hBefore : Serial init history v) (hAllow : Allow front back x v v' a) :
      Serial init (history ++ [(x, a)]) v'

end Calls

end Kaka.Layered
