import Mathlib.Data.List.Basic
import Mathlib.Logic.Function.Basic

/-! # A machine in front of another

A front machine sees every request and stops some of them, so the machine
behind it lags what it would be had it seen them all.  Nobody can tell, when
the front stops only what the machine behind would refuse as well, and the
lag shows in no answer.
-/

namespace Shielding

variable {S S' A A' ι ι' ρ ρ' κ : Type*}

/-- `Lags past s a b`: after the requests `past` the front is at `s` and the
machine behind at `a`, but at `b` had it seen them all.  It is asked for
`forward x`, and would have been for `direct x`, where `Ok past x` says that
`x` may follow `past`. -/
structure Shields (front : S → ι → S × ρ) (behind : A → ι' → A × ρ') (forward direct : ι → ι')
    (passes : ρ → Bool) (refuses : ρ → ρ' → Prop) (Ok : List ι → ι → Prop)
    (Lags : List ι → S → A → A → Prop) : Prop where
  stop {past s a b x} : Lags past s a b → Ok past x → passes (front s x).2 = false →
    refuses (front s x).2 (behind b (direct x)).2 ∧
      Lags (past ++ [x]) (front s x).1 a (behind b (direct x)).1
  pass {past s a b x} : Lags past s a b → Ok past x → passes (front s x).2 = true →
    (behind a (forward x)).2 = (behind b (direct x)).2 ∧
      Lags (past ++ [x]) (front s x).1 (behind a (forward x)).1 (behind b (direct x)).1

section Keys

variable [DecidableEq κ]

/-- The requests on one key. -/
def pastOf (key : κ) (requests : List (κ × ι)) : List ι :=
  (requests.filter fun x => x.1 = key).map Prod.snd

theorem pastOf_sublist (key : κ) (requests : List (κ × ι)) :
    (pastOf key requests).Sublist (requests.map Prod.snd) :=
  List.filter_sublist.map Prod.snd

theorem pastOf_split (before : List (κ × ι)) (x : κ × ι) (rest : List (κ × ι)) :
    pastOf x.1 (before ++ x :: rest) = pastOf x.1 before ++ x.2 :: pastOf x.1 rest := by
  simp [pastOf]

theorem pastOf_snoc (key : κ) (requests : List (κ × ι)) (x : κ × ι) :
    pastOf key (requests ++ [x]) = if x.1 = key then pastOf key requests ++ [x.2]
      else pastOf key requests := by
  rw [pastOf, List.filter_append, List.map_append]
  split
  · rename_i hKey
    simp [pastOf, hKey]
  · rename_i hKey
    simp [pastOf, hKey]

variable {front : S → ι → S × ρ} {behind : A → ι' → A × ρ'} {forward direct : ι → ι'}
  {passes : ρ → Bool} {refuses : ρ → ρ' → Prop} {Ok : List ι → ι → Prop}
  {Lags : List ι → S → A → A → Prop} {requests : List (κ × ι)} {x : κ × ι} {m : κ → S} {a b : κ → A}

theorem lags_update {s : S} {u v : A} (hOwn : Lags (pastOf x.1 requests ++ [x.2]) s u v) {key : κ}
    (hOther : key ≠ x.1 → Lags (pastOf key requests) (m key) (a key) (b key)) :
    Lags (pastOf key (requests ++ [x])) (Function.update m x.1 s key) (Function.update a x.1 u key)
      (Function.update b x.1 v key) := by
  rw [pastOf_snoc]
  split
  · rename_i hKey
    subst hKey
    simpa using hOwn
  · rename_i hKey
    rw [Function.update_of_ne (Ne.symm hKey), Function.update_of_ne (Ne.symm hKey),
      Function.update_of_ne (Ne.symm hKey)]
    exact hOther (Ne.symm hKey)

end Keys

/-- Machines seen through maps of their states that the requests commute with. -/
theorem Shields.comap {front : S → ι → S × ρ} {behind : A → ι' → A × ρ'} {forward direct : ι → ι'}
    {passes : ρ → Bool} {refuses : ρ → ρ' → Prop} {Ok : List ι → ι → Prop}
    {Lags : List ι → S → A → A → Prop} (h : Shields front behind forward direct passes refuses Ok Lags)
    {front' : S' → ι → S' × ρ} {behind' : A' → ι' → A' × ρ'} (f : S' → S) (g : A' → A)
    (hFront : ∀ s x, front (f s) x = (f (front' s x).1, (front' s x).2))
    (hBehind : ∀ a x, behind (g a) x = (g (behind' a x).1, (behind' a x).2)) :
    Shields front' behind' forward direct passes refuses Ok
      (fun past s a b => Lags past (f s) (g a) (g b)) where
  stop {past s a b x} hLags hOk hStop := by
    have hNext := h.stop hLags hOk (by rwa [hFront])
    rwa [hFront, hBehind] at hNext
  pass {past s a b x} hLags hOk hPass := by
    have hNext := h.pass hLags hOk (by rwa [hFront])
    rwa [hFront, hBehind, hBehind] at hNext

end Shielding
