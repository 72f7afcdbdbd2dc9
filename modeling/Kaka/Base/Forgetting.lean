import Mathlib.Logic.Function.Basic
import Mathlib.Order.Defs.PartialOrder

/-! # Machines that forget

A machine creates its state at the first request and answers each request
from the state.  Something outside may remove the state once the machine has
been idle, and the next request then creates it afresh.  Nobody can tell,
when an idle state answers as a fresh one does and leaves a state that
cannot be told from the one the fresh state leaves.
-/

namespace Forgetting

structure Machine (σ ι ρ τ : Type*) where
  create : ι → σ
  fn : σ → ι → σ × ρ
  time : ι → τ

variable {σ ι ρ τ κ : Type*}

def Machine.found (M : Machine σ ι ρ τ) (a : Option σ) (x : ι) : σ := a.getD (M.create x)

/-- The machine that never forgets; it keeps the time of its last request. -/
def Machine.single (M : Machine σ ι ρ τ) (b : Option (σ × τ)) (x : ι) : Option (σ × τ) × ρ :=
  let out := M.fn (M.found (b.map Prod.fst) x) x
  (some (out.1, M.time x), out.2)

def Machine.keyed [DecidableEq κ] (M : Machine σ ι ρ τ) (m : κ → Option (σ × τ)) (x : κ × ι) :
    (κ → Option (σ × τ)) × ρ :=
  let out := M.single (m x.1) x.2
  (Function.update m x.1 out.1, out.2)

theorem Machine.keyed_self [DecidableEq κ] (M : Machine σ ι ρ τ) (m : κ → Option (σ × τ)) (key : κ)
    (x : ι) : (M.keyed m (key, x)).1 key = (M.single (m key) x).1 :=
  Function.update_self _ _ _

theorem Machine.keyed_of_ne [DecidableEq κ] (M : Machine σ ι ρ τ) (m : κ → Option (σ × τ))
    {key key' : κ} (hNe : key' ≠ key) (x : ι) : (M.keyed m (key, x)).1 key' = m key' :=
  Function.update_of_ne hNe _ _

variable [Preorder τ]

/-- `Inv w last` holds of the state `w` left by a request at `last`,
`Idle last t` says that a state last used at `last` may be removed at `t`,
and `Same v w` that `v` and `w` answer alike from now on. -/
structure Recovers (M : Machine σ ι ρ τ) (Idle : τ → τ → Prop) (Inv : σ → τ → Prop)
    (Same : σ → σ → Prop) : Prop where
  later {last t t'} : Idle last t → t ≤ t' → Idle last t'
  refl (v) : Same v v
  first (x) : Inv (M.fn (M.create x) x).1 (M.time x)
  next {w last x} : Inv w last → last ≤ M.time x → Inv (M.fn w x).1 (M.time x)
  same {v w last x} : Same v w → Inv w last → last ≤ M.time x →
    (M.fn v x).2 = (M.fn w x).2 ∧ Same (M.fn v x).1 (M.fn w x).1
  idle {w last x} : Inv w last → last ≤ M.time x → Idle last (M.time x) →
    (M.fn (M.create x) x).2 = (M.fn w x).2 ∧ Same (M.fn (M.create x) x).1 (M.fn w x).1

/-- A machine seen through a map of its states that the requests commute with. -/
theorem Recovers.comap {σ' : Type*} {M : Machine σ ι ρ τ} {Idle : τ → τ → Prop}
    {Inv : σ → τ → Prop} {Same : σ → σ → Prop} (h : Recovers M Idle Inv Same)
    {M' : Machine σ' ι ρ τ} (f : σ' → σ) (hTime : M'.time = M.time)
    (hCreate : ∀ x, M.create x = f (M'.create x))
    (hFn : ∀ v x, M.fn (f v) x = (f (M'.fn v x).1, (M'.fn v x).2)) :
    Recovers M' Idle (fun v last => Inv (f v) last) (fun v w => Same (f v) (f w)) where
  later := h.later
  refl v := h.refl (f v)
  first x := by
    have hFirst := h.first x
    rw [hCreate, hFn] at hFirst
    rwa [hTime]
  next {w last x} hInv hLast := by
    rw [hTime] at hLast ⊢
    have hNext := h.next hInv hLast
    rwa [hFn] at hNext
  same {v w last x} hSame hInv hLast := by
    rw [hTime] at hLast
    have hAlike := h.same hSame hInv hLast
    rwa [hFn, hFn] at hAlike
  idle {w last x} hInv hLast hIdle := by
    rw [hTime] at hLast hIdle
    have hAlike := h.idle hInv hLast hIdle
    rwa [hCreate, hFn, hFn] at hAlike

section Tracks

variable {M : Machine σ ι ρ τ} {Idle : τ → τ → Prop} {Inv : σ → τ → Prop} {Same : σ → σ → Prop}

/-- What is left at `t` of the machine that forgets, and the state of the one
that does not with the time of its last request. -/
inductive Tracks (Idle : τ → τ → Prop) (Inv : σ → τ → Prop) (Same : σ → σ → Prop) (t : τ) :
    Option σ → Option (σ × τ) → Prop
  | absent : Tracks Idle Inv Same t none none
  | kept {v w last} (hSame : Same v w) (hInv : Inv w last) (hLast : last ≤ t) :
      Tracks Idle Inv Same t (some v) (some (w, last))
  | forgotten {w last} (hInv : Inv w last) (hLast : last ≤ t) (hIdle : Idle last t) :
      Tracks Idle Inv Same t none (some (w, last))

theorem Tracks.later {t t' : τ} {a : Option σ} {b : Option (σ × τ)} (hRecovers : Recovers M Idle Inv Same)
    (h : Tracks Idle Inv Same t a b) (hTime : t ≤ t') : Tracks Idle Inv Same t' a b := by
  cases h with
  | absent => exact .absent
  | kept hSame hInv hLast => exact .kept hSame hInv (le_trans hLast hTime)
  | forgotten hInv hLast hIdle =>
    exact .forgotten hInv (le_trans hLast hTime) (hRecovers.later hIdle hTime)

theorem Tracks.last_le {t : τ} {a : Option σ} {b : Option (σ × τ)} (h : Tracks Idle Inv Same t a b)
    {w : σ × τ} (hw : w ∈ b) : w.2 ≤ t := by
  cases h with
  | absent => cases hw
  | kept _ _ hLast | forgotten _ hLast =>
    cases hw
    exact hLast

theorem Tracks.forget {t : τ} {v : σ} {b : Option (σ × τ)} (h : Tracks Idle Inv Same t (some v) b)
    (hIdle : ∀ w ∈ b, Idle w.2 t) : Tracks Idle Inv Same t none b := by
  cases h with
  | kept hSame hInv hLast => exact .forgotten hInv hLast (hIdle _ rfl)

theorem Tracks.alike {x : ι} {a : Option σ} {b : Option (σ × τ)}
    (hRecovers : Recovers M Idle Inv Same) (h : Tracks Idle Inv Same (M.time x) a b) :
    (M.fn (M.found a x) x).2 = (M.single b x).2 ∧
      Same (M.fn (M.found a x) x).1 (M.fn (M.found (b.map Prod.fst) x) x).1 := by
  cases h with
  | absent => exact ⟨rfl, hRecovers.refl _⟩
  | kept hSame hInv hLast => exact hRecovers.same hSame hInv hLast
  | forgotten hInv hLast hIdle => exact hRecovers.idle hInv hLast hIdle

theorem Tracks.request {x : ι} {a : Option σ} {b : Option (σ × τ)}
    (hRecovers : Recovers M Idle Inv Same) (h : Tracks Idle Inv Same (M.time x) a b) :
    Tracks Idle Inv Same (M.time x) (some (M.fn (M.found a x) x).1) (M.single b x).1 := by
  refine .kept (h.alike hRecovers).2 ?_ le_rfl
  cases h with
  | absent => exact hRecovers.first x
  | kept hSame hInv hLast => exact hRecovers.next hInv hLast
  | forgotten hInv hLast hIdle => exact hRecovers.next hInv hLast

end Tracks

end Forgetting
