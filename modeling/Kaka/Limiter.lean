import Mathlib.Algebra.Order.Field.Rat
import Mathlib.Tactic.Linarith

/-! # Results and clock readings

An instant is the integer number of nanoseconds since the zero `time.Time`,
a duration an integer number of nanoseconds. The difference of two instants
saturates at the ends of `time.Duration`, as `Time.Sub` documents.

A limiter decides on one key by a function of the key's state and a clock
reading; a sequence of requests threads the state through it.
-/

namespace Kaka

def maxDuration : Int := 9223372036854775807

def minDuration : Int := -9223372036854775808

def sub (t u : Int) : Int :=
  max minDuration (min maxDuration (t - u))

theorem sub_of_le {t u : Int} (hLow : minDuration ≤ t - u) (hHigh : t - u ≤ maxDuration) :
    sub t u = t - u := by
  rw [sub, min_eq_right hHigh, max_eq_right hLow]

@[simp] theorem sub_self (t : Int) : sub t t = 0 := by
  simp [sub, minDuration, maxDuration]

theorem sub_le_of_le {t u : Int} (hLow : minDuration ≤ t - u) : sub t u ≤ t - u := by
  simp only [sub, minDuration, maxDuration] at *
  omega

theorem sub_le_sub_left {t t' : Int} (hTime : t ≤ t') (u : Int) : sub t u ≤ sub t' u := by
  simp only [sub]
  omega

theorem sub_le_sub_right {u u' : Int} (hTime : u ≤ u') (t : Int) : sub t u' ≤ sub t u := by
  simp only [sub]
  omega

theorem sub_nonneg_of_le {t u : Int} (hTime : u ≤ t) : 0 ≤ sub t u := by
  rw [← sub_self u]
  exact sub_le_sub_left hTime u

structure Result where
  allowed : Bool
  remaining : Int
  retryAfter : Int
  deriving DecidableEq, Repr

/-- What `Allow` returns: a result and an error, `none` where that is `nil`. -/
abbrev Answer := Result × Option String

/-- `strings.TrimSpace(key) == ""`: the key is UTF-8 text of white space only. -/
def blank : List UInt8 → Bool
  | [] => true
  | 0xC2 :: 0x85 :: rest => blank rest
  | 0xC2 :: 0xA0 :: rest => blank rest
  | 0xE1 :: 0x9A :: 0x80 :: rest => blank rest
  | 0xE2 :: 0x80 :: c :: rest =>
    (0x80 ≤ c && c ≤ 0x8A || c == 0xA8 || c == 0xA9 || c == 0xAF) && blank rest
  | 0xE2 :: 0x81 :: 0x9F :: rest => blank rest
  | 0xE3 :: 0x80 :: 0x80 :: rest => blank rest
  | b :: rest => (9 ≤ b && b ≤ 13 || b == 32) && blank rest

example : blank [32, 0xE2, 0x80, 0x83, 10] = true ∧ blank [32, 97] = false ∧ blank [0xE2, 32] = false := by
  decide

/-- The capacity and the rate of a bucket.  The constructors, in memory and
over Redis, panic on any others. -/
structure Rates where
  capacity : ℚ
  rate : ℚ
  one_le : 1 ≤ capacity
  rate_pos : 0 < rate

/-- A level that is capped on the way is capped at the end. -/
theorem min_min_add {capacity level gain later : ℚ} (hLater : 0 ≤ later) :
    min capacity (min capacity (level + gain) + later) = min capacity (level + (gain + later)) := by
  rw [← min_add_add_right, ← min_assoc, min_eq_left (le_add_of_nonneg_right hLater), add_assoc]

/-- One request a second, two at once. -/
def Rates.onePerSecond : Rates := ⟨2, 1, by norm_num, by norm_num⟩

section Requests

variable {σ ι ρ : Type}

/-- Requests on one key, served one after another: each request with the
state it leaves and its answer. -/
def trace (fn : σ → ι → σ × ρ) (v : σ) : List ι → List (ι × σ × ρ)
  | [] => []
  | x :: rest => (x, fn v x) :: trace fn (fn v x).1 rest

/-- Each request with its answer. -/
def serve (fn : σ → ι → σ × ρ) (v : σ) (requests : List ι) : List (ι × ρ) :=
  (trace fn v requests).map fun x => (x.1, x.2.2)

/-- The state is created at the first request. -/
def answers (create : ι → σ) (fn : σ → ι → σ × ρ) : List ι → List (ι × ρ)
  | [] => []
  | x :: rest => serve fn (create x) (x :: rest)

theorem serve_cons (fn : σ → ι → σ × ρ) (v : σ) (x : ι) (rest : List ι) :
    serve fn v (x :: rest) = (x, (fn v x).2) :: serve fn (fn v x).1 rest := rfl

/-- The state that the requests leave. -/
def after (fn : σ → ι → σ × ρ) (v : σ) (requests : List ι) : σ :=
  requests.foldl (fun v x => (fn v x).1) v

theorem serve_append (fn : σ → ι → σ × ρ) (v : σ) (requests requests' : List ι) :
    serve fn v (requests ++ requests') =
      serve fn v requests ++ serve fn (after fn v requests) requests' := by
  induction requests generalizing v with
  | nil => rfl
  | cons x rest ih =>
    rw [List.cons_append, serve_cons, serve_cons, ih]
    rfl

theorem serve_snoc (fn : σ → ι → σ × ρ) (v : σ) (requests : List ι) (x : ι) :
    serve fn v (requests ++ [x]) = serve fn v requests ++ [(x, (fn (after fn v requests) x).2)] :=
  serve_append fn v requests [x]

theorem after_snoc (fn : σ → ι → σ × ρ) (v : σ) (requests : List ι) (x : ι) :
    after fn v (requests ++ [x]) = (fn (after fn v requests) x).1 := by
  simp [after]

/-- The state in which the request `x` is served after the requests `before`. -/
def found (create : ι → σ) (fn : σ → ι → σ × ρ) (before : List ι) (x : ι) : σ :=
  match before with
  | [] => create x
  | first :: _ => after fn (create first) before

/-- What the requests keep on a clock that does not go back. -/
theorem after_induct [Preorder ι] {fn : σ → ι → σ × ρ} {I : σ → ι → Prop}
    (hNext : ∀ v last x, I v last → last ≤ x → I (fn v x).1 x) {v : σ} {last x : ι} (hInit : I v last)
    {requests : List ι} (hClock : (last :: (requests ++ [x])).Pairwise (· ≤ ·)) :
    ∃ latest ≤ x, I (after fn v requests) latest := by
  induction requests generalizing v last with
  | nil => exact ⟨last, (List.pairwise_cons.mp hClock).1 x (by simp), hInit⟩
  | cons y rest ih =>
    obtain ⟨hFirst, hRest⟩ := List.pairwise_cons.mp hClock
    exact ih (hNext v last y hInit (hFirst y (by simp))) hRest

theorem found_induct [Preorder ι] {create : ι → σ} {fn : σ → ι → σ × ρ} {I : σ → ι → Prop}
    (hCreate : ∀ x, I (create x) x) (hNext : ∀ v last x, I v last → last ≤ x → I (fn v x).1 x)
    {before : List ι} {x : ι} (hClock : (before ++ [x]).Pairwise (· ≤ ·)) :
    ∃ last ≤ x, I (found create fn before x) last := by
  cases before with
  | nil => exact ⟨x, le_rfl, hCreate x⟩
  | cons first rest =>
    obtain ⟨hFirst, _⟩ := List.pairwise_cons.mp hClock
    exact after_induct hNext (hCreate first)
      (List.pairwise_cons.mpr ⟨List.forall_mem_cons.mpr ⟨le_rfl, hFirst⟩, hClock⟩)

theorem map_fst_serve (fn : σ → ι → σ × ρ) (v : σ) (requests : List ι) :
    (serve fn v requests).map Prod.fst = requests := by
  induction requests generalizing v with
  | nil => rfl
  | cons x rest ih => rw [serve_cons, List.map_cons, ih]

theorem fst_mem_of_mem_serve {fn : σ → ι → σ × ρ} {v : σ} {requests : List ι} {x : ι × ρ}
    (hx : x ∈ serve fn v requests) : x.1 ∈ requests := by
  rw [← map_fst_serve fn v requests]
  exact List.mem_map_of_mem hx

theorem length_trace (fn : σ → ι → σ × ρ) (v : σ) (requests : List ι) :
    (trace fn v requests).length = requests.length := by
  induction requests generalizing v with
  | nil => rfl
  | cons x rest ih => simp [trace, ih]

theorem length_answers (create : ι → σ) (fn : σ → ι → σ × ρ) (requests : List ι) :
    (answers create fn requests).length = requests.length := by
  cases requests with
  | nil => rfl
  | cons x rest => simp [answers, serve, length_trace]

/-- Each entry of a trace is one request served in some state. -/
theorem exists_of_mem_trace {fn : σ → ι → σ × ρ} {v : σ} {requests : List ι} {x : ι × σ × ρ}
    (hx : x ∈ trace fn v requests) : ∃ w, x.2 = fn w x.1 := by
  induction requests generalizing v with
  | nil => cases hx
  | cons y rest ih =>
    rcases List.mem_cons.mp hx with rfl | hRest
    · exact ⟨v, rfl⟩
    · exact ih hRest

theorem trace_map {τ : Type} {f : σ → τ} {fn : σ → ι → σ × ρ} {fn' : τ → ι → τ × ρ}
    (hStep : ∀ v x, fn' (f v) x = (f (fn v x).1, (fn v x).2)) (v : σ) (requests : List ι) :
    trace fn' (f v) requests = (trace fn v requests).map fun x => (x.1, f x.2.1, x.2.2) := by
  induction requests generalizing v with
  | nil => rfl
  | cons x rest ih => simp only [trace, hStep, List.map_cons, ih]

theorem serve_map {τ : Type} {f : σ → τ} {fn : σ → ι → σ × ρ} {fn' : τ → ι → τ × ρ}
    (hStep : ∀ v x, fn' (f v) x = (f (fn v x).1, (fn v x).2)) (v : σ) (requests : List ι) :
    serve fn' (f v) requests = serve fn v requests := by
  rw [serve, trace_map hStep, serve, List.map_map]
  rfl

theorem after_map {τ : Type} {f : σ → τ} {fn : σ → ι → σ × ρ} {fn' : τ → ι → τ × ρ}
    (hStep : ∀ v x, fn' (f v) x = (f (fn v x).1, (fn v x).2)) (v : σ) (requests : List ι) :
    after fn' (f v) requests = f (after fn v requests) := by
  induction requests generalizing v with
  | nil => rfl
  | cons x rest ih =>
    have hNext := ih (fn v x).1
    rw [after, List.foldl_cons, hStep]
    exact hNext

theorem serve_congr {fn fn' : σ → ι → σ × ρ} {I : σ → Prop}
    (hStep : ∀ v x, I v → fn v x = fn' v x ∧ I (fn v x).1) {v : σ} (hInit : I v)
    (requests : List ι) : serve fn v requests = serve fn' v requests := by
  induction requests generalizing v with
  | nil => rfl
  | cons x rest ih =>
    obtain ⟨hEq, hNext⟩ := hStep v x hInit
    rw [serve_cons, serve_cons, ih hNext, hEq]

/-- A run answers the requests in `own` as a run of them alone does, if the
others keep the relation of its state to that of the run alone. -/
theorem serve_filter {τ : Type} {fn : σ → ι → σ × ρ} {fn' : τ → ι → τ × ρ} (own : ι → Bool)
    {R : List ι → σ → τ → Prop}
    (hOwn : ∀ x rest v w, R (x :: rest) v w → own x = true →
      (fn v x).2 = (fn' w x).2 ∧ R rest (fn v x).1 (fn' w x).1)
    (hOther : ∀ x rest v w, R (x :: rest) v w → own x = false → R rest (fn v x).1 w)
    {v : σ} {w : τ} {requests : List ι} (hInit : R requests v w) :
    (serve fn v requests).filter (fun x => own x.1) = serve fn' w (requests.filter own) := by
  induction requests generalizing v w with
  | nil => rfl
  | cons x rest ih =>
    rw [serve_cons]
    cases hx : own x with
    | true =>
      obtain ⟨hAnswer, hNext⟩ := hOwn x rest v w hInit hx
      simp only [List.filter_cons, hx, if_true, serve_cons, ih hNext, hAnswer]
    | false =>
      simp only [List.filter_cons, hx, Bool.false_eq_true, if_false]
      exact ih (hOther x rest v w hInit hx)

end Requests

end Kaka
