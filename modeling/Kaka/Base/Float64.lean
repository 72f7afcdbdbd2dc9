import Kaka.Base.Binary64

/-! # Values of type `float64`

The numbers of the binary64 format below `2 ^ 1024`, the infinities and NaN;
the two zeros are one.  An operation on finite values is the exact one,
rounded; `Is` reads a value as a rational, so that a program that stays finite
is followed in the rationals.
-/

inductive Float64 where
  | finite (x : ℚ) (represents : Binary64.Represents x) (small : |x| < 2 ^ 1024)
  | inf (negative : Bool)
  | nan
  deriving DecidableEq

namespace Float64

open Binary64

def ofRat (x : ℚ) : Float64 :=
  if h : |rounded x| < 2 ^ 1024 then .finite (rounded x) (represents_rounded x) h else .inf (decide (x < 0))

instance (n : Nat) : OfNat Float64 n := ⟨ofRat n⟩

def neg : Float64 → Float64
  | .finite x hx hSmall => .finite (-x) (represents_neg hx) (by rwa [abs_neg])
  | .inf negative => .inf !negative
  | .nan => .nan

def add : Float64 → Float64 → Float64
  | .finite x _ _, .finite y _ _ => ofRat (x + y)
  | .finite _ _ _, .inf b => .inf b
  | .inf a, .finite _ _ _ => .inf a
  | .inf a, .inf b => if a = b then .inf a else .nan
  | _, _ => .nan

def sub (x y : Float64) : Float64 := x.add y.neg

def mul : Float64 → Float64 → Float64
  | .finite x _ _, .finite y _ _ => ofRat (x * y)
  | .finite x _ _, .inf b => if x = 0 then .nan else .inf (decide (x < 0) != b)
  | .inf a, .finite y _ _ => if y = 0 then .nan else .inf (a != decide (y < 0))
  | .inf a, .inf b => .inf (a != b)
  | _, _ => .nan

/-- The quotient by a zero takes it as positive. -/
def div : Float64 → Float64 → Float64
  | .finite x _ _, .finite y _ _ =>
    if y = 0 then (if x = 0 then .nan else .inf (decide (x < 0))) else ofRat (x / y)
  | .finite _ _ _, .inf _ => 0
  | .inf a, .finite y _ _ => .inf (a != decide (y < 0))
  | _, _ => .nan

/-- `z + x * y`, rounded once where the multiplication is fused into the addition. -/
def mulAdd (fused : Bool) (z x y : Float64) : Float64 :=
  match fused, z, x, y with
  | true, .finite z _ _, .finite x _ _, .finite y _ _ => ofRat (z + x * y)
  | true, .inf a, .finite _ _ _, .finite _ _ _ => .inf a
  | _, z, x, y => z.add (x.mul y)

/-- `z - x * y`, likewise. -/
def mulSub (fused : Bool) (z x y : Float64) : Float64 :=
  match fused, z, x, y with
  | true, .finite z _ _, .finite x _ _, .finite y _ _ => ofRat (z - x * y)
  | true, .inf a, .finite _ _ _, .finite _ _ _ => .inf a
  | _, z, x, y => z.sub (x.mul y)

def lt : Float64 → Float64 → Bool
  | .finite x _ _, .finite y _ _ => decide (x < y)
  | .finite _ _ _, .inf b => !b
  | .inf a, .finite _ _ _ => a
  | .inf a, .inf b => a && !b
  | _, _ => false

def le : Float64 → Float64 → Bool
  | .finite x _ _, .finite y _ _ => decide (x ≤ y)
  | .finite _ _ _, .inf b => !b
  | .inf a, .finite _ _ _ => a
  | .inf a, .inf b => a || !b
  | _, _ => false

/-- `math.Abs` -/
def abs : Float64 → Float64
  | .finite x hx hSmall => if x < 0 then neg (.finite x hx hSmall) else .finite x hx hSmall
  | .inf _ => .inf false
  | .nan => .nan

/-- `math.Round`: to the nearest integer, half away from zero. -/
def round : Float64 → Float64
  | .finite x _ _ => ofRat (if x < 0 then -⌊-x + 1 / 2⌋ else ⌊x + 1 / 2⌋)
  | x => x

/-- `math.Ceil` -/
def ceil : Float64 → Float64
  | .finite x _ _ => ofRat ⌈x⌉
  | x => x

def floor : Float64 → Float64
  | .finite x _ _ => ofRat ⌊x⌋
  | x => x

/-- The conversion to `int64`.  Out of range it is implementation-defined in
Go; here it is the result on amd64. -/
def toInt64 : Float64 → Int
  | .finite x _ _ =>
    let whole := if x < 0 then ⌈x⌉ else ⌊x⌋
    if -2 ^ 63 ≤ whole ∧ whole < 2 ^ 63 then whole else -2 ^ 63
  | _ => -2 ^ 63

/-! ## NaN -/

section NaN

variable (v : Float64)

@[simp] theorem nan_add : add .nan v = .nan := rfl

@[simp] theorem add_nan : v.add .nan = .nan := by cases v <;> rfl

@[simp] theorem nan_sub : sub .nan v = .nan := rfl

@[simp] theorem sub_nan : v.sub .nan = .nan := add_nan v

@[simp] theorem nan_mul : mul .nan v = .nan := rfl

@[simp] theorem nan_div : div .nan v = .nan := rfl

@[simp] theorem nan_le : le .nan v = false := rfl

@[simp] theorem le_nan : v.le .nan = false := by cases v <;> rfl

@[simp] theorem nan_lt : lt .nan v = false := rfl

end NaN

/-! ## Finite values as rationals -/

def Is (v : Float64) (x : ℚ) : Prop := ∃ hx hSmall, v = .finite x hx hSmall

variable {v w : Float64} {x y z : ℚ}

theorem Is.represents (h : v.Is x) : Represents x := h.choose

theorem Is.small (h : v.Is x) : |x| < 2 ^ 1024 := h.choose_spec.choose

/-- A number as a rational, zero for the other values. -/
def toRat : Float64 → ℚ
  | .finite x _ _ => x
  | _ => 0

theorem Is.toRat (h : v.Is x) : v.toRat = x := by
  obtain ⟨_, _, rfl⟩ := h
  rfl

theorem ofRat_is (hSmall : |rounded x| < 2 ^ 1024) : (ofRat x).Is (rounded x) :=
  ⟨represents_rounded x, hSmall, dif_pos hSmall⟩

theorem ofRat_is_self (hx : Represents x) (hSmall : |x| < 2 ^ 1024) : (ofRat x).Is x := by
  have hRounded := rounded_of_represents hx
  rw [← hRounded] at hSmall
  have hIs := ofRat_is hSmall
  rwa [hRounded] at hIs

theorem ofRat_is_of_le (hLe : |x| ≤ 2 ^ 53) : (ofRat x).Is (rounded x) := by
  have hTop : Represents (2 ^ 53) := represents_zpow (e := 53) (by norm_num)
  obtain ⟨hLow, hHigh⟩ := abs_le.mp hLe
  refine ofRat_is (lt_of_le_of_lt (abs_le.mpr ⟨?_, rounded_le hTop hHigh⟩)
    (pow_lt_pow_right₀ one_lt_two (show 53 < 1024 by norm_num)))
  exact le_rounded (represents_neg hTop) hLow

/-- A value that is not too large is rounded to a number, a larger one to an infinity. -/
theorem ofRat_cases (x : ℚ) : (ofRat x).Is (rounded x) ∨
    ofRat x = .inf (decide (x < 0)) ∧ 2 ^ 1024 ≤ |rounded x| := by
  by_cases hSmall : |rounded x| < 2 ^ 1024
  · exact .inl (ofRat_is hSmall)
  · exact .inr ⟨dif_neg hSmall, not_lt.mp hSmall⟩

theorem ofRat_nonneg_cases (hx : 0 ≤ x) :
    (ofRat x).Is (rounded x) ∨ ofRat x = .inf false ∧ 2 ^ 1024 ≤ rounded x := by
  rcases ofRat_cases x with hIs | ⟨hInf, hLarge⟩
  · exact .inl hIs
  · rw [decide_eq_false (not_lt.mpr hx)] at hInf
    rw [abs_of_nonneg (rounded_nonneg hx)] at hLarge
    exact .inr ⟨hInf, hLarge⟩

theorem Is.neg (h : v.Is x) : v.neg.Is (-x) := by
  obtain ⟨hx, hSmall, rfl⟩ := h
  exact ⟨_, _, rfl⟩

theorem Is.add (hv : v.Is x) (hw : w.Is y) : v.add w = ofRat (x + y) := by
  obtain ⟨_, _, rfl⟩ := hv
  obtain ⟨_, _, rfl⟩ := hw
  rfl

theorem Is.sub (hv : v.Is x) (hw : w.Is y) : v.sub w = ofRat (x - y) := by
  rw [Float64.sub, hv.add hw.neg, sub_eq_add_neg]

/-- A difference between zero and the minuend is a number. -/
theorem Is.sub_is (hv : v.Is x) (hw : w.Is y) (hy : 0 ≤ y) (hLe : y ≤ x) :
    (v.sub w).Is (rounded (x - y)) := by
  rw [hv.sub hw]
  refine ofRat_is ?_
  rw [abs_of_nonneg (rounded_nonneg (sub_nonneg.mpr hLe))]
  exact (rounded_le hv.represents (sub_le_self x hy)).trans_lt ((le_abs_self x).trans_lt hv.small)

theorem Is.mul (hv : v.Is x) (hw : w.Is y) : v.mul w = ofRat (x * y) := by
  obtain ⟨_, _, rfl⟩ := hv
  obtain ⟨_, _, rfl⟩ := hw
  rfl

theorem Is.div (hv : v.Is x) (hw : w.Is y) (hy : y ≠ 0) : v.div w = ofRat (x / y) := by
  obtain ⟨_, _, rfl⟩ := hv
  obtain ⟨_, _, rfl⟩ := hw
  exact if_neg hy

theorem Is.lt (hv : v.Is x) (hw : w.Is y) : v.lt w = decide (x < y) := by
  obtain ⟨_, _, rfl⟩ := hv
  obtain ⟨_, _, rfl⟩ := hw
  rfl

theorem Is.le (hv : v.Is x) (hw : w.Is y) : v.le w = decide (x ≤ y) := by
  obtain ⟨_, _, rfl⟩ := hv
  obtain ⟨_, _, rfl⟩ := hw
  rfl

theorem intCast_is {n : ℤ} (hn : |n| ≤ 2 ^ 53) : (ofRat n).Is n := by
  have hIs := ofRat_is_of_le (x := n) (by exact_mod_cast hn)
  rwa [rounded_of_represents (represents_int hn)] at hIs

theorem natCast_is {n : Nat} (hn : n ≤ 2 ^ 53) : (ofRat n).Is n := by
  have hAbs : |(n : ℤ)| ≤ 2 ^ 53 := by
    rw [abs_of_nonneg (Int.natCast_nonneg n)]
    exact_mod_cast hn
  have hIs := intCast_is hAbs
  rwa [Int.cast_natCast] at hIs

theorem ofNat_is {n : Nat} [n.AtLeastTwo] (hn : n ≤ 2 ^ 53) : (ofNat(n) : Float64).Is (ofNat(n) : ℚ) :=
  natCast_is hn

theorem zero_is : (0 : Float64).Is 0 := by
  have h := natCast_is (n := 0) (by norm_num)
  rwa [Nat.cast_zero] at h

theorem one_is : (1 : Float64).Is 1 := by
  have h := natCast_is (n := 1) (by norm_num)
  rwa [Nat.cast_one] at h

/-! ## Integers -/

/-- A function to the integers that leaves them alone and goes no further than one. -/
structure Whole (f : ℚ → ℤ) : Prop where
  int : ∀ n : ℤ, f n = n
  near : ∀ x, |(f x : ℚ) - x| ≤ 1

theorem whole_ceil : Whole Int.ceil where
  int n := Int.ceil_intCast n
  near x := by
    have hLow := Int.le_ceil x
    have hHigh := Int.ceil_lt_add_one x
    rw [abs_le]
    constructor <;> linarith

theorem whole_floor : Whole Int.floor where
  int n := Int.floor_intCast n
  near x := by
    have hLow := Int.floor_le x
    have hHigh := Int.lt_floor_add_one x
    rw [abs_le]
    constructor <;> linarith

theorem whole_round : Whole fun x => ⌊x + 1 / 2⌋ where
  int n := by
    rw [Int.floor_intCast_add]
    norm_num
  near x := by
    have hFloor := Int.floor_le (x + 1 / 2)
    have hNext := Int.lt_floor_add_one (x + 1 / 2)
    rw [abs_le]
    constructor <;> linarith

section Whole

variable {f : ℚ → ℤ}

theorem Whole.abs_le (h : Whole f) (hLe : |x| ≤ 2 ^ 52) : |f x| < 2 ^ 53 := by
  have hAbs : |(f x : ℚ)| < 2 ^ 53 := by
    calc |(f x : ℚ)| = |(f x : ℚ) - x + x| := by rw [sub_add_cancel]
      _ ≤ |(f x : ℚ) - x| + |x| := abs_add_le _ _
      _ ≤ 1 + 2 ^ 52 := add_le_add (h.near x) hLe
      _ < 2 ^ 53 := by norm_num
  exact_mod_cast hAbs

theorem Whole.is (h : Whole f) (hx : Represents x) (hSmall : |x| < 2 ^ 1024) : (ofRat (f x)).Is (f x) := by
  rcases hx.whole_or_small with ⟨n, rfl⟩ | hLe
  · rw [h.int]
    exact ofRat_is_self hx hSmall
  · exact intCast_is (h.abs_le hLe).le

theorem Whole.lt (h : Whole f) (hx : Represents x) {n : ℤ} (hn : 2 ^ 53 ≤ n) (hLt : x < n) : f x < n := by
  rcases hx.whole_or_small with ⟨m, rfl⟩ | hLe
  · rw [h.int]
    exact_mod_cast hLt
  · exact (le_abs_self _).trans_lt ((h.abs_le hLe).trans_le hn)

end Whole

theorem Is.ceil (hv : v.Is x) : v.ceil.Is (⌈x⌉ : ℤ) := by
  obtain ⟨hx, hSmall, rfl⟩ := hv
  exact whole_ceil.is hx hSmall

theorem Is.floor (hv : v.Is x) : v.floor.Is (⌊x⌋ : ℤ) := by
  obtain ⟨hx, hSmall, rfl⟩ := hv
  exact whole_floor.is hx hSmall

theorem Is.round (hv : v.Is x) (hLow : 0 ≤ x) : v.round.Is (⌊x + 1 / 2⌋ : ℤ) := by
  obtain ⟨hx, hSmall, rfl⟩ := hv
  rw [Float64.round, if_neg (not_lt.mpr hLow)]
  exact whole_round.is hx hSmall

theorem Is.toInt64 (hv : v.Is x) (hLow : 0 ≤ x) (hHigh : x < 2 ^ 63) : v.toInt64 = ⌊x⌋ := by
  obtain ⟨_, _, rfl⟩ := hv
  have hFloor : 0 ≤ ⌊x⌋ := Int.floor_nonneg.mpr hLow
  rw [Float64.toInt64, if_neg (not_lt.mpr hLow)]
  exact if_pos ⟨by omega, Int.floor_lt.mpr (by exact_mod_cast hHigh)⟩

theorem Is.toInt64_cases {n : ℤ} (hv : v.Is n) (hLow : 0 ≤ n) : v.toInt64 = n ∨ v.toInt64 = -2 ^ 63 := by
  obtain ⟨_, _, rfl⟩ := hv
  have hNonneg : ¬ (n : ℚ) < 0 := not_lt.mpr (by exact_mod_cast hLow)
  simp only [Float64.toInt64, if_neg hNonneg, Int.floor_intCast]
  split
  · exact .inl rfl
  · exact .inr rfl

theorem Is.toInt64_int {n : ℤ} (hv : v.Is n) (hLow : 0 ≤ n) (hHigh : n < 2 ^ 63) : v.toInt64 = n := by
  rw [hv.toInt64 (by exact_mod_cast hLow) (by exact_mod_cast hHigh), Int.floor_intCast]

/-! ## Values that are not negative -/

def Nonneg (v : Float64) : Prop := (∃ x, v.Is x ∧ 0 ≤ x) ∨ v = .inf false

theorem ofRat_nonneg (hx : 0 ≤ x) : (ofRat x).Nonneg := by
  rcases ofRat_nonneg_cases hx with hIs | ⟨hInf, _⟩
  · exact .inl ⟨_, hIs, rounded_nonneg hx⟩
  · exact .inr hInf

theorem Nonneg.mul (hv : v.Nonneg) (hw : w.Is y) (hy : 0 < y) : (v.mul w).Nonneg := by
  rcases hv with ⟨x, hIs, hx⟩ | rfl
  · rw [hIs.mul hw]
    exact ofRat_nonneg (mul_nonneg hx hy.le)
  · obtain ⟨_, _, rfl⟩ := hw
    right
    simp [Float64.mul, hy.ne', hy.le]

theorem Nonneg.div (hv : v.Nonneg) (hw : w.Is y) (hy : 0 < y) : (v.div w).Nonneg := by
  rcases hv with ⟨x, hIs, hx⟩ | rfl
  · rw [hIs.div hw hy.ne']
    exact ofRat_nonneg (div_nonneg hx hy.le)
  · obtain ⟨_, _, rfl⟩ := hw
    right
    simp [Float64.div, hy.le]

theorem Nonneg.add (hv : v.Nonneg) (hw : w.Is y) (hy : 0 ≤ y) : (v.add w).Nonneg := by
  rcases hv with ⟨x, hIs, hx⟩ | rfl
  · rw [hIs.add hw]
    exact ofRat_nonneg (add_nonneg hx hy)
  · obtain ⟨_, _, rfl⟩ := hw
    exact .inr rfl

theorem ofRat_ne_nan (x : ℚ) : ofRat x ≠ .nan := by
  rcases ofRat_cases x with ⟨_, _, hEq⟩ | ⟨hEq, _⟩ <;>
    · rw [hEq]
      nofun

/-- Adding a product of numbers that does not overflow never makes a NaN. -/
theorem mulAdd_ne_nan {fused : Bool} {s r : Float64} (hv : v ≠ .nan) (hs : s.Is x) (hr : r.Is y)
    (hFits : fused = true ∨ |rounded (x * y)| < 2 ^ 1024) : mulAdd fused v s r ≠ .nan := by
  rcases fused with _ | _
  · have hProduct := ofRat_is (hFits.resolve_left Bool.false_ne_true)
    have hUnfused : mulAdd false v s r = v.add (s.mul r) := rfl
    rw [hUnfused, hs.mul hr]
    cases v with
    | finite z hz hSmall =>
      rw [Is.add ⟨hz, hSmall, rfl⟩ hProduct]
      exact ofRat_ne_nan _
    | inf a =>
      obtain ⟨_, _, hEq⟩ := hProduct
      rw [hEq]
      nofun
    | nan => exact absurd rfl hv
  · obtain ⟨_, _, rfl⟩ := hs
    obtain ⟨_, _, rfl⟩ := hr
    cases v with
    | finite => exact ofRat_ne_nan _
    | inf => nofun
    | nan => exact absurd rfl hv

theorem mulSub_ne_nan {fused : Bool} {s r : Float64} (hv : v ≠ .nan) (hs : s.Is x) (hr : r.Is y)
    (hFits : fused = true ∨ |rounded (x * y)| < 2 ^ 1024) : mulSub fused v s r ≠ .nan := by
  rcases fused with _ | _
  · have hProduct := ofRat_is (hFits.resolve_left Bool.false_ne_true)
    have hUnfused : mulSub false v s r = v.sub (s.mul r) := rfl
    rw [hUnfused, hs.mul hr]
    cases v with
    | finite z hz hSmall =>
      rw [Is.sub ⟨hz, hSmall, rfl⟩ hProduct]
      exact ofRat_ne_nan _
    | inf a =>
      obtain ⟨_, _, hEq⟩ := hProduct
      rw [hEq]
      nofun
    | nan => exact absurd rfl hv
  · obtain ⟨_, _, rfl⟩ := hs
    obtain ⟨_, _, rfl⟩ := hr
    cases v with
    | finite => exact ofRat_ne_nan _
    | inf => nofun
    | nan => exact absurd rfl hv

/-! ## A level that grows and one that falls -/

/-- `z + x * y` in the rationals, with the roundings of `mulAdd`. -/
def raised (fused : Bool) (z x y : ℚ) : ℚ :=
  if fused then rounded (z + x * y) else rounded (z + rounded (x * y))

/-- `z - x * y` in the rationals, with the roundings of `mulSub`. -/
def lowered (fused : Bool) (z x y : ℚ) : ℚ :=
  if fused then rounded (z - x * y) else rounded (z - rounded (x * y))

variable (fused : Bool) {s r : Float64}

theorem raised_zero (hz : Represents z) (y : ℚ) : raised fused z 0 y = z := by
  simp [raised, rounded_of_represents hz]

theorem lowered_zero (hz : Represents z) (y : ℚ) : lowered fused z 0 y = z := by
  simp [lowered, rounded_of_represents hz]

theorem le_raised (hz : Represents z) (hGain : 0 ≤ x * y) : z ≤ raised fused z x y := by
  unfold raised
  split
  · exact le_rounded hz (by linarith)
  · exact le_rounded hz (by linarith [rounded_nonneg hGain])

theorem lowered_le (hz : Represents z) (hLoss : 0 ≤ x * y) : lowered fused z x y ≤ z := by
  unfold lowered
  split
  · exact rounded_le hz (by linarith)
  · exact rounded_le hz (by linarith [rounded_nonneg hLoss])

theorem mulAdd_cases (hv : v.Is z) (hs : s.Is x) (hr : r.Is y) (hz : 0 ≤ z) (hGain : 0 ≤ x * y) :
    (mulAdd fused v s r).Is (raised fused z x y) ∨
      mulAdd fused v s r = .inf false ∧ 2 ^ 1024 ≤ raised fused z x y := by
  cases fused with
  | true =>
    obtain ⟨_, _, rfl⟩ := hv
    obtain ⟨_, _, rfl⟩ := hs
    obtain ⟨_, _, rfl⟩ := hr
    exact ofRat_nonneg_cases (add_nonneg hz hGain)
  | false =>
    have hUnfused : mulAdd false v s r = v.add (s.mul r) := rfl
    rw [hUnfused, hs.mul hr]
    rcases ofRat_nonneg_cases hGain with hIs | ⟨hInf, hLarge⟩
    · rw [hv.add hIs]
      exact ofRat_nonneg_cases (add_nonneg hz (rounded_nonneg hGain))
    · rw [hInf]
      obtain ⟨_, _, rfl⟩ := hv
      refine .inr ⟨rfl, le_rounded (represents_zpow (e := 1024) (by norm_num)) ?_⟩
      exact hLarge.trans (le_add_of_nonneg_left hz)

/-- A difference overflows only downwards. -/
theorem Is.ofRat_sub_cases (hv : v.Is z) (hy : 0 ≤ y) :
    (ofRat (z - y)).Is (rounded (z - y)) ∨ ofRat (z - y) = .inf true ∧ rounded (z - y) ≤ 0 := by
  rcases ofRat_cases (z - y) with hIs | ⟨hInf, hLarge⟩
  · exact .inl hIs
  · have hNeg : z - y < 0 := by
      by_contra hNot
      have hTop := rounded_le hv.represents (sub_le_self z hy)
      rw [abs_of_nonneg (rounded_nonneg (not_lt.mp hNot))] at hLarge
      exact absurd (hLarge.trans (hTop.trans (le_abs_self z))) (not_le.mpr hv.small)
    rw [decide_eq_true hNeg] at hInf
    exact .inr ⟨hInf, rounded_le represents_zero hNeg.le⟩

theorem mulSub_cases (hv : v.Is z) (hs : s.Is x) (hr : r.Is y) (hLoss : 0 ≤ x * y) :
    (mulSub fused v s r).Is (lowered fused z x y) ∨
      mulSub fused v s r = .inf true ∧ lowered fused z x y ≤ 0 := by
  cases fused with
  | true =>
    have hNext := hv.ofRat_sub_cases hLoss
    obtain ⟨_, _, rfl⟩ := hv
    obtain ⟨_, _, rfl⟩ := hs
    obtain ⟨_, _, rfl⟩ := hr
    exact hNext
  | false =>
    have hUnfused : mulSub false v s r = v.sub (s.mul r) := rfl
    rw [hUnfused, hs.mul hr]
    rcases ofRat_nonneg_cases hLoss with hIs | ⟨hInf, hLarge⟩
    · rw [hv.sub hIs]
      exact hv.ofRat_sub_cases (rounded_nonneg hLoss)
    · rw [hInf]
      have hNeg : z - rounded (x * y) ≤ 0 :=
        sub_nonpos.mpr ((le_abs_self z).trans (hv.small.le.trans hLarge))
      obtain ⟨_, _, rfl⟩ := hv
      exact .inr ⟨rfl, rounded_le represents_zero hNeg⟩

/-! ## The drift of a level -/

section Drift

variable {cap : ℚ}

theorem tiny_pos : 0 < tiny := by norm_num [tiny]

theorem unit_pos : 0 < unit := by norm_num [unit]

/-- Rounding a number up to `cap` is off by at most the unit of `cap`. -/
theorem rounded_near (hLow : 0 ≤ x) (hHigh : x ≤ cap) :
    rounded x ≤ x + (cap * unit + tiny) ∧ x - (cap * unit + tiny) ≤ rounded x := by
  have hError := abs_le.mp (abs_rounded_sub_le_add x)
  have hUnit := mul_le_mul_of_nonneg_right hHigh unit_pos.le
  rw [abs_of_nonneg hLow] at hError
  constructor <;> linarith [hError.1, hError.2]

theorem rounded_le_add (hLow : 0 ≤ x) : rounded x ≤ x * (1 + unit) + tiny := by
  have hError := (abs_le.mp (abs_rounded_sub_le_add x)).2
  rw [abs_of_nonneg hLow] at hError
  linarith

/-- A raise that is capped adds no more than the product and its roundings. -/
theorem min_raised_le (hz : 0 ≤ z) (hGain : 0 ≤ x * y) (hCap : 0 ≤ cap) :
    min cap (raised fused z x y) ≤ z + x * y * (1 + unit) + (cap * unit + 2 * tiny) := by
  have hUnit := mul_nonneg hCap unit_pos.le
  have hTiny := tiny_pos
  have hProduct := mul_nonneg hGain unit_pos.le
  unfold raised
  split
  · rcases le_total (z + x * y) cap with hBelow | hAbove
    · exact (min_le_right _ _).trans (by linarith [(rounded_near (add_nonneg hz hGain) hBelow).1])
    · exact (min_le_left _ _).trans (by linarith)
  · have hRounded := rounded_le_add hGain
    rcases le_total (z + rounded (x * y)) cap with hBelow | hAbove
    · have hSum := (rounded_near (add_nonneg hz (rounded_nonneg hGain)) hBelow).1
      exact (min_le_right _ _).trans (by linarith)
    · exact (min_le_left _ _).trans (by linarith)

/-- A fall that is stopped at zero takes no more than the product and its roundings. -/
theorem le_max_lowered (hHigh : z ≤ cap) (hLoss : 0 ≤ x * y) (hCap : 0 ≤ cap) :
    z - x * y * (1 + unit) - (cap * unit + 2 * tiny) ≤ max 0 (lowered fused z x y) := by
  have hUnit := mul_nonneg hCap unit_pos.le
  have hTiny := tiny_pos
  have hProduct := mul_nonneg hLoss unit_pos.le
  unfold lowered
  split
  · rcases le_total 0 (z - x * y) with hAbove | hBelow
    · have hNear := (rounded_near hAbove (show z - x * y ≤ cap by linarith)).2
      exact le_trans (by linarith) (le_max_right _ _)
    · exact le_trans (by linarith) (le_max_left _ _)
  · have hRounded := rounded_le_add hLoss
    have hNonneg := rounded_nonneg hLoss
    rcases le_total 0 (z - rounded (x * y)) with hAbove | hBelow
    · have hNear := (rounded_near hAbove (show z - rounded (x * y) ≤ cap by linarith)).2
      exact le_trans (by linarith) (le_max_right _ _)
    · exact le_trans (by linarith) (le_max_left _ _)

end Drift

end Float64
