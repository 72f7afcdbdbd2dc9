import Mathlib.Algebra.Order.Field.Power
import Mathlib.Algebra.Order.Floor.Ring
import Mathlib.Data.Int.Log
import Mathlib.Data.Rat.Floor
import Mathlib.Tactic.FieldSimp
import Mathlib.Tactic.Linarith
import Mathlib.Tactic.NormNum
import Mathlib.Tactic.Positivity
import Mathlib.Tactic.Ring

/-! # Binary64

Numbers of 53 bits whose last bit is worth at least `2 ^ -1074`, and rounding
to the nearest of them, ties to even.  Rounding keeps the order, leaves the
numbers of the format alone and is off by half a unit in the last place.
-/

namespace Binary64

/-! ## The nearest integer -/

/-- The integer nearest to `x`, the even one of two. -/
def nearest (x : ℚ) : ℤ :=
  let rest := x - ⌊x⌋
  if rest < 1 / 2 ∨ rest = 1 / 2 ∧ ⌊x⌋ % 2 = 0 then ⌊x⌋ else ⌊x⌋ + 1

theorem nearest_int (n : ℤ) : nearest n = n := by
  simp [nearest]

theorem abs_nearest_sub_le (x : ℚ) : |(nearest x : ℚ) - x| ≤ 1 / 2 := by
  have hFloor := Int.floor_le x
  have hNext := Int.lt_floor_add_one x
  simp only [nearest]
  split
  · rename_i hDown
    have hHalf : x - ⌊x⌋ ≤ 1 / 2 := hDown.elim le_of_lt fun h => h.1.le
    rw [abs_le]
    constructor <;> linarith
  · rename_i hUp
    have hHalf : 1 / 2 ≤ x - ⌊x⌋ := not_lt.mp fun h => hUp (.inl h)
    rw [abs_le]
    push_cast
    constructor <;> linarith

theorem nearest_mono {x y : ℚ} (hLe : x ≤ y) : nearest x ≤ nearest y := by
  have hFloor : ⌊x⌋ ≤ ⌊y⌋ := Int.floor_le_floor hLe
  rcases hFloor.lt_or_eq with hLt | hEq
  · have hx : nearest x ≤ ⌊x⌋ + 1 := by
      simp only [nearest]
      split <;> omega
    have hy : ⌊y⌋ ≤ nearest y := by
      simp only [nearest]
      split <;> omega
    omega
  · -- within one unit the order is that of the rests
    simp only [nearest, hEq]
    split
    · split <;> omega
    · rename_i hUp
      rw [if_neg]
      rintro (hLess | ⟨hHalf, hEven⟩)
      · exact hUp (.inl (by linarith))
      · rcases lt_or_eq_of_le (show x - ⌊y⌋ ≤ 1 / 2 by linarith) with hLess | hSame
        · exact hUp (.inl hLess)
        · exact hUp (.inr ⟨hSame, hEven⟩)

theorem le_nearest {n : ℤ} {x : ℚ} (hLe : (n : ℚ) ≤ x) : n ≤ nearest x := by
  rw [← nearest_int n]
  exact nearest_mono hLe

theorem nearest_le {n : ℤ} {x : ℚ} (hLe : x ≤ n) : nearest x ≤ n := by
  rw [← nearest_int n]
  exact nearest_mono hLe

theorem nearest_neg (x : ℚ) : nearest (-x) = -nearest x := by
  by_cases hInt : x = ⌊x⌋
  · rw [hInt, nearest_int, ← Int.cast_neg, nearest_int]
  have hRest : 0 < x - ⌊x⌋ := sub_pos.mpr (lt_of_le_of_ne (Int.floor_le x) (Ne.symm hInt))
  have hNext := Int.lt_floor_add_one x
  have hFloor : ⌊-x⌋ = -⌊x⌋ - 1 := by
    rw [Int.floor_eq_iff]
    push_cast
    constructor <;> linarith
  simp only [nearest, hFloor]
  push_cast
  have hLess : -x - (-(⌊x⌋ : ℚ) - 1) < 1 / 2 ↔ 1 / 2 < x - ⌊x⌋ := by constructor <;> intro h <;> linarith
  have hHalf : -x - (-(⌊x⌋ : ℚ) - 1) = 1 / 2 ↔ x - ⌊x⌋ = 1 / 2 := by constructor <;> intro h <;> linarith
  simp only [hLess, hHalf]
  rcases lt_trichotomy (x - ⌊x⌋) (1 / 2) with hLt | hEq | hGt
  · rw [if_neg, if_pos (.inl hLt)]
    · ring
    · rintro (h | ⟨h, _⟩) <;> linarith
  · have hParity : (-⌊x⌋ - 1) % 2 = 0 ↔ ¬ ⌊x⌋ % 2 = 0 := by omega
    simp only [hEq, lt_irrefl, false_or, true_and, hParity, ite_not]
    split <;> ring
  · rw [if_pos (.inl hGt), if_neg]
    · ring
    · rintro (h | ⟨h, _⟩) <;> linarith

/-- Division with rest finds the nearest integer too. -/
theorem nearest_div (n : ℕ) {u : ℕ} (hu : 0 < u) : nearest (n / u) =
    ((if u < 2 * (n % u) ∨ u = 2 * (n % u) ∧ n / u % 2 = 1 then n / u + 1 else n / u : ℕ) : ℤ) := by
  have hPos : (0 : ℚ) < u := by exact_mod_cast hu
  have hFloor : ⌊(n : ℚ) / u⌋ = (n / u : ℕ) := Rat.floor_natCast_div_natCast n u
  have hRest : (n : ℚ) / u - (n / u : ℕ) = (n % u : ℕ) / u := by
    have hSplit : (n : ℚ) = u * (n / u : ℕ) + (n % u : ℕ) := by exact_mod_cast (Nat.div_add_mod n u).symm
    rw [sub_eq_iff_eq_add, div_add' _ _ _ hPos.ne']
    congr 1
    linarith
  have hLess : (n % u : ℕ) / (u : ℚ) < 1 / 2 ↔ 2 * (n % u) < u := by
    rw [div_lt_div_iff₀ hPos two_pos, one_mul, mul_comm]
    exact_mod_cast Iff.rfl
  have hHalf : (n % u : ℕ) / (u : ℚ) = 1 / 2 ↔ 2 * (n % u) = u := by
    rw [div_eq_div_iff hPos.ne' two_ne_zero, one_mul, mul_comm]
    exact_mod_cast Iff.rfl
  simp only [nearest, hFloor, Int.cast_natCast, hRest, hLess, hHalf]
  split <;> split <;> omega

/-! ## Rounding -/

/-- The exponent of the last bit kept of a number of this size. -/
def scale (x : ℚ) : ℤ := max (Int.log 2 |x| - 52) (-1074)

def rounded (x : ℚ) : ℚ := nearest (x / 2 ^ scale x) * 2 ^ scale x

/-- The numbers of the format, without a bound on the size. -/
def Represents (x : ℚ) : Prop := ∃ m e : ℤ, x = m * 2 ^ e ∧ |m| ≤ 2 ^ 53 ∧ -1074 ≤ e

theorem two_zpow_pos (e : ℤ) : (0 : ℚ) < 2 ^ e := zpow_pos two_pos e

theorem zpow_log_le {x : ℚ} (hx : x ≠ 0) : (2 : ℚ) ^ Int.log 2 |x| ≤ |x| :=
  Int.zpow_log_le_self one_lt_two (abs_pos.mpr hx)

theorem lt_zpow_log (x : ℚ) : |x| < (2 : ℚ) ^ (Int.log 2 |x| + 1) :=
  Int.lt_zpow_succ_log_self one_lt_two |x|

theorem abs_le_scale (x : ℚ) : |x| ≤ 2 ^ (scale x + 53) := by
  refine (lt_zpow_log x).le.trans (zpow_le_zpow_right₀ one_le_two ?_)
  have := le_max_left (Int.log 2 |x| - 52) (-1074)
  unfold scale
  omega

theorem scale_natCast {n : ℕ} (hn : 2 ^ 52 ≤ n) : scale n = (n.log2 - 52 : ℕ) := by
  have hLog : 52 ≤ n.log2 := (Nat.le_log2 (by omega)).mpr hn
  rw [scale, Nat.abs_cast, Int.log_natCast, ← Nat.log2_eq_log_two]
  omega

/-- A multiple of the last bit on either side of a number is on that side of its rounding. -/
theorem le_rounded_of_multiple {n : ℤ} {x : ℚ} (hLe : (n : ℚ) * 2 ^ scale x ≤ x) :
    (n : ℚ) * 2 ^ scale x ≤ rounded x := by
  refine mul_le_mul_of_nonneg_right ?_ (two_zpow_pos _).le
  exact_mod_cast le_nearest ((le_div_iff₀ (two_zpow_pos _)).mpr hLe)

theorem rounded_le_of_multiple {n : ℤ} {x : ℚ} (hLe : x ≤ (n : ℚ) * 2 ^ scale x) :
    rounded x ≤ (n : ℚ) * 2 ^ scale x := by
  refine mul_le_mul_of_nonneg_right ?_ (two_zpow_pos _).le
  exact_mod_cast nearest_le ((div_le_iff₀ (two_zpow_pos _)).mpr hLe)

theorem multiple_of_le {e e' : ℤ} (hLe : e ≤ e') (m : ℤ) : ∃ n : ℤ, (m : ℚ) * 2 ^ e' = n * 2 ^ e := by
  obtain ⟨k, hk⟩ := Int.eq_ofNat_of_zero_le (sub_nonneg.mpr hLe)
  refine ⟨m * 2 ^ k, ?_⟩
  rw [show e' = k + e by omega, zpow_add₀ two_ne_zero, zpow_natCast]
  push_cast
  ring

/-- A number of the format is a multiple of the last bit of `x`, or between
two multiples that are no larger than `x`. -/
theorem Represents.cases {z : ℚ} (hz : Represents z) {x : ℚ} (hx : x ≠ 0) :
    (∃ n : ℤ, z = n * 2 ^ scale x) ∨ ∃ n : ℤ, |z| ≤ n * 2 ^ scale x ∧ n * 2 ^ scale x ≤ |x| := by
  obtain ⟨m, e, rfl, hm, he⟩ := hz
  rcases le_or_gt (scale x) e with hLe | hLt
  · exact .inl (multiple_of_le hLe m)
  · have hScale : scale x = Int.log 2 |x| - 52 := by
      unfold scale at hLt ⊢
      omega
    obtain ⟨n, hn⟩ := multiple_of_le (show scale x ≤ Int.log 2 |x| by omega) 1
    rw [Int.cast_one, one_mul] at hn
    refine .inr ⟨n, ?_, hn ▸ zpow_log_le hx⟩
    have hBits : |(m : ℚ)| ≤ 2 ^ (53 : ℤ) := by exact_mod_cast hm
    calc |(m : ℚ) * 2 ^ e| = |(m : ℚ)| * 2 ^ e := by rw [abs_mul, abs_of_pos (two_zpow_pos e)]
      _ ≤ 2 ^ (53 : ℤ) * 2 ^ e := mul_le_mul_of_nonneg_right hBits (two_zpow_pos e).le
      _ = 2 ^ (53 + e) := (zpow_add₀ two_ne_zero _ _).symm
      _ ≤ 2 ^ Int.log 2 |x| := zpow_le_zpow_right₀ one_le_two (by omega)
      _ = n * 2 ^ scale x := hn

@[simp] theorem rounded_zero : rounded 0 = 0 := by simp [rounded, nearest]

theorem rounded_neg (x : ℚ) : rounded (-x) = -rounded x := by
  have hScale : scale (-x) = scale x := by rw [scale, abs_neg, scale]
  rw [rounded, hScale, neg_div, nearest_neg, Int.cast_neg, neg_mul]
  rfl

theorem le_rounded {x z : ℚ} (hz : Represents z) (hLe : z ≤ x) : z ≤ rounded x := by
  by_cases hx : x = 0
  · rwa [hx, rounded_zero, ← hx]
  rcases hz.cases hx with ⟨n, rfl⟩ | ⟨n, hAbove, hBelow⟩
  · exact le_rounded_of_multiple hLe
  · rcases abs_cases x with ⟨hAbs, _⟩ | ⟨hAbs, hNeg⟩
    · exact ((le_abs_self z).trans hAbove).trans (le_rounded_of_multiple (hBelow.trans hAbs.le))
    · -- below a negative number the bounds meet
      have hEq : z = ((-n : ℤ) : ℚ) * 2 ^ scale x := by
        push_cast
        linarith [neg_le_abs z]
      rw [hEq] at hLe ⊢
      exact le_rounded_of_multiple hLe

theorem rounded_le {x z : ℚ} (hz : Represents z) (hLe : x ≤ z) : rounded x ≤ z := by
  by_cases hx : x = 0
  · rwa [hx, rounded_zero, ← hx]
  rcases hz.cases hx with ⟨n, rfl⟩ | ⟨n, hAbove, hBelow⟩
  · exact rounded_le_of_multiple hLe
  · rcases abs_cases x with ⟨hAbs, _⟩ | ⟨hAbs, hNeg⟩
    · have hEq : z = (n : ℚ) * 2 ^ scale x := by linarith [le_abs_self z]
      rw [hEq] at hLe ⊢
      exact rounded_le_of_multiple hLe
    · have hDown : x ≤ ((-n : ℤ) : ℚ) * 2 ^ scale x := by
        push_cast
        linarith
      have hRound := rounded_le_of_multiple hDown
      push_cast at hRound
      linarith [neg_abs_le z]

theorem rounded_of_represents {x : ℚ} (hx : Represents x) : rounded x = x :=
  le_antisymm (rounded_le hx le_rfl) (le_rounded hx le_rfl)

/-! ## The numbers of the format -/

theorem represents_int {n : ℤ} (hn : |n| ≤ 2 ^ 53) : Represents n := ⟨n, 0, by simp, hn, by norm_num⟩

theorem represents_zero : Represents 0 := ⟨0, 0, by simp, by norm_num, by norm_num⟩

theorem represents_one : Represents 1 := ⟨1, 0, by simp, by norm_num, by norm_num⟩

/-- A number of the format has no part below one, or is not large. -/
theorem Represents.whole_or_small {x : ℚ} (hx : Represents x) : (∃ n : ℤ, x = n) ∨ |x| ≤ 2 ^ 52 := by
  obtain ⟨m, e, rfl, hm, _⟩ := hx
  rcases le_or_gt 0 e with hWhole | hPart
  · obtain ⟨n, hn⟩ := multiple_of_le hWhole m
    exact .inl ⟨n, by rw [hn, zpow_zero, mul_one]⟩
  · have hBits : |(m : ℚ)| ≤ 2 ^ 53 := by exact_mod_cast hm
    have hHalf : (2 : ℚ) ^ e ≤ 2 ^ (-1 : ℤ) := zpow_le_zpow_right₀ one_le_two (by omega)
    right
    rw [abs_mul, abs_of_pos (two_zpow_pos e)]
    calc |(m : ℚ)| * 2 ^ e ≤ 2 ^ 53 * 2 ^ (-1 : ℤ) :=
          mul_le_mul hBits hHalf (two_zpow_pos e).le (by norm_num)
      _ = 2 ^ 52 := by norm_num

/-- Above the 53 bits a number of the format is even. -/
theorem Represents.le_or_even {x : ℚ} (hx : Represents x) : x ≤ 2 ^ 53 ∨ ∃ n : ℤ, x = n * 2 := by
  obtain ⟨m, e, rfl, hm, _⟩ := hx
  rcases le_or_gt e 0 with hPart | hWhole
  · have hBits : (m : ℚ) ≤ 2 ^ 53 := by exact_mod_cast (le_abs_self m).trans hm
    have hOne : (2 : ℚ) ^ e ≤ 1 := zpow_le_one_of_nonpos₀ one_le_two hPart
    left
    calc (m : ℚ) * 2 ^ e ≤ 2 ^ 53 * 2 ^ e := mul_le_mul_of_nonneg_right hBits (two_zpow_pos e).le
      _ ≤ 2 ^ 53 := mul_le_of_le_one_right (by norm_num) hOne
  · obtain ⟨n, hn⟩ := multiple_of_le (show 1 ≤ e by omega) m
    exact .inr ⟨n, by rw [hn, zpow_one]⟩

theorem represents_neg {x : ℚ} (hx : Represents x) : Represents (-x) := by
  obtain ⟨m, e, rfl, hm, he⟩ := hx
  exact ⟨-m, e, by push_cast; ring, by rwa [abs_neg], he⟩

theorem represents_zpow {e : ℤ} (he : -1074 ≤ e) : Represents (2 ^ e) :=
  ⟨1, e, by simp, by norm_num, he⟩

/-- A multiple of a unit of the format that is no larger than 53 bits of it. -/
theorem represents_multiple {n e : ℤ} (he : -1074 ≤ e) (hSize : |(n : ℚ) * 2 ^ e| ≤ 2 ^ (e + 53)) :
    Represents (n * 2 ^ e) := by
  refine ⟨n, e, rfl, ?_, he⟩
  rw [abs_mul, abs_of_pos (two_zpow_pos e), add_comm, zpow_add₀ two_ne_zero,
    mul_le_mul_iff_left₀ (two_zpow_pos e)] at hSize
  exact_mod_cast hSize

theorem represents_rounded (x : ℚ) : Represents (rounded x) := by
  have hScale : -1074 ≤ scale x := le_max_right _ _
  refine represents_multiple hScale ?_
  obtain ⟨n, hn⟩ := multiple_of_le (show scale x ≤ scale x + 53 by omega) 1
  rw [Int.cast_one, one_mul] at hn
  have hAbs := abs_le.mp (abs_le_scale x)
  rw [abs_le, hn]
  rw [hn] at hAbs
  constructor
  · have hDown : ((-n : ℤ) : ℚ) * 2 ^ scale x ≤ x := by
      push_cast
      linarith [hAbs.1]
    have hRound := le_rounded_of_multiple hDown
    push_cast at hRound
    unfold rounded at hRound
    linarith
  · exact rounded_le_of_multiple hAbs.2

/-- The scales of two numbers differ only where a number of the format lies between them. -/
theorem exists_between {x y : ℚ} (hLe : x ≤ y) (hScale : scale x ≠ scale y) :
    ∃ z, Represents z ∧ x ≤ z ∧ z ≤ y := by
  rcases lt_or_ge 0 x with hx | hx
  · have hy := hx.trans_le hLe
    have hLog : Int.log 2 |x| ≤ Int.log 2 |y| :=
      Int.log_mono_right (abs_pos.mpr hx.ne') (by rwa [abs_of_pos hx, abs_of_pos hy])
    unfold scale at hScale
    refine ⟨2 ^ Int.log 2 |y|, represents_zpow (by omega), ?_, ?_⟩
    · rw [← abs_of_pos hx]
      exact (lt_zpow_log x).le.trans (zpow_le_zpow_right₀ one_le_two (by omega))
    · exact (zpow_log_le hy.ne').trans (abs_of_pos hy).le
  · rcases lt_or_ge y 0 with hy | hy
    · have hx : x < 0 := hLe.trans_lt hy
      have hLog : Int.log 2 |y| ≤ Int.log 2 |x| := by
        refine Int.log_mono_right (abs_pos.mpr hy.ne) ?_
        rw [abs_of_neg hx, abs_of_neg hy]
        linarith
      unfold scale at hScale
      refine ⟨-2 ^ Int.log 2 |x|, represents_neg (represents_zpow (by omega)), ?_, ?_⟩
      · have := zpow_log_le hx.ne
        rw [abs_of_neg hx] at this ⊢
        linarith
      · have hUp := (lt_zpow_log y).le.trans
          (zpow_le_zpow_right₀ one_le_two (show Int.log 2 |y| + 1 ≤ Int.log 2 |x| by omega))
        rw [abs_of_neg hy] at hUp
        linarith
    · exact ⟨0, represents_zero, hx, hy⟩

theorem rounded_mono {x y : ℚ} (hLe : x ≤ y) : rounded x ≤ rounded y := by
  by_cases hScale : scale x = scale y
  · unfold rounded
    rw [hScale]
    refine mul_le_mul_of_nonneg_right ?_ (two_zpow_pos _).le
    exact_mod_cast nearest_mono (div_le_div_of_nonneg_right hLe (two_zpow_pos _).le)
  · obtain ⟨z, hz, hx, hy⟩ := exists_between hLe hScale
    exact (rounded_le hz hx).trans (le_rounded hz hy)

theorem rounded_nonneg {x : ℚ} (hx : 0 ≤ x) : 0 ≤ rounded x := le_rounded represents_zero hx

/-! ## The error -/

theorem abs_rounded_sub_le (x : ℚ) : |rounded x - x| ≤ 2 ^ scale x / 2 := by
  have hPos := two_zpow_pos (scale x)
  have hSplit : rounded x - x = (nearest (x / 2 ^ scale x) - x / 2 ^ scale x) * 2 ^ scale x := by
    rw [sub_mul, div_mul_cancel₀ _ hPos.ne']
    rfl
  rw [hSplit, abs_mul, abs_of_pos hPos]
  have hNearest := mul_le_mul_of_nonneg_right (abs_nearest_sub_le (x / 2 ^ scale x)) hPos.le
  linarith

/-- The error of rounding, relative to the number. -/
def unit : ℚ := 1 / 2 ^ 53

/-- Half of the last bit of the smallest numbers. -/
def tiny : ℚ := 1 / 2 ^ 1075

theorem zpow_log_sub_le {x : ℚ} (hx : x ≠ 0) : (2 : ℚ) ^ (Int.log 2 |x| - 52) / 2 ≤ |x| * unit := by
  have hLog := zpow_log_le hx
  rw [zpow_sub₀ two_ne_zero, unit]
  norm_num
  linarith

/-- Below a power of two the error is at most half of the last bit there. -/
theorem abs_rounded_sub_le_of_lt {x : ℚ} {e : ℤ} (he : -1021 ≤ e) (hx : |x| < 2 ^ e) :
    |rounded x - x| ≤ 2 ^ (e - 54) := by
  rcases eq_or_ne x 0 with rfl | hNe
  · simpa using (two_zpow_pos _).le
  have hLog : Int.log 2 |x| < e :=
    (Int.lt_zpow_iff_log_lt one_lt_two (abs_pos.mpr hNe)).mp (by exact_mod_cast hx)
  have hScale : scale x ≤ e - 53 := by
    unfold scale
    omega
  have hHalf : (2 : ℚ) ^ (e - 53) / 2 = 2 ^ (e - 54) := by
    rw [show e - 53 = e - 54 + 1 by ring, zpow_add_one₀ two_ne_zero]
    ring
  refine (abs_rounded_sub_le x).trans (hHalf ▸ ?_)
  exact div_le_div_of_nonneg_right (zpow_le_zpow_right₀ one_le_two hScale) two_pos.le

theorem abs_rounded_sub_le_unit {x : ℚ} (hNormal : 2 ^ (-1022 : ℤ) ≤ |x|) :
    |rounded x - x| ≤ |x| * unit := by
  have hx : x ≠ 0 := abs_pos.mp ((two_zpow_pos _).trans_le hNormal)
  have hLog : -1022 ≤ Int.log 2 |x| :=
    (Int.zpow_le_iff_le_log one_lt_two (abs_pos.mpr hx)).mp hNormal
  have hScale : scale x = Int.log 2 |x| - 52 := max_eq_left (by omega)
  refine (abs_rounded_sub_le x).trans ?_
  rw [hScale]
  exact zpow_log_sub_le hx

theorem abs_rounded_sub_le_add (x : ℚ) : |rounded x - x| ≤ |x| * unit + tiny := by
  by_cases hx : x = 0
  · subst hx
    norm_num [tiny]
  have hTiny : (2 : ℚ) ^ (-1074 : ℤ) / 2 = tiny := by
    rw [tiny, show (-1074 : ℤ) = -(1074 : ℕ) from rfl, zpow_neg, zpow_natCast, pow_succ 2 1074]
    field_simp
  have hUnit := zpow_log_sub_le hx
  have hNonneg : 0 ≤ |x| * unit := mul_nonneg (abs_nonneg x) (by norm_num [unit])
  have hPos : 0 < tiny := by norm_num [tiny]
  refine (abs_rounded_sub_le x).trans ?_
  rcases max_choice (Int.log 2 |x| - 52) (-1074) with hLog | hLast
  · rw [scale, hLog]
    linarith
  · rw [scale, hLast]
    linarith

theorem rounded_le_mul {x : ℚ} (hx : x = 0 ∨ 2 ^ (-1022 : ℤ) ≤ x) : rounded x ≤ x * (1 + unit) := by
  rcases hx with rfl | hNormal
  · simp
  · have hPos := (two_zpow_pos _).trans_le hNormal
    have hError := abs_le.mp (abs_rounded_sub_le_unit (hNormal.trans (le_abs_self x)))
    rw [abs_of_pos hPos] at hError
    linarith [hError.2]

/-! ## Sums and differences with one -/

theorem represents_sub_one {x : ℚ} (hx : Represents x) (hLow : 1 ≤ x) (hHigh : x ≤ 2 ^ 53) :
    Represents (x - 1) := by
  obtain ⟨m, e, rfl, hm, he⟩ := hx
  rcases le_or_gt 0 e with hWhole | hPart
  · obtain ⟨n, hn⟩ := multiple_of_le hWhole m
    rw [zpow_zero, mul_one] at hn
    rw [hn] at hLow hHigh ⊢
    have hInt : ((n - 1 : ℤ) : ℚ) = n - 1 := by push_cast; ring
    rw [← hInt]
    refine represents_int (abs_le.mpr ⟨?_, ?_⟩)
    · have : (1 : ℤ) ≤ n := by exact_mod_cast hLow
      omega
    · have : n ≤ 2 ^ 53 := by exact_mod_cast hHigh
      omega
  · obtain ⟨n, hn⟩ := multiple_of_le hPart.le 1
    rw [Int.cast_one, one_mul, zpow_zero] at hn
    refine ⟨m - n, e, by rw [hn]; push_cast; ring, ?_, he⟩
    have hPos := two_zpow_pos e
    have hOne : 0 < (n : ℚ) * 2 ^ e := hn ▸ one_pos
    have hn' : 0 < n := by exact_mod_cast (pos_iff_pos_of_mul_pos hOne).mpr hPos
    have hmn : n ≤ m := by
      rw [hn] at hLow
      exact_mod_cast le_of_mul_le_mul_right hLow hPos
    rw [abs_le] at hm ⊢
    omega

theorem Represents.exists_multiple {x : ℚ} (hx : Represents x) (hLow : 1 / 2 ≤ x) :
    ∃ n : ℤ, x = n * 2 ^ (-53 : ℤ) := by
  obtain ⟨m, e, rfl, hm, _⟩ := hx
  rcases le_or_gt (-53) e with hLe | hLt
  · exact multiple_of_le hLe m
  · -- too few bits for more than one half
    have hBits : (m : ℚ) ≤ 2 ^ 53 := by exact_mod_cast (le_abs_self m).trans hm
    have hScale : (2 : ℚ) ^ e ≤ 2 ^ (-54 : ℤ) := zpow_le_zpow_right₀ one_le_two (by omega)
    have hTop : (m : ℚ) * 2 ^ e ≤ 1 / 2 := by
      calc (m : ℚ) * 2 ^ e ≤ 2 ^ 53 * 2 ^ e := mul_le_mul_of_nonneg_right hBits (two_zpow_pos e).le
        _ ≤ 2 ^ 53 * 2 ^ (-54 : ℤ) := mul_le_mul_of_nonneg_left hScale (by norm_num)
        _ = 1 / 2 := by norm_num
    refine ⟨2 ^ 52, ?_⟩
    rw [le_antisymm hTop hLow]
    norm_num

/-- Numbers of which the larger is at least one are not closer than a unit. -/
theorem Represents.unit_le_sub {x y : ℚ} (hx : Represents x) (hy : Represents y) (hOne : 1 ≤ x)
    (hLt : y < x) : unit ≤ x - y := by
  rcases le_or_gt (1 / 2) y with hHalf | hSmall
  · obtain ⟨n, rfl⟩ := hx.exists_multiple (by linarith)
    obtain ⟨k, rfl⟩ := hy.exists_multiple hHalf
    have hNext : (k : ℚ) + 1 ≤ n := by exact_mod_cast lt_of_mul_lt_mul_right hLt (two_zpow_pos _).le
    have hUnit : unit = 2 ^ (-53 : ℤ) := by norm_num [unit]
    rw [hUnit, ← sub_mul]
    refine le_mul_of_one_le_left (two_zpow_pos _).le ?_
    linarith
  · have hUnit : unit ≤ 1 / 2 := by norm_num [unit]
    linarith

end Binary64
