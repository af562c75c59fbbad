import Qtx.FloatErrors

/-!
# Half a unit in the last place

A result that is not flushed to zero differs from the exact value by at most a part in `2 ^ 24`
of itself. This is sharp enough to follow a chain of operations to the nearest level of a block.
-/
namespace Qtx.RoundingErrors

open Qtx.BinaryFormats Qtx.FloatWords Qtx.FloatMachine Qtx.QuantizerHelpers Qtx.FloatScans Qtx.FloatErrors

/-- The result `r` is the rounded absolute value `x`. -/
structure Rounded (M : Machine) (r : BitVec 32) (x : ℚ) : Prop where
  finite : IsFinite r
  error : mag M r ≠ 0 → |mag M r - x| ≤ mag M r / 2 ^ 24
  flushed : mag M r = 0 → x < 1 / 2 ^ 126

variable {M : Machine} {r x y : BitVec 32} {q : ℚ} {neg : Bool} {a b : ℕ}

theorem Rounded.upper (h : Rounded M r q) (hne : mag M r ≠ 0) : q ≤ mag M r * (1 + 1 / 2 ^ 24) := by
  have := (abs_le.mp (h.error hne)).1
  linarith

theorem Rounded.lower (h : Rounded M r q) (hq : 0 ≤ q) : mag M r * (1 - 1 / 2 ^ 24) ≤ q := by
  rcases eq_or_ne (mag M r) 0 with hz | hne
  · rwa [hz, zero_mul]
  · have := (abs_le.mp (h.error hne)).2
    linarith

/-- An exact value that is not below the least normal word is not flushed. -/
theorem Rounded.ne_zero (h : Rounded M r q) (hq : 1 / 2 ^ 126 ≤ q) : mag M r ≠ 0 :=
  fun hz => absurd (h.flushed hz) (not_lt.mpr hq)

theorem round_rounded (hflush : M.flush = true) (hb : 0 < b) (hfin : IsFinite (M.round neg a b)) :
    Rounded M (M.round neg a b) (a / (b * 2 ^ 149)) := by
  have happrox := round_approx hflush hb hfin
  refine ⟨hfin, fun hne => ?_, happrox.flushed⟩
  have hnear := isNearestEven_roundUnits (m := 23) (by decide) a hb
  have hb' : (0 : ℚ) < b := Nat.cast_pos.mpr hb
  have hmag : magnitude (M.round neg a b) = _ := Machine.magnitude_round
  generalize M.round neg a b = r at hfin hmag hne
  -- the result was not flushed, and it did not overflow
  have hkept : ¬ (M.flush && decide (min (roundUnits 23 a b) infinity < 2 ^ 23)) = true := by
    intro hread
    rw [if_pos hread] at hmag
    have hle : M.size r ≤ units 23 0 := Machine.size_le hmag.le
    rw [units_zero, Nat.le_zero] at hle
    exact hne (by rw [mag, hle, Nat.cast_zero, zero_div])
  rw [if_neg hkept] at hmag
  rw [hflush, Bool.true_and, decide_eq_true_eq, Nat.not_lt] at hkept
  have hmin : min (roundUnits 23 a b) infinity = roundUnits 23 a b := by
    refine min_eq_left (le_of_lt ?_)
    by_contra hge
    rw [min_eq_right (Nat.not_lt.mp hge)] at hmag
    exact absurd hmag (Nat.ne_of_lt hfin)
  rw [hmin] at hmag hkept
  have hsize : (M.size r : ℚ) = units 23 (roundUnits 23 a b) := by
    rw [Machine.size_of_normal (by rw [hmag]; exact hkept), ticks, hmag]
  have hupper := nearest_upper hnear hkept
  have hlower := nearest_lower hnear hkept
  rw [← hsize] at hupper hlower
  have hscale : (a : ℚ) / (b * 2 ^ 149) = a / b / 2 ^ 149 := by rw [div_div]
  rw [hscale, mag, ← sub_div, abs_div, abs_of_pos (by positivity : (0 : ℚ) < 2 ^ 149), div_right_comm,
    div_le_div_iff_of_pos_right (by positivity), abs_le]
  constructor
  · linarith
  · linarith

theorem mul_rounded_of_finite (hflush : M.flush = true) (hx : IsFinite x) (hy : IsFinite y)
    (hfin : IsFinite (M.mul x y)) :
    Rounded M (M.mul x y) (mag M x * mag M y) := by
  rw [mag_mul_mag]
  rw [Machine.mul_of_finite hx hy] at hfin ⊢
  exact round_rounded hflush (by positivity) hfin

theorem mul_rounded (hflush : M.flush = true) (hx : IsFinite x) (hy : IsFinite y)
    (hle : mag M x * mag M y ≤ 2 ^ 127) :
    Rounded M (M.mul x y) (mag M x * mag M y) :=
  mul_rounded_of_finite hflush hx hy (mul_approx hflush hx hy hle).finite

theorem div_rounded (hflush : M.flush = true) (hx : IsFinite x) (hy : IsFinite y) (hpos : mag M y ≠ 0)
    (hle : mag M x / mag M y ≤ 2 ^ 127) : Rounded M (M.div x y) (mag M x / mag M y) := by
  have hfin := (div_approx hflush hx hy hpos hle).finite
  rw [mag_div_mag x hpos]
  rw [Machine.div_of_finite hx hy (size_pos_of_mag hpos)] at hfin ⊢
  exact round_rounded hflush (size_pos_of_mag hpos) hfin

end Qtx.RoundingErrors
