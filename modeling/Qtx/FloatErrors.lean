import Mathlib.Algebra.Order.Field.Basic
import Mathlib.Tactic.Positivity
import Qtx.FloatScans

/-!
# Relative errors of binary32 results

On a machine that flushes subnormals a result is zero or close to the exact value. A
bound of an exact value by another one is then a bound of the results, up to a slack.
-/
namespace Qtx.FloatErrors

open Qtx.BinaryFormats Qtx.FloatWords Qtx.FloatMachine Qtx.QuantizerHelpers Qtx.FloatScans

/-- The real value of a finite word, as the machine reads it. -/
def real (M : Machine) (x : BitVec 32) : ℚ := M.value x / 2 ^ 149

/-- The absolute value. -/
def mag (M : Machine) (x : BitVec 32) : ℚ := M.size x / 2 ^ 149

/-- Far above the error of one operation. -/
def slack : ℚ := 1001 / 1000

/-- The result `r` stands for the exact absolute value `x`. -/
structure Approx (M : Machine) (r : BitVec 32) (x : ℚ) : Prop where
  finite : IsFinite r
  upper : mag M r ≤ slack * x
  lower : mag M r ≠ 0 → x ≤ slack * mag M r
  flushed : mag M r = 0 → x < 1 / 2 ^ 126

section Neighbours

variable {n : ℕ} {x : ℚ}

/-- The distance to the next word is small against the word. -/
theorem gap_le (hn : 2 ^ 23 ≤ n) : 2 ^ 23 * 2 ^ (n / 2 ^ 23 - 1) ≤ units 23 n := by
  rw [units, if_neg (Nat.not_lt.mpr hn)]
  exact Nat.mul_le_mul_right _ (Nat.le_add_right _ _)

theorem nearest_upper (h : IsNearestEven 23 x n) (hn : 2 ^ 23 ≤ n) : x * 2 ^ 24 ≤ units 23 n * (2 ^ 24 + 1) := by
  have hgap : (2 : ℚ) ^ 23 * 2 ^ (n / 2 ^ 23 - 1) ≤ units 23 n := by exact_mod_cast gap_le hn
  have hnext : (units 23 (n + 1) : ℚ) = units 23 n + 2 ^ (n / 2 ^ 23 - 1) := by
    rw [units_succ]
    push_cast
    rfl
  have hpos : (0 : ℚ) < 2 ^ (n / 2 ^ 23 - 1) := by positivity
  rcases le_or_gt x (units 23 n) with hle | hgt
  · linarith
  · have hnear := h.nearest (n + 1)
    rw [abs_of_pos (by linarith : 0 < x - units 23 n), hnext] at hnear
    rcases abs_cases (x - (units 23 n + 2 ^ (n / 2 ^ 23 - 1))) with ⟨heq, -⟩ | ⟨heq, -⟩
    · linarith
    · linarith

theorem nearest_lower (h : IsNearestEven 23 x n) (hn : 2 ^ 23 ≤ n) : units 23 n * (2 ^ 24 - 1) ≤ x * 2 ^ 24 := by
  obtain ⟨k, rfl⟩ := Nat.exists_eq_add_of_le' (Nat.le_trans (Nat.one_le_two_pow (n := 23)) hn)
  have hgap : (2 : ℚ) ^ 23 * 2 ^ ((k + 1) / 2 ^ 23 - 1) ≤ units 23 (k + 1) := by exact_mod_cast gap_le hn
  have hsmall : (2 : ℚ) ^ (k / 2 ^ 23 - 1) ≤ 2 ^ ((k + 1) / 2 ^ 23 - 1) :=
    pow_le_pow_right₀ (by norm_num) (Nat.sub_le_sub_right (Nat.div_le_div_right (Nat.le_succ k)) 1)
  have hnext : (units 23 (k + 1) : ℚ) = units 23 k + 2 ^ (k / 2 ^ 23 - 1) := by
    rw [units_succ]
    push_cast
    rfl
  have hpos : (0 : ℚ) < 2 ^ (k / 2 ^ 23 - 1) := by positivity
  rcases le_or_gt (units 23 (k + 1) : ℚ) x with hle | hgt
  · have hnonneg : (0 : ℚ) ≤ units 23 (k + 1) := Nat.cast_nonneg _
    linarith
  · have hnear := h.nearest k
    rw [abs_of_neg (by linarith : x - units 23 (k + 1) < 0)] at hnear
    rcases abs_cases (x - (units 23 k : ℚ)) with ⟨heq, -⟩ | ⟨heq, -⟩
    · linarith
    · linarith

/-- A word is at most `2 ^ 24` times as large as its distance to the next smaller one. -/
theorem units_le_gap {k : ℕ} (hk : k < n) : units 23 n ≤ 2 ^ 24 * (units 23 n - units 23 k) := by
  obtain ⟨j, rfl⟩ := Nat.exists_eq_add_of_lt hk
  have hbelow : units 23 k ≤ units 23 (k + j) := units_le_units.mpr (Nat.le_add_right k j)
  have hstep := units_succ 23 (k + j)
  have hle : units 23 (k + j) ≤ (2 ^ 24 - 1) * 2 ^ ((k + j) / 2 ^ 23 - 1) := by
    unfold units
    split_ifs with hlow
    · have hpos := Nat.two_pow_pos ((k + j) / 2 ^ 23 - 1)
      exact (Nat.le_of_lt hlow).trans ((by decide : 2 ^ 23 ≤ (2 ^ 24 - 1) * 1).trans (Nat.mul_le_mul_left _ hpos))
    · have hmod := Nat.mod_lt (k + j) (Nat.two_pow_pos 23)
      exact Nat.mul_le_mul_right _ (by omega)
  omega

end Neighbours

section Magnitudes

variable {M : Machine} {x y : BitVec 32}

theorem mag_nonneg (M : Machine) (x : BitVec 32) : 0 ≤ mag M x := by
  unfold mag
  positivity

@[simp] theorem mag_fneg (M : Machine) (x : BitVec 32) : mag M (fneg x) = mag M x := by
  rw [mag, Machine.size_fneg, mag]

@[simp] theorem mag_fabs (M : Machine) (x : BitVec 32) : mag M (fabs x) = mag M x := by
  rw [mag, Machine.size_fabs, mag]

@[simp] theorem real_fneg (M : Machine) (x : BitVec 32) : real M (fneg x) = -real M x := by
  rw [real, Machine.value_fneg, real]
  push_cast
  ring

theorem abs_real (M : Machine) (x : BitVec 32) : |real M x| = mag M x := by
  rw [real, mag, abs_div, ← natAbs_value M x, ← Int.cast_abs, Int.abs_eq_natAbs]
  congr 1

@[simp] theorem real_zero (M : Machine) : real M zero = 0 := by rw [real, value_zero, Int.cast_zero, zero_div]

@[simp] theorem mag_zero (M : Machine) : mag M zero = 0 := by rw [← abs_real, real_zero, abs_zero]

theorem real_eq_zero_iff : real M x = 0 ↔ mag M x = 0 := by rw [← abs_real, abs_eq_zero]

theorem real_le_iff : real M x ≤ real M y ↔ M.value x ≤ M.value y := by
  rw [real, real, div_le_div_iff_of_pos_right (by positivity), Int.cast_le]

theorem real_lt_iff : real M x < real M y ↔ M.value x < M.value y := by
  rw [real, real, div_lt_div_iff_of_pos_right (by positivity), Int.cast_lt]

theorem mag_of_real_nonneg (h : 0 ≤ real M x) : mag M x = real M x := by rw [← abs_real, abs_of_nonneg h]

theorem mag_lt (hx : IsFinite x) : mag M x < 2 ^ 128 := by
  have hle : M.size x ≤ units 23 (infinity - 1) := Machine.size_le (Nat.le_pred_of_lt hx)
  have hlt : M.size x < 2 ^ 128 * 2 ^ 149 := lt_of_le_of_lt hle (by decide)
  rw [mag, div_lt_iff₀ (by positivity)]
  exact_mod_cast hlt

/-- A word that is not read as zero is at least the least normal word. -/
theorem le_mag (hflush : M.flush = true) (hx : mag M x ≠ 0) : 1 / 2 ^ 126 ≤ mag M x := by
  have hnormal : 2 ^ 23 ≤ magnitude x := by
    by_contra hlt
    refine hx ?_
    have hread : (M.flush && decide (magnitude x < 2 ^ 23)) = true := by
      rw [hflush, Bool.true_and, decide_eq_true (Nat.not_le.mp hlt)]
    rw [mag, Machine.size, if_pos hread, Nat.cast_zero, zero_div]
  have hle := Machine.le_size (M := M) (le_refl (2 ^ 23)) hnormal
  have hunits : units 23 (2 ^ 23) = 2 ^ 23 := by decide
  rw [hunits] at hle
  have hcast : (2 : ℚ) ^ 23 ≤ M.size x := by exact_mod_cast hle
  rw [mag, div_le_div_iff₀ (by positivity) (by positivity)]
  linarith

theorem magnitude_lt_of_mag (hx : mag M x < 2 ^ 22) : magnitude x < 0x4B000000 := by
  by_contra hge
  have hunits : units 23 0x4B000000 = 2 ^ 23 * 2 ^ 149 := by decide
  have hle := Machine.le_size (M := M) (by decide) (Nat.not_lt.mp hge)
  have hcast : ((2 : ℚ) ^ 23 * 2 ^ 149) ≤ M.size x := by
    rw [hunits] at hle
    exact_mod_cast hle
  rw [mag, div_lt_iff₀ (by positivity)] at hx
  linarith

theorem lt_zero_iff (hx : IsFinite x) : M.lt zero x = true ↔ 0 < real M x := by
  rw [lt_iff finite_zero hx, ← real_lt_iff, real_zero]

theorem eq_zero_iff (hx : IsFinite x) : M.eq x zero = true ↔ mag M x = 0 := by
  rw [eq_iff hx finite_zero, ← real_eq_zero_iff, value_zero, real, div_eq_zero_iff, Int.cast_eq_zero]
  simp

end Magnitudes

section Operations

variable {M : Machine} {x y : BitVec 32} {neg : Bool} {a b : ℕ}

/-- A rounded quotient is close to the exact one, or flushed. -/
theorem round_approx (hflush : M.flush = true) (hb : 0 < b) (hfin : IsFinite (M.round neg a b)) :
    Approx M (M.round neg a b) (a / (b * 2 ^ 149)) := by
  have hnear := isNearestEven_roundUnits (m := 23) (by decide) a hb
  have hb' : (0 : ℚ) < b := Nat.cast_pos.mpr hb
  have hslack : slack = 1001 / 1000 := rfl
  have hmag : magnitude (M.round neg a b) = _ := Machine.magnitude_round
  generalize M.round neg a b = r at hfin hmag
  rcases Nat.lt_or_ge (roundUnits 23 a b) (2 ^ 23) with hlow | hnormal
  · have hread : (M.flush && decide (min (roundUnits 23 a b) infinity < 2 ^ 23)) = true := by
      rw [hflush, Bool.true_and, decide_eq_true (lt_of_le_of_lt (min_le_left _ _) hlow)]
    rw [if_pos hread] at hmag
    have hzero : mag M r = 0 := by
      have hsize : M.size r = 0 := by
        have hle : M.size r ≤ units 23 0 := Machine.size_le hmag.le
        rwa [units_zero, Nat.le_zero] at hle
      rw [mag, hsize, Nat.cast_zero, zero_div]
    refine ⟨hfin, ?_, fun hne => absurd hzero hne, fun _ => ?_⟩
    · rw [hzero, hslack]
      positivity
    · have hlt : a < 2 ^ 23 * b := by
        by_contra hge
        have hunits : units 23 (2 ^ 23) = 2 ^ 23 := by decide
        have hle := le_roundUnits (a := a) (k := 2 ^ 23) hb (by rw [hunits]; exact Nat.not_lt.mp hge)
        exact absurd hle (Nat.not_le.mpr hlow)
      have hcast : (a : ℚ) < 2 ^ 23 * b := by exact_mod_cast hlt
      rw [div_lt_div_iff₀ (by positivity) (by positivity)]
      linarith
  · have hread : ¬ (M.flush && decide (min (roundUnits 23 a b) infinity < 2 ^ 23)) = true := by
      rw [Bool.and_eq_true, decide_eq_true_eq]
      exact fun hc => absurd hc.2 (Nat.not_lt.mpr (le_min hnormal (by decide)))
    rw [if_neg hread] at hmag
    have hmin : min (roundUnits 23 a b) infinity = roundUnits 23 a b := by
      refine min_eq_left (le_of_lt ?_)
      by_contra hge
      rw [min_eq_right (Nat.not_lt.mp hge)] at hmag
      exact absurd hmag (Nat.ne_of_lt hfin)
    rw [hmin] at hmag
    have hsize : (M.size r : ℚ) = units 23 (roundUnits 23 a b) := by
      rw [Machine.size_of_normal (by rw [hmag]; exact hnormal), ticks, hmag]
    have hupper := nearest_upper hnear hnormal
    have hlower := nearest_lower hnear hnormal
    have hpos : (0 : ℚ) < units 23 (roundUnits 23 a b) :=
      Nat.cast_pos.mpr (lt_of_lt_of_le (by decide) (units_le_units.mpr hnormal))
    rw [← hsize] at hupper hlower hpos
    rw [div_mul_eq_mul_div, div_le_iff₀ hb'] at hupper
    rw [div_mul_eq_mul_div, le_div_iff₀ hb'] at hlower
    have hprod : 0 < (M.size r : ℚ) * b := mul_pos hpos hb'
    refine ⟨hfin, ?_, fun _ => ?_, fun hzero => ?_⟩
    · rw [mag, hslack, div_le_iff₀ (by positivity), mul_div_assoc', div_mul_eq_mul_div, le_div_iff₀ (by positivity)]
      nlinarith
    · rw [mag, hslack, div_le_iff₀ (by positivity)]
      have hcancel : 1001 / 1000 * ((M.size r : ℚ) / 2 ^ 149) * (b * 2 ^ 149) = 1001 / 1000 * (M.size r * b) := by
        field_simp
      rw [hcancel]
      nlinarith
    · rw [mag, div_eq_zero_iff] at hzero
      rcases hzero with hzero | hzero
      · exact absurd hzero hpos.ne'
      · exact absurd hzero (by positivity)

theorem finite_round_of_le (hb : 0 < b) (h : (a : ℚ) / (b * 2 ^ 149) ≤ 2 ^ 127) : IsFinite (M.round neg a b) := by
  have hb' : (0 : ℚ) < b := Nat.cast_pos.mpr hb
  rw [div_le_iff₀ (by positivity)] at h
  have hle : a ≤ 2 ^ 127 * (b * 2 ^ 149) := by exact_mod_cast h
  have hmax : 2 ^ 127 * 2 ^ 149 ≤ units 23 (infinity - 1) := by decide
  have hbound : a ≤ units 23 (infinity - 1) * b := by
    refine hle.trans ?_
    rw [Nat.mul_comm b, ← Nat.mul_assoc]
    exact Nat.mul_le_mul_right b hmax
  exact lt_of_le_of_lt (Machine.magnitude_round_le hb hbound) (by decide)

/-- The exact product, in ticks. -/
theorem mag_mul_mag (M : Machine) (x y : BitVec 32) :
    mag M x * mag M y = ((M.size x * M.size y : ℕ) : ℚ) / ((2 ^ 149 : ℕ) * 2 ^ 149) := by
  rw [mag, mag, div_mul_div_comm, Nat.cast_mul, Nat.cast_pow, Nat.cast_ofNat]

theorem mul_approx_of_finite (hflush : M.flush = true) (hx : IsFinite x) (hy : IsFinite y)
    (hfin : IsFinite (M.mul x y)) :
    Approx M (M.mul x y) (mag M x * mag M y) := by
  rw [mag_mul_mag]
  rw [Machine.mul_of_finite hx hy] at hfin ⊢
  exact round_approx hflush (by positivity) hfin

theorem mul_approx (hflush : M.flush = true) (hx : IsFinite x) (hy : IsFinite y)
    (hle : mag M x * mag M y ≤ 2 ^ 127) :
    Approx M (M.mul x y) (mag M x * mag M y) := by
  refine mul_approx_of_finite hflush hx hy ?_
  rw [mag_mul_mag] at hle
  rw [Machine.mul_of_finite hx hy]
  exact finite_round_of_le (by positivity) hle

theorem size_pos_of_mag (hpos : mag M y ≠ 0) : 0 < M.size y := by
  refine Nat.pos_of_ne_zero (fun hz => hpos ?_)
  rw [mag, hz, Nat.cast_zero, zero_div]

/-- The exact quotient, in ticks. -/
theorem mag_div_mag (x : BitVec 32) (hpos : mag M y ≠ 0) :
    mag M x / mag M y = ((M.size x * 2 ^ 149 : ℕ) : ℚ) / (M.size y * 2 ^ 149) := by
  have hsize : (M.size y : ℚ) ≠ 0 := Nat.cast_ne_zero.mpr (Nat.ne_of_gt (size_pos_of_mag hpos))
  rw [mag, mag, Nat.cast_mul, Nat.cast_pow, Nat.cast_ofNat, mul_div_mul_right _ _ (by positivity),
    div_div_div_cancel_right₀ (by positivity)]

theorem div_approx_of_finite (hflush : M.flush = true) (hx : IsFinite x) (hy : IsFinite y) (hpos : mag M y ≠ 0)
    (hfin : IsFinite (M.div x y)) : Approx M (M.div x y) (mag M x / mag M y) := by
  rw [mag_div_mag x hpos]
  rw [Machine.div_of_finite hx hy (size_pos_of_mag hpos)] at hfin ⊢
  exact round_approx hflush (size_pos_of_mag hpos) hfin

theorem div_approx (hflush : M.flush = true) (hx : IsFinite x) (hy : IsFinite y) (hpos : mag M y ≠ 0)
    (hle : mag M x / mag M y ≤ 2 ^ 127) : Approx M (M.div x y) (mag M x / mag M y) := by
  refine div_approx_of_finite hflush hx hy hpos ?_
  rw [mag_div_mag x hpos] at hle
  rw [Machine.div_of_finite hx hy (size_pos_of_mag hpos)]
  exact finite_round_of_le (size_pos_of_mag hpos) hle

theorem abs_real_add (M : Machine) (x y : BitVec 32) :
    |real M x + real M y| = ((M.value x + M.value y).natAbs : ℚ) / ((1 : ℕ) * 2 ^ 149) := by
  rw [real, real, ← add_div, abs_div, Nat.cast_one, one_mul, Nat.cast_natAbs, Int.cast_abs, Int.cast_add]
  congr 1

theorem add_approx (hflush : M.flush = true) (hx : IsFinite x) (hy : IsFinite y) (hfin : IsFinite (M.add x y)) :
    Approx M (M.add x y) |real M x + real M y| := by
  rw [abs_real_add]
  rw [Machine.add_of_finite hx hy] at hfin ⊢
  exact round_approx hflush Nat.one_pos hfin

theorem sub_approx (hflush : M.flush = true) (hx : IsFinite x) (hy : IsFinite y) (hfin : IsFinite (M.sub x y)) :
    Approx M (M.sub x y) |real M x - real M y| := by
  have happrox := add_approx hflush hx (show IsFinite (fneg y) by rwa [IsFinite, magnitude_fneg]) hfin
  rwa [real_fneg, ← sub_eq_add_neg] at happrox

theorem finite_add (hx : IsFinite x) (hy : IsFinite y) (hle : mag M x + mag M y ≤ 2 ^ 127) :
    IsFinite (M.add x y) := by
  rw [Machine.add_of_finite hx hy]
  apply finite_round_of_le Nat.one_pos
  have habs : |real M x + real M y| ≤ mag M x + mag M y := by
    rw [← abs_real, ← abs_real]
    exact abs_add_le _ _
  rw [← abs_real_add]
  exact habs.trans hle

/-- The same for the words of a machine. -/
theorem size_le_gap (h : M.size x < M.size y) : M.size y ≤ 2 ^ 24 * (M.size y - M.size x) := by
  have hread : ∀ v, M.size v = if (M.flush && decide (magnitude v < 2 ^ 23)) = true then 0
    else units 23 (magnitude v) :=
    fun _ => rfl
  rw [hread x, hread y] at h ⊢
  split_ifs at h ⊢
  · exact absurd h (Nat.lt_irrefl 0)
  · exact absurd h (Nat.not_lt_zero _)
  · rw [Nat.sub_zero]
    exact Nat.le_mul_of_pos_left _ (Nat.two_pow_pos 24)
  · exact units_le_gap (units_lt_units.mp h)

/-! Signs. -/

theorem real_nonneg_of_msb (h : x.msb = false) : 0 ≤ real M x := by
  rw [real, Machine.value, h, if_neg Bool.false_ne_true]
  positivity

theorem msb_of_real_pos (h : 0 < real M x) : x.msb = false := by
  by_contra hsign
  rw [real, Machine.value, if_pos (Bool.eq_true_of_not_eq_false hsign), Int.cast_neg, neg_div] at h
  have hnonneg : (0 : ℚ) ≤ (M.size x : ℤ) / 2 ^ 149 := by positivity
  linarith

theorem msb_round_false (M : Machine) (a b : ℕ) : (M.round false a b).msb = false := by
  refine msb_signed false ?_
  split_ifs
  · exact Nat.zero_le _
  · exact min_le_right _ _

theorem real_mul_nonneg (hflush : M.flush = true) (hx : IsFinite x) (hy : IsFinite y) (hx' : 0 ≤ real M x)
    (hy' : 0 ≤ real M y) : 0 ≤ real M (M.mul x y) := by
  by_cases hzero : mag M x * mag M y = 0
  · have happrox := mul_approx hflush hx hy (by rw [hzero]; positivity)
    rw [hzero] at happrox
    have hupper := happrox.upper
    rw [mul_zero] at hupper
    exact (real_eq_zero_iff.mpr (le_antisymm hupper (mag_nonneg M _))).ge
  · have hpos : ∀ {v : BitVec 32}, mag M v ≠ 0 → 0 ≤ real M v → v.msb = false := fun hne hnonneg =>
      msb_of_real_pos (lt_of_le_of_ne hnonneg (fun h => hne (real_eq_zero_iff.mp h.symm)))
    have hsign := hpos (left_ne_zero_of_mul hzero) hx'
    have hsign' := hpos (right_ne_zero_of_mul hzero) hy'
    rw [Machine.mul_of_finite hx hy, hsign, hsign']
    exact real_nonneg_of_msb (msb_round_false M _ _)

theorem real_sub_nonneg (hflush : M.flush = true) (hx : IsFinite x) (hy : IsFinite y) (hle : real M y ≤ real M x) :
    0 ≤ real M (M.sub x y) := by
  have hy' : IsFinite (fneg y) := by rwa [IsFinite, magnitude_fneg]
  have hsub : M.sub x y = M.round (if M.value x - M.value y = 0 then x.msb && (fneg y).msb
    else M.value x - M.value y < 0)
      (M.value x - M.value y).natAbs 1 := by
    rw [Machine.sub, Machine.add_of_finite hx hy', Machine.value_fneg, ← sub_eq_add_neg]
  have hvalue := real_le_iff.mp hle
  rw [hsub]
  split_ifs with hzero
  · rw [hzero, Int.natAbs_zero]
    have hfin : IsFinite (M.round (x.msb && (fneg y).msb) 0 1) := finite_round_of_le Nat.one_pos (by
      rw [Nat.cast_zero, zero_div]
      positivity)
    have hupper := (round_approx hflush Nat.one_pos hfin).upper
    rw [Nat.cast_zero, zero_div, mul_zero] at hupper
    exact (real_eq_zero_iff.mpr (le_antisymm hupper (mag_nonneg M _))).ge
  · rw [decide_eq_false (by omega)]
    exact real_nonneg_of_msb (msb_round_false M _ _)

theorem real_div_nonneg (hflush : M.flush = true) (hx : IsFinite x) (hy : IsFinite y) (hx' : 0 ≤ real M x)
    (hy' : 0 < real M y) : 0 ≤ real M (M.div x y) := by
  have hne : mag M y ≠ 0 := fun h => hy'.ne' (real_eq_zero_iff.mpr h)
  rcases hx'.eq_or_lt with hzero | hpos
  · have hmag : mag M x = 0 := real_eq_zero_iff.mp hzero.symm
    have happrox := div_approx hflush hx hy hne (by rw [hmag, zero_div]; positivity)
    have hupper := happrox.upper
    rw [hmag, zero_div, mul_zero] at hupper
    exact (real_eq_zero_iff.mpr (le_antisymm hupper (mag_nonneg M _))).ge
  · rw [Machine.div_of_finite hx hy (size_pos_of_mag hne), msb_of_real_pos hpos, msb_of_real_pos hy']
    exact real_nonneg_of_msb (msb_round_false M _ _)

end Operations

end Qtx.FloatErrors
