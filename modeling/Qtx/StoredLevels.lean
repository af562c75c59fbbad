import Mathlib.Algebra.Order.Floor.Div
import Qtx.LroundHalfAway
import Qtx.StoredMultiples

/-!
# Which level a minimum is stored as

The level of a minimum is a step function of how far the least word of its sub-block lies
below zero: from a reach of its own on, every level is taken by all larger distances. The
reaches, and the multiples that the levels stand for, are given by the largest distance of
the super-block.
-/
namespace Qtx.StoredLevels

open Qtx.BinaryFormats Qtx.ConversionBounds Qtx.FloatErrors Qtx.FloatMachine Qtx.FloatScans Qtx.FloatWords
  Qtx.FlushedScales Qtx.LroundHalfAway Qtx.QuantizerHelpers Qtx.ScaledEncoders Qtx.StoredMultiples

/-- The ticks of `top` over `largest` ticks, rounded. -/
def inverseTicks (top largest : ℕ) : ℕ := units 23 (inverseRank top largest)

/-- The ticks of `l` times a `top`-th of `largest` ticks, both rounded. -/
def multipleTicks (top largest l : ℕ) : ℕ := units 23 (roundUnits 23 (units 23 (roundUnits 23 largest top) * l) 1)

/-- The least word that is converted to `l` or more: `l - 1/2`, or the word below one half. -/
def leastRank (l : ℕ) : ℕ := if l = 1 then 0x3EFFFFFF else roundUnits 23 ((2 * l - 1) * 2 ^ 148) 1

/-- The least product of two numbers of ticks that is rounded to the least word or more. -/
def leastProduct (l : ℕ) : ℕ := (units 23 (leastRank l - 1) + units 23 (leastRank l)) * 2 ^ 148 + leastRank l % 2

/-- The least distance from zero that is stored as `l` or more. -/
def reach (top largest l : ℕ) : ℕ := leastProduct l ⌈/⌉ inverseTicks top largest

section Ticks

variable {top largest l n N : ℕ}

theorem roundedHalf_mono {n n' : ℕ} (h : n ≤ n') : roundedHalf n ≤ roundedHalf n' :=
  Nat.div_le_div_right (units_le_units.mpr (roundUnits_mono Nat.one_pos (Nat.add_le_add_right h _)))

theorem leastRank_spec : ∀ l < 64, 1 ≤ l → 0 < leastRank l ∧ l ≤ roundedHalf (units 23 (leastRank l)) ∧
    roundedHalf (units 23 (leastRank l - 1)) < l := by
  decide +kernel

/-- A word is converted to `l` or more from the least such word on. -/
theorem le_roundedHalf_iff (hl : 1 ≤ l) (hl' : l < 64) : l ≤ roundedHalf (units 23 N) ↔ leastRank l ≤ N := by
  obtain ⟨hpos, hat, hbelow⟩ := leastRank_spec l hl' hl
  constructor
  · intro hle
    by_contra hlt
    have hmono := roundedHalf_mono (units_le_units (m := 23).mpr (Nat.le_sub_one_of_lt (Nat.not_le.mp hlt)))
    omega
  · exact fun hle => hat.trans (roundedHalf_mono (units_le_units.mpr hle))

/-- The level of a product. -/
theorem le_level_iff (hl : 1 ≤ l) (hl' : l < 64) :
    l ≤ roundedHalf (units 23 (roundUnits 23 n (2 ^ 149))) ↔ leastProduct l ≤ n := by
  obtain ⟨hpos, -, -⟩ := leastRank_spec l hl' hl
  rw [le_roundedHalf_iff hl hl', leastProduct]
  generalize leastRank l = k at hpos ⊢
  obtain ⟨j, rfl⟩ := Nat.exists_eq_add_of_le' hpos
  rw [succ_le_roundUnits_iff (by decide) (Nat.two_pow_pos 149), Nat.add_sub_cancel]
  generalize units 23 j + units 23 (j + 1) = x
  omega

theorem reach_le_iff (hpos : 0 < inverseTicks top largest) :
    reach top largest l ≤ n ↔ leastProduct l ≤ inverseTicks top largest * n := by
  rw [reach, ceilDiv_le_iff_le_smul hpos, smul_eq_mul]

theorem leastProduct_pos (hl : 1 ≤ l) (hl' : l < 64) : 0 < leastProduct l := by
  obtain ⟨hpos, -, -⟩ := leastRank_spec l hl' hl
  have hunits : 0 < units 23 (leastRank l) := by
    have hlt := units_lt_units (m := 23).mpr hpos
    rwa [units_zero] at hlt
  have hpow := Nat.two_pow_pos 148
  unfold leastProduct
  exact Nat.add_pos_left (Nat.mul_pos (Nat.add_pos_right _ hunits) hpow) _

theorem reach_pos (hl : 1 ≤ l) (hl' : l < 64) (hpos : 0 < inverseTicks top largest) : 0 < reach top largest l := by
  have hproduct := leastProduct_pos hl hl'
  by_contra hz
  have hle := (reach_le_iff hpos).mp (Nat.not_lt.mp hz)
  rw [Nat.mul_zero] at hle
  omega

theorem multipleTicks_zero (top largest : ℕ) : multipleTicks top largest 0 = 0 := by
  have hround : roundUnits 23 0 1 = 0 := by decide
  rw [multipleTicks, Nat.mul_zero, hround, units_zero]

theorem multipleTicks_zero_left (htop : 0 < top) (l : ℕ) : multipleTicks top 0 l = 0 := by
  have hround : roundUnits 23 0 1 = 0 := by decide
  have hstep : roundUnits 23 0 top = 0 := Nat.le_zero.mp (roundUnits_le htop (Nat.zero_le _))
  rw [multipleTicks, hstep, units_zero, Nat.zero_mul, hround, units_zero]

theorem multipleTicks_mono {k : ℕ} (h : k ≤ l) : multipleTicks top largest k ≤ multipleTicks top largest l :=
  units_le_units.mpr (roundUnits_mono Nat.one_pos (Nat.mul_le_mul_left _ h))

end Ticks

section Words

variable {M : Machine} {top : ℕ} {largest own : BitVec 32}

/-- The inverse of a largest word is never flushed. -/
theorem inverse_normal (h : Top top) (hfin : IsFinite largest) (hpos : 0 < M.size largest) :
    2 ^ 23 ≤ inverseRank top (M.size largest) := by
  have hmax : M.size largest ≤ units 23 (infinity - 1) := Machine.size_le (Nat.le_pred_of_lt hfin)
  apply le_roundUnits hpos
  calc units 23 (2 ^ 23) * M.size largest ≤ units 23 (2 ^ 23) * units 23 (infinity - 1) :=
        Nat.mul_le_mul_left _ hmax
    _ ≤ 15 * 2 ^ 149 * 2 ^ 149 := by decide
    _ ≤ top * 2 ^ 149 * 2 ^ 149 := Nat.mul_le_mul_right _ (Nat.mul_le_mul_right _ h.bounds.1)

theorem inverseTicks_pos (h : Top top) (hfin : IsFinite largest) (hpos : 0 < M.size largest) :
    0 < inverseTicks top (M.size largest) := by
  have hlt := units_lt_units (m := 23).mpr ((Nat.two_pow_pos 23).trans_le (inverse_normal h hfin hpos))
  rwa [units_zero] at hlt

theorem size_inverseTop (h : Stored M top largest own) (hflush : M.flush = true) (hpos : 0 < M.size largest) :
    M.size (inverseTop M top largest) = inverseTicks top (M.size largest) := by
  have hnonneg := h.own_nonneg.trans h.own_le
  have hlt : M.lt zero largest = true := by
    rw [lt_zero_iff h.finite, ← mag_of_real_nonneg hnonneg, mag]
    positivity
  have hrank := ((h.level.finite_inverseTop_iff h.finite hnonneg).mp h.inverse).resolve_left (Nat.ne_of_gt hpos)
  have hdiv : M.size (M.div (literal top 1) largest) = flushed (top * 2 ^ 149 * 2 ^ 149) (M.size largest) := by
    rw [Machine.div_of_finite h.level.exact.finite h.finite hpos, size_round hflush, h.level.size_literal]
  rw [inverseTop, if_pos hlt, hdiv, flushed_normal (inverse_normal h.level h.finite hpos), ← inverseRank,
    min_eq_left hrank.le, inverseTicks]

/-- A rounded product that is too small for the format is converted to zero, flushed or not. -/
theorem roundedHalf_round (hfin : IsFinite (M.round false n (2 ^ 149))) :
    roundedHalf (ticks (M.round false n (2 ^ 149))) = roundedHalf (units 23 (roundUnits 23 n (2 ^ 149))) := by
  have hrank := Machine.finite_round_quotient_iff.mp hfin
  rw [ticks, Machine.magnitude_round, min_eq_left hrank.le]
  split_ifs with hflush
  · rw [Bool.and_eq_true, decide_eq_true_eq] at hflush
    have hmono := roundedHalf_mono (units_le_units (m := 23).mpr hflush.2.le)
    have hzero : roundedHalf (units 23 (2 ^ 23)) = 0 := by decide
    have hzero' : roundedHalf (units 23 0) = 0 := by decide
    omega
  · rfl

/-- The level of a minimum, by the ticks of it and of the largest one. -/
theorem storedLevel_eq (h : Stored M top largest own) (hflush : M.flush = true) (hpos : 0 < M.size largest) :
    storedLevel M top largest own =
      min (roundedHalf (units 23 (roundUnits 23 (inverseTicks top (M.size largest) * M.size own) (2 ^ 149))))
      top := by
  obtain ⟨hproduct, hle⟩ := h.product_approx hflush
  have htop : (top : ℚ) ≤ 63 := by exact_mod_cast h.level.bounds.2
  have hslack : slack = 1001 / 1000 := rfl
  have hsmall : mag M (M.mul (inverseTop M top largest) own) < 2 ^ 22 := by
    rw [hslack] at hle
    linarith
  rcases Nat.eq_zero_or_pos (M.size own) with hzero | hown
  · have hmag : mag M (M.mul (inverseTop M top largest) own) = 0 := by
      have hown : mag M own = 0 := by rw [mag, hzero, Nat.cast_zero, zero_div]
      have hupper := hproduct.upper
      rw [hown, mul_zero, mul_zero] at hupper
      exact le_antisymm hupper (mag_nonneg M _)
    have hround : roundUnits 23 0 (2 ^ 149) = 0 := by decide
    have hhalf : roundedHalf (units 23 0) = 0 := by decide
    rw [storedLevel, nearestInt_eq_zero hflush hproduct.finite hmag, hzero, Nat.mul_zero, hround, hhalf,
      Nat.zero_min, clampInt, if_neg (not_lt.mpr (Int.natCast_nonneg top))]
    rfl
  · have hsign : own.msb = false := by
      refine msb_of_real_pos (M := M) ?_
      rw [← mag_of_real_nonneg h.own_nonneg, mag]
      positivity
    have hlargest : 0 < real M largest := by
      rw [← mag_of_real_nonneg (h.own_nonneg.trans h.own_le), mag]
      positivity
    have hsign' : (inverseTop M top largest).msb = false := by
      have hinverse := h.inverse
      rw [inverseTop, if_pos ((lt_zero_iff h.finite).mpr hlargest)] at hinverse ⊢
      rw [Machine.div_of_finite h.level.exact.finite h.finite hpos, h.level.sign, msb_of_real_pos hlargest]
      exact msb_round_false M _ _
    have hmul : M.mul (inverseTop M top largest) own =
        M.round false (inverseTicks top (M.size largest) * M.size own) (2 ^ 149) := by
      rw [Machine.mul_of_finite h.inverse h.own_finite, hsign, hsign', size_inverseTop h hflush hpos]
      rfl
    have hfin := hproduct.finite
    rw [hmul] at hfin hsmall
    have hmsb := msb_round_false M (inverseTicks top (M.size largest) * M.size own) (2 ^ 149)
    have hnearest : nearestInt M (M.mul (inverseTop M top largest) own) =
        roundedHalf (units 23 (roundUnits 23 (inverseTicks top (M.size largest) * M.size own) (2 ^ 149))) := by
      rw [hmul, ← roundedHalf_round hfin]
      generalize M.round false (inverseTicks top (M.size largest) * M.size own) (2 ^ 149) = t at hfin hsmall hmsb
      have hpositive : M.le zero t = true := by
        rw [le_iff finite_zero hfin, ← real_le_iff, real_zero]
        exact real_nonneg_of_msb hmsb
      have hlround := lroundHalfAwayFast_eq (M := M) ((magnitude_lt_of_mag hsmall).trans (by decide))
      rw [lroundHalfAwayFast, hmsb, if_neg Bool.false_ne_true] at hlround
      rw [nearestInt, if_pos hpositive, hlround]
      rfl
    rw [storedLevel, hnearest, clampInt]
    split_ifs <;> omega

/-- A minimum is stored as `l` or more from the reach of `l` on. -/
theorem le_storedLevel_iff (h : Stored M top largest own) (hflush : M.flush = true)
    (hpos : 0 < M.size largest) {l : ℕ} (hl : 1 ≤ l) (hl' : l ≤ top) :
    l ≤ storedLevel M top largest own ↔ reach top (M.size largest) l ≤ M.size own := by
  have hlt : l < 64 := Nat.lt_succ_of_le (hl'.trans h.level.bounds.2)
  rw [storedLevel_eq h hflush hpos, le_min_iff, and_iff_left hl', le_level_iff hl hlt,
    reach_le_iff (inverseTicks_pos h.level h.finite hpos)]

/-- A level as a word of its own. -/
theorem size_level (hflush : M.flush = true) {l : ℕ} (hl : l < 64) :
    M.size (QuantizerHelpers.ofNat M l) = l * 2 ^ 149 := by
  have hexact : ∀ k < 64, flushed (k * 2 ^ 149) 1 = k * 2 ^ 149 := by decide +kernel
  rw [QuantizerHelpers.ofNat, Machine.ofInt, size_round hflush, Int.natAbs_natCast, hexact l hl]

theorem size_step (h : Stored M top largest own) (hflush : M.flush = true) :
    M.size (M.div largest (literal top 1)) = flushed (M.size largest) top ∧
    roundUnits 23 (M.size largest) top < infinity := by
  have hpow := Nat.two_pow_pos 149
  have hpos : 0 < M.size (literal top 1) := by
    rw [h.level.size_literal]
    exact Nat.mul_pos (Nat.lt_of_lt_of_le (by decide) h.level.bounds.1) hpow
  have hfin := (Stored.step_approx hflush h.level h.finite).finite
  rw [Machine.div_of_finite h.finite h.level.exact.finite hpos, h.level.size_literal] at hfin ⊢
  rw [Machine.finite_round_quotient_iff, roundUnits_mul_right 23 _ _ hpow] at hfin
  exact ⟨by rw [size_round hflush, flushed_mul_right _ _ hpow], hfin⟩

theorem storedMultiple_eq (h : Stored M top largest own) (hflush : M.flush = true) : ∃ neg,
    storedMultiple M top largest own =
      M.round neg (M.size (M.div largest (literal top 1)) * storedLevel M top largest own) 1 := by
  have hlevel : storedLevel M top largest own < 64 := Nat.lt_succ_of_le (storedLevel_le.trans h.level.bounds.2)
  have hscaled := roundUnits_mul_right 23 (M.size (M.div largest (literal top 1)) * storedLevel M top largest own) 1
    (Nat.two_pow_pos 149)
  rw [Nat.one_mul] at hscaled
  rw [storedMultiple, Machine.mul_of_finite (Stored.step_approx hflush h.level h.finite).finite
    (Stored.word_approx hflush h.level largest own).finite, size_level hflush hlevel, ← Nat.mul_assoc]
  exact ⟨_, by rw [Machine.round, Machine.round, hscaled]⟩

/-- The multiple of a word is that of its ticks, unless the step is flushed. -/
theorem size_storedMultiple_of_normal (h : Stored M top largest own) (hflush : M.flush = true)
    (hnormal : 2 ^ 23 ≤ roundUnits 23 (M.size largest) top) : M.size (storedMultiple M top largest own) =
      multipleTicks top (M.size largest) (storedLevel M top largest own) := by
  obtain ⟨hstep, hrank⟩ := size_step h hflush
  rw [flushed_normal hnormal, min_eq_left hrank.le] at hstep
  have hfin : IsFinite (storedMultiple M top largest own) := h.level.finite_storedMultiple h.finite
  obtain ⟨neg, heq⟩ := storedMultiple_eq h hflush
  rw [heq, hstep, Machine.finite_round_quotient_iff] at hfin
  rw [heq, size_round hflush, hstep, multipleTicks]
  rcases Nat.eq_zero_or_pos (storedLevel M top largest own) with hzero | hpos
  · have hround : roundUnits 23 0 1 = 0 := by decide
    rw [hzero, Nat.mul_zero, flushed, hround, units_zero]
    exact ite_self 0
  · rw [flushed_normal, min_eq_left hfin.le]
    refine le_roundUnits Nat.one_pos ?_
    rw [Nat.mul_one]
    exact (units_le_units.mpr hnormal).trans (Nat.le_mul_of_pos_right _ hpos)

/-- A sum overflows with the multiple of a word if and only if it does with that of its ticks. -/
theorem sum_lt_overflow_iff (h : Stored M top largest own) (hflush : M.flush = true) {v : ℤ}
    (hv : v ≤ units 23 (infinity - 1)) : v + M.size (storedMultiple M top largest own) < overflow ↔
      v + multipleTicks top (M.size largest) (storedLevel M top largest own) < overflow := by
  rcases Nat.lt_or_ge (roundUnits 23 (M.size largest) top) (2 ^ 23) with hlow | hnormal
  · -- a step below the least normal word is far too small for the sum to overflow
    have hlast : units 23 (infinity - 1) + 2 ^ 29 < overflow := by decide
    have hticks : multipleTicks top (M.size largest) (storedLevel M top largest own) ≤ 2 ^ 29 := by
      have hunits : units 23 (7 * 2 ^ 23) = 2 ^ 29 := by decide
      rw [← hunits]
      refine units_le_units.mpr (roundUnits_le Nat.one_pos ?_)
      rw [units_of_le (hlow.le.trans (by decide)), hunits]
      calc roundUnits 23 (M.size largest) top * storedLevel M top largest own
          ≤ 2 ^ 23 * 63 := Nat.mul_le_mul hlow.le (storedLevel_le.trans h.level.bounds.2)
        _ ≤ 2 ^ 29 * 1 := by decide
    have hsize : M.size (storedMultiple M top largest own) = 0 := by
      have hzero : flushed (M.size largest) top = 0 := if_pos (lt_of_le_of_lt (min_le_left _ _) hlow)
      have hround : flushed 0 1 = 0 := by decide
      obtain ⟨neg, heq⟩ := storedMultiple_eq h hflush
      rw [heq, size_round hflush, (size_step h hflush).1, hzero, Nat.zero_mul, hround]
    rw [hsize]
    generalize multipleTicks top (M.size largest) (storedLevel M top largest own) = m at hticks
    generalize units 23 (infinity - 1) = a at hv hlast
    generalize overflow = b at hlast
    omega
  · rw [size_storedMultiple_of_normal h hflush hnormal]

end Words

end Qtx.StoredLevels
