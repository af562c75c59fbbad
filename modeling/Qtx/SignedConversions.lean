import Qtx.ConversionBounds

/-!
# Conversions under a signed scale

A signed scale is a quotient of the largest absolute value of its words by a constant, so
no word is large against it.
-/
namespace Qtx.DefinedConversions

open Qtx.ByteStreams Qtx.FloatWords Qtx.FloatMachine Qtx.FpeGuard Qtx.QuantizerHelpers Qtx.FloatScans
  Qtx.FloatErrors Qtx.ScanBounds Qtx.IntegerConversions Qtx.ConversionBounds Qtx.EncoderScales Qtx.LegacyBlocks
  Qtx.KQuants Qtx.IQuants Qtx.ScaledEncoders

variable {M : Machine}

/-- What the threshold guarantees of the largest of some words. -/
theorem le_mag_of_not_lt {x : BitVec 32} (hx : IsFinite x) (hnonneg : 0 ≤ real M x) (h : ¬ M.lt x tiny = true) :
    1 / 2 ^ 100 ≤ mag M x := by
  have htiny : IsFinite tiny := by unfold IsFinite; decide
  have hsign : real M tiny = mag M tiny := by rw [real, Machine.value, if_neg (by decide), mag, Int.cast_natCast]
  rw [lt_iff hx htiny, ← real_lt_iff, not_lt, hsign, ← mag_of_real_nonneg hnonneg] at h
  exact (le_mag_tiny M).trans h

section Signed

variable {scale : ℕ → BitVec 32} {unit : BitVec 32} {n ib : ℕ}

/-- What the threshold guarantees of the extreme scale. -/
theorem le_mag_extremeScale (hscale : ∀ ib, IsFinite (scale ib))
    (h : ¬ M.lt (extremeScale M scale n).1 tiny = true) :
    1 / 2 ^ 100 ≤ mag M (extremeScale M scale n).2 := by
  have hfin : ∀ j < n, IsFinite (fabs (scale j)) := fun j _ => finite_fabs (hscale j)
  obtain ⟨hfst, hsnd⟩ := extremeScale_eq M scale n
  rw [hsnd]
  rw [hfst] at h ⊢
  exact le_mag_of_not_lt (finite_positiveMax hfin) (real_le_positiveMax hfin).1 h

/-- The extreme scale is no larger than the scales are. -/
theorem mag_extremeScale_le {b : ℚ} (hb : 0 ≤ b) (hle : ∀ ib, mag M (scale ib) ≤ b) :
    mag M (extremeScale M scale n).2 ≤ b := by
  obtain ⟨hfst, hsnd⟩ := extremeScale_eq M scale n
  rw [hsnd, hfst]
  exact positiveMax_induction M (fun v => mag M v ≤ b) ((mag_zero M).trans_le hb)
    (fun j _ => (mag_fabs M (scale j)).trans_le (hle j))

theorem clampInt_zero {lo hi : ℤ} (hlo : lo ≤ 0) (hhi : 0 ≤ hi) : clampInt lo hi 0 = 0 := by
  unfold clampInt
  rw [if_neg (not_lt.mpr hhi), if_neg (not_lt.mpr hlo)]

/-- The largest level `unit` of the scales of a super-block, and its extreme scale `m`. -/
structure Extreme (M : Machine) (unit m : BitVec 32) : Prop where
  constant : Constant M unit
  le_unit : 32 ≤ mag M unit
  finite : IsFinite m
  large : 1 / 2 ^ 100 ≤ mag M m
  capped : mag M m ≤ slack * 2 ^ 126

namespace Extreme

variable {m r lowest v sab d : BitVec 32} {lo hi z : ℤ}

theorem pos (h : Extreme M unit m) : 0 < mag M m := lt_of_lt_of_le (by positivity) h.large

theorem unit_pos (h : Extreme M unit m) : 0 < mag M unit := by linarith [h.le_unit]

/-- The factor that takes the extreme scale to the largest level is not flushed. -/
theorem inverse_approx (h : Extreme M unit m) (hflush : M.flush = true) :
    Approx M (M.div unit m) (mag M unit / mag M m) ∧ 0 < mag M (M.div unit m) := by
  have hslack : slack = 1001 / 1000 := rfl
  have happrox : Approx M (M.div unit m) (mag M unit / mag M m) := by
    refine div_approx hflush h.constant.finite h.finite h.pos.ne' ?_
    have hlarge := h.large
    have hle := h.constant.le
    rw [div_le_iff₀ h.pos]
    rw [div_le_iff₀ (by positivity)] at hlarge
    linarith
  refine ⟨happrox, lt_of_le_of_ne (mag_nonneg M _) (fun hz => ?_)⟩
  have hlt := happrox.flushed hz.symm
  have hcap := h.capped
  have hunit := h.le_unit
  rw [hslack] at hcap
  rw [div_lt_div_iff₀ h.pos (by positivity)] at hlt
  linarith

/-- No scale is taken beyond the largest level. -/
theorem level_approx (h : Extreme M unit m) (hflush : M.flush = true) (hr : IsFinite r) (hle : mag M r ≤ mag M m) :
    Approx M (M.mul (M.div unit m) r) (mag M (M.div unit m) * mag M r) ∧
    mag M (M.mul (M.div unit m) r) ≤ 2 ^ 11 := by
  obtain ⟨happrox, -⟩ := h.inverse_approx hflush
  have hunit := h.constant.le
  have hprod : mag M (M.div unit m) * mag M r ≤ 2 ^ 10 := by
    have hinv := Approx.le_two happrox (div_nonneg (mag_nonneg M unit) h.pos.le)
    calc mag M (M.div unit m) * mag M r ≤ 2 * (mag M unit / mag M m) * mag M m :=
          mul_le_mul hinv hle (mag_nonneg M r) (by linarith [mag_nonneg M (M.div unit m)])
      _ = 2 * mag M unit := by rw [mul_assoc, div_mul_cancel₀ _ h.pos.ne']
      _ ≤ 2 ^ 10 := by linarith
  have hbound := mul_bound hflush happrox.finite hr hprod (by norm_num)
  exact ⟨mul_approx hflush happrox.finite hr (hprod.trans (by norm_num)), hbound.2.trans (by norm_num)⟩

/-- The super-scale. -/
theorem super_approx (h : Extreme M unit m) (hflush : M.flush = true) :
    Approx M (M.div one (M.div unit m)) (1 / mag M (M.div unit m)) := by
  obtain ⟨happrox, hpos⟩ := h.inverse_approx hflush
  exact inverse_one_div hflush happrox.finite hpos.ne'

/-- A stored scale lies within the levels. -/
theorem stored_approx (h : Extreme M unit m) (hflush : M.flush = true) (hlo : -mag M unit ≤ lo)
    (hhi : hi ≤ mag M unit) (hz : lo ≤ z ∧ z ≤ hi) :
    (z.natAbs : ℚ) ≤ mag M unit ∧ Approx M (M.ofInt z) z.natAbs := by
  have hle : (z.natAbs : ℚ) ≤ mag M unit := by
    have hlo' : (lo : ℚ) ≤ z := by exact_mod_cast hz.1
    have hhi' : (z : ℚ) ≤ hi := by exact_mod_cast hz.2
    rw [Nat.cast_natAbs, Int.cast_abs]
    exact abs_le.mpr ⟨hlo.trans hlo', hhi'.trans hhi⟩
  exact ⟨hle, ofInt_approx hflush (by exact_mod_cast hle.trans h.constant.le)⟩

/-- The scale of a sub-block as the decoder will see it. -/
theorem local_approx (h : Extreme M unit m) (hflush : M.flush = true) (hlo : -mag M unit ≤ lo)
    (hhi : hi ≤ mag M unit) (hz : lo ≤ z ∧ z ≤ hi) : Approx M (M.mul (M.div one (M.div unit m)) (M.ofInt z))
      (mag M (M.div one (M.div unit m)) * mag M (M.ofInt z)) := by
  have hslack : slack = 1001 / 1000 := rfl
  have hone : 0 ≤ slack := by norm_num [hslack]
  have hsuper := h.super_approx hflush
  obtain ⟨hinverse, hipos⟩ := h.inverse_approx hflush
  obtain ⟨hzle, hstored⟩ := h.stored_approx hflush hlo hhi hz
  have hquot : 0 ≤ mag M m / mag M unit := (div_pos h.pos h.unit_pos).le
  have hinv : 1 / mag M (M.div unit m) ≤ slack * (mag M m / mag M unit) := by
    have hlower := hinverse.lower hipos.ne'
    rw [div_le_iff₀ h.pos] at hlower
    rw [div_le_iff₀ hipos, ← mul_div_assoc, div_mul_eq_mul_div, le_div_iff₀ h.unit_pos]
    linarith
  have hexact : mag M (M.div one (M.div unit m)) * mag M (M.ofInt z) ≤ slack ^ 3 * mag M m :=
    calc mag M (M.div one (M.div unit m)) * mag M (M.ofInt z)
        ≤ slack * (slack * (mag M m / mag M unit)) * (slack * mag M unit) := by
          refine mul_le_mul ?_ ?_ (mag_nonneg M _) (by positivity)
          · exact hsuper.upper.trans (mul_le_mul_of_nonneg_left hinv hone)
          · exact hstored.upper.trans (mul_le_mul_of_nonneg_left hzle hone)
      _ = slack ^ 3 * (mag M m / mag M unit * mag M unit) := by ring
      _ = slack ^ 3 * mag M m := by rw [div_mul_cancel₀ _ h.unit_pos.ne']
  refine mul_approx hflush hsuper.finite hstored.finite (hexact.trans ?_)
  have hcap := h.capped
  rw [hslack] at hcap ⊢
  linarith

/-- A stored scale that is not zero comes from a scale that is not small. -/
theorem scale_of_level (h : Extreme M unit m) (hflush : M.flush = true) (hlo : lo ≤ 0) (hhi : 0 ≤ hi)
    (hr : IsFinite r) (hle : mag M r ≤ mag M m) (hne : signedScale M lo hi (M.div unit m) r ≠ 0) :
    mag M r ≠ 0 ∧ mag M (M.div unit m) * mag M r ≤ 2 ^ 12 := by
  have hslack : slack = 1001 / 1000 := rfl
  obtain ⟨happrox, hbound⟩ := h.level_approx hflush hr hle
  have hlevel : mag M (M.mul (M.div unit m) r) ≠ 0 := by
    intro hzero
    have hnearest := nearestInt_eq_zero hflush happrox.finite hzero
    rw [signedScale, hnearest, clampInt_zero hlo hhi] at hne
    exact hne rfl
  constructor
  · intro hzero
    have hupper := happrox.upper
    rw [hzero, mul_zero, mul_zero] at hupper
    exact hlevel (le_antisymm hupper (mag_nonneg M _))
  · have hlower := happrox.lower hlevel
    rw [hslack] at hlower
    linarith

/-- No word of a sub-block is large against the scale of the sub-block, when that is not zero. -/
theorem mag_le_local (h : Extreme M unit m) (hflush : M.flush = true) (hlowest : Constant M lowest)
    (hlo : -mag M unit ≤ lo ∧ lo ≤ 0) (hhi : 0 ≤ hi ∧ hi ≤ mag M unit) (hsab : IsFinite sab)
    (hle : mag M (M.div sab lowest) ≤ mag M m) (hv : mag M v ≤ mag M sab)
    (hd : d = M.mul (M.div one (M.div unit m)) (M.ofInt (signedScale M lo hi (M.div unit m) (M.div sab lowest))))
    (hne : mag M d ≠ 0) : mag M v ≤ 2 ^ 25 * mag M d := by
  have hslack : slack = 1001 / 1000 := rfl
  have hscale := div_constant hflush hlowest.finite hlowest.two_le hsab
  have hbounds := clampInt_bounds (hlo.2.trans hhi.1) (nearestInt M (M.mul (M.div unit m) (M.div sab lowest)))
  have hlocal := h.local_approx hflush hlo.1 hhi.2 hbounds
  obtain ⟨-, hstored⟩ := h.stored_approx hflush hlo.1 hhi.2 hbounds
  have hsource := h.scale_of_level hflush hlo.2 hhi.1 hscale.finite hle
  have hsuper := h.super_approx hflush
  obtain ⟨-, hipos⟩ := h.inverse_approx hflush
  rw [signedScale] at hd hsource
  rw [← hd] at hlocal
  generalize clampInt lo hi (nearestInt M (M.mul (M.div unit m) (M.div sab lowest))) = z at hlocal hstored hsource
  have hfactors : mag M (M.div one (M.div unit m)) * mag M (M.ofInt z) ≠ 0 := by
    intro hzero
    have hupper := hlocal.upper
    rw [hzero, mul_zero] at hupper
    exact hne (le_antisymm hupper (mag_nonneg M d))
  have hsuperNe := left_ne_zero_of_mul hfactors
  have hstoredNe := right_ne_zero_of_mul hfactors
  have hz : z ≠ 0 := by
    rintro rfl
    have hupper := hstored.upper
    rw [Int.natAbs_zero, Nat.cast_zero, mul_zero] at hupper
    exact hstoredNe (le_antisymm hupper (mag_nonneg M _))
  obtain ⟨hscaleNe, hlevel⟩ := hsource hz
  have hstoredLe : 1 ≤ 2 * mag M (M.ofInt z) := by
    have hone : (1 : ℚ) ≤ z.natAbs := by exact_mod_cast Int.natAbs_pos.mpr hz
    have hlower := hone.trans (hstored.lower hstoredNe)
    rw [hslack] at hlower
    linarith
  have hsuperNonneg := mag_nonneg M (M.div one (M.div unit m))
  have hsuperLe : 1 ≤ 2 * (mag M (M.div one (M.div unit m)) * mag M (M.div unit m)) := by
    have hlower := hsuper.lower hsuperNe
    rw [hslack, div_le_iff₀ hipos] at hlower
    linarith [mul_nonneg hsuperNonneg hipos.le]
  have hlocalLe : mag M (M.div one (M.div unit m)) * mag M (M.ofInt z) ≤ 2 * mag M d := by
    have hlower := hlocal.lower hne
    rw [hslack] at hlower
    linarith [mag_nonneg M d]
  have hlowestNonneg : 0 ≤ mag M lowest := mag_nonneg M lowest
  have hscaleNonneg := mag_nonneg M (M.div sab lowest)
  calc mag M v ≤ mag M sab := hv
    _ ≤ 2 * mag M lowest * mag M (M.div sab lowest) :=
      Approx.dividend_le hscale (by linarith [hlowest.two_le]) hscaleNe
    _ ≤ 2 * mag M lowest * mag M (M.div sab lowest) *
        (2 * (mag M (M.div one (M.div unit m)) * mag M (M.div unit m))) :=
      le_mul_of_one_le_right (by positivity) hsuperLe
    _ = 4 * mag M lowest * mag M (M.div one (M.div unit m)) *
        (mag M (M.div unit m) * mag M (M.div sab lowest)) := by ring
    _ ≤ 4 * mag M lowest * mag M (M.div one (M.div unit m)) * 2 ^ 12 :=
      mul_le_mul_of_nonneg_left hlevel (by positivity)
    _ ≤ 4 * mag M lowest * mag M (M.div one (M.div unit m)) * 2 ^ 12 * (2 * mag M (M.ofInt z)) :=
      le_mul_of_one_le_right (by positivity) hstoredLe
    _ = mag M lowest * 2 ^ 15 * (mag M (M.div one (M.div unit m)) * mag M (M.ofInt z)) := by ring
    _ ≤ 2 ^ 9 * 2 ^ 15 * (2 * mag M d) :=
      mul_le_mul (by linarith [hlowest.le]) hlocalLe (mul_nonneg hsuperNonneg (mag_nonneg M _)) (by norm_num)
    _ = 2 ^ 25 * mag M d := by ring

end Extreme

variable {lowest : BitVec 32} {size : ℕ} {blk : ℕ → BitVec 32} {lo hi : ℤ}

theorem subScale_approx (hflush : M.flush = true) (hlowest : Constant M lowest) (ib : ℕ) :
    Approx M (subScale M size lowest blk ib)
      (mag M (subBlockSignedAbsMax M (fun j => blk (size * ib + j)) size) / mag M lowest) :=
  div_constant hflush hlowest.finite hlowest.two_le (subBlockSignedAbsMax_finite M _ _)

/-- The extreme scale of a super-block that is encoded at all. -/
theorem extreme_subScale (hflush : M.flush = true) (hunit : Constant M unit) (hunit' : 32 ≤ mag M unit)
    (hlowest : Constant M lowest) (hlowest' : 4 ≤ mag M lowest)
    (h : ¬ M.lt (extremeScale M (subScale M size lowest blk) n).1 tiny = true) :
    Extreme M unit (extremeScale M (subScale M size lowest blk) n).2 := by
  have hfin : ∀ ib, IsFinite (subScale M size lowest blk ib) := fun ib => (subScale_approx hflush hlowest ib).finite
  have hslack : slack = 1001 / 1000 := rfl
  refine ⟨hunit, hunit', extremeScale_finite M n hfin, le_mag_extremeScale hfin h, ?_⟩
  refine mag_extremeScale_le (by norm_num [hslack]) (fun ib => (subScale_approx hflush hlowest ib).upper.trans ?_)
  refine mul_le_mul_of_nonneg_left ?_ (by norm_num [hslack])
  have hlt := mag_lt (M := M) (subBlockSignedAbsMax_finite M (fun j => blk (size * ib + j)) size)
  rw [div_le_iff₀ (by linarith)]
  linarith

theorem convertible_signedConversions (hflush : M.flush = true) (hunit : Constant M unit) (hunit' : 32 ≤ mag M unit)
    (hlowest : Constant M lowest) (hlowest' : 4 ≤ mag M lowest) (hlo : -mag M unit ≤ lo ∧ lo ≤ 0)
    (hhi : 0 ≤ hi ∧ hi ≤ mag M unit) : ∀ w ∈ signedConversions M lowest unit lo hi blk, Convertible M w := by
  have hfin : ∀ ib, IsFinite (subScale M 16 lowest blk ib) := fun ib => (subScale_approx hflush hlowest ib).finite
  have hle : ∀ ib < 16, mag M (subScale M 16 lowest blk ib) ≤
    mag M (extremeScale M (subScale M 16 lowest blk) 16).2 :=
    fun ib hib => mag_le_extremeScale (fun j _ => hfin j) hib
  unfold signedConversions
  dsimp only
  split_ifs with htiny
  · exact fun w hw => absurd hw (Set.notMem_empty w)
  · have hextreme := extreme_subScale hflush hunit hunit' hlowest hlowest' htiny
    rintro w (⟨ib, hib, rfl⟩ | ⟨i, hi', hlocal, rfl⟩)
    · obtain ⟨happrox, hbound⟩ := hextreme.level_approx hflush (hfin ib) (hle ib hib)
      exact convertible_nearestArgument hflush happrox.finite (hbound.trans (by norm_num))
    · have hib : i / 16 < 16 := by omega
      have hbounds := clampInt_bounds (hlo.2.trans hhi.1)
        (nearestInt M (M.mul (M.div unit (extremeScale M (subScale M 16 lowest blk) 16).2)
          (subScale M 16 lowest blk (i / 16))))
      have happrox := hextreme.local_approx hflush hlo.1 hhi.2 hbounds
      have hne := mt (eq_zero_iff happrox.finite).mpr (Bool.eq_false_iff.mp hlocal)
      have hword : mag M (sanitiseFinite (blk i)) ≤
          mag M (subBlockSignedAbsMax M (fun j => blk (16 * (i / 16) + j)) 16) := by
        have hle :=
          mag_le_subBlockSignedAbsMax (M := M) (p := fun j => blk (16 * (i / 16) + j)) (by omega : i % 16 < 16)
        rwa [Nat.div_add_mod] at hle
      have hbound := (inverse_of_ne hflush happrox.finite hne).mul_bound hflush (finite_sanitiseFinite (blk i))
        (fun _ => hextreme.mag_le_local hflush hlowest hlo hhi (subBlockSignedAbsMax_finite M _ _)
          (hle _ hib) hword rfl hne)
        (by norm_num) (by norm_num)
      exact convertible_nearestArgument hflush hbound.1 (hbound.2.trans (by norm_num))

end Signed

end Qtx.DefinedConversions
