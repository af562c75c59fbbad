import Qtx.ConversionBounds
import Qtx.FlushedScales

/-!
# Stored scales and minima

A scale or a minimum is stored as a level, a multiple of the largest one divided by the
largest level. The multiple is at most about twice what it stands for and, unless it is
zero, at least about half of it.
-/
namespace Qtx.StoredMultiples

open Qtx.BinaryFormats Qtx.FloatWords Qtx.FloatMachine Qtx.QuantizerHelpers Qtx.FloatScans Qtx.FloatErrors
  Qtx.EncoderScales Qtx.ConversionBounds

variable (M : Machine) (top : ℕ) (largest own : BitVec 32)

/-- The factor that takes the largest scale or minimum to the largest level. -/
def inverseTop : BitVec 32 := if M.lt zero largest then M.div (literal top 1) largest else zero

def storedLevel : ℕ := (clampInt 0 top (nearestInt M (M.mul (inverseTop M top largest) own))).toNat

/-- What the decoder will see in place of `own`. -/
def storedMultiple : BitVec 32 := M.mul (M.div largest (literal top 1)) (ofNat M (storedLevel M top largest own))

/-- A largest level: it divides the largest finite word. -/
structure Top (top : ℕ) : Prop where
  exact : Exact top 1
  one : AtLeastOne (literal top 1)
  sign : (literal top 1).msb = false
  bounds : 15 ≤ top ∧ top ≤ 63
  divides : units 23 (roundUnits 23 (units 23 (infinity - 1)) top) * top = units 23 (infinity - 1)

instance (top : ℕ) : Decidable (Top top) :=
  decidable_of_iff (_ ∧ _ ∧ _ ∧ _ ∧ _)
    ⟨fun h => ⟨h.1, h.2.1, h.2.2.1, h.2.2.2.1, h.2.2.2.2⟩, fun h => ⟨h.1, h.2, h.3, h.4, h.5⟩⟩

/-- A scale or minimum, the largest one, and a finite inverse of that. -/
structure Stored : Prop where
  level : Top top
  finite : IsFinite largest
  own_finite : IsFinite own
  own_nonneg : 0 ≤ real M own
  own_le : real M own ≤ real M largest
  inverse : IsFinite (inverseTop M top largest)

variable {M top largest own}

theorem storedLevel_le : storedLevel M top largest own ≤ top := by
  have hle := (clampInt_bounds (Int.natCast_nonneg top) (nearestInt M (M.mul (inverseTop M top largest) own))).2
  exact Int.toNat_le.mpr hle

/-- A level that is not zero is the nearest integer, or the largest level below it. -/
theorem storedLevel_of_pos (h : 1 ≤ storedLevel M top largest own) :
    storedLevel M top largest own = min (nearestInt M (M.mul (inverseTop M top largest) own)).natAbs top := by
  unfold storedLevel clampInt at h ⊢
  split_ifs at h ⊢ <;> omega

namespace Top

theorem mag_literal (h : Top top) (M : Machine) : mag M (literal top 1) = top := by
  rw [h.exact.mag, Nat.cast_one, div_one]

theorem size_literal (h : Top top) (M : Machine) : M.size (literal top 1) = top * 2 ^ 149 := by
  rw [Machine.size_of_normal h.exact.normal, ← h.exact.ticks, Nat.mul_one]

/-- When the factor is finite. -/
theorem finite_inverseTop_iff (h : Top top) (hfin : IsFinite largest) (hnonneg : 0 ≤ real M largest) :
    IsFinite (inverseTop M top largest) ↔
      M.size largest = 0 ∨ FlushedScales.inverseRank top (M.size largest) < infinity := by
  have hpos : M.lt zero largest = true ↔ M.size largest ≠ 0 := by
    rw [lt_zero_iff hfin, ← mag_of_real_nonneg hnonneg, (mag_nonneg M largest).lt_iff_ne', mag, div_ne_zero_iff,
      Nat.cast_ne_zero]
    exact and_iff_left (by positivity)
  unfold inverseTop
  by_cases hsize : M.size largest = 0
  · rw [if_neg (fun h => hpos.mp h hsize)]
    exact iff_of_true finite_zero (.inl hsize)
  · rw [if_pos (hpos.mpr hsize), Machine.div_of_finite h.exact.finite hfin (Nat.pos_of_ne_zero hsize),
      h.size_literal, Machine.finite_round_quotient_iff, or_iff_right hsize, FlushedScales.inverseRank]

/-- No multiple overflows. -/
theorem finite_storedMultiple (h : Top top) (hfin : IsFinite largest) :
    IsFinite (storedMultiple M top largest own) := by
  have hpos : 0 < M.size (literal top 1) := by
    rw [h.size_literal]
    exact Nat.mul_pos (Nat.lt_of_lt_of_le (by decide) h.bounds.1) (Nat.two_pow_pos 149)
  have hmax : M.size largest ≤ units 23 (infinity - 1) := Machine.size_le (Nat.le_pred_of_lt hfin)
  have hstep : magnitude (M.div largest (literal top 1)) ≤ roundUnits 23 (units 23 (infinity - 1)) top := by
    apply Machine.magnitude_div_le hfin h.exact.finite hpos
    rw [h.size_literal, ← Nat.mul_assoc, h.divides]
    exact Nat.mul_le_mul_right _ hmax
  have hlevel : magnitude (ofNat M (storedLevel M top largest own)) ≤ magnitude (literal top 1) := by
    apply Machine.magnitude_round_le Nat.one_pos
    have hticks : units 23 (magnitude (literal top 1)) * 1 = top * 2 ^ 149 := h.exact.ticks
    rw [hticks, Int.natAbs_natCast]
    exact Nat.mul_le_mul_right _ storedLevel_le
  have hstepFin : IsFinite (M.div largest (literal top 1)) := h.one.div hfin
  have hlevelFin : IsFinite (ofNat M (storedLevel M top largest own)) := lt_of_le_of_lt hlevel h.exact.finite
  have hproduct : magnitude (storedMultiple M top largest own) ≤ infinity - 1 := by
    apply Machine.magnitude_mul_le hstepFin hlevelFin
    have hticks : units 23 (magnitude (literal top 1)) * 1 = top * 2 ^ 149 := h.exact.ticks
    rw [Nat.mul_one] at hticks
    calc M.size (M.div largest (literal top 1)) * M.size (ofNat M (storedLevel M top largest own))
        ≤ units 23 (roundUnits 23 (units 23 (infinity - 1)) top) * (top * 2 ^ 149) :=
          Nat.mul_le_mul (Machine.size_le hstep) (hticks ▸ Machine.size_le hlevel)
      _ = units 23 (infinity - 1) * 2 ^ 149 := by rw [← Nat.mul_assoc, h.divides]
  exact lt_of_le_of_lt hproduct (by decide)

end Top

example : Top 15 := by decide

example : Top 63 := by decide

/-- The quantities between a scale `a` and its multiple `l`: the exact step `r`, the inverse `i` of the step,
the product `t` of the inverse and the scale, the level `k` and its word `o`, and the rounded step `d`. -/
structure Chain (r i a t k o d l : ℚ) : Prop where
  step_nonneg : 0 ≤ r
  own_nonneg : 0 ≤ a
  level_nonneg : 0 ≤ k
  word_nonneg : 0 ≤ o
  inverse : i * r ≤ slack ∧ 1 ≤ slack * (i * r)
  product : t ≤ slack * (i * a) ∧ i * a ≤ slack * t
  level : k ≤ 2005 / 1000 * t ∧ t ≤ 2 * slack * k
  word : o ≤ slack * k ∧ k ≤ slack * o
  rounded : d ≤ slack * r ∧ r ≤ slack * d
  multiple : l ≤ slack * (d * o) ∧ d * o ≤ slack * l

namespace Chain

variable {r i a t k o d l : ℚ}

theorem slack_nonneg : 0 ≤ slack := by norm_num [show slack = 1001 / 1000 from rfl]

theorem le (h : Chain r i a t k o d l) : l ≤ 202 / 100 * a := by
  have hslack := slack_nonneg
  have hr := h.step_nonneg
  have ha := h.own_nonneg
  calc l ≤ slack * (d * o) := h.multiple.1
    _ ≤ slack * ((slack * r) * (slack * k)) := by
      refine mul_le_mul_of_nonneg_left ?_ hslack
      exact mul_le_mul h.rounded.1 h.word.1 h.word_nonneg (mul_nonneg hslack hr)
    _ = slack ^ 3 * r * k := by ring
    _ ≤ slack ^ 3 * r * (2005 / 1000 * (slack * (i * a))) := by
      refine mul_le_mul_of_nonneg_left ?_ (mul_nonneg (pow_nonneg hslack 3) hr)
      exact h.level.1.trans (mul_le_mul_of_nonneg_left h.product.1 (by norm_num))
    _ = 2005 / 1000 * slack ^ 4 * a * (i * r) := by ring
    _ ≤ 2005 / 1000 * slack ^ 4 * a * slack :=
      mul_le_mul_of_nonneg_left h.inverse.1 (mul_nonneg (mul_nonneg (by norm_num) (pow_nonneg hslack 4)) ha)
    _ = 2005 / 1000 * slack ^ 5 * a := by ring
    _ ≤ 202 / 100 * a := mul_le_mul_of_nonneg_right (by norm_num [show slack = 1001 / 1000 from rfl]) ha

theorem own_le (h : Chain r i a t k o d l) : a ≤ 2 * slack ^ 6 * l := by
  have hslack := slack_nonneg
  have hr := h.step_nonneg
  calc a ≤ slack * (i * r) * a := le_mul_of_one_le_left h.own_nonneg h.inverse.2
    _ = slack * r * (i * a) := by ring
    _ ≤ slack * r * (slack * (2 * slack * k)) := by
      refine mul_le_mul_of_nonneg_left ?_ (mul_nonneg hslack hr)
      exact h.product.2.trans (mul_le_mul_of_nonneg_left h.level.2 hslack)
    _ = 2 * slack ^ 3 * (r * k) := by ring
    _ ≤ 2 * slack ^ 3 * (slack * d * (slack * o)) := by
      refine mul_le_mul_of_nonneg_left ?_ (mul_nonneg zero_le_two (pow_nonneg hslack 3))
      exact mul_le_mul h.rounded.2 h.word.2 h.level_nonneg (hr.trans h.rounded.2)
    _ = 2 * slack ^ 5 * (d * o) := by ring
    _ ≤ 2 * slack ^ 5 * (slack * l) :=
      mul_le_mul_of_nonneg_left h.multiple.2 (mul_nonneg zero_le_two (pow_nonneg hslack 5))
    _ = 2 * slack ^ 6 * l := by ring

end Chain

namespace Stored

theorem mag_own_le (h : Stored M top largest own) : mag M own ≤ mag M largest := by
  rw [mag_of_real_nonneg h.own_nonneg, mag_of_real_nonneg (h.own_nonneg.trans h.own_le)]
  exact h.own_le

theorem top_pos (h : Stored M top largest own) : (15 : ℚ) ≤ top := by exact_mod_cast h.level.bounds.1

/-- The factor is close to the exact one, unless nothing is positive. -/
theorem inverse_approx (h : Stored M top largest own) (hflush : M.flush = true) (hpos : 0 < mag M largest) :
    Approx M (inverseTop M top largest) (top / mag M largest) := by
  have hreal : 0 < real M largest := by rwa [← mag_of_real_nonneg (h.own_nonneg.trans h.own_le)]
  have hinv := h.inverse
  rw [inverseTop, if_pos ((lt_zero_iff h.finite).mpr hreal)] at hinv ⊢
  rw [← h.level.mag_literal M]
  exact div_approx_of_finite hflush h.level.exact.finite h.finite hpos.ne' hinv

/-- No scale is taken far beyond the largest level. -/
theorem product_le (h : Stored M top largest own) (hflush : M.flush = true) :
    mag M (inverseTop M top largest) * mag M own ≤ slack * top := by
  have htop := h.top_pos
  have hslack := Chain.slack_nonneg
  rcases (mag_nonneg M largest).eq_or_lt with hzero | hpos
  · have hown : mag M own = 0 := le_antisymm (hzero ▸ h.mag_own_le) (mag_nonneg M own)
    rw [hown, mul_zero]
    positivity
  · have hupper := (h.inverse_approx hflush hpos).upper
    calc mag M (inverseTop M top largest) * mag M own
        ≤ slack * (top / mag M largest) * mag M largest :=
          mul_le_mul hupper h.mag_own_le (mag_nonneg M own) (by positivity)
      _ = slack * top := by rw [mul_assoc, div_mul_cancel₀ _ hpos.ne']

theorem product_approx (h : Stored M top largest own) (hflush : M.flush = true) :
    Approx M (M.mul (inverseTop M top largest) own) (mag M (inverseTop M top largest) * mag M own) ∧
      mag M (M.mul (inverseTop M top largest) own) ≤ slack ^ 2 * top := by
  have hle := h.product_le hflush
  have hslack : slack = 1001 / 1000 := rfl
  have htop : (top : ℚ) ≤ 63 := by exact_mod_cast h.level.bounds.2
  have happrox := mul_approx hflush h.inverse h.own_finite (hle.trans (by rw [hslack]; linarith))
  refine ⟨happrox, happrox.upper.trans ?_⟩
  rw [pow_two, mul_assoc]
  exact mul_le_mul_of_nonneg_left hle Chain.slack_nonneg

/-- The conversion for the level is defined. -/
theorem convertible (h : Stored M top largest own) (hflush : M.flush = true) :
    IntegerConversions.Convertible M
      (IntegerConversions.nearestArgument M (M.mul (inverseTop M top largest) own)) := by
  obtain ⟨happrox, hle⟩ := h.product_approx hflush
  have hslack : slack = 1001 / 1000 := rfl
  have htop : (top : ℚ) ≤ 63 := by exact_mod_cast h.level.bounds.2
  refine convertible_nearestArgument hflush happrox.finite (hle.trans ?_)
  rw [hslack]
  linarith

/-- How a level that is not zero relates to the product it is the nearest integer of. -/
theorem level_bounds (h : Stored M top largest own) (hflush : M.flush = true)
    (hk : 1 ≤ storedLevel M top largest own) :
    (storedLevel M top largest own : ℚ) ≤ 2005 / 1000 * mag M (M.mul (inverseTop M top largest) own) ∧
      mag M (M.mul (inverseTop M top largest) own) ≤ 2 * slack * storedLevel M top largest own := by
  obtain ⟨happrox, hle⟩ := h.product_approx hflush
  have hslack : slack = 1001 / 1000 := rfl
  have htop : (top : ℚ) ≤ 63 := by exact_mod_cast h.level.bounds.2
  obtain ⟨hupper, hlower⟩ := nearestInt_spec hflush happrox.finite (hle.trans (by rw [hslack]; linarith))
  have hmin := storedLevel_of_pos hk
  have hk' : (1 : ℚ) ≤ storedLevel M top largest own := by exact_mod_cast hk
  generalize storedLevel M top largest own = k at hmin hk'
  generalize (nearestInt M (M.mul (inverseTop M top largest) own)).natAbs = n at hmin hupper hlower
  rw [hslack] at hupper hlower hle ⊢
  rcases Nat.le_total n top with hn | hn
  · obtain rfl : k = n := hmin.trans (min_eq_left hn)
    constructor <;> linarith
  · obtain rfl : k = top := hmin.trans (min_eq_right hn)
    have hn' : (k : ℚ) ≤ n := by exact_mod_cast hn
    constructor <;> linarith

theorem word_approx (hflush : M.flush = true) (h : Top top) (largest own : BitVec 32) :
    Approx M (ofNat M (storedLevel M top largest own)) (storedLevel M top largest own) := by
  have hle : storedLevel M top largest own ≤ 2 ^ 9 := storedLevel_le.trans (h.bounds.2.trans (by decide))
  have happrox := ofInt_approx (z := (storedLevel M top largest own : ℤ)) hflush (by rwa [Int.natAbs_natCast])
  rwa [Int.natAbs_natCast] at happrox

theorem step_approx (hflush : M.flush = true) (h : Top top) (hfin : IsFinite largest) :
    Approx M (M.div largest (literal top 1)) (mag M largest / top) := by
  have htop : (15 : ℚ) ≤ top := by exact_mod_cast h.bounds.1
  rw [← h.mag_literal M] at htop ⊢
  exact div_constant hflush h.exact.finite (by linarith) hfin

theorem multiple_approx (hflush : M.flush = true) (h : Top top) (hfin : IsFinite largest) (own : BitVec 32) :
    Approx M (storedMultiple M top largest own)
      (mag M (M.div largest (literal top 1)) * mag M (ofNat M (storedLevel M top largest own))) :=
  mul_approx_of_finite hflush (step_approx hflush h hfin).finite (word_approx hflush h largest own).finite
    (h.finite_storedMultiple hfin)

/-- A word that is not zero has an exact value that is not zero. -/
theorem exact_ne_zero {r : BitVec 32} {x : ℚ} (h : Approx M r x) (hne : mag M r ≠ 0) : x ≠ 0 := by
  rintro rfl
  have hupper := h.upper
  rw [mul_zero] at hupper
  exact hne (le_antisymm hupper (mag_nonneg M r))

/-- How a multiple that is not zero comes about. -/
theorem chain (h : Stored M top largest own) (hflush : M.flush = true)
    (hne : mag M (storedMultiple M top largest own) ≠ 0) :
    Chain (mag M largest / top) (mag M (inverseTop M top largest)) (mag M own)
      (mag M (M.mul (inverseTop M top largest) own)) (storedLevel M top largest own)
      (mag M (ofNat M (storedLevel M top largest own))) (mag M (M.div largest (literal top 1)))
      (mag M (storedMultiple M top largest own)) := by
  have htop : (0 : ℚ) < top := by linarith [h.top_pos]
  have hmultiple := multiple_approx hflush h.level h.finite own
  have hstep := step_approx hflush h.level h.finite
  have hword := word_approx hflush h.level largest own
  have hstepNe := left_ne_zero_of_mul (exact_ne_zero hmultiple hne)
  have hwordNe := right_ne_zero_of_mul (exact_ne_zero hmultiple hne)
  have hlevelNe := exact_ne_zero hword hwordNe
  have hlevel : 1 ≤ storedLevel M top largest own := Nat.one_le_iff_ne_zero.mpr (Nat.cast_ne_zero.mp hlevelNe)
  have hbounds := h.level_bounds hflush hlevel
  have hlargest : 0 < mag M largest := by
    refine lt_of_le_of_ne (mag_nonneg M largest) (fun hz => exact_ne_zero hstep hstepNe ?_)
    rw [← hz, zero_div]
  have hinverse := h.inverse_approx hflush hlargest
  obtain ⟨hproduct, -⟩ := h.product_approx hflush
  have hproductNe : mag M (M.mul (inverseTop M top largest) own) ≠ 0 := by
    intro hz
    rw [hz, mul_zero] at hbounds
    exact hlevelNe (le_antisymm hbounds.1 (Nat.cast_nonneg _))
  have hinverseNe := left_ne_zero_of_mul (exact_ne_zero hproduct hproductNe)
  have hinverseUpper := hinverse.upper
  have hinverseLower := hinverse.lower hinverseNe
  refine ⟨(div_pos hlargest htop).le, mag_nonneg M own, Nat.cast_nonneg _, mag_nonneg M _, ⟨?_, ?_⟩,
    ⟨hproduct.upper, hproduct.lower hproductNe⟩, hbounds, ⟨hword.upper, hword.lower hwordNe⟩,
    ⟨hstep.upper, hstep.lower hstepNe⟩, ⟨hmultiple.upper, hmultiple.lower hne⟩⟩
  · rw [mul_div_assoc', le_div_iff₀ hlargest] at hinverseUpper
    rwa [mul_div_assoc', div_le_iff₀ htop]
  · rw [div_le_iff₀ hlargest] at hinverseLower
    rwa [mul_div_assoc', mul_div_assoc', le_div_iff₀ htop, one_mul, ← mul_assoc]

/-- A multiple is at most about twice what it stands for. -/
theorem multiple_le (h : Stored M top largest own) (hflush : M.flush = true) :
    mag M (storedMultiple M top largest own) ≤ 202 / 100 * mag M own := by
  rcases eq_or_ne (mag M (storedMultiple M top largest own)) 0 with hz | hne
  · rw [hz]
    exact mul_nonneg (by norm_num) (mag_nonneg M own)
  · exact (h.chain hflush hne).le

/-- A multiple that is not zero is at least about half of what it stands for. -/
theorem own_le_multiple (h : Stored M top largest own) (hflush : M.flush = true)
    (hne : mag M (storedMultiple M top largest own) ≠ 0) :
    mag M own ≤ 2 * slack ^ 6 * mag M (storedMultiple M top largest own) := (h.chain hflush hne).own_le

/-- What is not small against the largest is not stored as zero. -/
theorem multiple_ne_zero (h : Stored M top largest own) (hflush : M.flush = true)
    (hlarge : 1 / 2 ^ 100 ≤ mag M largest) (hthird : mag M largest ≤ 3 * mag M own) :
    mag M (storedMultiple M top largest own) ≠ 0 := by
  have htop := h.top_pos
  have htop' : (top : ℚ) ≤ 63 := by exact_mod_cast h.level.bounds.2
  have hslack : slack = 1001 / 1000 := rfl
  have hpos : 0 < mag M largest := lt_of_lt_of_le (by positivity) hlarge
  have hlt := mag_lt (M := M) h.finite
  have hreal : 0 < real M largest := by rwa [← mag_of_real_nonneg (h.own_nonneg.trans h.own_le)]
  have hinverse := h.inverse_approx hflush hpos
  obtain ⟨hproduct, hproductLe⟩ := h.product_approx hflush
  -- the product is at least a third of the largest level
  have hinverseNe : mag M (inverseTop M top largest) ≠ 0 := by
    refine (Approx.two_ge hinverse ?_).1
    rw [div_le_div_iff₀ (by positivity) hpos]
    linarith
  have hexact : 4 ≤ mag M (inverseTop M top largest) * mag M own := by
    have hlower := hinverse.lower hinverseNe
    rw [div_le_iff₀ hpos] at hlower
    have hle : slack * mag M (inverseTop M top largest) * mag M largest ≤
        slack * mag M (inverseTop M top largest) * (3 * mag M own) :=
      mul_le_mul_of_nonneg_left hthird (mul_nonneg Chain.slack_nonneg (mag_nonneg M _))
    rw [hslack] at hlower hle
    linarith
  have hproductLower := hproduct.lower (Approx.two_ge hproduct (le_trans (by norm_num) hexact)).1
  have hsmall : mag M (M.mul (inverseTop M top largest) own) ≤ 3 * 2 ^ 29 := by
    rw [hslack] at hproductLe
    linarith
  have hnearest := (nearestInt_spec hflush hproduct.finite hsmall).2
  have hsign : 0 ≤ nearestInt M (M.mul (inverseTop M top largest) own) := by
    refine nearestInt_nonneg hflush hproduct.finite hsmall
      (real_mul_nonneg hflush h.inverse h.own_finite ?_ h.own_nonneg)
    rw [inverseTop, if_pos ((lt_zero_iff h.finite).mpr hreal)]
    exact real_div_nonneg hflush h.level.exact.finite h.finite (real_nonneg_of_msb h.level.sign) hreal
  have hlevel : 1 ≤ storedLevel M top largest own := by
    have hlarge : 1 ≤ (nearestInt M (M.mul (inverseTop M top largest) own)).natAbs := by
      by_contra hz
      rw [Nat.lt_one_iff.mp (Nat.not_le.mp hz), Nat.cast_zero, hslack] at hnearest
      rw [hslack] at hproductLower
      linarith
    have hbounds := h.level.bounds
    unfold storedLevel clampInt
    split_ifs <;> omega
  -- neither factor of the multiple is flushed
  have hlevel' : (1 : ℚ) ≤ storedLevel M top largest own := by exact_mod_cast hlevel
  obtain ⟨-, hword⟩ := Approx.two_ge (word_approx hflush h.level largest own)
    (le_trans (by norm_num) hlevel')
  have hstepLarge : 1 / 2 ^ 110 ≤ mag M largest / top := by
    rw [div_le_div_iff₀ (by positivity) (by linarith)]
    rw [div_le_iff₀ (by positivity)] at hlarge
    linarith
  obtain ⟨-, hstep⟩ := Approx.two_ge (step_approx hflush h.level h.finite) (le_trans (by norm_num) hstepLarge)
  refine (Approx.two_ge (multiple_approx hflush h.level h.finite own) ?_).1
  calc (1 : ℚ) / 2 ^ 126 ≤ 1 / 2 ^ 111 * (1 / 2) := by norm_num
    _ ≤ mag M (M.div largest (literal top 1)) * mag M (ofNat M (storedLevel M top largest own)) :=
      mul_le_mul (by linarith) (by linarith) (by norm_num) (mag_nonneg M _)

end Stored

end Qtx.StoredMultiples
