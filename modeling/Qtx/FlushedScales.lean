import Qtx.EncoderScales

/-!
# Scales of very small ranges

On a machine that flushes subnormals the scale of a sub-block grows with the distance of
its extremes. Below a first distance it is zero, and from a second one on its inverse is
finite; between the two the scale is so small that its inverse is infinite.
-/
namespace Qtx.FlushedScales

open Qtx.BinaryFormats Qtx.FloatWords Qtx.FloatMachine Qtx.QuantizerHelpers

/-- The ticks of a rounded quotient. -/
def flushed (a b : ℕ) : ℕ :=
  if min (roundUnits 23 a b) infinity < 2 ^ 23 then 0 else units 23 (min (roundUnits 23 a b) infinity)

/-- The ticks of the scale of a sub-block whose extremes are `spread` ticks apart. -/
def scaleTicks (codes spread : ℕ) : ℕ := flushed (flushed spread 1 * 2 ^ 149) (codes * 2 ^ 149)

/-- The rank of the inverse of a scale, times the largest level. -/
def inverseRank (top scale : ℕ) : ℕ := roundUnits 23 (top * 2 ^ 149 * 2 ^ 149) scale

section Rounding

variable {a a' b b' : ℕ}

theorem roundUnits_mono (hb : 0 < b) (h : a ≤ a') : roundUnits 23 a b ≤ roundUnits 23 a' b := by
  refine (isNearestEven_roundUnits (by decide) a hb).mono (isNearestEven_roundUnits (by decide) a' hb) ?_
  exact div_le_div_of_nonneg_right (Nat.cast_le.mpr h) (Nat.cast_nonneg b)

theorem roundUnits_anti (hb : 0 < b) (h : b ≤ b') : roundUnits 23 a b' ≤ roundUnits 23 a b := by
  refine (isNearestEven_roundUnits (by decide) a (hb.trans_le h)).mono
    (isNearestEven_roundUnits (by decide) a hb) ?_
  exact div_le_div_of_nonneg_left (Nat.cast_nonneg a) (Nat.cast_pos.mpr hb) (Nat.cast_le.mpr h)

theorem flushed_mono (hb : 0 < b) (h : a ≤ a') : flushed a b ≤ flushed a' b := by
  have hle : min (roundUnits 23 a b) infinity ≤ min (roundUnits 23 a' b) infinity :=
    min_le_min_right infinity (roundUnits_mono hb h)
  unfold flushed
  by_cases hlow : min (roundUnits 23 a b) infinity < 2 ^ 23
  · rw [if_pos hlow]
    exact Nat.zero_le _
  · rw [if_neg hlow, if_neg (fun hlow' => hlow (hle.trans_lt hlow'))]
    exact units_le_units.mpr hle

theorem flushed_mul_right (a b : ℕ) {c : ℕ} (hc : 0 < c) : flushed (a * c) (b * c) = flushed a b := by
  simp only [flushed, roundUnits_mul_right 23 a b hc]

theorem flushed_normal (h : 2 ^ 23 ≤ roundUnits 23 a b) :
    flushed a b = units 23 (min (roundUnits 23 a b) infinity) := by
  rw [flushed, if_neg (Nat.not_lt.mpr (le_min h (by decide)))]

theorem scaleTicks_mono {codes : ℕ} (hcodes : 0 < codes) (h : a ≤ a') : scaleTicks codes a ≤ scaleTicks codes a' :=
  flushed_mono (by positivity) (Nat.mul_le_mul_right _ (flushed_mono Nat.one_pos h))

variable {M : Machine} {neg : Bool}

theorem size_round (hflush : M.flush = true) : M.size (M.round neg a b) = flushed a b := by
  have hmag : magnitude (M.round neg a b) = _ := Machine.magnitude_round
  rw [hflush, Bool.true_and] at hmag
  unfold flushed
  split_ifs with hlow
  · rw [decide_eq_true hlow, if_pos rfl] at hmag
    have hle : M.size (M.round neg a b) ≤ units 23 0 := Machine.size_le hmag.le
    rwa [units_zero, Nat.le_zero] at hle
  · rw [decide_eq_false hlow, if_neg Bool.false_ne_true] at hmag
    rw [Machine.size_of_normal (by rw [hmag]; exact Nat.not_lt.mp hlow), ticks, hmag]

end Rounding

section Thresholds

variable {codes top lo hi low spread scale : ℕ}

/-- The scale is zero below the distance `lo` and has a finite inverse from `hi` on. -/
structure Thresholds (codes top lo hi : ℕ) : Prop where
  codes_pos : 0 < codes
  below : scaleTicks codes (lo - 1) = 0
  above : scaleTicks codes lo ≠ 0
  infinite : infinity ≤ inverseRank top (scaleTicks codes (hi - 1))
  finite : inverseRank top (scaleTicks codes hi) < infinity
  le : lo < hi

instance (codes top lo hi : ℕ) : Decidable (Thresholds codes top lo hi) :=
  decidable_of_iff (_ ∧ _ ∧ _ ∧ _ ∧ _ ∧ _)
    ⟨fun h => ⟨h.1, h.2.1, h.2.2.1, h.2.2.2.1, h.2.2.2.2.1, h.2.2.2.2.2⟩, fun h => ⟨h.1, h.2, h.3, h.4, h.5, h.6⟩⟩

namespace Thresholds

theorem scale_eq_zero_iff (h : Thresholds codes top lo hi) : scaleTicks codes spread = 0 ↔ spread < lo := by
  constructor
  · intro hzero
    by_contra hge
    have hle := scaleTicks_mono h.codes_pos (Nat.not_lt.mp hge)
    rw [hzero, Nat.le_zero] at hle
    exact h.above hle
  · intro hlt
    have hle := scaleTicks_mono h.codes_pos (Nat.le_sub_one_of_lt hlt)
    rwa [h.below, Nat.le_zero] at hle

theorem inverse_finite_iff (h : Thresholds codes top lo hi) (hlo : lo ≤ spread) :
    inverseRank top (scaleTicks codes spread) < infinity ↔ hi ≤ spread := by
  have hpos : ∀ {t : ℕ}, lo ≤ t → 0 < scaleTicks codes t := fun ht =>
    Nat.pos_of_ne_zero (fun hz => absurd (h.scale_eq_zero_iff.mp hz) (Nat.not_lt.mpr ht))
  constructor
  · intro hfin
    by_contra hlt
    have hle := roundUnits_anti (a := top * 2 ^ 149 * 2 ^ 149) (hpos hlo)
      (scaleTicks_mono h.codes_pos (Nat.le_sub_one_of_lt (Nat.not_le.mp hlt)))
    exact absurd (h.infinite.trans hle) (Nat.not_le.mpr hfin)
  · intro hle
    exact (roundUnits_anti (hpos h.le.le) (scaleTicks_mono h.codes_pos hle)).trans_lt h.finite

end Thresholds

/-- The inverse of a word is finite from the distance `low` on. -/
structure OffsetThreshold (top low : ℕ) : Prop where
  pos : 0 < low - 1
  infinite : infinity ≤ inverseRank top (low - 1)
  finite : inverseRank top low < infinity

instance (top low : ℕ) : Decidable (OffsetThreshold top low) :=
  decidable_of_iff (_ ∧ _ ∧ _) ⟨fun h => ⟨h.1, h.2.1, h.2.2⟩, fun h => ⟨h.1, h.2, h.3⟩⟩

theorem OffsetThreshold.inverse_finite_iff (h : OffsetThreshold top low) (hpos : 0 < scale) :
    inverseRank top scale < infinity ↔ low ≤ scale := by
  constructor
  · intro hfin
    by_contra hlt
    have hle := roundUnits_anti (a := top * 2 ^ 149 * 2 ^ 149) hpos (Nat.le_sub_one_of_lt (Nat.not_le.mp hlt))
    exact absurd (h.infinite.trans hle) (Nat.not_le.mpr hfin)
  · intro hle
    exact (roundUnits_anti (h.pos.trans_le (Nat.sub_le low 1)) hle).trans_lt h.finite

example : Thresholds 3 15 25165823 94371845 := by decide

example : OffsetThreshold 15 31457281 := by decide

end Thresholds

end Qtx.FlushedScales
