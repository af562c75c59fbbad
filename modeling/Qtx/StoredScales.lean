import Qtx.ElementDecoding
import Qtx.FloatBounds

/-!
# Scales stored as binary16

A binary32 scale is finite if and only if the binary16 word that stores it decodes to a
finite value: finite scales are saturated, infinity and NaN are kept.
-/
namespace Qtx.StoredScales

open Qtx.FloatWords Qtx.FloatMachine Qtx.FpeGuard Qtx.Fp16Rounding

/-- A half word decodes to a finite value if and only if its exponent field is not full. -/
theorem finite_fp16ToFP32_iff (h : BitVec 16) : IsFinite (fp16ToFP32 h) ↔ magnitude h < 0x7C00 := by
  have hd := decodes_binary16 h
  rcases Nat.lt_trichotomy (magnitude h) 0x7C00 with hlt | heq | hgt
  · exact iff_of_true (hd.finite (Nat.le_pred_of_lt hlt)).1 hlt
  · have hinf := hd.infinite (heq ▸ (by decide : 0x7BFF < 0x7C00)) heq.le
    exact iff_of_false (Nat.not_lt.mpr hinf.ge) (Nat.not_lt.mpr heq.ge)
  · exact iff_of_false (Nat.not_lt.mpr (Nat.le_of_lt (hd.nan hgt))) (Nat.not_lt.mpr hgt.le)

theorem magnitude_fp32ToFP16Safe (d : BitVec 32) :
    magnitude (fp32ToFP16Safe d) = (fp16Magnitude (d &&& 0x7FFFFFFF#32)).toNat :=
  (signed_half d (fp16Magnitude_lt _)).2

/-- A stored scale is accepted if and only if the scale was finite. -/
theorem finite_stored_iff (d : BitVec 32) : isFiniteStrict (fp16ToFP32 (fp32ToFP16Safe d)) = true ↔ IsFinite d := by
  have habs := magnitude_eq d
  have hiff : isFiniteStrict (fp16ToFP32 (fp32ToFP16Safe d)) = true ↔ magnitude (fp32ToFP16Safe d) < 0x7C00 := by
    rw [isFiniteStrict_iff]
    exact finite_fp16ToFP32_iff _
  rw [hiff, magnitude_fp32ToFP16Safe]
  rcases Nat.lt_trichotomy (magnitude d) infinity with hlt | heq | hgt
  · refine iff_of_true ?_ hlt
    rw [← habs] at hlt
    by_cases hbelow : 0x32800000 ≤ (d &&& 0x7FFFFFFF#32).toNat ∧ (d &&& 0x7FFFFFFF#32).toNat < 0x33000000
    · rw [fp16Magnitude_below hbelow.1 hbelow.2]
      decide
    · obtain ⟨n, -, hn⟩ := fp16Magnitude_finite hlt hbelow
      rw [hn]
      exact lt_of_le_of_lt (min_le_right _ _) (by decide)
  · refine iff_of_false ?_ (Nat.not_lt.mpr heq.ge)
    rw [fp16Magnitude_infinite (habs.trans heq)]
    decide
  · refine iff_of_false ?_ (Nat.not_lt.mpr hgt.le)
    rw [fp16Magnitude_nan (habs.symm ▸ hgt)]
    decide

/-- The half word zero, which the encoders store for a block of zeros, is accepted. -/
theorem finite_stored_zero : isFiniteStrict (fp16ToFP32 0#16) = true := by decide

end Qtx.StoredScales
