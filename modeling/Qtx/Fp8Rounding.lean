import Qtx.BinadeRounding
import Qtx.Fp8Codecs
import Qtx.FpeGuardRounding

/-!
# Rounding to E4M3 and E5M2

A byte encoder is correct on every word once its constants fit together: the thresholds
are the places where the nearest word changes, and the fields add up to the width of the
binary32 fraction. The saturation threshold of E5M2 lies above the value its comment names,
and the branch for rounded results that leave the finite range covers the difference.
-/
namespace Qtx.FpeGuard

open Qtx.BinaryFormats Qtx.FloatWords

/-- The constants of an encoder to a format whose least positive value is `2 ^ lift` ticks. -/
structure Fp8Layout.Lawful (f : Fp8Layout) (lift : ℕ) : Prop where
  fraction_pos : 0 < f.fraction
  dropped_pos : 0 < f.dropped
  fields : f.fraction + f.dropped = 23
  lift_eq : lift + f.fraction = f.minNormalExp.toNat + 22
  lift_ge : 24 ≤ lift
  rebias_eq : f.rebias.toNat + 1 = f.minNormalExp.toNat
  firstNormal_eq : f.firstNormal.toNat = f.minNormalExp.toNat * 2 ^ 23
  zeroBelow_eq : f.kRoundToZeroBelow.toNat = (lift - 23) * 2 ^ 23
  firstNormal_le : f.firstNormal.toNat ≤ f.kSaturateAtOrAbove.toNat
  saturate_le : f.kSaturateAtOrAbove.toNat ≤ infinity
  saturate_bound : f.kSaturateAtOrAbove.toNat ≤
    (f.largest.toNat + 1 + f.rebias.toNat * 2 ^ f.fraction) * 2 ^ f.dropped
  /-- From the threshold on the nearest word is the largest finite one or lies beyond. -/
  saturates : f.largest.toNat ≤ roundUnits f.fraction (units 23 f.kSaturateAtOrAbove.toNat) (2 ^ lift)
  largest_lt : f.largest.toNat < 2 ^ 7
  fraction_le_largest : 2 ^ f.fraction ≤ f.largest.toNat
  nan_lt : f.nan.toNat < 2 ^ 7
  infinite_lt : f.infinite.toNat < 2 ^ 7
  mask_eq : f.subnormalMask.toNat + 1 = 2 ^ (f.fraction + 1)
  spills_iff : ∀ n ≤ f.largest.toNat + 1, f.spills (BitVec.ofNat 32 n) = true ↔ n = f.largest.toNat + 1

namespace Fp8Layout.Lawful

theorem and_lowMask {x mask : BitVec 32} {k : ℕ} (hmask : mask.toNat + 1 = 2 ^ k) (hx : x.toNat < 2 ^ k) :
    (x &&& mask).toNat = x.toNat := by
  have hand : x.toNat &&& (2 ^ k - 1) = x.toNat % 2 ^ k := Nat.and_two_pow_sub_one_eq_mod x.toNat k
  rw [BitVec.toNat_and, Nat.eq_sub_of_add_eq hmask, hand, Nat.mod_eq_of_lt hx]

variable {f : Fp8Layout} {lift : ℕ} (hf : f.Lawful lift) {abs : BitVec 32}

include hf

theorem zeroBelow_le : f.kRoundToZeroBelow.toNat ≤ f.firstNormal.toNat := by
  have hlift := hf.lift_eq
  have hlift' := hf.lift_ge
  have hpos := hf.fraction_pos
  rw [hf.zeroBelow_eq, hf.firstNormal_eq]
  exact Nat.mul_le_mul_right _ (by omega)

theorem not_saturated (h : abs.toNat < f.kSaturateAtOrAbove.toNat) :
    ¬ 0x7F800000#32 ≤ abs ∧ ¬ f.kSaturateAtOrAbove ≤ abs := by
  rw [BitVec.le_def, BitVec.le_def]
  exact ⟨Nat.not_le.mpr (lt_of_lt_of_le h hf.saturate_le), Nat.not_le.mpr h⟩

theorem magnitude_zero (h : abs.toNat < f.kRoundToZeroBelow.toNat) : fp8Magnitude f abs = 0#32 := by
  have hsat := lt_of_lt_of_le h (hf.zeroBelow_le.trans hf.firstNormal_le)
  obtain ⟨h1, h2⟩ := hf.not_saturated hsat
  have h3 : abs < f.kRoundToZeroBelow := h
  simp only [fp8Magnitude, h1, h2, h3, if_false, if_true]

/-- Below the least normal value the significand is rounded at a fixed place. -/
theorem magnitude_subnormal (hlo : f.kRoundToZeroBelow.toNat ≤ abs.toNat) (hhi : abs.toNat < f.firstNormal.toNat) :
    IsNearestEven f.fraction ((units 23 abs.toNat : ℚ) / 2 ^ lift) (fp8Magnitude f abs).toNat ∧
      (fp8Magnitude f abs).toNat ≤ f.largest.toNat := by
  obtain ⟨E, hE⟩ : ∃ E, abs.toNat / 2 ^ 23 = E := ⟨_, rfl⟩
  have hr : abs.toNat % 2 ^ 23 < 2 ^ 23 := Nat.mod_lt _ (by decide)
  have hfields := hf.fields
  have hlift := hf.lift_eq
  have hlift' := hf.lift_ge
  have hsat := lt_of_lt_of_le hhi hf.firstNormal_le
  have hexp := toNat_exponent abs
  have hElo : lift - 23 ≤ E := by
    rw [← hE, Nat.le_div_iff_mul_le (by decide), ← hf.zeroBelow_eq]
    exact hlo
  have hEhi : E < f.minNormalExp.toNat := by
    rw [← hE, Nat.div_lt_iff_lt_mul (by decide), ← hf.firstNormal_eq]
    exact hhi
  obtain ⟨s, hs⟩ : ∃ s, f.dropped + (f.minNormalExp.toNat - E) = s := ⟨_, rfl⟩
  rw [hE] at hexp
  have hshift : (BitVec.ofNat 32 f.dropped + (f.minNormalExp - abs >>> 23)).toNat = s := by
    rw [BitVec.toNat_add, BitVec.toNat_sub_of_le (by rw [BitVec.le_def, hexp]; exact hEhi.le), hexp,
      BitVec.toNat_ofNat, Nat.mod_add_mod, hs]
    exact Nat.mod_eq_of_lt (by omega)
  obtain ⟨h1, h2⟩ := hf.not_saturated hsat
  have h3 : ¬ abs < f.kRoundToZeroBelow := by
    rw [BitVec.lt_def]
    omega
  have h4 : abs < f.firstNormal := hhi
  have hbranch : fp8Magnitude f abs =
      (let M := (abs &&& 0x007FFFFF#32) ||| 0x00800000#32
       (if roundsUp M s then M >>> s + 1#32 else M >>> s) &&& f.subnormalMask) := by
    simp only [fp8Magnitude, h1, h2, h3, h4, if_false, if_true, hshift]
  -- the quotient leaves no more bits than the fraction has
  have hquot : (2 ^ 23 + abs.toNat % 2 ^ 23) / 2 ^ s < 2 ^ f.fraction := by
    have hpow : 2 ^ f.fraction * 2 ^ s = 2 ^ 23 * 2 ^ (f.minNormalExp.toNat - E) := by
      rw [← pow_add, ← pow_add, ← hs, ← Nat.add_assoc, hfields]
    have htwo : 2 ^ 1 ≤ 2 ^ (f.minNormalExp.toNat - E) := Nat.pow_le_pow_right (by decide) (by omega)
    rw [Nat.div_lt_iff_lt_mul (Nat.two_pow_pos s), hpow]
    have hmul := Nat.mul_le_mul_left (2 ^ 23) htwo
    omega
  have hround : roundQuot (2 ^ 23 + abs.toNat % 2 ^ 23) (2 ^ s) ≤ 2 ^ f.fraction := by
    rw [roundQuot]
    split_ifs <;> omega
  have hmask : 2 ^ f.fraction < 2 ^ (f.fraction + 1) := Nat.pow_lt_pow_right (by decide) (Nat.lt_succ_self _)
  have hfraction : 2 ^ f.fraction < 2 ^ 31 := Nat.pow_lt_pow_right (by decide) (by omega)
  have hnat : (fp8Magnitude f abs).toNat = roundQuot (2 ^ 23 + abs.toNat % 2 ^ 23) (2 ^ s) := by
    have hdiv : ((((abs &&& 0x007FFFFF#32) ||| 0x00800000#32)) >>> s).toNat =
        (2 ^ 23 + abs.toNat % 2 ^ 23) / 2 ^ s := by
      rw [BitVec.toNat_ushiftRight, Nat.shiftRight_eq_div_pow, toNat_significand]
    have hsum : (let M := (abs &&& 0x007FFFFF#32) ||| 0x00800000#32
        if roundsUp M s then M >>> s + 1#32 else M >>> s).toNat =
          roundQuot (2 ^ 23 + abs.toNat % 2 ^ 23) (2 ^ s) := by
      dsimp only
      rw [toNat_ite_roundsUp (by rw [hdiv]; omega), toNat_shift_roundsUp _ (by omega) (by omega), toNat_significand]
    rw [hbranch]
    dsimp only at hsum ⊢
    rw [and_lowMask hf.mask_eq (by rw [hsum]; omega), hsum]
  rw [hnat]
  refine ⟨nearest_subnormal hf.fraction_pos ?_ (by omega) (by omega), hround.trans hf.fraction_le_largest⟩
  have hone : 2 ^ 23 * 1 ≤ 2 ^ 23 * E := Nat.mul_le_mul_left _ (by omega)
  omega

/-- A carry past the largest finite word is taken back. -/
theorem cutOff {x : BitVec 32} (hx : x.toNat ≤ f.largest.toNat + 1) :
    (if f.spills x then f.largest else x).toNat = min x.toNat f.largest.toNat := by
  have hiff := hf.spills_iff x.toNat hx
  rw [BitVec.ofNat_toNat, BitVec.setWidth_eq] at hiff
  by_cases h : f.spills x = true
  · rw [if_pos h, hiff.mp h]
    omega
  · rw [if_neg h]
    have hne : x.toNat ≠ f.largest.toNat + 1 := fun hc => h (hiff.mpr hc)
    omega

theorem magnitude_normal (hlo : f.firstNormal.toNat ≤ abs.toNat) (hhi : abs.toNat < f.kSaturateAtOrAbove.toNat) :
    ∃ n, IsNearestEven f.fraction ((units 23 abs.toNat : ℚ) / 2 ^ lift) n ∧
      (fp8Magnitude f abs).toNat = min n f.largest.toNat := by
  obtain ⟨E, hE⟩ : ∃ E, abs.toNat / 2 ^ 23 = E := ⟨_, rfl⟩
  obtain ⟨r, hrem⟩ : ∃ r, abs.toNat % 2 ^ 23 = r := ⟨_, rfl⟩
  have hr : r < 2 ^ 23 := hrem ▸ Nat.mod_lt _ (by decide)
  have hfields := hf.fields
  have hrebias := hf.rebias_eq
  have hinf := hf.saturate_le
  have hexp := toNat_exponent abs
  rw [hE] at hexp
  have hpow : 2 ^ 23 = 2 ^ f.fraction * 2 ^ f.dropped := by rw [← pow_add, hfields]
  have hElo : f.minNormalExp.toNat ≤ E := by
    rw [← hE, Nat.le_div_iff_mul_le (by decide), ← hf.firstNormal_eq]
    exact hlo
  have hEhi : E < 256 := by
    unfold infinity at hinf
    omega
  have hnear := nearest_normal (N := abs.toNat) hf.fraction_pos hfields hf.lift_eq (by omega) (hE ▸ hElo)
  refine ⟨_, hnear, ?_⟩
  obtain ⟨h1, h2⟩ := hf.not_saturated hhi
  have h3 : ¬ abs < f.kRoundToZeroBelow := by
    rw [BitVec.lt_def]
    exact Nat.not_lt.mpr (hf.zeroBelow_le.trans hlo)
  have h4 : ¬ abs < f.firstNormal := by
    rw [BitVec.lt_def]
    omega
  have hdiv : r / 2 ^ f.dropped < 2 ^ f.fraction := by
    rw [Nat.div_lt_iff_lt_mul (Nat.two_pow_pos _), ← hpow]
    exact hr
  have he8 : (abs >>> 23 - f.rebias).toNat = E - f.rebias.toNat := by
    rw [BitVec.toNat_sub_of_le (by rw [BitVec.le_def, hexp]; omega), hexp]
  have hm8 : ((abs &&& 0x007FFFFF#32) >>> f.dropped).toNat = r / 2 ^ f.dropped := by
    rw [BitVec.toNat_ushiftRight, Nat.shiftRight_eq_div_pow, toNat_fraction, hrem]
  have hresult : ((abs >>> 23 - f.rebias) <<< f.fraction ||| (abs &&& 0x007FFFFF#32) >>> f.dropped).toNat =
      (E - f.rebias.toNat) * 2 ^ f.fraction + r / 2 ^ f.dropped := by
    have hwide : (E - f.rebias.toNat) * 2 ^ f.fraction < 2 ^ 32 := by
      have hle : 2 ^ f.fraction ≤ 2 ^ 23 := Nat.pow_le_pow_right (by decide) (by omega)
      have hmul := Nat.mul_le_mul (by omega : E - f.rebias.toNat ≤ 256) hle
      omega
    rw [toNat_fields (by rw [he8]; exact hwide) (by rw [hm8]; exact hdiv), he8, hm8]
  -- below the threshold the fields do not exceed the largest finite word
  have hbound : (E - f.rebias.toNat) * 2 ^ f.fraction + r / 2 ^ f.dropped ≤ f.largest.toNat := by
    have hquot : abs.toNat / 2 ^ f.dropped < f.largest.toNat + 1 + f.rebias.toNat * 2 ^ f.fraction := by
      rw [Nat.div_lt_iff_lt_mul (Nat.two_pow_pos _)]
      exact lt_of_lt_of_le hhi hf.saturate_bound
    have hsplit : abs.toNat / 2 ^ f.dropped = E * 2 ^ f.fraction + r / 2 ^ f.dropped := by
      have hsum : abs.toNat = r + 2 ^ f.dropped * (E * 2 ^ f.fraction) := by
        have hdm := Nat.div_add_mod abs.toNat (2 ^ 23)
        rw [hE, hrem, hpow] at hdm
        rw [← hdm]
        ring
      conv_lhs => rw [hsum]
      rw [Nat.add_mul_div_left _ _ (Nat.two_pow_pos _), Nat.add_comm]
    have hsub : (E - f.rebias.toNat) * 2 ^ f.fraction + f.rebias.toNat * 2 ^ f.fraction = E * 2 ^ f.fraction := by
      rw [← Nat.add_mul, Nat.sub_add_cancel (by omega)]
    omega
  have hquot := toNat_shift_roundsUp (abs &&& 0x007FFFFF#32) hf.dropped_pos (by omega)
  rw [hm8, toNat_fraction, hrem] at hquot
  have hlarge := hf.largest_lt
  have hmask : (0x7F#32).toNat + 1 = 2 ^ 7 := by decide
  have hsub : E - f.minNormalExp.toNat + 1 = E - f.rebias.toNat := by omega
  rw [hE, hrem, hsub, ← hquot, ← Nat.add_assoc, ← hresult]
  rw [← hresult] at hbound
  simp only [fp8Magnitude, h1, h2, h3, h4, if_false]
  generalize (abs >>> 23 - f.rebias) <<< f.fraction ||| (abs &&& 0x007FFFFF#32) >>> f.dropped = result at *
  cases roundsUp (abs &&& 0x007FFFFF#32) f.dropped
  · rw [if_neg Bool.false_ne_true, and_lowMask hmask (by omega), Bool.toNat_false, Nat.min_eq_left (by omega)]
    rfl
  · have hnext : (result + 1#32).toNat = result.toNat + 1 :=
      BitVec.toNat_add_of_lt (show result.toNat + 1 < 2 ^ 32 by omega)
    have hcut := hf.cutOff (x := result + 1#32) (by omega)
    rw [if_pos rfl, and_lowMask hmask (by rw [hcut]; omega), hcut, hnext, Bool.toNat_true]

theorem magnitude_large (hlo : f.kSaturateAtOrAbove.toNat ≤ abs.toNat) (hhi : abs.toNat < infinity) :
    ∃ n, IsNearestEven f.fraction ((units 23 abs.toNat : ℚ) / 2 ^ lift) n ∧
      (fp8Magnitude f abs).toNat = min n f.largest.toNat := by
  have hnear := isNearestEven_roundUnits hf.fraction_pos (units 23 abs.toNat) (Nat.two_pow_pos lift)
  have hstart :=
    isNearestEven_roundUnits hf.fraction_pos (units 23 f.kSaturateAtOrAbove.toNat) (Nat.two_pow_pos lift)
  have hmono :=
    hstart.mono hnear (div_le_div_of_nonneg_right (Nat.cast_le.mpr (units_le_units.mpr hlo)) (by positivity))
  rw [Nat.cast_pow, Nat.cast_two] at hnear
  have h1 : ¬ 0x7F800000#32 ≤ abs := by
    rw [BitVec.le_def]
    exact Nat.not_le.mpr hhi
  have h2 : f.kSaturateAtOrAbove ≤ abs := hlo
  refine ⟨_, hnear, ?_⟩
  simp only [fp8Magnitude, h1, h2, if_false, if_true]
  rw [Nat.min_eq_right (hf.saturates.trans hmono)]

/-- Every finite magnitude goes to its nearest word, or to the largest finite one. -/
theorem magnitude_finite (hhi : abs.toNat < infinity) :
    ∃ n, IsNearestEven f.fraction ((units 23 abs.toNat : ℚ) / 2 ^ lift) n ∧
      (fp8Magnitude f abs).toNat = min n f.largest.toNat := by
  rcases Nat.lt_or_ge abs.toNat f.kRoundToZeroBelow.toNat with hzero | hzero
  · refine ⟨0, nearest_zero (le_trans (by decide) hf.lift_ge) (hf.zeroBelow_eq ▸ hzero), ?_⟩
    rw [hf.magnitude_zero hzero, Nat.zero_min]
    rfl
  · rcases Nat.lt_or_ge abs.toNat f.firstNormal.toNat with hsub | hsub
    · obtain ⟨hnear, hle⟩ := hf.magnitude_subnormal hzero hsub
      exact ⟨_, hnear, (Nat.min_eq_left hle).symm⟩
    · rcases Nat.lt_or_ge abs.toNat f.kSaturateAtOrAbove.toNat with hnormal | hlarge
      · exact hf.magnitude_normal hsub hnormal
      · exact hf.magnitude_large hlarge hhi

omit hf in
theorem magnitude_infinite (h : abs.toNat = infinity) : fp8Magnitude f abs = f.infinite := by
  obtain rfl : abs = 0x7F800000#32 := BitVec.eq_of_toNat_eq h
  rfl

omit hf in
theorem magnitude_nan (h : infinity < abs.toNat) : fp8Magnitude f abs = f.nan := by
  have h1 : 0x7F800000#32 ≤ abs := by rw [BitVec.le_def]; exact h.le
  have h2 : 0x7F800000#32 < abs := by rw [BitVec.lt_def]; exact h
  simp only [fp8Magnitude, h1, h2, if_true]

theorem magnitude_lt (abs : BitVec 32) : (fp8Magnitude f abs).toNat < 2 ^ 7 := by
  rcases Nat.lt_trichotomy abs.toNat infinity with hlt | heq | hgt
  · obtain ⟨n, -, hn⟩ := hf.magnitude_finite hlt
    rw [hn]
    exact lt_of_le_of_lt (min_le_right _ _) hf.largest_lt
  · rw [magnitude_infinite heq]
    exact hf.infinite_lt
  · rw [magnitude_nan hgt]
    exact hf.nan_lt

/-- An encoder whose constants fit together rounds every word correctly. -/
theorem roundsTo {target : Format} (hfraction : target.fraction = f.fraction) (hlift : target.lift = lift)
    (hlargest : target.largest = f.largest.toNat) (hinfinite : target.infinite = f.infinite.toNat)
    (hquiet : target.quiet = f.nan.toNat) (v : BitVec 32) : RoundsTo target v (fp32ToFP8 f v) := by
  have hword := signed_byte v (hf.magnitude_lt (v &&& 0x7FFFFFFF#32))
  have habs := magnitude_eq v
  constructor
  · exact hword.1
  · intro hnan
    rw [fp32ToFP8, hword.2, magnitude_nan (habs.symm ▸ hnan), hquiet]
  · intro hinf
    rw [fp32ToFP8, hword.2, magnitude_infinite (habs.trans hinf), hinfinite]
  · intro hfin
    rw [← habs] at hfin
    obtain ⟨n, hnear, hn⟩ := hf.magnitude_finite hfin
    refine ⟨n, ?_, ?_⟩
    · rw [ticks, ← habs, hfraction, hlift]
      exact hnear
    · rw [hlargest]
      exact hword.2.trans hn

end Fp8Layout.Lawful

theorem e4m3Layout_lawful : e4m3Layout.Lawful 140 where
  fraction_pos := by decide
  dropped_pos := by decide
  fields := rfl
  lift_eq := rfl
  lift_ge := by decide
  rebias_eq := rfl
  firstNormal_eq := rfl
  zeroBelow_eq := rfl
  firstNormal_le := by decide
  saturate_le := by decide
  saturate_bound := by decide
  saturates := by decide
  largest_lt := by decide
  fraction_le_largest := by decide
  nan_lt := by decide
  infinite_lt := by decide
  mask_eq := rfl
  spills_iff := by decide

theorem e5m2Layout_lawful : e5m2Layout.Lawful 133 where
  fraction_pos := by decide
  dropped_pos := by decide
  fields := rfl
  lift_eq := rfl
  lift_ge := by decide
  rebias_eq := rfl
  firstNormal_eq := rfl
  zeroBelow_eq := rfl
  firstNormal_le := by decide
  saturate_le := by decide
  saturate_bound := by decide
  saturates := by decide
  largest_lt := by decide
  fraction_le_largest := by decide
  nan_lt := by decide
  infinite_lt := by decide
  mask_eq := rfl
  spills_iff := by decide

/-- E4M3 has no infinity: what is too large becomes the largest finite value. -/
def e4m3 : Format where
  fraction := 3
  lift := 140
  largest := 0x7E
  infinite := 0x7E
  quiet := 0x7F
  fraction_pos := by decide
  largest_le := le_rfl

def e5m2 : Format where
  fraction := 2
  lift := 133
  largest := 0x7B
  infinite := 0x7C
  quiet := 0x7E
  fraction_pos := by decide
  largest_le := by decide

theorem e4m3_roundsTo (v : BitVec 32) : RoundsTo e4m3 v (fp32ToFP8E4M3Safe v) :=
  e4m3Layout_lawful.roundsTo rfl rfl rfl rfl rfl v

theorem e5m2_roundsTo (v : BitVec 32) : RoundsTo e5m2 v (fp32ToFP8E5M2Safe v) :=
  e5m2Layout_lawful.roundsTo rfl rfl rfl rfl rfl v

end Qtx.FpeGuard
