import Mathlib.Algebra.Order.Group.MinMax
import Qtx.IntKernels
import Qtx.LroundHalfAway
import Qtx.PowerScaling
import Qtx.RoundingErrors

/-!
# The scale of an INT8 or INT4 block

The largest absolute value of a block is cut at the largest value that the levels can reach
and divided by the number of the levels, and each word is divided by the scale.
-/
namespace Qtx.IntBlockErrors

open Qtx.BinaryFormats Qtx.ByteStreams Qtx.ConversionBounds Qtx.FloatErrors Qtx.FloatMachine Qtx.FloatScans
  Qtx.FloatWords Qtx.FpeGuard Qtx.IntKernels Qtx.LroundHalfAway Qtx.QuantizerHelpers Qtx.RoundingErrors
  Qtx.ScaledBlocks Qtx.ScaledEncoders Qtx.ScanBounds

/-- The levels on either side of zero of a format, and the largest value that they can reach. -/
structure LevelCount (levels : ℕ) : Prop where
  exact : Exact levels 1
  sign : (literal levels 1).msb = false
  two_le : 2 ≤ levels
  le : levels ≤ 127
  max_normal : 2 ^ 23 ≤ magnitude (kMax levels)
  max_finite : IsFinite (kMax levels)
  max_sign : (kMax levels).msb = false
  max_large : 2 ^ 128 * 2 ^ 149 ≤ 2 ^ 9 * ticks (kMax levels)
  max_small : ticks (kMax levels) ≤ 2 ^ 126 * 2 ^ 149

instance (levels : ℕ) : Decidable (LevelCount levels) :=
  decidable_of_iff (_ ∧ _ ∧ _ ∧ _ ∧ _ ∧ _ ∧ _ ∧ _ ∧ _)
    ⟨fun ⟨h1, h2, h3, h4, h5, h6, h7, h8, h9⟩ => ⟨h1, h2, h3, h4, h5, h6, h7, h8, h9⟩,
      fun h => ⟨h.1, h.2, h.3, h.4, h.5, h.6, h.7, h.8, h.9⟩⟩

theorem levelCount_INT8 : LevelCount 127 := by decide

theorem levelCount_INT4 : LevelCount 7 := by decide

/-- The largest absolute value that the levels of a block stand for. -/
def blockMax (M : Machine) (levels : ℕ) (block : Bytes) : BitVec 32 :=
  clampAbsMax M levels (absMax M (wordAt block) 32)

variable {M : Machine} {levels : ℕ} {block : Bytes} {v s : BitVec 32} {j : ℕ}

section Scale

theorem LevelCount.mag_literal (h : LevelCount levels) (M : Machine) : mag M (literal levels 1) = levels := by
  rw [h.exact.mag, Nat.cast_one, div_one]

theorem LevelCount.max_bound (h : LevelCount levels) (M : Machine) : 2 ^ 128 ≤ 2 ^ 9 * mag M (kMax levels) := by
  rw [mag, Machine.size_of_normal h.max_normal, ← mul_div_assoc, le_div_iff₀ (by positivity)]
  exact_mod_cast h.max_large

theorem LevelCount.max_le (h : LevelCount levels) (M : Machine) : mag M (kMax levels) ≤ 2 ^ 126 := by
  rw [mag, Machine.size_of_normal h.max_normal, div_le_iff₀ (by positivity)]
  exact_mod_cast h.max_small

theorem real_of_msb (h : v.msb = false) : real M v = mag M v := (mag_of_real_nonneg (real_nonneg_of_msb h)).symm

theorem absMax_nonneg (M : Machine) (block : Bytes) : 0 ≤ real M (absMax M (wordAt block) 32) :=
  (real_le_positiveMax (fun _ _ => finite_fabs (finite_sanitiseFinite _))).1

/-- The cut leaves the smaller of two values. -/
theorem blockMax_spec (h : LevelCount levels) (M : Machine) (block : Bytes) : IsFinite (blockMax M levels block) ∧
    0 ≤ real M (blockMax M levels block) ∧
    mag M (blockMax M levels block) = min (mag M (absMax M (wordAt block) 32)) (mag M (kMax levels)) := by
  have hfin : IsFinite (absMax M (wordAt block) 32) := absMax_finite M _ _
  have hnonneg := absMax_nonneg M block
  have hstrict : isFiniteStrict (absMax M (wordAt block) 32) = true := (isFiniteStrict_iff _).mpr hfin
  have hmax : 0 ≤ real M (kMax levels) := real_nonneg_of_msb h.max_sign
  unfold blockMax clampAbsMax
  rw [hstrict, Bool.not_true, if_neg Bool.false_ne_true, mag_of_real_nonneg hnonneg, mag_of_real_nonneg hmax]
  split_ifs with hlt
  · rw [lt_iff h.max_finite hfin, ← real_lt_iff] at hlt
    exact ⟨h.max_finite, hmax, by rw [min_eq_right hlt.le, mag_of_real_nonneg hmax]⟩
  · rw [lt_iff h.max_finite hfin, ← real_lt_iff, not_lt] at hlt
    exact ⟨hfin, hnonneg, by rw [min_eq_left hlt, mag_of_real_nonneg hnonneg]⟩

/-- The scale is the rounded quotient, or everything is so small that it is zero. -/
structure ScaleOf (M : Machine) (levels : ℕ) (a : ℚ) (s : BitVec 32) : Prop where
  finite : IsFinite s
  sign : s.msb = false
  error : mag M s ≠ 0 → |mag M s - a / levels| ≤ mag M s / 2 ^ 24
  flushed : mag M s = 0 → a < levels / 2 ^ 126

theorem scaleOf_intScale (h : LevelCount levels) (hflush : M.flush = true) (block : Bytes) :
    ScaleOf M levels (mag M (blockMax M levels block)) (intScale M levels block) := by
  obtain ⟨hfin, hnonneg, -⟩ := blockMax_spec h M block
  have hlevels : (2 : ℚ) ≤ levels := by exact_mod_cast h.two_le
  have hpos : (0 : ℚ) < levels := lt_of_lt_of_le two_pos hlevels
  have hscale : intScale M levels block = if M.lt zero (blockMax M levels block) then
      M.div (blockMax M levels block) (literal levels 1) else zero := rfl
  have hmag := mag_of_real_nonneg hnonneg
  have hlt := mag_lt (M := M) hfin
  rw [hscale]
  split_ifs with hzero
  · rw [lt_zero_iff hfin] at hzero
    have hround : Rounded M (M.div (blockMax M levels block) (literal levels 1))
      (mag M (blockMax M levels block) / levels) := by
      have hle : mag M (blockMax M levels block) / mag M (literal levels 1) ≤ 2 ^ 127 := by
        rw [h.mag_literal, div_le_iff₀ hpos]
        linarith
      rw [← h.mag_literal M]
      exact div_rounded hflush hfin h.exact.finite (by rw [h.mag_literal]; exact hpos.ne') hle
    refine ⟨hround.finite, ?_, hround.error, fun hz => ?_⟩
    · rw [Machine.div_of_finite hfin h.exact.finite (size_pos_of_mag (by rw [h.mag_literal]; exact hpos.ne')),
        msb_of_real_pos hzero, h.sign]
      exact msb_round_false M _ _
    · have hsmall := hround.flushed hz
      rw [div_lt_iff₀ hpos] at hsmall
      linarith
  · rw [lt_zero_iff hfin, not_lt] at hzero
    have hmagzero : mag M (blockMax M levels block) = 0 := by
      rw [hmag]
      exact le_antisymm hzero hnonneg
    refine ⟨finite_zero, rfl, fun hne => absurd (mag_zero M) hne, fun _ => ?_⟩
    rw [hmagzero]
    positivity

end Scale

section Quotient

/-- The words of a block are at most 512 times the cut value. -/
theorem mag_word_le (M : Machine) (block : Bytes) (h : LevelCount levels) (hi : j < 32) :
    mag M (sanitiseFinite (wordAt block j)) ≤ 2 ^ 9 * mag M (blockMax M levels block) := by
  obtain ⟨-, -, hmin⟩ := blockMax_spec h M block
  have hle := mag_le_absMax (M := M) (p := wordAt block) hi
  have hlt := mag_lt (M := M) (finite_sanitiseFinite (wordAt block j))
  have hmax := h.max_bound M
  have hnonneg := mag_nonneg M (absMax M (wordAt block) 32)
  rw [hmin]
  rcases min_cases (mag M (absMax M (wordAt block) 32)) (mag M (kMax levels)) with ⟨heq, -⟩ | ⟨heq, -⟩
  · rw [heq]
    linarith
  · rw [heq]
    linarith

/-- The reciprocal of a scale that is not zero. -/
theorem reciprocal_rounded (hflush : M.flush = true) (hs : IsFinite s) (hsign : s.msb = false) (hne : mag M s ≠ 0)
    (hle : mag M s ≤ 2 ^ 126) :
    Rounded M (positiveReciprocal M s) (1 / mag M s) ∧ (positiveReciprocal M s).msb = false ∧
      mag M (positiveReciprocal M s) ≠ 0 := by
  have hpos : 0 < mag M s := lt_of_le_of_ne (mag_nonneg M s) (Ne.symm hne)
  have hlarge := le_mag hflush hne
  have hlt : M.lt zero s = true := by rwa [lt_zero_iff hs, real_of_msb hsign]
  have hone : mag M one / mag M s = 1 / mag M s := by rw [mag_one, div_one]
  have hquot : 1 / mag M s ≤ 2 ^ 127 := by
    rw [div_le_iff₀ hpos]
    rw [div_le_iff₀ (by positivity)] at hlarge
    linarith
  have hround : Rounded M (M.div one s) (1 / mag M s) := by
    rw [← hone]
    exact div_rounded hflush finite_one hs hne (by rw [hone]; exact hquot)
  have hdiv : positiveReciprocal M s = M.div one s := if_pos hlt
  rw [hdiv]
  refine ⟨hround, ?_, hround.ne_zero ?_⟩
  · have honesign : one.msb = false := by decide
    rw [Machine.div_of_finite finite_one hs (size_pos_of_mag hne), honesign, hsign]
    exact msb_round_false M _ _
  · rw [div_le_div_iff₀ (by positivity) hpos]
    linarith

/-- The rounded product is near the exact quotient. -/
structure QuotientOf (M : Machine) (v q : BitVec 32) (scale : ℚ) : Prop where
  finite : IsFinite q
  sign : q.msb = v.msb
  upper : mag M v / scale ≤ mag M q * (1 + 1 / 2 ^ 24) ^ 2 + 1 / 2 ^ 125
  lower : mag M q * (1 - 1 / 2 ^ 24) ^ 2 ≤ mag M v / scale

theorem quotientOf_mul (hflush : M.flush = true) (hv : IsFinite v) (hs : IsFinite s) (hsign : s.msb = false)
    (hne : mag M s ≠ 0) (hle : mag M s ≤ 2 ^ 126) (hbound : mag M v ≤ 2 ^ 20 * mag M s) :
    QuotientOf M v (M.mul v (positiveReciprocal M s)) (mag M s) := by
  have hpos : 0 < mag M s := lt_of_le_of_ne (mag_nonneg M s) (Ne.symm hne)
  obtain ⟨hinv, hinvsign, hinvne⟩ := reciprocal_rounded hflush hs hsign hne hle
  have hup := hinv.upper hinvne
  have hlo := hinv.lower (by positivity)
  have hv0 := mag_nonneg M v
  rw [div_le_iff₀ hpos] at hup
  rw [le_div_iff₀ hpos] at hlo
  generalize hinvdef : positiveReciprocal M s = inv at *
  have hinv0 := mag_nonneg M inv
  have hq0 : 0 ≤ mag M v / mag M s := div_nonneg hv0 hpos.le
  have hvs : mag M v = mag M v / mag M s * mag M s := (div_mul_cancel₀ _ hne).symm
  have hprodlo : mag M v * mag M inv * (1 - 1 / 2 ^ 24) ≤ mag M v / mag M s := by
    rw [le_div_iff₀ hpos]
    calc mag M v * mag M inv * (1 - 1 / 2 ^ 24) * mag M s
      _ = mag M v * (mag M inv * (1 - 1 / 2 ^ 24) * mag M s) := by ring
      _ ≤ mag M v * 1 := mul_le_mul_of_nonneg_left hlo hv0
      _ = mag M v := mul_one _
  have hprodup : mag M v / mag M s ≤ mag M v * mag M inv * (1 + 1 / 2 ^ 24) := by
    rw [div_le_iff₀ hpos]
    calc mag M v = mag M v * 1 := (mul_one _).symm
      _ ≤ mag M v * (mag M inv * (1 + 1 / 2 ^ 24) * mag M s) := mul_le_mul_of_nonneg_left hup hv0
      _ = mag M v * mag M inv * (1 + 1 / 2 ^ 24) * mag M s := by ring
  have hratio : mag M v / mag M s ≤ 2 ^ 20 := (div_le_iff₀ hpos).mpr hbound
  have hround : Rounded M (M.mul v inv) (mag M v * mag M inv) := mul_rounded hflush hv hinv.finite (by linarith)
  refine ⟨hround.finite, ?_, ?_, ?_⟩
  · rw [Machine.mul_of_finite hv hinv.finite, msb_round, hinvsign, Bool.bne_false]
  · rcases eq_or_ne (mag M (M.mul v inv)) 0 with hz | hne'
    · have hsmall := hround.flushed hz
      rw [hz]
      linarith
    · have hqup := hround.upper hne'
      have hnonneg : (0 : ℚ) ≤ 1 / 2 ^ 125 := by positivity
      calc mag M v / mag M s ≤ mag M v * mag M inv * (1 + 1 / 2 ^ 24) := hprodup
        _ ≤ mag M (M.mul v inv) * (1 + 1 / 2 ^ 24) * (1 + 1 / 2 ^ 24) :=
          mul_le_mul_of_nonneg_right hqup (by norm_num)
        _ ≤ mag M (M.mul v inv) * (1 + 1 / 2 ^ 24) ^ 2 + 1 / 2 ^ 125 := by linarith
  · have hqlo := hround.lower (mul_nonneg hv0 hinv0)
    calc mag M (M.mul v inv) * (1 - 1 / 2 ^ 24) ^ 2
        = mag M (M.mul v inv) * (1 - 1 / 2 ^ 24) * (1 - 1 / 2 ^ 24) := by ring
      _ ≤ mag M v * mag M inv * (1 - 1 / 2 ^ 24) := mul_le_mul_of_nonneg_right hqlo (by norm_num)
      _ ≤ mag M v / mag M s := hprodlo

end Quotient

end Qtx.IntBlockErrors
