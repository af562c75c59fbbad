import Qtx.RangeSpreads
import Qtx.StoredLevels

/-!
# Conversions of the formats with ranges

The formats that put their levels between the least and the largest word of a sub-block
convert words that are not finite when two words are too far apart, when the largest scale
or minimum is tiny, and when a word and the minimum that is stored for its sub-block have a
sum that overflows. Otherwise all their conversions are defined.
-/
namespace Qtx.RangeConversions

open Qtx.ByteStreams Qtx.FloatWords Qtx.FloatMachine Qtx.FpeGuard Qtx.QuantizerHelpers Qtx.FloatScans
  Qtx.FloatErrors Qtx.ScanBounds Qtx.KQuants Qtx.EncoderScales Qtx.IntegerConversions Qtx.ConversionBounds
  Qtx.StoredMultiples Qtx.RangeSpreads Qtx.StoredLevels Qtx.BinaryFormats

variable {M : Machine} {s : RangeShape} {lo hi low : ℕ} {blk : ℕ → BitVec 32}

/-- In no sub-block does a word lie below zero as far as a level reaches while another one is so large that its sum
with the multiple for that level overflows. -/
def SmallSums (M : Machine) (s : RangeShape) (blk : ℕ → BitVec 32) : Prop :=
  ∀ ib < s.subBlocks, ∀ j < s.subSize, ∀ k < s.subSize, ∀ l, 1 ≤ l → l ≤ s.top →
    M.value (sanitiseFinite (subWords s blk ib k)) ≤ -(reach s.top (deepest M s blk) l : ℤ) →
      M.value (sanitiseFinite (subWords s blk ib j)) + multipleTicks s.top (deepest M s blk) l < overflow

/-- The words for which a format with ranges converts nothing undefined. -/
structure SafeRanges (M : Machine) (s : RangeShape) (lo hi low : ℕ) (blk : ℕ → BitVec 32) : Prop where
  narrow : NarrowBlocks s blk
  /-- All sub-blocks are so narrow that their scales are zero, or the largest scale has a finite inverse. -/
  scale : (∀ ib < s.subBlocks, ¬ Apart M lo (subWords s blk ib) s.subSize) ∨
    ∃ ib < s.subBlocks, Apart M hi (subWords s blk ib) s.subSize
  /-- No word is negative, or the least one has a finite inverse. -/
  offset : (∀ ib < s.subBlocks, ∀ j < s.subSize, 0 ≤ M.value (sanitiseFinite (subWords s blk ib j))) ∨
    ∃ ib < s.subBlocks, ∃ j < s.subSize, M.value (sanitiseFinite (subWords s blk ib j)) ≤ -(low : ℤ)
  sum : SmallSums M s blk

theorem localScale_eq (M : Machine) (s : RangeShape) (blk : ℕ → BitVec 32) (ib : ℕ) :
    localScale M s blk ib = storedMultiple M s.top (maxRanges M s blk).1 (subRange M s blk ib).1 := by
  unfold localScale rangePlan storedMultiple storedLevel inverseTop
  generalize maxRanges M s blk = largest
  rfl

theorem localMin_stored (M : Machine) (s : RangeShape) (blk : ℕ → BitVec 32) (ib : ℕ) :
    localMin M s blk ib = storedMultiple M s.top (maxRanges M s blk).2 (subRange M s blk ib).2 := by
  unfold localMin rangePlan storedMultiple storedLevel inverseTop
  generalize maxRanges M s blk = largest
  rfl

section Sums

variable {ib j : ℕ}

/-- A word and a minimum have a finite sum unless the sum is too large. -/
theorem finite_sum_iff {v m : BitVec 32} (hv : IsFinite v) (hm : IsFinite m) (hnonneg : 0 ≤ real M m) :
    IsFinite (M.add v m) ↔ M.value v + M.value m < overflow := by
  have hv' := natAbs_value_lt_overflow (M := M) hv
  have hm' : 0 ≤ M.value m := by
    have hle := real_le_iff.mp ((real_zero M).trans_le hnonneg)
    rwa [value_zero] at hle
  rw [Machine.add_of_finite hv hm, Machine.finite_round_iff]
  omega

theorem real_word (M : Machine) (blk : ℕ → BitVec 32) (ib : ℕ) (hj : j < s.subSize) :
    real M (floorWord M (subWords s blk ib) s.subSize) ≤ real M (sanitiseFinite (subWords s blk ib j)) ∧
      real M (sanitiseFinite (subWords s blk ib j)) ≤
      real M (subBlockMinMax M (subWords s blk ib) s.subSize).2 := by
  have hn : 0 < s.subSize := Nat.zero_lt_of_lt hj
  have hmem : M.value (sanitiseFinite (subWords s blk ib j)) ∈ values M (subWords s blk ib) s.subSize :=
    ⟨j, hj, rfl⟩
  rw [real_le_iff, real_le_iff, value_floorWord]
  exact ⟨(min_le_right _ _).trans ((subBlockMinMax_isLeast _ hn).2 hmem), (subBlockMinMax_isGreatest _ hn).2 hmem⟩

/-- The least word is at most `2 ^ 24` times as far from zero as from the largest word. -/
theorem floor_le_gap {p : ℕ → BitVec 32} {n : ℕ}
    (hlt : real M (floorWord M p n) < real M (subBlockMinMax M p n).2) :
    -real M (floorWord M p n) ≤ 2 ^ 24 * (real M (subBlockMinMax M p n).2 - real M (floorWord M p n)) := by
  rcases le_or_gt 0 (real M (subBlockMinMax M p n).2) with hsign | hsign
  · linarith
  · have hmag : mag M (subBlockMinMax M p n).2 = -real M (subBlockMinMax M p n).2 := by
      rw [← abs_real, abs_of_neg hsign]
    have hmag' : mag M (floorWord M p n) = -real M (floorWord M p n) := by
      rw [← abs_real, abs_of_neg (hlt.trans hsign)]
    have hsize : M.size (subBlockMinMax M p n).2 < M.size (floorWord M p n) := by
      rw [← not_le, ← mag_le_iff, not_le, hmag, hmag']
      linarith
    have hgap := size_le_gap hsize
    have hcast : (M.size (floorWord M p n) : ℚ) ≤
        2 ^ 24 * (M.size (floorWord M p n) - M.size (subBlockMinMax M p n).2) := by
      rw [← Nat.cast_sub hsize.le]
      exact_mod_cast hgap
    have hfactor : -real M (floorWord M p n) = M.size (floorWord M p n) / 2 ^ 149 := by rw [← hmag', mag]
    have hdiff : real M (subBlockMinMax M p n).2 - real M (floorWord M p n) =
        (M.size (floorWord M p n) - M.size (subBlockMinMax M p n).2) / 2 ^ 149 := by
      rw [sub_div, ← mag, ← mag, hmag, hmag']
      ring
    rw [hfactor, hdiff, ← mul_div_assoc]
    exact div_le_div_of_nonneg_right hcast (by positivity)

end Sums

section SuperBlock

variable {ib j : ℕ} (hs : Shape s lo hi low)

include hs

theorem stored_scale (hflush : M.flush = true) (hnarrow : NarrowBlocks s blk)
    (hinv : IsFinite (inverseTop M s.top (maxRanges M s blk).1)) (hib : ib < s.subBlocks) :
    Stored M s.top (maxRanges M s blk).1 (subRange M s blk ib).1 := by
  have hfin : ∀ ib < s.subBlocks, IsFinite (subRange M s blk ib).1 :=
    fun ib hib => (hs.scale_approx hflush (hnarrow ib hib)).finite
  rw [maxRanges_eq] at hinv ⊢
  exact ⟨hs.level, finite_positiveMax hfin, hfin ib hib, hs.scale_nonneg hflush (hnarrow ib hib),
    (real_le_positiveMax hfin).2 ib hib, hinv⟩

theorem stored_offset (hinv : IsFinite (inverseTop M s.top (maxRanges M s blk).2)) (hib : ib < s.subBlocks) :
    Stored M s.top (maxRanges M s blk).2 (subRange M s blk ib).2 := by
  have hfin : ∀ ib < s.subBlocks, IsFinite (subRange M s blk ib).2 := fun ib _ => finite_fneg (finite_floorWord _ _)
  rw [maxRanges_eq] at hinv ⊢
  exact ⟨hs.level, finite_positiveMax hfin, hfin ib hib, offset_nonneg ib,
    (real_le_positiveMax hfin).2 ib hib, hinv⟩

theorem localMin_spec (hflush : M.flush = true) (hinv : IsFinite (inverseTop M s.top (maxRanges M s blk).2))
    (hib : ib < s.subBlocks) : IsFinite (localMin M s blk ib) ∧ 0 ≤ real M (localMin M s blk ib) ∧
      real M (localMin M s blk ib) ≤ 202 / 100 * -real M (floorWord M (subWords s blk ib) s.subSize) := by
  have hstored := stored_offset hs hinv hib
  have hlocal := localMin_stored M s blk ib
  have htop : 0 < real M (literal s.top 1) := by
    rw [← mag_of_real_nonneg (real_nonneg_of_msb hs.level.sign), hs.level.mag_literal]
    linarith [hstored.top_pos]
  have hstep := Stored.step_approx hflush hs.level hstored.finite
  have hword := Stored.word_approx hflush hs.level (maxRanges M s blk).2 (subRange M s blk ib).2
  have hnonneg : 0 ≤ real M (localMin M s blk ib) := by
    rw [hlocal]
    refine real_mul_nonneg hflush hstep.finite hword.finite
      (real_div_nonneg hflush hstored.finite hs.level.exact.finite
        (hstored.own_nonneg.trans hstored.own_le) htop) ?_
    refine real_nonneg_of_msb ?_
    rw [ofNat, Machine.ofInt, decide_eq_false (not_lt.mpr (Int.natCast_nonneg _))]
    exact msb_round_false M _ _
  refine ⟨hlocal ▸ hs.level.finite_storedMultiple hstored.finite, hnonneg, ?_⟩
  have hle := hstored.multiple_le hflush
  rwa [← hlocal, mag_of_real_nonneg hnonneg, mag_of_real_nonneg (offset_nonneg ib), subRange_snd, real_fneg] at hle

/-- The sums with the stored minima, in terms of the words. -/
theorem smallSums_iff (hflush : M.flush = true) (hinv : IsFinite (inverseTop M s.top (maxRanges M s blk).2)) :
    SmallSums M s blk ↔ ∀ ib < s.subBlocks, ∀ j < s.subSize,
      M.value (sanitiseFinite (subWords s blk ib j)) + M.value (localMin M s blk ib) < overflow := by
  have hdeepest := hs.size_maxRanges M blk
  have hword : ∀ v : BitVec 32, M.value (sanitiseFinite v) ≤ units 23 (infinity - 1) := by
    intro v
    have hle : M.size (sanitiseFinite v) ≤ units 23 (infinity - 1) :=
      Machine.size_le (Nat.le_pred_of_lt (finite_sanitiseFinite v))
    have habs := natAbs_value M (sanitiseFinite v)
    omega
  -- what a sum with a stored minimum says about the level of the minimum
  have hsum : ∀ ib < s.subBlocks, ∀ v : BitVec 32,
      M.value (sanitiseFinite v) + M.value (localMin M s blk ib) < overflow ↔
        M.value (sanitiseFinite v) +
          multipleTicks s.top (deepest M s blk) (storedLevel M s.top (maxRanges M s blk).2
            (subRange M s blk ib).2) < overflow := by
    intro ib hib v
    have hstored := stored_offset hs hinv hib
    obtain ⟨-, hnonneg, -⟩ := localMin_spec hs hflush hinv hib
    have hvalue : M.value (localMin M s blk ib) = M.size (localMin M s blk ib) := by
      have hle := real_le_iff.mp ((real_zero M).trans_le hnonneg)
      have habs := natAbs_value M (localMin M s blk ib)
      rw [value_zero] at hle
      omega
    rw [hvalue, localMin_stored, sum_lt_overflow_iff hstored hflush (hword v), hdeepest]
  have hsize : ∀ ib, M.size (subRange M s blk ib).2 = M.size (floorWord M (subWords s blk ib) s.subSize) := by
    intro ib
    rw [subRange_snd, Machine.size_fneg]
  have htop : s.top < 64 := Nat.lt_succ_of_le hs.level.bounds.2
  rcases Nat.eq_zero_or_pos (deepest M s blk) with hflat | hpos
  · constructor
    · intro _ ib hib j hj
      rw [hsum ib hib, hflat, multipleTicks_zero_left (Nat.lt_of_lt_of_le (by decide) hs.level.bounds.1)]
      have hlt := natAbs_value_lt_overflow (M := M) (finite_sanitiseFinite (subWords s blk ib j))
      omega
    · intro _ ib hib j hj k hk l hl hl' _
      rw [hflat, multipleTicks_zero_left (Nat.lt_of_lt_of_le (by decide) hs.level.bounds.1)]
      have hlt := natAbs_value_lt_overflow (M := M) (finite_sanitiseFinite (subWords s blk ib j))
      omega
  · have hlargest : 0 < M.size (maxRanges M s blk).2 := hdeepest.symm ▸ hpos
    have hreach : ∀ l, 1 ≤ l → l ≤ s.top → 0 < reach s.top (deepest M s blk) l := by
      intro l hl hl'
      have hstored := stored_offset hs hinv hs.subBlocks
      exact reach_pos hl (lt_of_le_of_lt hl' htop) (hdeepest ▸ inverseTicks_pos hs.level hstored.finite hlargest)
    have hlevel : ∀ ib < s.subBlocks, ∀ l, 1 ≤ l → l ≤ s.top →
        (l ≤ storedLevel M s.top (maxRanges M s blk).2 (subRange M s blk ib).2 ↔
          ∃ k < s.subSize, M.value (sanitiseFinite (subWords s blk ib k)) ≤
            -(reach s.top (deepest M s blk) l : ℤ)) := by
      intro ib hib l hl hl'
      rw [le_storedLevel_iff (stored_offset hs hinv hib) hflush hlargest hl hl', hsize, hdeepest]
      exact le_size_floorWord_iff hs.sound.size (hreach l hl hl')
    constructor
    · intro h ib hib j hj
      rw [hsum ib hib]
      rcases Nat.eq_zero_or_pos (storedLevel M s.top (maxRanges M s blk).2 (subRange M s blk ib).2) with hz | hl
      · rw [hz, multipleTicks_zero]
        have hlt := natAbs_value_lt_overflow (M := M) (finite_sanitiseFinite (subWords s blk ib j))
        omega
      · obtain ⟨k, hk, hword⟩ := (hlevel ib hib _ hl storedLevel_le).mp le_rfl
        exact h ib hib j hj k hk _ hl storedLevel_le hword
    · intro h ib hib j hj k hk l hl hl' hword
      have hle := (hlevel ib hib l hl hl').mpr ⟨k, hk, hword⟩
      have hmono : multipleTicks s.top (deepest M s blk) l ≤ multipleTicks s.top (deepest M s blk)
          (storedLevel M s.top (maxRanges M s blk).2 (subRange M s blk ib).2) := multipleTicks_mono hle
      have hlt := (hsum ib hib _).mp (h ib hib j hj)
      omega

/-- A scale that is not stored as zero is not small against the distance of the extremes. -/
theorem spread_le_localScale (hflush : M.flush = true) (hnarrow : NarrowBlocks s blk)
    (hinv : IsFinite (inverseTop M s.top (maxRanges M s blk).1)) (hib : ib < s.subBlocks)
    (hne : mag M (localScale M s blk ib) ≠ 0) :
    0 < real M (subBlockMinMax M (subWords s blk ib) s.subSize).2 -
    real M (floorWord M (subWords s blk ib) s.subSize) ∧
      real M (subBlockMinMax M (subWords s blk ib) s.subSize).2 -
      real M (floorWord M (subWords s blk ib) s.subSize) ≤
        63 * mag M (localScale M s blk ib) := by
  have hslack : slack = 1001 / 1000 := rfl
  have hstored := stored_scale hs hflush hnarrow hinv hib
  have hcodes : (s.codes : ℚ) ≤ 31 := by exact_mod_cast hs.codes_bounds.2
  have hcodes' : (3 : ℚ) ≤ s.codes := by exact_mod_cast hs.codes_bounds.1
  rw [localScale_eq] at hne ⊢
  have hown := hstored.own_le_multiple hflush hne
  have htwice := hstored.multiple_le hflush
  have hnonneg := mag_nonneg M (storedMultiple M s.top (maxRanges M s blk).1 (subRange M s blk ib).1)
  generalize mag M (storedMultiple M s.top (maxRanges M s blk).1 (subRange M s blk ib).1) =
    l at hne hown htwice hnonneg
  have hscale := hs.scale_approx hflush (hnarrow ib hib)
  have hscaleNe : mag M (subRange M s blk ib).1 ≠ 0 := by
    intro hz
    rw [hz, mul_zero] at htwice
    exact hne (le_antisymm htwice hnonneg)
  have hspread := hs.spreadWord_approx hflush (hnarrow ib hib)
  have hspreadNe : mag M (spreadWord M s blk ib) ≠ 0 := by
    intro hz
    exact Stored.exact_ne_zero hscale hscaleNe (by rw [hz, zero_div])
  have hlower := hspread.lower hspreadNe
  have hscaleLower := hscale.lower hscaleNe
  rw [div_le_iff₀ (by linarith)] at hscaleLower
  constructor
  · have hexact := Stored.exact_ne_zero hspread hspreadNe
    have hle := real_le_iff.mpr (value_floorWord_le (M := M) (subWords s blk ib) hs.sound.size)
    exact lt_of_le_of_ne (sub_nonneg.mpr hle) (Ne.symm hexact)
  · calc real M (subBlockMinMax M (subWords s blk ib) s.subSize).2 -
          real M (floorWord M (subWords s blk ib) s.subSize)
        ≤ slack * mag M (spreadWord M s blk ib) := hlower
      _ ≤ slack * (slack * mag M (subRange M s blk ib).1 * s.codes) :=
        mul_le_mul_of_nonneg_left hscaleLower Chain.slack_nonneg
      _ ≤ slack * (slack * (2 * slack ^ 6 * l) * s.codes) := by
        refine mul_le_mul_of_nonneg_left ?_ Chain.slack_nonneg
        exact mul_le_mul_of_nonneg_right (mul_le_mul_of_nonneg_left hown Chain.slack_nonneg) (by linarith)
      _ = 2 * slack ^ 8 * s.codes * l := by ring
      _ ≤ 63 * l := by
        refine mul_le_mul_of_nonneg_right ?_ hnonneg
        rw [hslack]
        linarith

/-- The level of a word whose sum with the minimum does not overflow. -/
theorem convertible_level (hflush : M.flush = true) (hnarrow : NarrowBlocks s blk)
    (hinv : IsFinite (inverseTop M s.top (maxRanges M s blk).1))
    (hinv' : IsFinite (inverseTop M s.top (maxRanges M s blk).2)) (hib : ib < s.subBlocks) (hj : j < s.subSize)
    (hne : mag M (localScale M s blk ib) ≠ 0)
    (hsum : M.value (sanitiseFinite (subWords s blk ib j)) + M.value (localMin M s blk ib) < overflow) :
    Convertible M (nearestArgument M (M.mul (M.add (sanitiseFinite (subWords s blk ib j)) (localMin M s blk ib))
      (M.div one (localScale M s blk ib)))) := by
  have hslack : slack = 1001 / 1000 := rfl
  obtain ⟨hminFin, hminNonneg, hminLe⟩ := localMin_spec hs hflush hinv' hib
  obtain ⟨hpos, hspread⟩ := spread_le_localScale hs hflush hnarrow hinv hib hne
  obtain ⟨hbelow, habove⟩ := real_word M blk ib hj
  have hgap := floor_le_gap (sub_pos.mp hpos)
  have hfloor := floorWord_nonpos M (subWords s blk ib) s.subSize
  have hscaleFin : IsFinite (localScale M s blk ib) := by
    rw [localScale_eq]
    exact hs.level.finite_storedMultiple (stored_scale hs hflush hnarrow hinv hib).finite
  have hscalePos : 0 < mag M (localScale M s blk ib) := lt_of_le_of_ne (mag_nonneg M _) (Ne.symm hne)
  have hword := finite_sanitiseFinite (subWords s blk ib j)
  have happrox := add_approx hflush hword hminFin ((finite_sum_iff hword hminFin hminNonneg).mpr hsum)
  have habs : |real M (sanitiseFinite (subWords s blk ib j)) + real M (localMin M s blk ib)| ≤
      17120000 * (63 * mag M (localScale M s blk ib)) := by
    rw [abs_le]
    constructor <;> linarith
  have hupper := happrox.upper.trans (mul_le_mul_of_nonneg_left habs Chain.slack_nonneg)
  have hinverse := inverse_one_div hflush hscaleFin hne
  have hproduct : mag M (M.add (sanitiseFinite (subWords s blk ib j)) (localMin M s blk ib)) *
      mag M (M.div one (localScale M s blk ib)) ≤ 1090000000 := by
    calc mag M (M.add (sanitiseFinite (subWords s blk ib j)) (localMin M s blk ib)) *
          mag M (M.div one (localScale M s blk ib))
        ≤ slack * (17120000 * (63 * mag M (localScale M s blk ib))) *
          (slack * (1 / mag M (localScale M s blk ib))) :=
          mul_le_mul hupper hinverse.upper (mag_nonneg M _)
            (mul_nonneg Chain.slack_nonneg (by positivity))
      _ = slack ^ 2 * (17120000 * 63) * (mag M (localScale M s blk ib) * (1 / mag M (localScale M s blk ib))) := by
        ring
      _ = slack ^ 2 * (17120000 * 63) := by rw [mul_one_div_cancel hne, mul_one]
      _ ≤ 1090000000 := by norm_num [hslack]
  have hmul := mul_approx hflush happrox.finite hinverse.finite (hproduct.trans (by norm_num))
  refine convertible_nearestArgument hflush hmul.finite (hmul.upper.trans ?_)
  rw [hslack]
  linarith

/-- A sum that overflows comes from a sub-block whose scale is not stored as zero. -/
theorem localScale_ne_zero (hflush : M.flush = true) (hnarrow : NarrowBlocks s blk)
    (hinv : IsFinite (inverseTop M s.top (maxRanges M s blk).1))
    (hinv' : IsFinite (inverseTop M s.top (maxRanges M s blk).2)) (hib : ib < s.subBlocks) (hj : j < s.subSize)
    (hsum : ¬ M.value (sanitiseFinite (subWords s blk ib j)) + M.value (localMin M s blk ib) < overflow) :
    mag M (localScale M s blk ib) ≠ 0 := by
  have hslack : slack = 1001 / 1000 := rfl
  have hstored := stored_scale hs hflush hnarrow hinv hib
  obtain ⟨hminFin, hminNonneg, hminLe⟩ := localMin_spec hs hflush hinv' hib
  obtain ⟨hbelow, habove⟩ := real_word M blk ib hj
  have hfloor := floorWord_nonpos M (subWords s blk ib) s.subSize
  have hcodes' : (3 : ℚ) ≤ s.codes := by exact_mod_cast hs.codes_bounds.1
  have hcodes : (s.codes : ℚ) ≤ 31 := by exact_mod_cast hs.codes_bounds.2
  -- the word is positive, since the minimum alone does not overflow
  have hminLt := natAbs_value_lt_overflow (M := M) hminFin
  have hwordPos : 0 ≤ real M (sanitiseFinite (subWords s blk ib j)) := by
    rw [← real_zero M, real_le_iff, value_zero]
    omega
  have hlarge : (2 : ℚ) ^ 127 * (199 / 100) ≤
      real M (sanitiseFinite (subWords s blk ib j)) + real M (localMin M s blk ib) := by
    have hover : ((overflow : ℕ) : ℤ) ≤ M.value (sanitiseFinite (subWords s blk ib j)) +
      M.value (localMin M s blk ib) :=
      not_lt.mp hsum
    have hcast : ((overflow : ℕ) : ℚ) ≤ M.value (sanitiseFinite (subWords s blk ib j)) +
      M.value (localMin M s blk ib) := by
      exact_mod_cast hover
    rw [real, real, ← add_div, le_div_iff₀ (by positivity)]
    refine le_trans ?_ hcast
    rw [overflow]
    norm_num
  have hspread : (2 : ℚ) ^ 127 * (98 / 100) ≤
      real M (subBlockMinMax M (subWords s blk ib) s.subSize).2 -
        real M (floorWord M (subWords s blk ib) s.subSize) := by
    linarith
  -- so the distance of the extremes is not small against the largest one
  have hspreadWord := hs.spreadWord_approx hflush (hnarrow ib hib)
  have hwordLower := hspreadWord.lower (Approx.two_ge hspreadWord (le_trans (by norm_num) hspread)).1
  have hscale := hs.scale_approx hflush (hnarrow ib hib)
  have hquot : (2 : ℚ) ^ 127 * (97 / 100) / s.codes ≤ mag M (spreadWord M s blk ib) / s.codes := by
    refine div_le_div_of_nonneg_right ?_ (by linarith)
    rw [hslack] at hwordLower
    linarith
  have hquotLarge : (1 : ℚ) ≤ 2 ^ 127 * (97 / 100) / s.codes := by
    rw [le_div_iff₀ (by linarith)]
    linarith
  have hscaleLower := hscale.lower (Approx.two_ge hscale (le_trans (le_trans (by norm_num) hquotLarge) hquot)).1
  have hown : (2 : ℚ) ^ 127 * (96 / 100) / s.codes ≤ mag M (subRange M s blk ib).1 := by
    have hle := hquot.trans hscaleLower
    rw [hslack, div_le_iff₀ (by linarith)] at hle
    rw [div_le_iff₀ (by linarith)]
    linarith
  have hlargest : mag M (maxRanges M s blk).1 ≤ 2 ^ 128 * slack / s.codes := by
    rw [maxRanges_eq]
    refine positiveMax_induction M (fun v => mag M v ≤ 2 ^ 128 * slack / s.codes) ?_ (fun jb hjb => ?_)
    · rw [mag_zero]
      exact div_nonneg (mul_nonneg (by norm_num) Chain.slack_nonneg) (by linarith)
    · refine (hs.scale_approx hflush (hnarrow jb hjb)).upper.trans ?_
      rw [mul_div_assoc', mul_comm]
      refine div_le_div_of_nonneg_right (mul_le_mul_of_nonneg_right ?_ Chain.slack_nonneg) (by linarith)
      exact (mag_lt (hs.finite_spreadWord (hnarrow jb hjb))).le
  rw [localScale_eq]
  refine hstored.multiple_ne_zero hflush (le_trans ?_ hstored.mag_own_le) ?_
  · have hone : (1 : ℚ) ≤ 2 ^ 127 * (96 / 100) / s.codes := by
      rw [le_div_iff₀ (by linarith)]
      linarith
    exact (le_trans (by norm_num) hone).trans hown
  · refine hlargest.trans (le_trans ?_ (mul_le_mul_of_nonneg_left hown (by norm_num)))
    rw [mul_div_assoc']
    refine div_le_div_of_nonneg_right ?_ (by linarith)
    norm_num [hslack]

theorem convertible_plan (hflush : M.flush = true) (hnarrow : NarrowBlocks s blk)
    (hinv : IsFinite (inverseTop M s.top (maxRanges M s blk).1))
    (hinv' : IsFinite (inverseTop M s.top (maxRanges M s blk).2)) :
    ∀ w ∈ planConversions M s blk, Convertible M w := by
  rintro w ⟨ib, hib, rfl | rfl⟩
  · exact (stored_scale hs hflush hnarrow hinv hib).convertible hflush
  · exact (stored_offset hs hinv' hib).convertible hflush

theorem finite_localScale (hflush : M.flush = true) (hnarrow : NarrowBlocks s blk)
    (hinv : IsFinite (inverseTop M s.top (maxRanges M s blk).1)) (hib : ib < s.subBlocks) :
    IsFinite (localScale M s blk ib) := by
  rw [localScale_eq]
  exact hs.level.finite_storedMultiple (stored_scale hs hflush hnarrow hinv hib).finite

theorem convertible_of_safeRanges (hflush : M.flush = true) (h : SafeRanges M s lo hi low blk) :
    ∀ w ∈ planConversions M s blk ∪ levelConversions M s blk, Convertible M w := by
  have hinv := (hs.finite_inverse_scale_iff hflush h.narrow).mpr h.scale
  have hinv' := hs.finite_inverse_offset_iff.mpr h.offset
  rintro w (hplan | ⟨i, hi, hne, rfl⟩)
  · exact convertible_plan hs hflush h.narrow hinv hinv' w hplan
  · have hib : i / s.subSize < s.subBlocks := Nat.div_lt_of_lt_mul (by rwa [Nat.mul_comm])
    have hj : i % s.subSize < s.subSize := Nat.mod_lt i hs.sound.size
    have hscale := finite_localScale hs hflush h.narrow hinv hib
    have hsum := (smallSums_iff hs hflush hinv').mp h.sum _ hib _ hj
    have hlevel := convertible_level hs hflush h.narrow hinv hinv' hib hj
      (mt (eq_zero_iff hscale).mpr (Bool.eq_false_iff.mp hne)) hsum
    rwa [subWords_eq] at hlevel

/-- A word whose sum with the minimum overflows is converted. -/
theorem small_sum_of_convertible (hflush : M.flush = true) (hnarrow : NarrowBlocks s blk)
    (hinv : IsFinite (inverseTop M s.top (maxRanges M s blk).1))
    (hinv' : IsFinite (inverseTop M s.top (maxRanges M s blk).2)) (hib : ib < s.subBlocks) (hj : j < s.subSize)
    (hall : ∀ w ∈ levelConversions M s blk, Convertible M w) :
    M.value (sanitiseFinite (subWords s blk ib j)) + M.value (localMin M s blk ib) < overflow := by
  by_contra hsum
  have hne := localScale_ne_zero hs hflush hnarrow hinv hinv' hib hj hsum
  obtain ⟨hminFin, hminNonneg, -⟩ := localMin_spec hs hflush hinv' hib
  have hscale := finite_localScale hs hflush hnarrow hinv hib
  have hdiv : (s.subSize * ib + j) / s.subSize = ib := by
    rw [Nat.mul_add_div hs.sound.size, Nat.div_eq_of_lt hj, Nat.add_zero]
  have hlt : s.subSize * ib + j < s.subBlocks * s.subSize := by
    calc s.subSize * ib + j < s.subSize * (ib + 1) := by rw [Nat.mul_succ]; exact Nat.add_lt_add_left hj _
      _ ≤ s.subSize * s.subBlocks := Nat.mul_le_mul_left _ hib
      _ = s.subBlocks * s.subSize := Nat.mul_comm _ _
  have hguard : M.eq (localScale M s blk ((s.subSize * ib + j) / s.subSize)) zero = false := by
    rw [hdiv]
    exact Bool.eq_false_iff.mpr (mt (eq_zero_iff hscale).mp hne)
  have hconv := hall _ ⟨s.subSize * ib + j, hlt, hguard, rfl⟩
  rw [hdiv] at hconv
  have hinfinite := mt (finite_sum_iff (finite_sanitiseFinite _) hminFin hminNonneg).mp hsum
  exact not_convertible_nearestArgument (not_finite_mul_left hinfinite) hconv

theorem safeRanges_of_convertible (hflush : M.flush = true)
    (hall : ∀ w ∈ planConversions M s blk ∪ levelConversions M s blk, Convertible M w) :
    SafeRanges M s lo hi low blk := by
  have hscale : ∀ ib < s.subBlocks,
    IsFinite (M.mul (inverseTop M s.top (maxRanges M s blk).1) (subRange M s blk ib).1) := by
    intro ib hib
    by_contra hfin
    exact not_convertible_nearestArgument hfin (hall _ (.inl ⟨ib, hib, .inl rfl⟩))
  have hoffset : IsFinite (M.mul (inverseTop M s.top (maxRanges M s blk).2) (subRange M s blk 0).2) := by
    by_contra hfin
    exact not_convertible_nearestArgument hfin (hall _ (.inl ⟨0, hs.subBlocks, .inr rfl⟩))
  have hnarrow : NarrowBlocks s blk := by
    intro ib hib
    by_contra hwide
    exact not_finite_mul_right (mt (subRange_capped hs.sound ib).2.mp hwide) (hscale ib hib)
  have hinv : IsFinite (inverseTop M s.top (maxRanges M s blk).1) := by
    by_contra hfin
    exact not_finite_mul_left hfin (hscale 0 hs.subBlocks)
  have hinv' : IsFinite (inverseTop M s.top (maxRanges M s blk).2) := by
    by_contra hfin
    exact not_finite_mul_left hfin hoffset
  refine ⟨hnarrow, (hs.finite_inverse_scale_iff hflush hnarrow).mp hinv, hs.finite_inverse_offset_iff.mp hinv',
    (smallSums_iff hs hflush hinv').mpr fun ib hib j hj => ?_⟩
  exact small_sum_of_convertible hs hflush hnarrow hinv hinv' hib hj (fun w hw => hall w (.inr hw))

/-- The conversions of a super-block are defined if and only if its ranges are safe. -/
theorem convertible_iff (hflush : M.flush = true) :
    (∀ w ∈ planConversions M s blk ∪ levelConversions M s blk, Convertible M w) ↔ SafeRanges M s lo hi low blk :=
  ⟨safeRanges_of_convertible hs hflush, convertible_of_safeRanges hs hflush⟩

/-- One word that is tiny, and zeros. -/
def tinyWords (i : ℕ) : BitVec 32 := if i = 0 then 0x01800000#32 else zero

example : ¬ Convertible flushMachine (nearestArgument flushMachine (flushMachine.mul
    (inverseMax flushMachine shapeQ2_K (maxRanges flushMachine shapeQ2_K tinyWords).1)
    (subRange flushMachine shapeQ2_K tinyWords 0).1)) := by decide +kernel

/-- A large word over a minimum that is stored as twice as much. -/
def roundedUpWords (i : ℕ) : BitVec 32 :=
  if i = 0 then 0x7F733333#32 else if i < 16 then 0xFD100000#32 else if i < 32 then fneg maxFloat else zero

example : ¬ IsFinite (flushMachine.add (roundedUpWords 0) (localMin flushMachine shapeQ2_K roundedUpWords 0)) := by
  decide +kernel

/-- A super-block that is not encoded at all has safe ranges. -/
theorem safeRanges_of_isZeroRange (hflush : M.flush = true) (h : isZeroRange M s blk = true) :
    SafeRanges M s lo hi low blk := by
  have hnarrow := narrowBlocks_of_isZeroRange hs.sound h
  have hfin : ∀ ib < s.subBlocks, IsFinite (subRange M s blk ib).1 :=
    fun ib hib => (hs.scale_approx hflush (hnarrow ib hib)).finite
  have hfin' : ∀ ib < s.subBlocks, IsFinite (subRange M s blk ib).2 :=
    fun ib _ => finite_fneg (finite_floorWord _ _)
  have hmax := finite_positiveMax (M := M) hfin
  have hmax' := finite_positiveMax (M := M) hfin'
  rw [isZeroRange, Bool.and_eq_true] at h
  have hsize : ∀ {v : BitVec 32}, IsFinite v → M.eq v zero = true → M.size v = 0 := by
    intro v hv hz
    rw [eq_zero_iff hv, mag, div_eq_zero_iff, Nat.cast_eq_zero] at hz
    exact hz.resolve_right (by positivity)
  have hzero : M.size (maxRanges M s blk).1 = 0 := hsize (by rw [maxRanges_eq]; exact hmax) h.1
  have hzero' : M.size (maxRanges M s blk).2 = 0 := hsize (by rw [maxRanges_eq]; exact hmax') h.2
  have hinv : IsFinite (inverseTop M s.top (maxRanges M s blk).1) := by
    rw [hs.level.finite_inverseTop_iff (by rw [maxRanges_eq]; exact hmax)
      (by rw [maxRanges_eq]; exact (real_le_positiveMax hfin).1)]
    exact .inl hzero
  have hinv' : IsFinite (inverseTop M s.top (maxRanges M s blk).2) := by
    rw [hs.level.finite_inverseTop_iff (by rw [maxRanges_eq]; exact hmax')
      (by rw [maxRanges_eq]; exact (real_le_positiveMax hfin').1)]
    exact .inl hzero'
  refine ⟨hnarrow, (hs.finite_inverse_scale_iff hflush hnarrow).mp hinv, hs.finite_inverse_offset_iff.mp hinv',
    (smallSums_iff hs hflush hinv').mpr fun ib hib j hj => ?_⟩
  have hstored := stored_offset hs hinv' hib
  obtain ⟨hminFin, hminNonneg, hminLe⟩ := localMin_spec hs hflush hinv' hib
  have hown : mag M (subRange M s blk ib).2 ≤ 0 :=
    hstored.mag_own_le.trans (by rw [mag, hzero', Nat.cast_zero, zero_div])
  rw [mag_of_real_nonneg (offset_nonneg ib), subRange_snd, real_fneg] at hown
  have hmin : real M (localMin M s blk ib) = 0 := le_antisymm (by linarith) hminNonneg
  have hvalue : M.value (localMin M s blk ib) = 0 := by
    rw [real, div_eq_zero_iff, Int.cast_eq_zero] at hmin
    exact hmin.resolve_right (by positivity)
  have hlt := natAbs_value_lt_overflow (M := M) (finite_sanitiseFinite (subWords s blk ib j))
  omega

end SuperBlock

section Block

variable {codes : ℕ} {block : Bytes}

/-- The largest word of a block is among those that are converted. -/
theorem narrow_of_convertible (hall : ∀ w ∈ rangeConversions M codes block, Convertible M w) :
    Narrow (wordAt block) 32 := by
  obtain ⟨hlo, hhi⟩ := subBlockMinMax_finite M (wordAt block) 32
  obtain ⟨⟨j, hj, hmax⟩, -⟩ := subBlockMinMax_isGreatest (M := M) (wordAt block) (by decide : 0 < 32)
  dsimp only at hmax
  by_contra hwide
  rw [narrow_iff M (by decide), Machine.finite_sub_iff hhi hlo, ← hmax,
    ← Machine.finite_sub_iff (finite_sanitiseFinite _) hlo] at hwide
  have hhalf : IsFinite half := by unfold IsFinite; decide
  exact not_finite_add (not_finite_mul_left hwide) hhalf (hall _ ⟨j, hj, rfl⟩).1

/-- The conversions of a block with one range are defined if and only if its words are close enough. -/
theorem rangeConversions_iff (hflush : M.flush = true) (hexact : Exact codes 1)
    (hcodes : 2 ≤ codes ∧ codes ≤ 2 ^ 9) :
    (∀ w ∈ rangeConversions M codes block, Convertible M w) ↔ Narrow (wordAt block) 32 := by
  refine ⟨narrow_of_convertible, fun hnarrow => ?_⟩
  have hslack : slack = 1001 / 1000 := rfl
  have hconst : Constant M (literal codes 1) := hexact.constant (by omega) (by omega)
  obtain ⟨hlo, hhi⟩ := subBlockMinMax_finite M (wordAt block) 32
  have hleast := subBlockMinMax_isLeast (M := M) (wordAt block) (by decide : 0 < 32)
  have hgreatest := subBlockMinMax_isGreatest (M := M) (wordAt block) (by decide : 0 < 32)
  have hfin := (narrow_iff M (by decide)).mp hnarrow
  unfold rangeConversions
  dsimp only
  generalize (subBlockMinMax M (wordAt block) 32).1 = vmin at hlo hleast hfin ⊢
  generalize (subBlockMinMax M (wordAt block) 32).2 = vmax at hhi hgreatest hfin ⊢
  have hspread := sub_approx hflush hhi hlo hfin
  have hscale := div_constant hflush hconst.finite hconst.two_le hfin
  rintro w ⟨j, hj, rfl⟩
  have hword := finite_sanitiseFinite (wordAt block j)
  have hmem : M.value (sanitiseFinite (wordAt block j)) ∈ values M (wordAt block) 32 := ⟨j, hj, rfl⟩
  have hbelow := hleast.2 hmem
  have habove := hgreatest.2 hmem
  have hover := (Machine.finite_sub_iff hhi hlo).mp hfin
  have hdiff : IsFinite (M.sub (sanitiseFinite (wordAt block j)) vmin) := by
    rw [Machine.finite_sub_iff hword hlo]
    omega
  have happrox := sub_approx hflush hword hlo hdiff
  rw [← real_le_iff] at hbelow habove
  rw [abs_of_nonneg (by linarith)] at hspread happrox
  have hbound := (inverse_reciprocal hflush hscale.finite).mul_bound (b := 2 ^ 12) hflush hdiff (fun hne => by
    have hdividend := Approx.dividend_le hscale (by linarith [hconst.two_le]) hne
    have hspreadNe : mag M (M.sub vmax vmin) ≠ 0 := by
      intro hz
      exact Stored.exact_ne_zero hscale hne (by rw [hz, zero_div])
    have hlower := hspread.lower hspreadNe
    have hupper := happrox.upper
    have hscaleNonneg := mag_nonneg M (M.div (M.sub vmax vmin) (literal codes 1))
    have hproduct : 2 * mag M (literal codes 1) * mag M (M.div (M.sub vmax vmin) (literal codes 1)) ≤
        2 * 2 ^ 9 * mag M (M.div (M.sub vmax vmin) (literal codes 1)) :=
      mul_le_mul_of_nonneg_right (by linarith [hconst.le]) hscaleNonneg
    rw [hslack] at hlower hupper
    linarith) (by norm_num) (by norm_num)
  refine convertible_add hflush hbound.1 finite_half ?_
  rw [mag_half]
  linarith [hbound.2]

end Block

end Qtx.RangeConversions
