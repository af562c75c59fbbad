import Qtx.ScanBounds
import Qtx.RestoredScales

/-!
# INT8 and INT4 blocks that are compressed again

The largest decoded value is the largest level times the scale, and its block has that level
somewhere. A second compression finds the scale and the levels that the first one stored.
-/
namespace Qtx.IntRoundTrips.IntFormat

open Qtx.BinaryFormats Qtx.ByteStreams Qtx.FloatErrors Qtx.FloatMachine Qtx.FloatScans Qtx.FloatWords
  Qtx.FlushedScales Qtx.FpeGuard Qtx.IntBlockErrors Qtx.IntKernels Qtx.LroundHalfAway Qtx.QuantizerHelpers
  Qtx.RoundingErrors Qtx.ScaledBlocks Qtx.ScaledEncoders Qtx.ScanBounds

variable {f : IntFormat} {M D : Machine} {block block' : Bytes} {r v s : BitVec 32} {j n : ℕ}

section Sizes

/-- A value is read alike by a machine that flushes subnormals when it is one of that machine's results. -/
theorem real_of_number (hflush : M.flush = true) (h : number v = real M r) : real M v = real M r := by
  by_cases hnormal : 2 ^ 23 ≤ magnitude v
  · rw [← number_eq_real hnormal, h]
  · have hread : (M.flush && decide (magnitude v < 2 ^ 23)) = true := by
      rw [hflush, Bool.true_and, decide_eq_true (Nat.not_le.mp hnormal)]
    have hsize : M.size v = 0 := if_pos hread
    have hsmall : |number v| < 1 / 2 ^ 126 := by
      have hticks : ticks v < 2 ^ 23 := by
        rw [ticks, units_of_le (by omega)]
        exact Nat.not_le.mp hnormal
      have hcast : (ticks v : ℚ) < 2 ^ 23 := by exact_mod_cast hticks
      have hlt : (ticks v : ℚ) / 2 ^ 149 < 1 / 2 ^ 126 := by
        rw [div_lt_div_iff₀ (by positivity) (by positivity)]
        linarith
      have hnonneg : (0 : ℚ) ≤ ticks v / 2 ^ 149 := by positivity
      rw [number]
      split_ifs
      · rwa [abs_neg, abs_of_nonneg hnonneg]
      · rwa [abs_of_nonneg hnonneg]
    have hzero : mag M r = 0 := by
      by_contra hne
      have hlarge := le_mag hflush hne
      rw [h, abs_real] at hsmall
      linarith
    rw [real_eq_zero_iff.mpr hzero, real_eq_zero_iff, mag, hsize, Nat.cast_zero, zero_div]

theorem flushed_zero {b : ℕ} (hb : 0 < b) : flushed 0 b = 0 := by
  have hround : roundUnits 23 0 b ≤ 0 := roundUnits_le hb (Nat.zero_le _)
  exact if_pos (lt_of_le_of_lt ((min_le_left _ _).trans hround) (by decide))

theorem size_ofInt (M : Machine) (neg : Bool) (hn : n < 128) : M.size (M.ofInt (withSign neg n)) = n * 2 ^ 149 := by
  have hmag := (ofInt_exact (M := M) neg hn).2.1
  rw [mag, div_eq_iff (by positivity)] at hmag
  exact_mod_cast hmag

theorem size_eq_units (M : Machine) (v : BitVec 32) : ∃ n, M.size v = units 23 n := by
  rw [Machine.size]
  split_ifs
  · exact ⟨0, units_zero.symm⟩
  · exact ⟨magnitude v, rfl⟩

/-- A word that is not read as zero is told by its size. -/
theorem magnitude_of_size (hn : 2 ^ 23 ≤ n) (h : M.size v = units 23 n) : magnitude v = n := by
  rw [Machine.size] at h
  split_ifs at h with hlow
  · have hpos : units 23 0 < units 23 n := units_lt_units.mpr (lt_of_lt_of_le (by decide) hn)
    rw [units_zero] at hpos
    exact absurd h hpos.ne
  · exact (units_strictMono 23).injective h

/-- The size of a level times a scale. -/
theorem size_mul_level (hflush : M.flush = true) (neg : Bool) (hn : n < 128) (hs : IsFinite s) :
    M.size (M.mul (M.ofInt (withSign neg n)) s) = flushed (n * M.size s) 1 := by
  rw [Machine.mul_of_finite (ofInt_exact neg hn).1 hs, size_round hflush, size_ofInt M neg hn, Nat.mul_right_comm,
    ← flushed_mul_right _ 1 (Nat.two_pow_pos 149), Nat.one_mul]

/-- The size of a scale, in terms of the largest value of its block. -/
theorem size_intScale (f : IntFormat) (hflush : M.flush = true) (block : Bytes) :
    M.size (intScale M f.levels block) = flushed (M.size (blockMax M f.levels block)) f.levels := by
  obtain ⟨hfin, hnonneg, -⟩ := blockMax_spec f.levelCount M block
  have hlevels : M.size (literal f.levels 1) = f.levels * 2 ^ 149 := by
    have hmag := f.levelCount.mag_literal M
    rw [mag, div_eq_iff (by positivity)] at hmag
    exact_mod_cast hmag
  have hpos : 0 < f.levels := Nat.lt_of_lt_of_le Nat.two_pos f.levelCount.two_le
  have hscale : intScale M f.levels block = if M.lt zero (blockMax M f.levels block) then
      M.div (blockMax M f.levels block) (literal f.levels 1) else zero := rfl
  rw [hscale]
  split_ifs with hlt
  · rw [Machine.div_of_finite hfin f.levelCount.exact.finite (by rw [hlevels]; positivity),
      size_round hflush, hlevels, flushed_mul_right _ _ (Nat.two_pow_pos 149)]
  · rw [lt_zero_iff hfin, not_lt] at hlt
    have hzero : mag M (blockMax M f.levels block) = 0 := by
      rw [mag_of_real_nonneg hnonneg]
      exact le_antisymm hlt hnonneg
    rw [mag, div_eq_zero_iff, Nat.cast_eq_zero] at hzero
    have hzero' : M.size zero = 0 := by rw [← natAbs_value, value_zero, Int.natAbs_zero]
    rw [hzero.resolve_right (by positivity), hzero', flushed_zero hpos]

end Sizes

section Settling

/-- The words of a block that was decoded from the levels of another one. -/
def Decodes (f : IntFormat) (M D : Machine) (block block' : Bytes) : Prop :=
  ∀ j < 32, wordAt block' j = decodedWord M D f.levels block j

/-- A level of a block as a sign and a number. -/
theorem exists_level (f : IntFormat) (M : Machine) (block : Bytes) (j : ℕ) :
    ∃ neg, ∃ n ≤ f.levels, f.level M block j = withSign neg n := by
  obtain ⟨hlow, hhigh⟩ := level_bounds M f block j
  refine ⟨decide (f.level M block j < 0), (f.level M block j).natAbs, by omega, ?_⟩
  rw [withSign]
  split_ifs with hneg
  · rw [decide_eq_true_eq] at hneg
    omega
  · rw [decide_eq_true_eq] at hneg
    omega

/-- Some word of a block has the largest level. -/
theorem exists_top (f : IntFormat) (hflush : M.flush = true) (block : Bytes)
    (hne : mag M (intScale M f.levels block) ≠ 0) :
    ∃ j < 32, ∃ neg, f.level M block j = withSign neg f.levels := by
  have hscale := scaleOf_intScale f.levelCount hflush block
  have hcut := hscale.near f.levelCount hne
  obtain ⟨-, -, hmin⟩ := blockMax_spec f.levelCount M block
  have hpos : 0 < mag M (intScale M f.levels block) := lt_of_le_of_ne (mag_nonneg M _) (Ne.symm hne)
  have hle127 : (f.levels : ℚ) ≤ 127 := by exact_mod_cast f.levelCount.le
  have htwo : (2 : ℚ) ≤ f.levels := by exact_mod_cast f.levelCount.two_le
  have hmaxpos : 0 < mag M (blockMax M f.levels block) := by
    have hlow := (abs_le.mp hcut).1
    have hquot : 0 < mag M (blockMax M f.levels block) / mag M (intScale M f.levels block) := by linarith
    exact (div_pos_iff_of_pos_right hpos).mp hquot
  rcases positiveMax_mem M (fun j => fabs (sanitiseFinite (wordAt block j))) 32 with hz | ⟨j, hj, heq⟩
  · rw [absMax_eq, hz, mag_zero] at hmin
    have hle := hmin.le.trans (min_le_left _ _)
    linarith
  · refine ⟨j, hj, (sanitiseFinite (wordAt block j)).msb, ?_⟩
    obtain ⟨n, hn, hlevel, hnear, -⟩ := intLevel_near f.levelCount hflush hj hne
    have hword : mag M (sanitiseFinite (wordAt block j)) = mag M (absMax M (wordAt block) 32) := by
      rw [absMax_eq, heq, mag_fabs]
    have hbelow : mag M (blockMax M f.levels block) ≤ mag M (sanitiseFinite (wordAt block j)) := by
      rw [hword, hmin]
      exact min_le_left _ _
    rw [min_eq_right hbelow] at hnear
    have hclose := (abs_le.mp hnear).1
    rw [← div_mul_cancel₀ (mag M (blockMax M f.levels block)) hne] at hclose
    have hlow := (abs_le.mp hcut).1
    generalize mag M (blockMax M f.levels block) / mag M (intScale M f.levels block) = x at *
    have hlarge : (f.levels : ℚ) < n + 1 := by
      have hprod : x ≤ n + (1 / 2 + 1 / 2 ^ 16) := by
        refine le_of_mul_le_mul_right ?_ hpos
        linarith
      linarith
    have hlarge' : f.levels < n + 1 := by exact_mod_cast hlarge
    rw [level, hlevel, le_antisymm hn (Nat.le_of_lt_succ hlarge')]

/-- The decoded word, as the encoder reads it. -/
theorem decodedWord_real (D : Machine) (hflush : M.flush = true) (hne : mag M (intScale M f.levels block) ≠ 0)
    {neg : Bool} (hn : n ≤ f.levels) (hlevel : f.level M block j = withSign neg n) :
    IsFinite (decodedWord M D f.levels block j) ∧
      real M (decodedWord M D f.levels block j) = withSignQ neg (mag M (decodedWord M D f.levels block j)) ∧
      M.size (decodedWord M D f.levels block j) = flushed (n * M.size (intScale M f.levels block)) 1 ∧
      |mag M (decodedWord M D f.levels block j) - n * mag M (intScale M f.levels block)| ≤
        128 / 2 ^ 24 * mag M (intScale M f.levels block) := by
  have hscale := scaleOf_intScale f.levelCount hflush block
  have hn128 : n < 128 := Nat.lt_of_le_of_lt (hn.trans f.levelCount.le) (by decide)
  have hbound : (n : ℚ) * mag M (intScale M f.levels block) ≤ 2 ^ 127 := by
    have hle := (quotientOf_block f.levelCount hflush Nat.ofNat_pos hne).2.2
    exact (mul_le_mul_of_nonneg_right (Nat.cast_le.mpr hn) (mag_nonneg M _)).trans hle
  have hword : decodedWord M D f.levels block j = D.mul (D.ofInt (withSign neg n)) (intScale M f.levels block) := by
    rw [← hlevel]
    rfl
  obtain ⟨hfin, hnumber⟩ := number_decoded D hflush neg hn128 hscale.finite hne hbound
  obtain ⟨-, hreal, hnear⟩ := decoded_near hflush neg hn128 hscale.finite hscale.sign hne hbound
  have hsame := real_of_number hflush hnumber
  have hmag : mag M (D.mul (D.ofInt (withSign neg n)) (intScale M f.levels block)) =
      mag M (M.mul (M.ofInt (withSign neg n)) (intScale M f.levels block)) := by
    rw [← abs_real, hsame, abs_real]
  refine hword ▸ ⟨hfin, ?_, ?_, ?_⟩
  · rw [hsame, hmag]
    exact hreal
  · rw [← size_mul_level hflush neg hn128 hscale.finite]
    rw [mag, mag, div_left_inj' (by positivity)] at hmag
    exact_mod_cast hmag
  · rw [hmag]
    exact hnear

/-- The largest level times any scale of the format stays below the cut. -/
theorem max_not_cut (f : IntFormat) :
    flushed (f.levels * flushed (ticks (kMax f.levels)) f.levels) 1 ≤ ticks (kMax f.levels) := by
  cases f <;> decide

/-- The largest level times the scale of a block. -/
def top (f : IntFormat) (M : Machine) (block : Bytes) : ℕ :=
  flushed (f.levels * M.size (intScale M f.levels block)) 1

theorem top_le (f : IntFormat) (hflush : M.flush = true) (block : Bytes) :
    f.top M block ≤ M.size (kMax f.levels) := by
  obtain ⟨-, -, hmin⟩ := blockMax_spec f.levelCount M block
  have hle : M.size (blockMax M f.levels block) ≤ ticks (kMax f.levels) := by
    rw [← Machine.size_of_normal (M := M) f.levelCount.max_normal, ← mag_le_iff, hmin]
    exact min_le_right _ _
  have hpos : 0 < f.levels := Nat.lt_of_lt_of_le Nat.two_pos f.levelCount.two_le
  rw [Machine.size_of_normal f.levelCount.max_normal]
  refine le_trans (flushed_mono Nat.one_pos (Nat.mul_le_mul_left _ ?_)) f.max_not_cut
  rw [size_intScale f hflush]
  exact flushed_mono hpos hle

/-- Under a scale of zero every level is zero. -/
theorem level_of_zero (f : IntFormat) (h : mag M (intScale M f.levels block) = 0)
    (hflush : M.flush = true) (j : ℕ) :
    f.level M block j = 0 := by
  have hscale := intScale_eq_zero hflush h
  have hinverse : positiveReciprocal M zero = zero := by
    rw [positiveReciprocal, if_neg]
    rw [lt_zero_iff finite_zero, real_zero]
    exact lt_irrefl 0
  have hquotient : M.mul (sanitiseFinite (wordAt block j)) zero =
    signed (sanitiseFinite (wordAt block j)).msb 0 := by
    have hsize : M.size zero = 0 := by rw [← natAbs_value, value_zero, Int.natAbs_zero]
    have hmsb : zero.msb = false := by decide
    rw [Machine.mul_of_finite (finite_sanitiseFinite _) finite_zero, hsize, Nat.mul_zero,
      round_zero (Nat.two_pow_pos 149), hmsb, Bool.bne_false]
  have hmagnitude := magnitude_signed (sanitiseFinite (wordAt block j)).msb (Nat.zero_le infinity)
  have hticks : ticks (signed (sanitiseFinite (wordAt block j)).msb 0) = 0 := by rw [ticks, hmagnitude, units_zero]
  have hmag : mag M (signed (sanitiseFinite (wordAt block j)).msb 0) = 0 := by
    have hle : M.size (signed (sanitiseFinite (wordAt block j)).msb 0) ≤ 0 := (M.size_le_ticks _).trans hticks.le
    rw [mag, Nat.le_zero.mp hle, Nat.cast_zero, zero_div]
  have hfin : IsFinite (signed (sanitiseFinite (wordAt block j)).msb 0) := by
    rw [IsFinite, hmagnitude]
    decide
  have hhalf : roundedHalf 0 = 0 := by decide
  rw [level, intLevel, hscale, hinverse, hquotient, sanitiseFinite_finite hfin,
    clampInt_lround (by rw [hmag]; norm_num), hticks, hhalf, Nat.zero_min, withSign]
  simp

theorem withSignQ_injective {neg neg' : Bool} {x : ℚ} (hx : 0 < x) (h : withSignQ neg x = withSignQ neg' x) :
    neg = neg' := by
  cases neg <;> cases neg' <;> simp only [withSignQ, Bool.false_eq_true, if_true, if_false] at h ⊢ <;> linarith

/-- The quotient of a decoded word is next to its level. -/
theorem restored_level {x q t : ℚ} {r : ℕ} (hn : n ≤ f.levels) (hpos : 0 < t) (hx : |x - n * t| ≤ 128 / 2 ^ 24 * t)
    (hup : x / t ≤ q * (1 + 1 / 2 ^ 24) ^ 2 + 1 / 2 ^ 125) (hlo : q * (1 - 1 / 2 ^ 24) ^ 2 ≤ x / t)
    (hr : |(r : ℚ) - q| ≤ 1 / 2 + 1 / 2 ^ 25) : min r f.levels = n := by
  have hn127 : (n : ℚ) ≤ 127 := by exact_mod_cast hn.trans f.levelCount.le
  have hn0 : (0 : ℚ) ≤ n := Nat.cast_nonneg n
  obtain ⟨hx1, hx2⟩ := abs_le.mp hx
  obtain ⟨hr1, hr2⟩ := abs_le.mp hr
  have hquotup : x / t ≤ n + 1 / 64 := by
    rw [div_le_iff₀ hpos]
    linarith
  have hquotlo : n - 1 / 64 ≤ x / t := by
    rw [le_div_iff₀ hpos]
    linarith
  norm_num at hup hlo hr1 hr2 hquotup hquotlo
  have hlt : (r : ℚ) < n + 1 := by linarith
  have hgt : (n : ℚ) < r + 1 := by linarith
  have hlt' : r < n + 1 := by exact_mod_cast hlt
  have hgt' : n < r + 1 := by exact_mod_cast hgt
  omega

variable (h : f.Decodes M D block block')
include h

/-- The largest value of the decoded block. -/
theorem Decodes.size_blockMax (hflush : M.flush = true) (hne : mag M (intScale M f.levels block) ≠ 0) :
    M.size (blockMax M f.levels block') = f.top M block := by
  have hword : ∀ j < 32, ∃ n ≤ f.levels, M.size (sanitiseFinite (wordAt block' j)) =
      flushed (n * M.size (intScale M f.levels block)) 1 := by
    intro j hj
    obtain ⟨neg, n, hn, hlevel⟩ := f.exists_level M block j
    obtain ⟨hfin, -, hsize, -⟩ := decodedWord_real D hflush hne hn hlevel
    exact ⟨n, hn, by rw [h j hj, sanitiseFinite_finite hfin, hsize]⟩
  have hmax : M.size (absMax M (wordAt block') 32) = f.top M block := by
    apply le_antisymm
    · rcases positiveMax_mem M (fun j => fabs (sanitiseFinite (wordAt block' j))) 32 with hz | ⟨j, hj, heq⟩
      · rw [absMax_eq, hz, ← natAbs_value, value_zero, Int.natAbs_zero]
        exact Nat.zero_le _
      · obtain ⟨n, hn, hsize⟩ := hword j hj
        rw [absMax_eq, heq, Machine.size_fabs, hsize]
        exact flushed_mono Nat.one_pos (Nat.mul_le_mul_right _ hn)
    · obtain ⟨j, hj, neg, hlevel⟩ := f.exists_top hflush block hne
      obtain ⟨hfin, -, hsize, -⟩ := decodedWord_real D hflush hne le_rfl hlevel
      have hle := mag_le_absMax (M := M) (p := wordAt block') hj
      rw [mag_le_iff, h j hj, sanitiseFinite_finite hfin, hsize] at hle
      exact hle
  obtain ⟨-, -, hmin⟩ := blockMax_spec f.levelCount M block'
  have hle : mag M (absMax M (wordAt block') 32) ≤ mag M (kMax f.levels) := by
    rw [mag_le_iff, hmax]
    exact f.top_le hflush block
  rw [min_eq_left hle, mag, mag, div_left_inj' (by positivity)] at hmin
  rw [← hmax]
  exact_mod_cast hmin

/-- The scale of the decoded block, when the first one is not zero. -/
theorem Decodes.magnitude_scale (hflush : M.flush = true) (hne : mag M (intScale M f.levels block) ≠ 0) :
    magnitude (intScale M f.levels block') = magnitude (intScale M f.levels block) := by
  have hnormal := normal_of_mag hflush hne
  have hfin : magnitude (intScale M f.levels block) < infinity :=
    (scaleOf_intScale f.levelCount hflush block).finite
  have hsize := size_intScale f hflush block
  have hsize' := size_intScale f hflush block'
  have htop := f.top_le hflush block
  rw [h.size_blockMax hflush hne] at hsize'
  rw [top] at hsize' htop
  rw [Machine.size_of_normal hnormal, ticks] at hsize hsize' htop
  rw [Machine.size_of_normal f.levelCount.max_normal, ticks] at htop
  generalize magnitude (intScale M f.levels block) = n at *
  obtain ⟨v, hv⟩ := size_eq_units M (blockMax M f.levels block)
  -- the scale is a rounded quotient, and its product is not cut
  have hquotient : roundUnits 23 (units 23 v) f.levels = n := by
    rw [hv, flushed] at hsize
    split_ifs at hsize with hlow
    · have hpos : units 23 0 < units 23 n := units_lt_units.mpr (lt_of_lt_of_le (by decide) hnormal)
      rw [units_zero] at hpos
      exact absurd hsize hpos.ne'
    · have hmin : n = min (roundUnits 23 (units 23 v) f.levels) infinity := (units_strictMono 23).injective hsize
      rw [hmin] at hfin ⊢
      exact (min_eq_left ((min_lt_iff.mp hfin).resolve_right (lt_irrefl _)).le).symm
  have hge : 2 ^ 23 ≤ roundUnits 23 (f.levels * units 23 n) 1 := by
    refine le_roundUnits Nat.one_pos ?_
    rw [Nat.mul_one]
    exact (units_le_units.mpr hnormal).trans
      (Nat.le_mul_of_pos_left _ (Nat.lt_of_lt_of_le Nat.two_pos f.levelCount.two_le))
  have hlt : roundUnits 23 (f.levels * units 23 n) 1 < infinity := by
    rw [flushed_normal hge, units_le_units] at htop
    exact (min_lt_iff.mp (lt_of_le_of_lt htop f.levelCount.max_finite)).resolve_right (lt_irrefl _)
  have hrestored := f.roundUnits_restored v hnormal hquotient
  rw [flushed_normal hge, min_eq_left hlt.le, flushed_normal (by rw [hrestored]; exact hnormal), hrestored,
    min_eq_left hfin.le] at hsize'
  exact magnitude_of_size hnormal hsize'

theorem Decodes.mag_scale_zero (hflush : M.flush = true) (hz : mag M (intScale M f.levels block) = 0) :
    mag M (intScale M f.levels block') = 0 := by
  have hscale := intScale_eq_zero hflush hz
  have hmax : mag M (absMax M (wordAt block') 32) = 0 := by
    rcases positiveMax_mem M (fun j => fabs (sanitiseFinite (wordAt block' j))) 32 with heq | ⟨j, hj, heq⟩
    · rw [absMax_eq, heq, mag_zero]
    · obtain ⟨hfin, hnumber⟩ := decodedWord_zero D hscale j
      rw [absMax_eq, heq, mag_fabs, h j hj, sanitiseFinite_finite hfin, ← abs_real,
        real_of_number hflush (hnumber.trans (real_zero M).symm), real_zero, abs_zero]
  obtain ⟨-, -, hmin⟩ := blockMax_spec f.levelCount M block'
  rw [hmax, min_eq_left (mag_nonneg M _), mag, div_eq_zero_iff, Nat.cast_eq_zero] at hmin
  have hpos : 0 < f.levels := Nat.lt_of_lt_of_le Nat.two_pos f.levelCount.two_le
  rw [mag, size_intScale f hflush, hmin.resolve_right (by positivity), flushed_zero hpos, Nat.cast_zero, zero_div]

theorem Decodes.intScale_eq (hflush : M.flush = true) : intScale M f.levels block' = intScale M f.levels block := by
  rcases eq_or_ne (mag M (intScale M f.levels block)) 0 with hz | hne
  · rw [intScale_eq_zero hflush (h.mag_scale_zero hflush hz), intScale_eq_zero hflush hz]
  · refine eq_of_sign_magnitude ?_ (h.magnitude_scale hflush hne)
    rw [(scaleOf_intScale f.levelCount hflush block').sign, (scaleOf_intScale f.levelCount hflush block).sign]

/-- The levels stay. -/
theorem Decodes.level_eq (hflush : M.flush = true) (hj : j < 32) : f.level M block' j = f.level M block j := by
  rcases eq_or_ne (mag M (intScale M f.levels block)) 0 with hz | hne
  · rw [level_of_zero f hz hflush, level_of_zero f (h.mag_scale_zero hflush hz) hflush]
  · have hscale := h.intScale_eq hflush
    obtain ⟨neg, n, hn, hlevel⟩ := f.exists_level M block j
    obtain ⟨hfin, hreal, -, hword⟩ := decodedWord_real D hflush hne hn hlevel
    have hpos : 0 < mag M (intScale M f.levels block) := lt_of_le_of_ne (mag_nonneg M _) (Ne.symm hne)
    have hne' : mag M (intScale M f.levels block') ≠ 0 := by rwa [hscale]
    obtain ⟨hquot, hqsmall, -⟩ := quotientOf_block f.levelCount hflush hj hne'
    have hsanitised : sanitiseFinite (wordAt block' j) = decodedWord M D f.levels block j := by
      rw [h j hj, sanitiseFinite_finite hfin]
    rw [level, intLevel, sanitiseFinite_finite hquot.finite, clampInt_lround hqsmall, hquot.sign]
    rw [hsanitised, hscale] at hquot hqsmall ⊢
    rw [restored_level hn hpos hword hquot.upper hquot.lower (roundedHalf_mag hqsmall), hlevel]
    rcases Nat.eq_zero_or_pos n with rfl | hn1
    · simp [withSign]
    · have hpositive : 0 < mag M (decodedWord M D f.levels block j) := by
        have hn1' : (1 : ℚ) ≤ n := by exact_mod_cast hn1
        have hle := mul_le_mul_of_nonneg_right hn1' hpos.le
        linarith [(abs_le.mp hword).1]
      rw [real_eq] at hreal
      rw [withSignQ_injective hpositive hreal]

end Settling

/-- The scale and the levels are all that a stored block keeps of its words. -/
theorem encode_congr (hscale : intScale M f.levels block' = intScale M f.levels block)
    (hlevels : ∀ j < 32, f.level M block' j = f.level M block j) {k : ℕ} (hk : k < f.blockBytes) :
    f.encode M block' k = f.encode M block k := by
  cases f with
  | int8 =>
    have hbyte : ∀ b : Bytes, int8.encode M b =
        join [(4, bytesOf (intScale M int8.levels b)), (32, fun i => BitVec.ofInt 8 (int8.level M b i))] :=
          fun _ => rfl
    rw [hbyte, hbyte, hscale]
    exact join_payload _ (fun i hi => congrArg (BitVec.ofInt 8) (hlevels i hi)) hk
  | int4 =>
    have hbyte : ∀ b : Bytes, int4.encode M b = join [(4, bytesOf (intScale M int4.levels b)),
        (16, packNibbles (fun i => BitVec.ofInt 8 (int4.level M b i)))] := fun _ => rfl
    rw [hbyte, hbyte, hscale]
    refine join_payload _ (fun i hi => ?_) hk
    rw [packNibbles, packNibbles, hlevels _ (by omega), hlevels _ (by omega)]

/-- The source of the call `y` is what a call on the machine `D` decompresses from the result of `x`. -/
structure Recompresses (f : IntFormat) (M D : Machine) (n : ℕ) (x y : Call) : Prop where
  first : x.Fits 128 f.blockBytes n
  second : y.Fits 128 f.blockBytes n
  decompressed : ∃ c : Call, c.Fits f.blockBytes 128 n ∧ (∀ k < n * f.blockBytes, c.src k = (f.compress M x).2 k) ∧
    ∀ k < n * 128, y.src k = (f.decompress D c).2 k

theorem Recompresses.decodes {x y : Call} {b : ℕ} (h : f.Recompresses M D n x y) (hflush : M.flush = true)
    (hb : b < n) :
    f.Decodes M D (x.src.skip (b * 128)) (y.src.skip (b * 128)) := by
  obtain ⟨c, hc, hstored, hread⟩ := h.decompressed
  intro j hj
  have hend := block_end 128 hb
  rw [← wordAt_decompress D hflush h.first hc hstored hb hj]
  refine loadU32_congr (fun k hk => ?_)
  have hindex : b * 128 + (4 * j + k) = 4 * (b * 32 + j) + k := by ring
  rw [skip_apply, skip_apply, skip_apply, hread _ (by omega), hindex]

/-- Lossy only once: what was compressed and decompressed compresses to the bytes it came from. -/
theorem recompress_eq (f : IntFormat) {M D : Machine} (hM : M.flush = true) {n : ℕ} {x y : Call}
    (h : f.Recompresses M D n x y) :
    (f.compress M y).1 = (f.compress M x).1 ∧ ∀ j < n * f.blockBytes, (f.compress M y).2 j =
    (f.compress M x).2 j := by
  constructor
  · rw [compress_eq, compress_eq, Call.encodeBlocks, Call.encodeBlocks, Call.checked_of_fits h.first (by decide),
      Call.checked_of_fits h.second (by decide)]
  · intro j hj
    have hb : j / f.blockBytes < n := Nat.div_lt_of_lt_mul (by rwa [Nat.mul_comm])
    have hk : j % f.blockBytes < f.blockBytes := Nat.mod_lt j f.blockBytes_pos
    have hdecodes := h.decodes hM hb
    rw [← Nat.div_add_mod' j f.blockBytes, compress_apply M h.second hb hk, compress_apply M h.first hb hk]
    exact encode_congr (hdecodes.intScale_eq hM) (fun i hi => hdecodes.level_eq hM hi) hk

end Qtx.IntRoundTrips.IntFormat

namespace Qtx.IntRoundTrips

open Qtx.ByteStreams Qtx.FloatMachine

/-- What is decompressed from the stored specials, without flushing, put in their place. -/
def recompressedSpecials : Call :=
  { specialBlock with src := (IntFormat.int8.decompress plainMachine storedSpecials).2 }

theorem recompress_eq_specials : (List.range 36).map (IntFormat.int8.compress flushMachine recompressedSpecials).2 =
    (List.range 36).map (IntFormat.int8.compress flushMachine specialBlock).2 := by
  have hfits : specialBlock.Fits 128 36 1 := ⟨rfl, le_rfl, by decide, rfl⟩
  have hfits' : recompressedSpecials.Fits 128 36 1 := ⟨rfl, le_rfl, by decide, rfl⟩
  have hstored : storedSpecials.Fits 36 128 1 := ⟨rfl, le_rfl, by decide, rfl⟩
  have h := IntFormat.recompress_eq .int8 (M := flushMachine) (D := plainMachine) rfl
    ⟨hfits, hfits', storedSpecials, hstored, fun _ _ => rfl, fun _ _ => rfl⟩
  exact List.map_congr_left (fun j hj => h.2 j (List.mem_range.mp hj))

end Qtx.IntRoundTrips
