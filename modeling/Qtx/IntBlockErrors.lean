import Qtx.IntBlockScales

/-!
# How far INT8 and INT4 are off

A block is divided by its largest absolute value, which is cut at the largest value that the
levels can reach. Three roundings come before the one to a level, and one after it. Together
they add next to nothing to the half step that the level itself costs.
-/
namespace Qtx.IntBlockErrors

open Qtx.BinaryFormats Qtx.ByteStreams Qtx.ConversionBounds Qtx.FloatErrors Qtx.FloatMachine Qtx.FloatScans
  Qtx.FloatWords Qtx.FpeGuard Qtx.IntKernels Qtx.LroundHalfAway Qtx.QuantizerHelpers Qtx.RoundingErrors
  Qtx.ScaledBlocks Qtx.ScaledEncoders Qtx.ScanBounds

variable {M : Machine} {levels : ℕ} {block : Bytes} {v s : BitVec 32} {j : ℕ}

section Level

variable {q : BitVec 32} {n : ℕ}

/-- Adding a half and truncating is off by no more than a half, and by one word more just below a half. -/
theorem roundedHalf_near {N : ℕ} (h : N < 0x4B000000) :
    |(roundedHalf (units 23 N) : ℚ) - units 23 N / 2 ^ 149| ≤ 1 / 2 + 1 / 2 ^ 25 := by
  by_cases hlast : N = 0x3EFFFFFF
  · have hunits : units 23 N = (2 ^ 24 - 1) * 2 ^ 124 := by rw [hlast]; decide
    have hround : roundedHalf (units 23 N) = 1 := by rw [hlast]; decide
    rw [hround, hunits]
    norm_num
  · have heq := (roundedHalf_eq_iff N).mpr (by omega)
    have hdiv := Nat.div_add_mod (units 23 N + 2 ^ 148) (2 ^ 149)
    have hmod := Nat.mod_lt (units 23 N + 2 ^ 148) (Nat.two_pow_pos 149)
    rw [← heq] at hdiv
    have hlo : roundedHalf (units 23 N) * 2 ^ 149 ≤ units 23 N + 2 ^ 148 := by omega
    have hhi : units 23 N + 2 ^ 148 < (roundedHalf (units 23 N) + 1) * 2 ^ 149 := by omega
    have hlo' : (roundedHalf (units 23 N) : ℚ) * 2 ^ 149 ≤ units 23 N + 2 ^ 148 := by exact_mod_cast hlo
    have hhi' : (units 23 N : ℚ) + 2 ^ 148 < (roundedHalf (units 23 N) + 1) * 2 ^ 149 := by exact_mod_cast hhi
    have hticks : (units 23 N : ℚ) / 2 ^ 149 * 2 ^ 149 = units 23 N := div_mul_cancel₀ _ (by positivity)
    rw [abs_le]
    constructor
    · linarith
    · linarith

theorem roundedHalf_mag (hq : mag M q < 2 ^ 22) : |(roundedHalf (ticks q) : ℚ) - mag M q| ≤ 1 / 2 + 1 / 2 ^ 25 := by
  rw [← roundedHalf_size M, mag, Machine.size]
  split_ifs
  · have hzero : roundedHalf 0 = 0 := by decide
    rw [hzero]
    norm_num
  · exact roundedHalf_near (magnitude_lt_of_mag hq)

/-- The level has the sign of the quotient. -/
theorem clampInt_lround (hq : mag M q < 2 ^ 22) : clampInt (-levels) levels (lroundHalfAwayFast M q) =
    withSign q.msb (min (roundedHalf (ticks q)) levels) := by
  rw [lroundHalfAwayFast_eq (Nat.lt_trans (magnitude_lt_of_mag hq) (by decide)), clampInt, withSign, withSign]
  split_ifs <;> omega

theorem exact_small : ∀ n < 128, n ≠ 0 → 2 ^ 23 ≤ roundUnits 23 (n * 2 ^ 149) 1 ∧
    roundUnits 23 (n * 2 ^ 149) 1 < infinity ∧ n * 2 ^ 149 = units 23 (roundUnits 23 (n * 2 ^ 149) 1) * 1 := by
  decide +kernel

theorem natAbs_withSign (neg : Bool) (n : ℕ) : (withSign neg n).natAbs = n := by
  rw [withSign]
  split_ifs <;> simp

/-- A level is a word of its own. -/
theorem ofInt_exact (neg : Bool) (hn : n < 128) : IsFinite (M.ofInt (withSign neg n)) ∧
    mag M (M.ofInt (withSign neg n)) = n ∧ (n ≠ 0 → (M.ofInt (withSign neg n)).msb = neg) := by
  refine ⟨?_, ?_, fun hne => ?_⟩
  · rw [Machine.ofInt, Machine.finite_round_iff, natAbs_withSign]
    exact lt_of_lt_of_le (Nat.mul_lt_mul_of_pos_right hn (Nat.two_pow_pos 149)) (by decide)
  · rw [Machine.ofInt, natAbs_withSign]
    rcases eq_or_ne n 0 with rfl | hne
    · rw [Nat.zero_mul, round_zero Nat.one_pos, mag, Nat.cast_zero, div_eq_zero_iff, Nat.cast_eq_zero]
      have hle : M.size (signed (decide (withSign neg 0 < 0)) 0) ≤ units 23 0 :=
        Machine.size_le (magnitude_signed _ (Nat.zero_le _)).le
      exact .inl (Nat.le_zero.mp (by rwa [units_zero] at hle))
    · obtain ⟨hnormal, hfin, hexact⟩ := exact_small n hn hne
      have hmagnitude := magnitude_signed (decide (withSign neg n < 0)) hfin.le
      rw [round_exact hnormal hfin Nat.one_pos hexact, mag,
        Machine.size_of_normal (by rw [hmagnitude]; exact hnormal), ticks, hmagnitude, ← Nat.mul_one (units 23 _),
        ← hexact, Nat.cast_mul, Nat.cast_pow, Nat.cast_ofNat, mul_div_cancel_right₀ _ (by positivity)]
  · rw [Machine.ofInt, msb_round]
    cases neg with
    | true => exact decide_eq_true (by rw [withSign, if_pos rfl]; omega)
    | false => exact decide_eq_false (by rw [withSign, if_neg Bool.false_ne_true]; omega)

/-- A signed absolute value. -/
def withSignQ (neg : Bool) (x : ℚ) : ℚ := if neg then -x else x

theorem real_eq (M : Machine) (x : BitVec 32) : real M x = withSignQ x.msb (mag M x) := by
  rw [real, Machine.value, withSignQ, mag]
  split_ifs
  · push_cast
    ring
  · push_cast
    rfl

/-- The level times the scale, which is rounded once more. -/
theorem decoded_near (hflush : M.flush = true) (neg : Bool) (hn : n < 128) (hs : IsFinite s) (hsign : s.msb = false)
    (hne : mag M s ≠ 0) (hle : n * mag M s ≤ 2 ^ 127) : IsFinite (M.mul (M.ofInt (withSign neg n)) s) ∧
    real M (M.mul (M.ofInt (withSign neg n)) s) = withSignQ neg (mag M (M.mul (M.ofInt (withSign neg n)) s)) ∧
    |mag M (M.mul (M.ofInt (withSign neg n)) s) - n * mag M s| ≤ 128 / 2 ^ 24 * mag M s := by
  obtain ⟨hfin, hmag, hmsb⟩ := ofInt_exact (M := M) neg hn
  have hpos : 0 < mag M s := lt_of_le_of_ne (mag_nonneg M s) (Ne.symm hne)
  have hn' : (n : ℚ) ≤ 127 := by exact_mod_cast Nat.le_of_lt_succ hn
  have hn0 : (0 : ℚ) ≤ n := Nat.cast_nonneg n
  have hbound : (n : ℚ) * mag M s ≤ 127 * mag M s := mul_le_mul_of_nonneg_right hn' hpos.le
  have hround : Rounded M (M.mul (M.ofInt (withSign neg n)) s) (n * mag M s) := by
    rw [← hmag]
    exact mul_rounded hflush hfin hs (by rw [hmag]; exact hle)
  rcases eq_or_ne (mag M (M.mul (M.ofInt (withSign neg n)) s)) 0 with hz | hne'
  · have hsmall := hround.flushed hz
    have hlarge := le_mag hflush hne
    have hzero : n = 0 := by
      by_contra hn1
      have hone : (1 : ℚ) ≤ n := by exact_mod_cast Nat.one_le_iff_ne_zero.mpr hn1
      have : 1 * mag M s ≤ n * mag M s := mul_le_mul_of_nonneg_right hone hpos.le
      linarith
    refine ⟨hround.finite, ?_, ?_⟩
    · rw [real_eq_zero_iff.mpr hz, hz, withSignQ]
      simp
    · rw [hz, hzero, Nat.cast_zero, zero_mul, sub_zero, abs_zero]
      positivity
  · refine ⟨hround.finite, ?_, ?_⟩
    · have hn1 : n ≠ 0 := by
        rintro rfl
        refine hne' (le_antisymm ?_ (mag_nonneg M _))
        have hlo := hround.lower (by positivity)
        rw [Nat.cast_zero, zero_mul] at hlo
        linarith
      rw [real_eq, Machine.mul_of_finite hfin hs, msb_round, hmsb hn1, hsign, Bool.bne_false]
    · have herror := hround.error hne'
      have hlo := hround.lower (by positivity)
      have hsmall : mag M (M.mul (M.ofInt (withSign neg n)) s) / 2 ^ 24 ≤ 128 / 2 ^ 24 * mag M s := by linarith
      exact herror.trans hsmall

/-- A result that is flushed is the word of zero with its sign. -/
theorem round_eq_zero_of_mag {neg : Bool} {a b : ℕ} (hflush : M.flush = true) (hz : mag M (M.round neg a b) = 0) :
    M.round neg a b = signed neg 0 := by
  have hmag : magnitude (M.round neg a b) = _ := Machine.magnitude_round
  by_cases hread : (M.flush && decide (min (roundUnits 23 a b) infinity < 2 ^ 23)) = true
  · simp only [Machine.round, hread, if_true]
  · rw [if_neg hread] at hmag
    rw [hflush, Bool.true_and, decide_eq_true_eq, Nat.not_lt] at hread
    have hle : units 23 (2 ^ 23) ≤ M.size (M.round neg a b) := Machine.le_size le_rfl (hmag ▸ hread)
    rw [mag, div_eq_zero_iff, Nat.cast_eq_zero] at hz
    have hsize := hz.resolve_right (by positivity)
    rw [hsize] at hle
    exact absurd hle (by decide)

/-- A result that a flushing machine keeps is the result of every machine. -/
theorem round_eq_of_kept (D : Machine) {neg : Bool} {a b : ℕ} (hflush : M.flush = true)
    (hne : mag M (M.round neg a b) ≠ 0) : D.round neg a b = M.round neg a b := by
  have hkept : 2 ^ 23 ≤ min (roundUnits 23 a b) infinity := by
    by_contra hlow
    have hread : (M.flush && decide (min (roundUnits 23 a b) infinity < 2 ^ 23)) = true := by
      rw [hflush, Bool.true_and, decide_eq_true (Nat.not_le.mp hlow)]
    have hmag : magnitude (M.round neg a b) = _ := Machine.magnitude_round
    rw [if_pos hread] at hmag
    have hle : M.size (M.round neg a b) ≤ units 23 0 := Machine.size_le hmag.le
    rw [units_zero, Nat.le_zero] at hle
    exact hne (by rw [mag, hle, Nat.cast_zero, zero_div])
  have hall : ∀ N : Machine, ¬ (N.flush && decide (min (roundUnits 23 a b) infinity < 2 ^ 23)) = true := by
    intro N
    rw [Bool.and_eq_true, decide_eq_true_eq]
    exact fun hc => absurd hc.2 (Nat.not_lt.mpr hkept)
  simp only [Machine.round, hall]

theorem normal_of_mag (hflush : M.flush = true) (hne : mag M v ≠ 0) : 2 ^ 23 ≤ magnitude v := by
  by_contra hlt
  refine hne ?_
  have hread : (M.flush && decide (magnitude v < 2 ^ 23)) = true := by
    rw [hflush, Bool.true_and, decide_eq_true (Nat.not_le.mp hlt)]
  rw [mag, Machine.size, if_pos hread, Nat.cast_zero, zero_div]

theorem number_eq_real (hnormal : 2 ^ 23 ≤ magnitude v) : number v = real M v := by
  rw [number, real, Machine.value, Machine.size_of_normal hnormal]
  split_ifs
  · push_cast
    ring
  · push_cast
    rfl

theorem ofInt_machine (M D : Machine) (neg : Bool) (hn : n < 128) :
    D.ofInt (withSign neg n) = M.ofInt (withSign neg n) := by
  rw [Machine.ofInt, Machine.ofInt, natAbs_withSign]
  rcases eq_or_ne n 0 with rfl | hne
  · rw [Nat.zero_mul, round_zero Nat.one_pos, round_zero Nat.one_pos]
  · obtain ⟨hnormal, hfin, hexact⟩ := exact_small n hn hne
    rw [round_exact hnormal hfin Nat.one_pos hexact, round_exact hnormal hfin Nat.one_pos hexact]

/-- The value of the decoded word does not depend on how the decoding machine treats subnormals. -/
theorem number_decoded (D : Machine) (hflush : M.flush = true) (neg : Bool) (hn : n < 128) (hs : IsFinite s)
    (hne : mag M s ≠ 0) (hle : n * mag M s ≤ 2 ^ 127) : IsFinite (D.mul (D.ofInt (withSign neg n)) s) ∧
    number (D.mul (D.ofInt (withSign neg n)) s) = real M (M.mul (M.ofInt (withSign neg n)) s) := by
  obtain ⟨hfin, hmag, -⟩ := ofInt_exact (M := M) neg hn
  have hpos : 0 < mag M s := lt_of_le_of_ne (mag_nonneg M s) (Ne.symm hne)
  have hround : Rounded M (M.mul (M.ofInt (withSign neg n)) s) (n * mag M s) := by
    rw [← hmag]
    exact mul_rounded hflush hfin hs (by rw [hmag]; exact hle)
  have hsnormal := normal_of_mag hflush hne
  have hssize : D.size s = M.size s := by rw [Machine.size_of_normal hsnormal, Machine.size_of_normal hsnormal]
  rw [ofInt_machine M D neg hn]
  rcases eq_or_ne n 0 with rfl | hn0
  · have hsizes : ∀ N : Machine, N.size (M.ofInt (withSign neg 0)) = 0 := by
      intro N
      have hzero := (ofInt_exact (M := N) neg hn).2.1
      rw [← ofInt_machine M N neg hn]
      rw [mag, Nat.cast_zero, div_eq_zero_iff, Nat.cast_eq_zero] at hzero
      exact hzero.resolve_right (by positivity)
    have hzero : ∀ N : Machine, N.mul (M.ofInt (withSign neg 0)) s =
      signed ((M.ofInt (withSign neg 0)).msb != s.msb) 0 := by
      intro N
      rw [Machine.mul_of_finite hfin hs, hsizes, Nat.zero_mul, round_zero (Nat.two_pow_pos 149)]
    have hmagnitude := magnitude_signed ((M.ofInt (withSign neg 0)).msb != s.msb) (Nat.zero_le infinity)
    have hticks : ticks (signed ((M.ofInt (withSign neg 0)).msb != s.msb) 0) = 0 := by
      rw [ticks, hmagnitude, units_zero]
    have hreal : mag M (signed ((M.ofInt (withSign neg 0)).msb != s.msb) 0) = 0 := by
      have hle : M.size (signed ((M.ofInt (withSign neg 0)).msb != s.msb) 0) ≤ 0 :=
        (M.size_le_ticks _).trans hticks.le
      rw [mag, Nat.le_zero.mp hle, Nat.cast_zero, zero_div]
    rw [hzero, hzero, number, hticks, real_eq_zero_iff.mpr hreal]
    refine ⟨?_, by simp⟩
    rw [IsFinite, hmagnitude]
    decide
  · have hn1 : (1 : ℚ) ≤ n := by exact_mod_cast Nat.one_le_iff_ne_zero.mpr hn0
    have hlarge := le_mag hflush hne
    have hkept : mag M (M.mul (M.ofInt (withSign neg n)) s) ≠ 0 := by
      refine hround.ne_zero ?_
      have : 1 * mag M s ≤ n * mag M s := mul_le_mul_of_nonneg_right hn1 hpos.le
      linarith
    have hxnormal : 2 ^ 23 ≤ magnitude (M.ofInt (withSign neg n)) := by
      refine normal_of_mag hflush ?_
      rw [hmag]
      linarith
    have hsame : D.mul (M.ofInt (withSign neg n)) s = M.mul (M.ofInt (withSign neg n)) s := by
      rw [Machine.mul_of_finite hfin hs] at hkept ⊢
      rw [Machine.mul_of_finite hfin hs, hssize, Machine.size_of_normal (M := D) hxnormal,
        ← Machine.size_of_normal (M := M) hxnormal]
      exact round_eq_of_kept D hflush hkept
    rw [hsame]
    exact ⟨hround.finite, number_eq_real (normal_of_mag hflush hkept)⟩

end Level

section Element

/-- A value cut at a bound on either side. -/
def clampQ (bound x : ℚ) : ℚ := max (-bound) (min bound x)

theorem withSignQ_min {bound x : ℚ} (hbound : 0 ≤ bound) (hx : 0 ≤ x) (neg : Bool) :
    withSignQ neg (min x bound) = clampQ bound (withSignQ neg x) := by
  have hneg : -bound ≤ x := by linarith
  cases neg with
  | false =>
    rw [withSignQ, withSignQ, if_neg Bool.false_ne_true, if_neg Bool.false_ne_true, clampQ, min_comm,
      max_eq_right (le_min (by linarith) hneg)]
  | true =>
    rw [withSignQ, withSignQ, if_pos rfl, if_pos rfl, clampQ, min_eq_right (by linarith : -x ≤ bound),
      max_neg_neg, min_comm]

theorem abs_withSignQ_sub (neg : Bool) (x y : ℚ) : |withSignQ neg x - withSignQ neg y| = |x - y| := by
  cases neg with
  | false => rfl
  | true =>
    rw [withSignQ, withSignQ, if_pos rfl, if_pos rfl, ← abs_neg]
    congr 1
    ring

/-- The steps from the exact quotient to the level, in units of the scale. -/
theorem level_near {x w c q : ℚ} {r : ℕ} (hlevels : 2 ≤ levels ∧ levels ≤ 127)
    (hup : x ≤ q * (1 + 1 / 2 ^ 24) ^ 2 + 1 / 2 ^ 125) (hlo : q * (1 - 1 / 2 ^ 24) ^ 2 ≤ x)
    (hr : |(r : ℚ) - q| ≤ 1 / 2 + 1 / 2 ^ 25) (hc : |c - levels| ≤ levels / 2 ^ 24) (hw : w = min x c) :
    |((min r levels : ℕ) : ℚ) - w| ≤ 1 / 2 + 1 / 2 ^ 16 := by
  have htwo : (2 : ℚ) ≤ levels := by exact_mod_cast hlevels.1
  have hle : (levels : ℚ) ≤ 127 := by exact_mod_cast hlevels.2
  obtain ⟨hr1, hr2⟩ := abs_le.mp hr
  obtain ⟨hc1, hc2⟩ := abs_le.mp hc
  norm_num at hup hlo hr1 hr2 hc1 hc2 ⊢
  rcases le_or_gt x c with hcut | hcut
  · -- the value is not cut, and its quotient is too small to be
    have hqle : q ≤ levels + 1 / 2 ^ 12 := by norm_num; linarith
    have hround : r ≤ levels := by
      have hlt : (r : ℚ) < levels + 1 := by norm_num at hqle; linarith
      have hlt' : r < levels + 1 := by exact_mod_cast hlt
      exact Nat.le_of_lt_succ hlt'
    have hmin : min (r : ℚ) levels = r := min_eq_left (by exact_mod_cast hround)
    norm_num at hqle
    rw [hw, min_eq_left hcut, hmin, abs_le]
    constructor
    · linarith
    · linarith
  · -- the value is cut, and the level with it
    have hqge : levels - 1 / 2 ^ 12 ≤ q := by norm_num; linarith
    have hround : levels ≤ r := by
      have hlt : (levels : ℚ) < r + 1 := by norm_num at hqge; linarith
      have hlt' : levels < r + 1 := by exact_mod_cast hlt
      exact Nat.le_of_lt_succ hlt'
    have hmin : min (r : ℚ) levels = levels := min_eq_right (by exact_mod_cast hround)
    rw [hw, min_eq_right hcut.le, hmin, abs_le]
    constructor
    · linarith
    · linarith

/-- What a decoder on the machine `D` makes of the level that an encoder on `M` stored. -/
def decodedWord (M D : Machine) (levels : ℕ) (block : Bytes) (j : ℕ) : BitVec 32 :=
  D.mul (D.ofInt (intLevel M levels (positiveReciprocal M (intScale M levels block)) (wordAt block j)))
    (intScale M levels block)

/-- The cut value is as many scales as there are levels. -/
theorem ScaleOf.near {a : ℚ} (hs : ScaleOf M levels a s) (h : LevelCount levels) (hne : mag M s ≠ 0) :
    |a / mag M s - levels| ≤ levels / 2 ^ 24 := by
  have htwo : (2 : ℚ) ≤ levels := by exact_mod_cast h.two_le
  have hpos : 0 < mag M s := lt_of_le_of_ne (mag_nonneg M s) (Ne.symm hne)
  have hscaled : a / mag M s - levels = levels / mag M s * (a / levels - mag M s) := by
    field_simp
  rw [hscaled, abs_mul, abs_of_pos (by positivity : (0 : ℚ) < levels / mag M s), abs_sub_comm]
  calc levels / mag M s * |mag M s - a / levels| ≤ levels / mag M s * (mag M s / 2 ^ 24) :=
        mul_le_mul_of_nonneg_left (hs.error hne) (by positivity)
    _ = levels / 2 ^ 24 := by field_simp

/-- The quotient of a word of a block, under a scale that is not zero. -/
theorem quotientOf_block (h : LevelCount levels) (hflush : M.flush = true) (hj : j < 32)
    (hne : mag M (intScale M levels block) ≠ 0) : QuotientOf M (sanitiseFinite (wordAt block j))
        (M.mul (sanitiseFinite (wordAt block j)) (positiveReciprocal M (intScale M levels block)))
        (mag M (intScale M levels block)) ∧
      mag M (M.mul (sanitiseFinite (wordAt block j)) (positiveReciprocal M (intScale M levels block))) < 2 ^ 22 ∧
      levels * mag M (intScale M levels block) ≤ 2 ^ 127 := by
  have hscale := scaleOf_intScale h hflush block
  obtain ⟨-, -, hamin⟩ := blockMax_spec h M block
  have hasmall : mag M (blockMax M levels block) ≤ 2 ^ 126 := by
    rw [hamin]
    exact (min_le_right _ _).trans (h.max_le M)
  have hword := mag_word_le M block h hj
  have hcut := hscale.near h hne
  generalize intScale M levels block = s at *
  generalize mag M (blockMax M levels block) = a at *
  have hlevels : (2 : ℚ) ≤ levels := by exact_mod_cast h.two_le
  have hle127 : (levels : ℚ) ≤ 127 := by exact_mod_cast h.le
  have hpos : 0 < mag M s := lt_of_le_of_ne (mag_nonneg M s) (Ne.symm hne)
  have hupS : a ≤ 128 * mag M s := by
    rw [← div_le_iff₀ hpos]
    linarith [(abs_le.mp hcut).2]
  have hloS : (levels - levels / 2 ^ 24) * mag M s ≤ a := by
    rw [← le_div_iff₀ hpos]
    linarith [(abs_le.mp hcut).1]
  have hsle : mag M s ≤ 2 ^ 126 := by
    have : 1 * mag M s ≤ (levels - levels / 2 ^ 24) * mag M s := mul_le_mul_of_nonneg_right (by linarith) hpos.le
    linarith
  have hquot := quotientOf_mul hflush (finite_sanitiseFinite _) hscale.finite hscale.sign hne hsle
    (v := sanitiseFinite (wordAt block j)) (by linarith)
  have hratio : mag M (sanitiseFinite (wordAt block j)) / mag M s ≤ 2 ^ 16 := by
    rw [div_le_iff₀ hpos]
    linarith
  refine ⟨hquot, ?_, by linarith⟩
  have := hquot.lower
  linarith

/-- The level of a word, in units of a scale that is not zero. -/
theorem intLevel_near (h : LevelCount levels) (hflush : M.flush = true) (hj : j < 32)
    (hne : mag M (intScale M levels block) ≠ 0) : ∃ n ≤ levels,
    intLevel M levels (positiveReciprocal M (intScale M levels block)) (wordAt block j) =
        withSign (sanitiseFinite (wordAt block j)).msb n ∧
      |n * mag M (intScale M levels block) -
          min (mag M (sanitiseFinite (wordAt block j))) (mag M (blockMax M levels block))| ≤
        (1 / 2 + 1 / 2 ^ 16) * mag M (intScale M levels block) ∧
      (n : ℚ) * mag M (intScale M levels block) ≤ 2 ^ 127 := by
  obtain ⟨hquot, hqsmall, hsle⟩ := quotientOf_block h hflush hj hne
  have hcut := (scaleOf_intScale h hflush block).near h hne
  generalize intScale M levels block = s at *
  generalize mag M (blockMax M levels block) = a at *
  have hpos : 0 < mag M s := lt_of_le_of_ne (mag_nonneg M s) (Ne.symm hne)
  have hnear := level_near ⟨h.two_le, h.le⟩ hquot.upper hquot.lower (roundedHalf_mag hqsmall) hcut rfl
  have hlevel : intLevel M levels (positiveReciprocal M s) (wordAt block j) =
    withSign (sanitiseFinite (wordAt block j)).msb
      (min (roundedHalf (ticks (M.mul (sanitiseFinite (wordAt block j)) (positiveReciprocal M s)))) levels) := by
    rw [intLevel, sanitiseFinite_finite hquot.finite, clampInt_lround hqsmall, hquot.sign]
  rw [min_div_div_right hpos.le] at hnear
  generalize hn : min (roundedHalf (ticks (M.mul (sanitiseFinite (wordAt block j)) (positiveReciprocal M s))))
    levels = n at *
  have hle : n ≤ levels := hn ▸ min_le_right _ _
  refine ⟨n, hle, hlevel, ?_, ?_⟩
  · have hw : ∀ w : ℚ, n * mag M s - w = (n - w / mag M s) * mag M s :=
      fun w => by rw [sub_mul, div_mul_cancel₀ _ hne]
    rw [hw, abs_mul, abs_of_pos hpos]
    exact mul_le_mul_of_nonneg_right hnear hpos.le
  · exact (mul_le_mul_of_nonneg_right (Nat.cast_le.mpr hle) hpos.le).trans hsle

/-- The error of one element, under a scale that is not zero. -/
theorem decodedWord_near (D : Machine) (h : LevelCount levels) (hflush : M.flush = true) (hj : j < 32)
    (hne : mag M (intScale M levels block) ≠ 0) : IsFinite (decodedWord M D levels block j) ∧
    |number (decodedWord M D levels block j) -
        clampQ (real M (blockMax M levels block)) (real M (sanitiseFinite (wordAt block j)))| ≤
      (1 / 2 + 1 / 2 ^ 15) * mag M (intScale M levels block) := by
  obtain ⟨n, hn, hlevel, hnear, hbound⟩ := intLevel_near h hflush hj hne
  obtain ⟨-, hanonneg, -⟩ := blockMax_spec h M block
  have hscale := scaleOf_intScale h hflush block
  unfold decodedWord
  rw [hlevel]
  generalize intScale M levels block = s at *
  have hn128 : n < 128 := Nat.lt_of_le_of_lt (hn.trans h.le) (by decide)
  obtain ⟨-, hreal, hdecoded⟩ :=
    decoded_near hflush (sanitiseFinite (wordAt block j)).msb hn128 hscale.finite hscale.sign
    hne hbound
  obtain ⟨hfin, hnumber⟩ :=
    number_decoded D hflush (sanitiseFinite (wordAt block j)).msb hn128 hscale.finite hne hbound
  refine ⟨hfin, ?_⟩
  rw [hnumber]
  generalize mag M (M.mul (M.ofInt (withSign (sanitiseFinite (wordAt block j)).msb n)) s) = d at *
  rw [hreal, real_eq M (sanitiseFinite (wordAt block j)), ← mag_of_real_nonneg hanonneg,
    ← withSignQ_min (mag_nonneg M _) (mag_nonneg M _), abs_withSignQ_sub]
  generalize min (mag M (sanitiseFinite (wordAt block j))) (mag M (blockMax M levels block)) = w at *
  calc |d - w| = |(d - n * mag M s) + (n * mag M s - w)| := by rw [sub_add_sub_cancel]
    _ ≤ |d - n * mag M s| + |n * mag M s - w| := abs_add_le _ _
    _ ≤ 128 / 2 ^ 24 * mag M s + (1 / 2 + 1 / 2 ^ 16) * mag M s := add_le_add hdecoded hnear
    _ ≤ (1 / 2 + 1 / 2 ^ 15) * mag M s := by linarith [mag_nonneg M s]

end Element

end Qtx.IntBlockErrors
