import Qtx.SignedConversions

/-!
# Encoders whose conversions are always defined

The grids and the integer formats divide by a largest value, as the signed scales do.
-/
namespace Qtx.DefinedConversions

open Qtx.ByteStreams Qtx.FloatWords Qtx.FloatMachine Qtx.FpeGuard Qtx.QuantizerHelpers Qtx.FloatScans
  Qtx.FloatErrors Qtx.ScanBounds Qtx.IntegerConversions Qtx.ConversionBounds Qtx.EncoderScales Qtx.LegacyBlocks
  Qtx.KQuants Qtx.IQuants Qtx.ScaledEncoders

variable {M : Machine}

section Grids

variable {plan : ℕ → Ib32Plan} {dSuper : BitVec 32} {factor : ℕ} {b : ℚ}

theorem convertible_gridConversions (hflush : M.flush = true) (hsuper : IsFinite dSuper) (hne : mag M dSuper ≠ 0)
    (hb : b ≤ 2 ^ 20)
    (hplan : ∀ ib < 8, M.lt zero (plan ib).db = true → IsFinite (M.mul (plan ib).db (literal factor 1)) ∧
      mag M (M.mul (plan ib).db (literal factor 1)) ≤ b * mag M dSuper) :
    ∀ w ∈ gridConversions M factor dSuper plan, Convertible M w := by
  rintro w ⟨ib, hib, hpos, rfl⟩
  obtain ⟨hfin, hle⟩ := hplan ib hib hpos
  have hquot := div_bound hflush hfin hsuper hne hle (by linarith)
  have hsub := sub_bound (q := 2 * b + 1 / 2) hflush hquot.1 finite_half (by rw [mag_half]; linarith [hquot.2])
    (by linarith)
  exact convertible_nearestArgument hflush hsub.1 (by linarith [hsub.2])

/-- The scale of 32 words is far below the largest words. -/
theorem groupScale_bound (hflush : M.flush = true) {divisor : ℕ} (hdivisor : Constant M (literal divisor 1))
    (hlarge : 14 ≤ mag M (literal divisor 1)) {xval : ℕ → BitVec 32} (hx : ∀ j, IsFinite (xval j)) :
    IsFinite (groupScale M divisor xval) ∧ mag M (groupScale M divisor xval) ≤ 2 ^ 125 := by
  have hmax : IsFinite (positiveMax M xval 32) := finite_positiveMax (fun j _ => hx j)
  have hlt := mag_lt (M := M) hmax
  have hslack : slack = 1001 / 1000 := rfl
  unfold groupScale
  dsimp only
  split_ifs
  · have happrox := div_constant hflush hdivisor.finite hdivisor.two_le hmax
    refine ⟨happrox.finite, happrox.upper.trans ?_⟩
    rw [hslack, mul_div_assoc', div_le_iff₀ (by linarith)]
    linarith
  · exact ⟨finite_zero, by rw [mag_zero]; norm_num⟩

/-- The plan with the largest scale, when a super-block is encoded at all. -/
structure LargestPlan (M : Machine) (plan : ℕ → Ib32Plan) : Prop where
  finite : IsFinite (maxPlan M plan)
  large : 1 / 2 ^ 100 ≤ mag M (maxPlan M plan)
  le : mag M (maxPlan M plan) ≤ 2 ^ 125
  plans : ∀ ib < 8, M.lt zero (plan ib).db = true →
    IsFinite (plan ib).db ∧ mag M (plan ib).db ≤ mag M (maxPlan M plan)

theorem largestPlan (hflush : M.flush = true) {group : (ℕ → BitVec 32) → SignedGroup} {divisor size : ℕ}
    {search : (ℕ → BitVec 32) → ℕ} {blk : ℕ → BitVec 32} (hdivisor : Constant M (literal divisor 1))
    (hlarge : 14 ≤ mag M (literal divisor 1)) (hgroup : FiniteGroups group)
    (h : ¬ M.lt (maxPlan M (plans M group divisor size search blk)) tiny = true) :
    LargestPlan M (plans M group divisor size search blk) := by
  have hplan : ∀ ib, IsFinite (plans M group divisor size search blk ib).db ∧
      mag M (plans M group divisor size search blk ib).db ≤ 2 ^ 125 := by
    intro ib
    rw [db_plans]
    exact groupScale_bound hflush hdivisor hlarge (finite_groupValues (fun _ _ => hgroup _ _))
  have hfin : ∀ ib < 8, IsFinite (plans M group divisor size search blk ib).db := fun ib _ => (hplan ib).1
  obtain ⟨hnonneg, hmax⟩ := real_le_positiveMax hfin
  refine ⟨finite_positiveMax hfin, le_mag_of_not_lt (finite_positiveMax hfin) hnonneg h, ?_, fun ib hib hpos => ?_⟩
  · exact positiveMax_induction M (fun v => mag M v ≤ 2 ^ 125) ((mag_zero M).trans_le (by norm_num))
      (fun ib _ => (hplan ib).2)
  · rw [lt_zero_iff (hplan ib).1] at hpos
    refine ⟨(hplan ib).1, ?_⟩
    rw [maxPlan, mag_of_real_nonneg hpos.le, mag_of_real_nonneg hnonneg]
    exact hmax ib hib

theorem convertible_conversionsIQ2 (hflush : M.flush = true) {group : (ℕ → BitVec 32) → SignedGroup} {size : ℕ}
    {search : (ℕ → BitVec 32) → ℕ} {blk : ℕ → BitVec 32} (hgroup : FiniteGroups group) :
    ∀ w ∈ conversionsIQ2 M (plans M group 25 size search blk), Convertible M w := by
  have h4 : Exact 4 1 := by decide
  have h25 : Exact 25 1 := by decide
  have h31 : Exact 31 2 := by decide
  have hmag4 : mag M (literal 4 1) = 4 := by rw [h4.mag]; norm_num
  have hmag31 : mag M (literal 31 2) = 31 / 2 := by rw [h31.mag]; norm_num
  unfold conversionsIQ2
  dsimp only
  split_ifs with htiny
  · exact fun w hw => absurd hw (Set.notMem_empty w)
  · have hmax := largestPlan hflush (h25.constant (by decide) (by decide)) (by rw [h25.mag]; norm_num) hgroup htiny
    generalize plans M group 25 size search blk = plan at hmax
    have hle := hmax.le
    have hlarge := hmax.large
    have hfour := mul_approx hflush hmax.finite h4.finite (by rw [hmag4]; linarith)
    rw [hmag4] at hfour
    obtain ⟨hfourNe, hfourLe⟩ := Approx.two_ge hfour (by norm_num at hlarge ⊢; linarith)
    have hsuper := div_constant hflush h31.finite (by rw [hmag31]; norm_num) hfour.finite
    obtain ⟨hsuperNe, hsuperLe⟩ := Approx.two_ge hsuper (by
      rw [hmag31]
      norm_num at hlarge ⊢
      linarith)
    refine convertible_gridConversions (b := 2 ^ 8) hflush hsuper.finite hsuperNe (by norm_num)
      (fun ib hib hpos => ?_)
    obtain ⟨hfin, hplan⟩ := hmax.plans ib hib hpos
    have hbound := mul_bound (q := 4 * mag M (maxPlan M plan)) hflush hfin h4.finite (by rw [hmag4]; linarith)
      (by linarith)
    refine ⟨hbound.1, hbound.2.trans ?_⟩
    rw [hmag31] at hsuperLe
    linarith

end Grids

section Odd

variable {unit c amax : BitVec 32} {gmax : ℕ → BitVec 32} {n : ℕ}

/-- The odd scales, from the largest value `amax` of the super-block. -/
theorem convertible_oddConversions (hflush : M.flush = true) (hc : Constant M c) (hunit : IsFinite unit)
    (hone : 1 ≤ mag M unit) (hsmall : 4 * mag M unit ≤ mag M c) (hamax : IsFinite amax)
    (hlarge : 1 / 2 ^ 100 ≤ mag M amax) (hgmax : ∀ ib < n, IsFinite (gmax ib) ∧ mag M (gmax ib) ≤ mag M amax) :
    ∀ w ∈ oddConversions M unit (M.div amax c) gmax n, Convertible M w := by
  have hcpos : 0 < mag M c := by linarith [hc.two_le]
  have hcle := hc.le
  have hlt := mag_lt (M := M) hamax
  have hinit := div_constant hflush hc.finite hc.two_le hamax
  have hinitLarge : 1 / 2 ^ 110 ≤ mag M amax / mag M c := by
    rw [le_div_iff₀ hcpos]
    norm_num at hlarge hcle ⊢
    linarith
  obtain ⟨hinitNe, -⟩ := Approx.two_ge hinit (le_trans (by norm_num) hinitLarge)
  have hinitLe := Approx.le_two hinit (le_trans (by positivity) hinitLarge)
  have hamaxLe := Approx.dividend_le hinit hcpos.ne' hinitNe
  have hinitNonneg := mag_nonneg M (M.div amax c)
  rw [mul_div_assoc', le_div_iff₀ hcpos] at hinitLe
  have hprod : mag M unit * mag M (M.div amax c) ≤ 2 ^ 127 := by nlinarith
  have hmul := mul_approx hflush hunit hinit.finite hprod
  have hself : mag M (M.div amax c) ≤ mag M unit * mag M (M.div amax c) := le_mul_of_one_le_left hinitNonneg hone
  obtain ⟨hmulNe, hmulLe⟩ := Approx.two_ge hmul ((le_mag hflush hinitNe).trans hself)
  rintro w ⟨ib, hib, -, rfl⟩
  obtain ⟨hgfin, hgle⟩ := hgmax ib hib
  have hquot := div_bound (q := 2 ^ 11) hflush hgfin hmul.finite hmulNe (by
    calc mag M (gmax ib) ≤ mag M amax := hgle
      _ ≤ 2 * mag M c * mag M (M.div amax c) := hamaxLe
      _ ≤ 2 * mag M c * (2 * mag M (M.mul unit (M.div amax c))) :=
        mul_le_mul_of_nonneg_left (hself.trans hmulLe) (by positivity)
      _ = 4 * mag M c * mag M (M.mul unit (M.div amax c)) := by ring
      _ ≤ 2 ^ 11 * mag M (M.mul unit (M.div amax c)) :=
        mul_le_mul_of_nonneg_right (by linarith) (mag_nonneg M _)) (by norm_num)
  have hsub := sub_bound (q := 2 ^ 13) hflush hquot.1 finite_one (by rw [mag_one]; linarith [hquot.2]) (by norm_num)
  have hhalf :=
    mul_bound (q := 2 ^ 13) hflush hsub.1 finite_half (by rw [mag_half]; linarith [hsub.2]) (by norm_num)
  exact convertible_nearestArgument hflush hhalf.1 (hhalf.2.trans (by norm_num))

/-- The largest absolute value of a super-block that is encoded at all. -/
theorem le_mag_absMax {p : ℕ → BitVec 32} (h : ¬ M.lt (absMax M p n) tiny = true) :
    1 / 2 ^ 100 ≤ mag M (absMax M p n) :=
  le_mag_of_not_lt (absMax_finite M p n)
    (real_le_positiveMax (fun _ _ => finite_fabs (finite_sanitiseFinite _))).1 h

/-- A word of the super-block, at any place the source reads it from. -/
theorem mag_part_le {block : Bytes} {q : ℕ → BitVec 32} {m : ℕ} (hpart : ∀ j < m, ∃ i < 256, q j = wordAt block i) :
    mag M (absMax M q m) ≤ mag M (absMax M (wordAt block) 256) := by
  refine mag_absMax_le (fun j hj => ?_)
  obtain ⟨i, hi, heq⟩ := hpart j hj
  rw [heq]
  exact mag_le_absMax hi

end Odd

section Levels

variable (hflush : M.flush = true) (block : Bytes)

include hflush

theorem convertible_q5_0 : ∀ w ∈ conversionsQ5_0 M block, Convertible M w := by
  have h16 : Exact 16 1 := by decide
  have h33 : Exact 33 2 := by decide
  have hconst : Constant M (fneg (literal 16 1)) := (h16.constant (by decide) (by decide)).fneg
  have hmag : mag M (fneg (literal 16 1)) = 16 := by
    rw [mag_fneg, h16.mag]
    norm_num
  have happrox := div_constant hflush hconst.finite hconst.two_le (subBlockSignedAbsMax_finite M (wordAt block) 32)
  rintro w ⟨j, hj, rfl⟩
  have hword := mag_le_subBlockSignedAbsMax (M := M) (p := wordAt block) hj
  have hbound :=
    (inverse_reciprocal hflush happrox.finite).mul_bound hflush (finite_sanitiseFinite (wordAt block j))
    (fun hne => hword.trans (Approx.dividend_le happrox (by rw [hmag]; norm_num) hne))
    (by rw [hmag]; norm_num) (by rw [hmag]; norm_num)
  rw [hmag] at hbound
  exact convertible_add hflush hbound.1 h33.finite (by rw [h33.mag]; norm_num; linarith [hbound.2])

theorem convertible_q3_K : ∀ w ∈ conversionsQ3_K M block, Convertible M w := by
  have h4 : Exact 4 1 := by decide
  have h32 : Exact 32 1 := by decide
  have hmag4 : mag M (fneg (literal 4 1)) = 4 := by rw [mag_fneg, h4.mag]; norm_num
  have hmag32 : mag M (fneg (literal 32 1)) = 32 := by rw [mag_fneg, h32.mag]; norm_num
  exact convertible_signedConversions hflush (h32.constant (by decide) (by decide)).fneg hmag32.ge
    (h4.constant (by decide) (by decide)).fneg hmag4.ge (by rw [hmag32]; norm_num) (by rw [hmag32]; norm_num)

theorem convertible_q6_K : ∀ w ∈ conversionsQ6_K M block, Convertible M w := by
  have h32 : Exact 32 1 := by decide
  have h128 : Exact 128 1 := by decide
  have hmag32 : mag M (fneg (literal 32 1)) = 32 := by rw [mag_fneg, h32.mag]; norm_num
  have hmag128 : mag M (fneg (literal 128 1)) = 128 := by rw [mag_fneg, h128.mag]; norm_num
  exact convertible_signedConversions hflush (h128.constant (by decide) (by decide)).fneg
    (by rw [hmag128]; norm_num)
    (h32.constant (by decide) (by decide)).fneg (by rw [hmag32]; norm_num) (by rw [hmag128]; norm_num)
    (by rw [hmag128]; norm_num)

theorem convertible_iq4_XS : ∀ w ∈ conversionsIQ4_XS M block, Convertible M w := by
  have h32 : Exact 32 1 := by decide
  have h127 : Exact 127 1 := by decide
  have hmag32 : mag M (fneg (literal 32 1)) = 32 := by rw [mag_fneg, h32.mag]; norm_num
  have hmag127 : mag M minIQ4 = 127 := by rw [minIQ4, mag_fneg, h127.mag]; norm_num
  have hlowest : Constant M minIQ4 := (h127.constant (by decide) (by decide)).fneg
  have hfin : ∀ ib, IsFinite (subScale M 32 minIQ4 (wordAt block) ib) :=
    fun ib => (subScale_approx hflush hlowest ib).finite
  unfold conversionsIQ4_XS
  dsimp only
  split_ifs with htiny
  · exact fun w hw => absurd hw (Set.notMem_empty w)
  · have hextreme : Extreme M (fneg (literal 32 1)) (extremeScale M (subScale M 32 minIQ4 (wordAt block)) 8).2 :=
      extreme_subScale hflush (h32.constant (by decide) (by decide)).fneg hmag32.ge hlowest
        (by rw [hmag127]; norm_num) htiny
    rintro w ⟨ib, hib, rfl⟩
    obtain ⟨happrox, hbound⟩ := hextreme.level_approx hflush (hfin ib) (mag_le_extremeScale (fun j _ => hfin j) hib)
    exact convertible_nearestArgument hflush happrox.finite (hbound.trans (by norm_num))

theorem convertible_iq3_XXS (C : Codebooks) : ∀ w ∈ conversionsIQ3_XXS M C block, Convertible M w := by
  have h2 : Exact 2 1 := by decide
  have h14 : Exact 14 1 := by decide
  have h31 : Exact 31 4 := by decide
  have hmag2 : mag M (literal 2 1) = 2 := by rw [h2.mag]; norm_num
  have hmag31 : mag M (literal 31 4) = 31 / 4 := by rw [h31.mag]; norm_num
  unfold conversionsIQ3_XXS
  dsimp only
  split_ifs with htiny
  · exact fun w hw => absurd hw (Set.notMem_empty w)
  · have hmax := largestPlan hflush (h14.constant (by decide) (by decide)) (by rw [h14.mag]; norm_num)
      finiteGroups_evenSigns htiny
    generalize plans M (evenSigns M) 14 4 (bestGridIndexU32 M C.iq3xxsGrid 256) (wordAt block) = plan at hmax
    have hle := hmax.le
    have hlarge := hmax.large
    have hsuper := div_constant hflush h31.finite (by rw [hmag31]; norm_num) hmax.finite
    obtain ⟨hsuperNe, hsuperLe⟩ := Approx.two_ge hsuper (by
      rw [hmag31]
      norm_num at hlarge ⊢
      linarith)
    refine convertible_gridConversions (b := 2 ^ 8) hflush hsuper.finite hsuperNe (by norm_num)
      (fun ib hib hpos => ?_)
    obtain ⟨hfin, hplan⟩ := hmax.plans ib hib hpos
    have hbound := mul_bound (q := 2 * mag M (maxPlan M plan)) hflush hfin h2.finite (by rw [hmag2]; linarith)
      (by linarith)
    refine ⟨hbound.1, hbound.2.trans ?_⟩
    rw [hmag31] at hsuperLe
    linarith

/-- The two IQ1 formats, which differ in the size of the parts that get a scale. -/
theorem convertible_iq1 {size n : ℕ} (hparts : n * size = 256)
    (htiny : ¬ M.lt (absMax M (wordAt block) 256) tiny = true) :
    ∀ w ∈ oddConversions M (literal 9 8) (M.div (absMax M (wordAt block) 256) (literal 17 1))
      (fun ib => absMax M (fun j => wordAt block (size * ib + j)) size) n, Convertible M w := by
  have h9 : Exact 9 8 := by decide
  have h17 : Exact 17 1 := by decide
  have hmag9 : mag M (literal 9 8) = 9 / 8 := by rw [h9.mag]; norm_num
  have hmag17 : mag M (literal 17 1) = 17 := by rw [h17.mag]; norm_num
  refine convertible_oddConversions hflush (h17.constant (by decide) (by decide)) h9.finite
    (by rw [hmag9]; norm_num)
    (by rw [hmag9, hmag17]; norm_num) (absMax_finite M _ _) (le_mag_absMax htiny) (fun ib hib => ?_)
  have hend : ib * size + size ≤ 256 := hparts ▸ block_end size hib
  have hcomm : size * ib = ib * size := Nat.mul_comm _ _
  exact ⟨absMax_finite M _ _, mag_part_le (fun j hj => ⟨size * ib + j, by omega, rfl⟩)⟩

theorem convertible_iq1_S : ∀ w ∈ conversionsIQ1_S M block, Convertible M w := by
  unfold conversionsIQ1_S
  dsimp only
  split_ifs with htiny
  · exact fun w hw => absurd hw (Set.notMem_empty w)
  · exact convertible_iq1 hflush block rfl htiny

theorem convertible_iq1_M : ∀ w ∈ conversionsIQ1_M M block, Convertible M w := by
  unfold conversionsIQ1_M
  dsimp only
  split_ifs with htiny
  · exact fun w hw => absurd hw (Set.notMem_empty w)
  · exact convertible_iq1 hflush block rfl htiny

theorem convertible_iq3_S : ∀ w ∈ conversionsIQ3_S M block, Convertible M w := by
  have h14 : Exact 14 1 := by decide
  have h434 : Exact 434 1 := by decide
  have hmag14 : mag M (literal 14 1) = 14 := by rw [h14.mag]; norm_num
  have hmag434 : mag M (literal 434 1) = 434 := by rw [h434.mag]; norm_num
  unfold conversionsIQ3_S
  dsimp only
  split_ifs with htiny
  · exact fun w hw => absurd hw (Set.notMem_empty w)
  · refine convertible_oddConversions hflush (h434.constant (by decide) (by decide)) h14.finite
      (by rw [hmag14]; norm_num)
      (by rw [hmag14, hmag434]; norm_num) (absMax_finite M _ _) (le_mag_absMax htiny) (fun ib32 hib => ⟨?_, ?_⟩)
    · exact finite_positiveMax (fun j _ => finite_fabs (SignParity.finite_splitSigns _))
    · refine positiveMax_induction M (fun v => mag M v ≤ mag M (absMax M (wordAt block) 256)) ?_ (fun j hj => ?_)
      · exact (mag_zero M).trans_le (mag_nonneg M _)
      · have hvalue :
          mag M (groupValues (fun k => splitSigns M (fun j => wordAt block (32 * ib32 + 8 * k + j))) j) =
            mag M (sanitiseFinite (wordAt block (32 * ib32 + 8 * (j / 8) + j % 8))) := by
          unfold groupValues splitSigns
          dsimp only
          split_ifs
          · rfl
          · exact mag_fneg M _
        rw [mag_fabs, hvalue]
        exact mag_le_absMax (by omega)

/-- The clamp of the largest absolute value does not make it small against the words. -/
theorem convertible_int {levels : ℕ} (h : Exact levels 1) (hlevels : 2 ≤ levels ∧ levels ≤ 2 ^ 9)
    (hmax : 2 ^ 23 ≤ magnitude (kMax levels) ∧ IsFinite (kMax levels))
    (hticks : 2 ^ 128 * 2 ^ 149 ≤ 2 ^ 9 * ticks (kMax levels)) :
    ∀ w ∈ intConversions M levels block, Convertible M w := by
  have hconst : Constant M (literal levels 1) := h.constant (by omega) (by omega)
  have hlarge : 2 ^ 128 ≤ 2 ^ 9 * mag M (kMax levels) := by
    rw [mag, Machine.size_of_normal hmax.1, ← mul_div_assoc, le_div_iff₀ (by positivity)]
    exact_mod_cast hticks
  have hclamp : IsFinite (clampAbsMax M levels (absMax M (wordAt block) 32)) ∧
      mag M (absMax M (wordAt block) 32) ≤ 2 ^ 9 * mag M (clampAbsMax M levels (absMax M (wordAt block) 32)) := by
    have hfin := absMax_finite M (wordAt block) 32
    have hlt := mag_lt (M := M) hfin
    have hstrict : isFiniteStrict (absMax M (wordAt block) 32) = true := (isFiniteStrict_iff _).mpr hfin
    have hnonneg := mag_nonneg M (absMax M (wordAt block) 32)
    unfold clampAbsMax
    rw [hstrict, Bool.not_true, if_neg Bool.false_ne_true]
    split_ifs
    · exact ⟨hmax.2, hlt.le.trans hlarge⟩
    · exact ⟨hfin, by linarith⟩
  unfold intConversions intScale
  dsimp only
  generalize clampAbsMax M levels (absMax M (wordAt block) 32) = a at hclamp
  rintro w ⟨i, hi, rfl⟩
  have hword := (mag_le_absMax (M := M) (p := wordAt block) hi).trans hclamp.2
  have hbound : IsFinite (M.mul (sanitiseFinite (wordAt block i))
      (positiveReciprocal M (if M.lt zero a = true then M.div a (literal levels 1) else zero))) ∧
      mag M (M.mul (sanitiseFinite (wordAt block i))
        (positiveReciprocal M (if M.lt zero a = true then M.div a (literal levels 1) else zero))) ≤ 4 * 2 ^ 20 := by
    split_ifs
    · have happrox := div_constant hflush hconst.finite hconst.two_le hclamp.1
      have hle := hconst.le
      refine (inverse_positiveReciprocal hflush happrox.finite).mul_bound hflush (finite_sanitiseFinite _)
        (fun hne => ?_) (by norm_num) (by norm_num)
      have hquot := Approx.dividend_le happrox (by linarith [hconst.two_le]) hne
      have hnonneg := mag_nonneg M (M.div a (literal levels 1))
      nlinarith
    · refine (inverse_positiveReciprocal hflush finite_zero).mul_bound hflush (finite_sanitiseFinite _)
        (fun hne => absurd (mag_zero M) hne) (by norm_num) (by norm_num)
  rw [sanitiseFinite_finite hbound.1]
  exact convertible_roundArgument hflush hbound.1 (hbound.2.trans (by norm_num))

end Levels

end Qtx.DefinedConversions
