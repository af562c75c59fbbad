import Qtx.GridReads
import Qtx.IntegerConversions

/-!
# What the encoders take from their conversions

An undefined conversion may answer anything. Two machines that differ in such answers alone
write the same bytes for a block if they agree on the words that are listed for its encoder,
so that the lists leave out no conversion that the bytes depend on.
-/
namespace Qtx.ConversionReads

open Qtx.ByteStreams Qtx.FloatWords Qtx.FloatMachine Qtx.FpeGuard Qtx.QuantizerHelpers Qtx.LegacyBlocks Qtx.KQuants
  Qtx.IQuants Qtx.BlockFormats Qtx.ScaledEncoders Qtx.LevelReads Qtx.GridReads Qtx.IntegerConversions

variable {M : Machine} {g : BitVec 32 → ℤ} {block : Bytes}

/-- The answers agree with those of the machine itself on some words. -/
def AgreeOn (M : Machine) (g : BitVec 32 → ℤ) (s : Set (BitVec 32)) : Prop :=
  ∀ w ∈ s, (answering M g).toInt w = M.toInt w

/-! What has no conversion in it is the same on both machines. -/

section Same

variable (M : Machine) (g : BitVec 32 → ℤ)

theorem sub_answering : (answering M g).sub = M.sub := rfl

theorem mul_answering : (answering M g).mul = M.mul := rfl

theorem div_answering : (answering M g).div = M.div := rfl

theorem ofInt_answering : (answering M g).ofInt = M.ofInt := rfl

theorem lt_answering : (answering M g).lt = M.lt := rfl

theorem subBlockMinMax_answering : subBlockMinMax (answering M g) = subBlockMinMax M := rfl

theorem subBlockSignedAbsMax_answering : subBlockSignedAbsMax (answering M g) = subBlockSignedAbsMax M := rfl

theorem extremeScale_answering : extremeScale (answering M g) = extremeScale M := rfl

theorem subScale_answering : subScale (answering M g) = subScale M := rfl

theorem absMax_answering : absMax (answering M g) = absMax M := rfl

theorem positiveMax_answering : positiveMax (answering M g) = positiveMax M := rfl

theorem reciprocal_answering : reciprocal (answering M g) = reciprocal M := rfl

theorem positiveReciprocal_answering : positiveReciprocal (answering M g) = positiveReciprocal M := rfl

theorem bestIndexIQ4_answering : bestIndexIQ4 (answering M g) = bestIndexIQ4 M := rfl

theorem encodeIQ4_NL_answering : encodeIQ4_NL (answering M g) = encodeIQ4_NL M := rfl

theorem isZeroRange_answering : isZeroRange (answering M g) = isZeroRange M := rfl

theorem splitSigns_answering : splitSigns (answering M g) = splitSigns M := rfl

theorem evenSigns_answering : evenSigns (answering M g) = evenSigns M := rfl

theorem plans_answering : plans (answering M g) = plans M := rfl

theorem maxPlan_answering : maxPlan (answering M g) = maxPlan M := rfl

theorem bestGridIndexU64_answering : bestGridIndexU64 (answering M g) = bestGridIndexU64 M := rfl

theorem bestGridIndexU32_answering : bestGridIndexU32 (answering M g) = bestGridIndexU32 M := rfl

theorem intScale_answering : intScale (answering M g) = intScale M := rfl

end Same

section Conversions

variable {x : BitVec 32}

theorem nearestInt_answering (h : (answering M g).toInt (nearestArgument M x) = M.toInt (nearestArgument M x)) :
    nearestInt (answering M g) x = nearestInt M x := by
  change (if M.le zero x then (answering M g).toInt (M.add x half)
    else -(answering M g).toInt (M.add (fneg x) half)) =
    if M.le zero x then M.toInt (M.add x half) else -M.toInt (M.add (fneg x) half)
  unfold nearestArgument at h
  split_ifs at h ⊢
  · exact h
  · rw [h]

theorem rangeLevel_answering {top : ℤ} {vmin id v : BitVec 32}
    (h : (answering M g).toInt (rangeArgument M vmin id v) = M.toInt (rangeArgument M vmin id v)) :
    rangeLevel (answering M g) top vmin id v = rangeLevel M top vmin id v :=
  congrArg (fun i => (clampInt 0 top i).toNat) h

theorem intLevel_answering {levels : ℤ} {invScale v : BitVec 32}
    (h : (answering M g).toInt (roundArgument M (sanitiseFinite (M.mul (sanitiseFinite v) invScale))) =
      M.toInt (roundArgument M (sanitiseFinite (M.mul (sanitiseFinite v) invScale)))) :
    intLevel (answering M g) levels invScale v = intLevel M levels invScale v :=
  congrArg (clampInt (-levels) levels) h

end Conversions

/-! Blocks with one scale. -/

theorem encodeQ4_1_answering (h : AgreeOn M g (conversionsQ4_1 M block)) :
    encodeQ4_1 (answering M g) block = encodeQ4_1 M block := by
  unfold encodeQ4_1
  rw [subBlockMinMax_answering]
  unfold conversionsQ4_1 rangeConversions at h
  generalize subBlockMinMax M (wordAt block) 32 = extremes at h ⊢
  exact packQ4_1_congr fun j hj => rangeLevel_answering (h _ ⟨j, hj, rfl⟩)

theorem encodeQ5_1_answering (h : AgreeOn M g (conversionsQ5_1 M block)) :
    encodeQ5_1 (answering M g) block = encodeQ5_1 M block := by
  unfold encodeQ5_1
  rw [subBlockMinMax_answering]
  unfold conversionsQ5_1 rangeConversions at h
  generalize subBlockMinMax M (wordAt block) 32 = extremes at h ⊢
  exact packQ5_1_congr fun j hj => rangeLevel_answering (h _ ⟨j, hj, rfl⟩)

theorem encodeQ5_0_answering (h : AgreeOn M g (conversionsQ5_0 M block)) :
    encodeQ5_0 (answering M g) block = encodeQ5_0 M block := by
  simp only [encodeQ5_0]
  exact packQ5_0_congr fun j hj => congrArg (fun i => (clampInt 0 31 i).toNat) (h _ ⟨j, hj, rfl⟩)

/-! Sub-blocks between two extremes. -/

section Ranges

variable {s : RangeShape} {blk : ℕ → BitVec 32}

theorem scale_rangePlan (M : Machine) (s : RangeShape) (blk : ℕ → BitVec 32) (ib : ℕ) :
    (rangePlan M s blk).scale ib = (clampInt 0 s.top (nearestInt M
      (M.mul (inverseMax M s (maxRanges M s blk).1) (subRange M s blk ib).1))).toNat := by
  unfold rangePlan inverseMax
  generalize maxRanges M s blk = largest
  rfl

theorem min_rangePlan (M : Machine) (s : RangeShape) (blk : ℕ → BitVec 32) (ib : ℕ) : (rangePlan M s blk).min ib =
    (clampInt 0 s.top (nearestInt M
      (M.mul (inverseMax M s (maxRanges M s blk).2) (subRange M s blk ib).2))).toNat := by
  unfold rangePlan inverseMax
  generalize maxRanges M s blk = largest
  rfl

theorem level_rangePlan (M : Machine) (s : RangeShape) (blk : ℕ → BitVec 32) (i : ℕ) : (rangePlan M s blk).level i =
    if M.eq (localScale M s blk (i / s.subSize)) zero then 0
    else (clampInt 0 s.codes (nearestInt M
      (M.mul (M.add (sanitiseFinite (blk i)) (localMin M s blk (i / s.subSize)))
        (M.div one (localScale M s blk (i / s.subSize)))))).toNat := by
  unfold localScale localMin rangePlan
  generalize maxRanges M s blk = largest
  rfl

theorem localScale_answering {ib : ℕ}
    (h : (rangePlan (answering M g) s blk).scale ib = (rangePlan M s blk).scale ib) :
    localScale (answering M g) s blk ib = localScale M s blk ib :=
  congrArg (fun k => M.mul (rangePlan M s blk).d (QuantizerHelpers.ofNat M k)) h

theorem localMin_answering {ib : ℕ} (h : (rangePlan (answering M g) s blk).min ib = (rangePlan M s blk).min ib) :
    localMin (answering M g) s blk ib = localMin M s blk ib :=
  congrArg (fun k => M.mul (rangePlan M s blk).dmin (QuantizerHelpers.ofNat M k)) h

theorem rangePlan_answering (h : AgreeOn M g (planConversions M s blk ∪ levelConversions M s blk)) :
    LevelReads.SamePlan s (rangePlan (answering M g) s blk) (rangePlan M s blk) := by
  have hscale : ∀ ib < s.subBlocks, (rangePlan (answering M g) s blk).scale ib = (rangePlan M s blk).scale ib := by
    intro ib hib
    rw [scale_rangePlan, scale_rangePlan]
    exact congrArg (fun i => (clampInt 0 s.top i).toNat) (nearestInt_answering (h _ (.inl ⟨ib, hib, .inl rfl⟩)))
  have hmin : ∀ ib < s.subBlocks, (rangePlan (answering M g) s blk).min ib = (rangePlan M s blk).min ib := by
    intro ib hib
    rw [min_rangePlan, min_rangePlan]
    exact congrArg (fun i => (clampInt 0 s.top i).toNat) (nearestInt_answering (h _ (.inl ⟨ib, hib, .inr rfl⟩)))
  refine ⟨rfl, rfl, hscale, hmin, fun i hi => ?_⟩
  have hib : i / s.subSize < s.subBlocks := Nat.div_lt_of_lt_mul (by rwa [Nat.mul_comm])
  rw [level_rangePlan, level_rangePlan, localScale_answering (hscale _ hib), localMin_answering (hmin _ hib)]
  change (if M.eq (localScale M s blk (i / s.subSize)) zero then 0 else _) = _
  split_ifs with hzero
  · rfl
  · exact congrArg (fun i => (clampInt 0 s.codes i).toNat)
      (nearestInt_answering (h _ (.inr ⟨i, hi, Bool.eq_false_iff.mpr hzero, rfl⟩)))

theorem encodeQ2_K_answering (h : AgreeOn M g (conversionsQ2_K M block)) :
    encodeQ2_K (answering M g) block = encodeQ2_K M block := by
  have hplan := rangePlan_answering h
  simp only [encodeQ2_K, hplan.d, hplan.dmin]
  exact packQ2_K_congr hplan.scale hplan.min hplan.level

theorem encodeQ4_K_answering (h : AgreeOn M g (conversionsQ4_K M block)) :
    encodeQ4_K (answering M g) block = encodeQ4_K M block := by
  unfold encodeQ4_K
  unfold conversionsQ4_K at h
  rw [isZeroRange_answering]
  split_ifs at h ⊢
  · rfl
  · have hplan := rangePlan_answering h
    simp only [hplan.d, hplan.dmin]
    exact packQ4_K_congr hplan.scale hplan.min hplan.level

theorem encodeQ5_K_answering (h : AgreeOn M g (conversionsQ5_K M block)) :
    encodeQ5_K (answering M g) block = encodeQ5_K M block := by
  unfold encodeQ5_K
  unfold conversionsQ5_K at h
  rw [isZeroRange_answering]
  split_ifs at h ⊢
  · rfl
  · have hplan := rangePlan_answering h
    simp only [hplan.d, hplan.dmin]
    exact packQ5_K_congr hplan.scale hplan.min hplan.level

end Ranges

/-! Sub-blocks with a signed scale. -/

section Signed

variable {lo hi : ℤ} {lowest unit : BitVec 32} {blk : ℕ → BitVec 32}

/-- The scales and the levels that are stored for a super-block. -/
theorem signed_answering (hnonzero : ¬ M.lt (extremeScale M (subScale M 16 lowest blk) 16).1 tiny = true)
    (h : AgreeOn M g (signedConversions M lowest unit lo hi blk)) :
    let iscale := M.div unit (extremeScale M (subScale M 16 lowest blk) 16).2
    let scale (N : Machine) ib := signedScale N lo hi iscale (subScale M 16 lowest blk ib)
    (∀ ib < 16, scale (answering M g) ib = scale M ib) ∧ ∀ (llo lhi : ℤ), ∀ i < 256,
      signedLevel (answering M g) llo lhi (M.mul (M.div one iscale) (M.ofInt (scale (answering M g) (i / 16))))
        (sanitiseFinite (blk i)) =
      signedLevel M llo lhi (M.mul (M.div one iscale) (M.ofInt (scale M (i / 16)))) (sanitiseFinite (blk i)) := by
  unfold signedConversions at h
  dsimp only at h ⊢
  rw [if_neg hnonzero] at h
  clear hnonzero
  generalize extremeScale M (subScale M 16 lowest blk) 16 = extreme at *
  generalize subScale M 16 lowest blk = scales at *
  have hscale : ∀ ib < 16, signedScale (answering M g) lo hi (M.div unit extreme.2) (scales ib) =
      signedScale M lo hi (M.div unit extreme.2) (scales ib) :=
    fun ib hib => congrArg (clampInt lo hi) (nearestInt_answering (h _ (.inl ⟨ib, hib, rfl⟩)))
  refine ⟨hscale, fun llo lhi i hi => ?_⟩
  rw [hscale (i / 16) (by omega)]
  change (if M.eq _ zero then 0 else _) = if M.eq _ zero then 0 else _
  split_ifs with hzero
  · rfl
  · exact congrArg (clampInt llo lhi) (nearestInt_answering (h _ (.inr ⟨i, hi, Bool.eq_false_iff.mpr hzero, rfl⟩)))

theorem encodeQ3_K_answering (h : AgreeOn M g (conversionsQ3_K M block)) :
    encodeQ3_K (answering M g) block = encodeQ3_K M block := by
  unfold encodeQ3_K
  dsimp only
  rw [subScale_answering, extremeScale_answering, lt_answering]
  split_ifs with hzero
  · rfl
  · obtain ⟨hscale, hlevel⟩ := signed_answering hzero h
    exact packQ3_K_congr (fun j hj => congrArg (fun z => (z + 32).toNat) (hscale j hj))
      (fun i hi => congrArg (fun z => (z + 4).toNat) (hlevel (-4) 3 i hi))

theorem encodeQ6_K_answering (h : AgreeOn M g (conversionsQ6_K M block)) :
    encodeQ6_K (answering M g) block = encodeQ6_K M block := by
  unfold encodeQ6_K
  dsimp only
  rw [subScale_answering, extremeScale_answering, lt_answering]
  split_ifs with hzero
  · rfl
  · obtain ⟨hscale, hlevel⟩ := signed_answering hzero h
    exact packQ6_K_congr (fun i hi => congrArg (fun z => (z + 32).toNat) (hlevel (-32) 31 i hi))
      (fun j hj => congrArg (BitVec.ofInt 8) (hscale j hj))

end Signed

/-! Tables and grids. -/

section Grids

variable {C : Codebooks}

theorem encodeIQ4_XS_answering (h : AgreeOn M g (conversionsIQ4_XS M block)) :
    encodeIQ4_XS (answering M g) C block = encodeIQ4_XS M C block := by
  unfold encodeIQ4_XS
  unfold conversionsIQ4_XS at h
  dsimp only at h ⊢
  rw [extremeScale_answering, subBlockSignedAbsMax_answering, lt_answering, div_answering, mul_answering,
    ofInt_answering, reciprocal_answering, bestIndexIQ4_answering]
  split_ifs at h ⊢
  · rfl
  · have hscale := fun ib hib => nearestInt_answering (h _ ⟨ib, hib, rfl⟩)
    refine packIQ4_XS_congr (fun ib hib => ?_) (fun i hi => ?_)
    · rw [hscale ib hib]
    · rw [hscale (i / 32) (by omega)]

/-- The four-bit scale of a plan. -/
theorem planScale_answering {factor : ℕ} {dSuper : BitVec 32} {plan : ℕ → Ib32Plan}
    (h : AgreeOn M g (gridConversions M factor dSuper plan)) :
    ∀ ib < 8, planScale (answering M g) factor dSuper (plan ib).db = planScale M factor dSuper (plan ib).db := by
  intro ib hib
  change (if M.lt zero (plan ib).db then _ else 0) = if M.lt zero (plan ib).db then _ else 0
  split_ifs with hpos
  · exact congrArg (fun i => (clampInt 0 15 i).toNat) (nearestInt_answering (h _ ⟨ib, hib, hpos, rfl⟩))
  · rfl

theorem encodeIQ2_XXS_answering (h : AgreeOn M g (conversionsIQ2_XXS M C block)) :
    encodeIQ2_XXS (answering M g) C block = encodeIQ2_XXS M C block := by
  unfold encodeIQ2_XXS
  unfold conversionsIQ2_XXS conversionsIQ2 at h
  dsimp only at h ⊢
  rw [plans_answering, evenSigns_answering, bestGridIndexU64_answering, maxPlan_answering, lt_answering,
    mul_answering, div_answering]
  split_ifs at h ⊢
  · rfl
  · exact packIQ2_XXS_congr (fun _ _ _ _ => rfl) (fun _ _ _ _ => rfl) (planScale_answering h)

theorem encodeIQ2_XS_answering (h : AgreeOn M g (conversionsIQ2_XS M C block)) :
    encodeIQ2_XS (answering M g) C block = encodeIQ2_XS M C block := by
  unfold encodeIQ2_XS
  unfold conversionsIQ2_XS conversionsIQ2 at h
  dsimp only at h ⊢
  rw [plans_answering, evenSigns_answering, bestGridIndexU64_answering, maxPlan_answering, lt_answering,
    mul_answering, div_answering]
  split_ifs at h ⊢
  · rfl
  · exact packIQ2_XS_congr (fun _ _ _ _ => rfl) (fun _ _ _ _ => rfl) (planScale_answering h)

theorem encodeIQ2_S_answering (h : AgreeOn M g (conversionsIQ2_S M C block)) :
    encodeIQ2_S (answering M g) C block = encodeIQ2_S M C block := by
  unfold encodeIQ2_S
  unfold conversionsIQ2_S conversionsIQ2 at h
  dsimp only at h ⊢
  rw [plans_answering, splitSigns_answering, bestGridIndexU64_answering, maxPlan_answering, lt_answering,
    mul_answering, div_answering]
  split_ifs at h ⊢
  · rfl
  · exact packIQ2_S_congr (fun _ _ _ _ => rfl) (fun _ _ _ _ => rfl) (planScale_answering h)

theorem encodeIQ3_XXS_answering (h : AgreeOn M g (conversionsIQ3_XXS M C block)) :
    encodeIQ3_XXS (answering M g) C block = encodeIQ3_XXS M C block := by
  unfold encodeIQ3_XXS
  unfold conversionsIQ3_XXS at h
  dsimp only at h ⊢
  rw [plans_answering, evenSigns_answering, bestGridIndexU32_answering, maxPlan_answering, lt_answering,
    div_answering]
  split_ifs at h ⊢
  · rfl
  · exact packIQ3_XXS_congr (fun _ _ _ _ => rfl) (fun _ _ _ _ => rfl) (planScale_answering h)

/-- The odd scales of some sub-blocks. -/
theorem oddScale_answering (top : ℤ) {unit dInit : BitVec 32} {gmax : ℕ → BitVec 32} {n : ℕ}
    (h : AgreeOn M g (oddConversions M unit dInit gmax n)) :
    ∀ ib < n, oddScale (answering M g) unit top dInit (gmax ib) = oddScale M unit top dInit (gmax ib) := by
  intro ib hib
  change (if M.le tiny (gmax ib) then _ else 0) = if M.le tiny (gmax ib) then _ else 0
  split_ifs with hpos
  · exact congrArg (fun i => (clampInt 0 top i).toNat) (nearestInt_answering (h _ ⟨ib, hib, hpos, rfl⟩))
  · rfl

theorem encodeIQ3_S_answering (h : AgreeOn M g (conversionsIQ3_S M block)) :
    encodeIQ3_S (answering M g) C block = encodeIQ3_S M C block := by
  unfold encodeIQ3_S
  unfold conversionsIQ3_S at h
  dsimp only at h ⊢
  rw [absMax_answering, lt_answering, div_answering, splitSigns_answering, positiveMax_answering, mul_answering,
    bestGridIndexU32_answering]
  split_ifs at h ⊢
  · rfl
  · have hscale := oddScale_answering 15 h
    refine packIQ3_S_congr (fun ib hib _ _ => ?_) (fun _ _ _ _ => rfl) hscale
    rw [hscale ib hib]
    rfl

theorem encodeIQ1_S_answering (h : AgreeOn M g (conversionsIQ1_S M block)) :
    encodeIQ1_S (answering M g) C block = encodeIQ1_S M C block := by
  unfold encodeIQ1_S
  unfold conversionsIQ1_S at h
  dsimp only at h ⊢
  rw [absMax_answering, lt_answering, div_answering, mul_answering]
  split_ifs at h ⊢
  · rfl
  · have hscale := oddScale_answering 7 h
    refine packIQ1_S_congr (fun ib hib _ _ => ?_) hscale (fun _ _ => rfl)
    rw [hscale ib hib]
    rfl

theorem encodeIQ1_M_answering (h : AgreeOn M g (conversionsIQ1_M M block)) :
    encodeIQ1_M (answering M g) C block = encodeIQ1_M M C block := by
  unfold encodeIQ1_M
  unfold conversionsIQ1_M at h
  dsimp only at h ⊢
  rw [absMax_answering, lt_answering, div_answering, mul_answering]
  split_ifs at h ⊢
  · rfl
  · have hscale := oddScale_answering 7 h
    refine packIQ1_M_congr (fun ib hib l hl => ?_) hscale (fun _ _ => rfl)
    rw [hscale (2 * ib + l / 2) (by omega)]
    rfl

end Grids

/-! Blocks of integers. -/

theorem encodeINT8_answering (h : AgreeOn M g (conversionsINT8 M block)) :
    encodeINT8 (answering M g) block = encodeINT8 M block := by
  unfold encodeINT8
  rw [intScale_answering, positiveReciprocal_answering]
  refine join_congr (fun _ _ => rfl) (join_congr (fun i hi => ?_) rfl)
  exact congrArg (BitVec.ofInt 8) (intLevel_answering (h _ ⟨i, hi, rfl⟩))

theorem encodeINT4_answering (h : AgreeOn M g (conversionsINT4 M block)) :
    encodeINT4 (answering M g) block = encodeINT4 M block := by
  have hlevel : ∀ i < 32,
      BitVec.ofInt 8 (intLevel (answering M g) 7 (positiveReciprocal M (intScale M 7 block)) (wordAt block i)) =
      BitVec.ofInt 8 (intLevel M 7 (positiveReciprocal M (intScale M 7 block)) (wordAt block i)) :=
    fun i hi => congrArg (BitVec.ofInt 8) (intLevel_answering (h _ ⟨i, hi, rfl⟩))
  unfold encodeINT4
  rw [intScale_answering, positiveReciprocal_answering]
  refine join_congr (fun _ _ => rfl) (join_congr (fun k hk => ?_) rfl)
  rw [packNibbles, packNibbles, hlevel (2 * k) (by omega), hlevel (2 * k + 1) (by omega)]

/-- The bytes of a block depend on no conversion but those that are listed. -/
theorem encode_answering (C : Codebooks) (e : Encoder) (h : AgreeOn M g (e.conversions M C block)) :
    e.encode (answering M g) C block = e.encode M C block := by
  match e with
  | .int8 => exact encodeINT8_answering h
  | .int4 => exact encodeINT4_answering h
  | .format f =>
    change f.encode (answering M g) C block = f.encode M C block
    cases f <;> dsimp only [BlockFormat.encode, Encoder.conversions] at h ⊢
    case q4_1 => exact encodeQ4_1_answering h
    case q5_0 => exact encodeQ5_0_answering h
    case q5_1 => exact encodeQ5_1_answering h
    case q2_K => exact encodeQ2_K_answering h
    case q3_K => exact encodeQ3_K_answering h
    case q4_K => exact encodeQ4_K_answering h
    case q5_K => exact encodeQ5_K_answering h
    case q6_K => exact encodeQ6_K_answering h
    case iq4_NL => rw [encodeIQ4_NL_answering]
    case iq4_XS => exact encodeIQ4_XS_answering h
    case iq2_XXS => exact encodeIQ2_XXS_answering h
    case iq2_XS => exact encodeIQ2_XS_answering h
    case iq2_S => exact encodeIQ2_S_answering h
    case iq3_XXS => exact encodeIQ3_XXS_answering h
    case iq3_S => exact encodeIQ3_S_answering h
    case iq1_S => exact encodeIQ1_S_answering h
    case iq1_M => exact encodeIQ1_M_answering h

end Qtx.ConversionReads
