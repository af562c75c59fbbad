import Qtx.IQuantGrids
import Qtx.KQuants
import Qtx.SignParity

/-!
# Scales of the block encoders

The scale of a block is a quotient by a constant that is at least one, or the inverse of
such a quotient, and stays finite. Only a range between two words can overflow, and it
does so exactly when two words of a sub-block are too far apart.
-/
namespace Qtx.EncoderScales

open Qtx.BinaryFormats Qtx.FloatWords Qtx.FloatMachine Qtx.FpeGuard Qtx.PackedDigits Qtx.QuantizerHelpers
  Qtx.FloatScans Qtx.KQuants Qtx.IQuants Qtx.SignParity

variable {M : Machine}

/-- A constant of the source that is a finite word and at least one. -/
structure AtLeastOne (c : BitVec 32) : Prop where
  one_le : 0x3F800000 ≤ magnitude c
  finite : IsFinite c

instance (c : BitVec 32) : Decidable (IsFinite c) := inferInstanceAs (Decidable (_ < _))

instance (c : BitVec 32) : Decidable (AtLeastOne c) :=
  decidable_of_iff (0x3F800000 ≤ magnitude c ∧ IsFinite c) ⟨fun h => ⟨h.1, h.2⟩, fun h => ⟨h.1, h.2⟩⟩

theorem AtLeastOne.div {c v : BitVec 32} (hc : AtLeastOne c) (hv : IsFinite v) : IsFinite (M.div v c) :=
  Machine.finite_div hv hc.finite hc.one_le

/-! Signed scales. -/

theorem finite_subScale {c : BitVec 32} (hc : AtLeastOne c) (size : ℕ) (blk : ℕ → BitVec 32) (ib : ℕ) :
    IsFinite (subScale M size c blk ib) := hc.div (subBlockSignedAbsMax_finite M _ _)

/-- The super-scale of the formats with a signed scale: the inverse of the inverse of the extreme scale. -/
theorem finite_inverse {c : BitVec 32} (hc : IsFinite c) (hlarge : 0x42000000 ≤ magnitude c) {scale : ℕ → BitVec 32}
    (hscale : ∀ ib, IsFinite (scale ib)) (n : ℕ) : IsFinite (M.div one (M.div c (extremeScale M scale n).2)) :=
  Machine.finite_div_div (by decide) (by decide) hc hlarge (extremeScale_finite M n hscale)

/-! Plans. -/

theorem finite_groupValues {group : ℕ → SignedGroup} (h : ∀ k j, IsFinite ((group k).xval j)) (j : ℕ) :
    IsFinite (groupValues group j) := h _ _

/-- A bound of the scale of 32 words by a word `k`, when the divisor takes every finite word below it. -/
theorem magnitude_groupScale_le {divisor k : ℕ} (hc : AtLeastOne (literal divisor 1))
    (hk : units 23 (infinity - 1) * 2 ^ 149 ≤ units 23 k * M.size (literal divisor 1)) {xval : ℕ → BitVec 32}
    (h : ∀ j, IsFinite (xval j)) : magnitude (groupScale M divisor xval) ≤ k := by
  have hmax : IsFinite (positiveMax M xval 32) := positiveMax_induction M IsFinite finite_zero (fun j _ => h j)
  have hsize : M.size (positiveMax M xval 32) ≤ units 23 (infinity - 1) := Machine.size_le (Nat.le_pred_of_lt hmax)
  have hpos : 0 < M.size (literal divisor 1) :=
    lt_of_lt_of_le (Nat.two_pow_pos 149) (Machine.units_one ▸ Machine.le_size (by decide) hc.one_le)
  unfold groupScale
  dsimp only
  split_ifs
  · exact Machine.magnitude_div_le hmax hc.finite hpos ((Nat.mul_le_mul_right _ hsize).trans hk)
  · exact Nat.zero_le _

section Plans

variable {group : (ℕ → BitVec 32) → SignedGroup} {size : ℕ} {search : (ℕ → BitVec 32) → ℕ} {blk : ℕ → BitVec 32}

/-- The groups of an encoder hold finite values. -/
def FiniteGroups (group : (ℕ → BitVec 32) → SignedGroup) : Prop := ∀ x j, IsFinite ((group x).xval j)

theorem finiteGroups_splitSigns : FiniteGroups (splitSigns M) := fun _ j => finite_splitSigns j

theorem finiteGroups_evenSigns : FiniteGroups (evenSigns M) := by
  intro x j
  have hsplit : ∀ j, IsFinite ((splitSigns M x).xval j) := finite_splitSigns
  unfold evenSigns
  dsimp only
  split_ifs
  · dsimp only
    split_ifs
    · exact finite_fneg (hsplit j)
    · exact hsplit j
  · exact hsplit j

theorem db_plans (divisor ib : ℕ) : (plans M group divisor size search blk ib).db =
    groupScale M divisor (groupValues (fun k => group (fun j => blk (32 * ib + (8 * k + j))))) := by
  rw [plans, ib32Plan]

theorem magnitude_maxPlan_le {divisor k : ℕ} (hc : AtLeastOne (literal divisor 1))
    (hk : units 23 (infinity - 1) * 2 ^ 149 ≤ units 23 k * M.size (literal divisor 1))
    (hgroup : FiniteGroups group) :
    magnitude (maxPlan M (plans M group divisor size search blk)) ≤ k := by
  apply positiveMax_induction M (fun v => magnitude v ≤ k) (Nat.zero_le k)
  intro ib _
  rw [db_plans]
  exact magnitude_groupScale_le hc hk (finite_groupValues (fun _ _ => hgroup _ _))

/-- The super-scale of the IQ2 formats: four times a quotient by 25 is finite. -/
theorem finite_superIQ2 (hgroup : FiniteGroups group) :
    IsFinite (M.div (M.mul (maxPlan M (plans M group 25 size search blk)) (literal 4 1)) (literal 31 2)) := by
  have hsize : ∀ c, 2 ^ 23 ≤ magnitude c → M.size c = ticks c := fun c hc => Machine.size_of_normal hc
  have h25 : M.size (literal 25 1) = 25 * 2 ^ 149 := by rw [hsize _ (by decide)]; decide
  have h4 : M.size (literal 4 1) = 2 ^ 151 := by rw [hsize _ (by decide)]; decide
  have hplan : magnitude (maxPlan M (plans M group 25 size search blk)) ≤ 251 * 2 ^ 23 := by
    apply magnitude_maxPlan_le (by decide) _ hgroup
    rw [h25]
    decide
  have hfinite : IsFinite (maxPlan M (plans M group 25 size search blk)) := lt_of_le_of_lt hplan (by decide)
  have hmul : magnitude (M.mul (maxPlan M (plans M group 25 size search blk)) (literal 4 1)) ≤ infinity - 1 := by
    apply Machine.magnitude_mul_le hfinite (by decide)
    rw [h4]
    exact (Nat.mul_le_mul_right _ (Machine.size_le hplan)).trans (by decide)
  have hone : AtLeastOne (literal 31 2) := by decide
  exact hone.div (lt_of_le_of_lt hmul (by decide))

/-- The super-scale of IQ3_XXS. -/
theorem finite_superIQ3 (hgroup : FiniteGroups group) :
    IsFinite (M.div (maxPlan M (plans M group 14 size search blk)) (literal 31 4)) := by
  have hone : AtLeastOne (literal 31 4) := by decide
  have h14 : M.size (literal 14 1) = 14 * 2 ^ 149 := by
    rw [Machine.size_of_normal (by decide)]
    decide
  have hplan : magnitude (maxPlan M (plans M group 14 size search blk)) ≤ infinity - 1 := by
    apply magnitude_maxPlan_le (by decide) _ hgroup
    rw [h14]
    exact Nat.mul_le_mul_left _ (by decide)
  exact hone.div (lt_of_le_of_lt hplan (by decide))

end Plans

/-! Ranges. -/

section Ranges

variable {s : RangeShape} {blk : ℕ → BitVec 32}

/-- Every sub-block is narrow. -/
def NarrowBlocks (s : RangeShape) (blk : ℕ → BitVec 32) : Prop :=
  ∀ ib < s.subBlocks, Narrow (fun j => blk (s.subSize * ib + j)) s.subSize

/-- The least word of a sub-block, or zero when all words are positive. -/
def floorWord (M : Machine) (p : ℕ → BitVec 32) (n : ℕ) : BitVec 32 :=
  if M.lt zero (subBlockMinMax M p n).1 then zero else (subBlockMinMax M p n).1

theorem finite_floorWord (p : ℕ → BitVec 32) (n : ℕ) : IsFinite (floorWord M p n) := by
  unfold floorWord
  split_ifs
  · exact finite_zero
  · exact (subBlockMinMax_finite M p n).1

theorem value_floorWord_le (p : ℕ → BitVec 32) {n : ℕ} (hn : 0 < n) :
    M.value (floorWord M p n) ≤ M.value (subBlockMinMax M p n).2 := by
  have hle := value_min_le_max (M := M) p hn
  unfold floorWord
  split_ifs with h
  · rw [lt_iff finite_zero (subBlockMinMax_finite M p n).1, value_zero] at h
    rw [value_zero]
    exact h.le.trans hle
  · exact hle

/-- Between positive words no difference overflows. -/
theorem narrow_iff_floorWord (p : ℕ → BitVec 32) {n : ℕ} (hn : 0 < n) :
    Narrow p n ↔ IsFinite (M.sub (subBlockMinMax M p n).2 (floorWord M p n)) := by
  obtain ⟨hlo, hhi⟩ := subBlockMinMax_finite M p n
  rw [narrow_iff M hn]
  unfold floorWord
  split_ifs with h
  · have hle := value_min_le_max (M := M) p hn
    have htop := natAbs_value_lt_overflow (M := M) hhi
    rw [lt_iff finite_zero hlo, value_zero] at h
    refine iff_of_true ?_ ?_
    · rw [Machine.finite_sub_iff hhi hlo]
      omega
    · rw [Machine.finite_sub_iff hhi finite_zero, value_zero, sub_zero]
      exact htop
  · exact Iff.rfl

theorem subRange_eq (ib : ℕ) : subRange M s blk ib =
    (M.div (M.sub (subBlockMinMax M (fun j => blk (s.subSize * ib + j)) s.subSize).2
      (floorWord M (fun j => blk (s.subSize * ib + j)) s.subSize)) (literal s.codes 1),
      fneg (floorWord M (fun j => blk (s.subSize * ib + j)) s.subSize)) := rfl

/-- A quotient of a difference by a constant is finite or positive infinity, as the difference is. -/
theorem div_sub_capped {x y c : BitVec 32} (hx : IsFinite x) (hy : IsFinite y) (hle : M.value y ≤ M.value x)
    (hc : AtLeastOne c) (hsign : c.msb = false) :
    Capped (M.div (M.sub x y) c) ∧ (IsFinite (M.div (M.sub x y) c) ↔ IsFinite (M.sub x y)) := by
  rcases Machine.sub_finite_or_infinite hx hy hle with hfin | htop
  · exact ⟨.inl (hc.div hfin), iff_of_true (hc.div hfin) hfin⟩
  · have hdiv : M.div (M.sub x y) c = signed false infinity := by
      rw [htop, Machine.infinite_div false hc.finite, hsign]
      rfl
    rw [hdiv, htop]
    exact ⟨.inr rfl, Iff.rfl⟩

/-- The constants of a range format. -/
structure Sound (s : RangeShape) : Prop where
  codes : AtLeastOne (literal s.codes 1)
  sign : (literal s.codes 1).msb = false
  top : AtLeastOne (literal s.top 1)
  topSign : (literal s.top 1).msb = false
  size : 0 < s.subSize

theorem subRange_capped (hs : Sound s) (ib : ℕ) : Capped (subRange M s blk ib).1 ∧
    (IsFinite (subRange M s blk ib).1 ↔ Narrow (fun j => blk (s.subSize * ib + j)) s.subSize) := by
  rw [subRange_eq, narrow_iff_floorWord (M := M) _ hs.size]
  exact div_sub_capped (subBlockMinMax_finite M _ _).2 (finite_floorWord _ _)
    (value_floorWord_le _ hs.size) hs.codes hs.sign

theorem maxRanges_eq : maxRanges M s blk =
    (positiveMax M (fun ib => (subRange M s blk ib).1) s.subBlocks,
      positiveMax M (fun ib => (subRange M s blk ib).2) s.subBlocks) := by
  unfold maxRanges positiveMax
  induction s.subBlocks with
  | zero => rfl
  | succ n ih => rw [loop, ih]; rfl

theorem maxRanges_capped (hs : Sound s) :
    Capped (maxRanges M s blk).1 ∧ (IsFinite (maxRanges M s blk).1 ↔ NarrowBlocks s blk) := by
  have hcap : ∀ ib < s.subBlocks, Capped (subRange M s blk ib).1 := fun ib _ => (subRange_capped hs ib).1
  rw [maxRanges_eq]
  refine ⟨(positiveMax_finite_iff hcap).1, (positiveMax_finite_iff hcap).2.trans ?_⟩
  exact forall₂_congr (fun ib _ => (subRange_capped hs ib).2)

theorem finite_maxRanges_min : IsFinite (maxRanges M s blk).2 := by
  rw [maxRanges_eq]
  exact positiveMax_induction M IsFinite finite_zero (fun ib _ => finite_fneg (finite_floorWord _ _))

/-- The super-scale is finite if and only if every sub-block is narrow, and the super-minimum always is. -/
theorem rangePlan_finite (hs : Sound s) :
    (IsFinite (rangePlan M s blk).d ↔ NarrowBlocks s blk) ∧ IsFinite (rangePlan M s blk).dmin := by
  obtain ⟨hcap, hiff⟩ : _ ∧ (IsFinite (maxRanges M s blk).1 ↔ _) := maxRanges_capped hs
  constructor
  · rw [← hiff]
    change IsFinite (M.div (maxRanges M s blk).1 (literal s.top 1)) ↔ _
    rcases hcap with hfin | htop
    · exact iff_of_true (hs.top.div hfin) hfin
    · rw [htop, Machine.infinite_div false hs.top.finite, hs.topSign]
      exact Iff.rfl
  · change IsFinite (M.div (maxRanges M s blk).2 (literal s.top 1))
    exact hs.top.div finite_maxRanges_min

theorem narrowBlocks_of_isZeroRange (hs : Sound s) (h : isZeroRange M s blk = true) : NarrowBlocks s blk := by
  rw [isZeroRange, Bool.and_eq_true] at h
  exact (maxRanges_capped hs).2.mp (finite_of_eq_zero h.1)

end Ranges

end Qtx.EncoderScales
