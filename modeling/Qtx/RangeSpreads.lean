import Mathlib.Order.Lattice.Nat
import Qtx.StoredMultiples

/-!
# How far the words of a sub-block lie apart

The scale of a sub-block depends on the distance of its largest word from its least one,
or from zero, and its minimum on the distance of the least word from zero. Whether the
inverse of the largest scale or minimum is finite is read off the largest distance.
-/
namespace Qtx.RangeSpreads

open Qtx.BinaryFormats Qtx.FloatWords Qtx.FloatMachine Qtx.FpeGuard Qtx.QuantizerHelpers Qtx.FloatScans
  Qtx.FloatErrors Qtx.ScanBounds Qtx.KQuants Qtx.EncoderScales Qtx.ConversionBounds Qtx.FlushedScales
  Qtx.StoredMultiples

variable {M : Machine}

/-- Two of the first `n` words, or one of them and zero below it, lie at least `t` ticks apart. -/
def Apart (M : Machine) (t : ℤ) (p : ℕ → BitVec 32) (n : ℕ) : Prop :=
  ∃ i < n, t ≤ M.value (sanitiseFinite (p i)) ∨
    ∃ j < n, t ≤ M.value (sanitiseFinite (p i)) - M.value (sanitiseFinite (p j))

/-- How far the largest word lies above the least one, or above zero. -/
def spread (M : Machine) (p : ℕ → BitVec 32) (n : ℕ) : ℕ :=
  (M.value (subBlockMinMax M p n).2 - M.value (floorWord M p n)).toNat

section SubBlock

variable {p : ℕ → BitVec 32} {n t : ℕ}

theorem value_floorWord (M : Machine) (p : ℕ → BitVec 32) (n : ℕ) :
    M.value (floorWord M p n) = min 0 (M.value (subBlockMinMax M p n).1) := by
  unfold floorWord
  split_ifs with h
  · rw [lt_iff finite_zero (subBlockMinMax_finite M p n).1, value_zero] at h
    rw [value_zero, min_eq_left h.le]
  · rw [lt_iff finite_zero (subBlockMinMax_finite M p n).1, value_zero, not_lt] at h
    rw [min_eq_right h]

theorem natCast_spread (hn : 0 < n) :
    (spread M p n : ℤ) = M.value (subBlockMinMax M p n).2 - M.value (floorWord M p n) :=
  Int.toNat_of_nonneg (sub_nonneg.mpr (value_floorWord_le p hn))

theorem le_spread_iff (hn : 0 < n) : t ≤ spread M p n ↔ Apart M t p n := by
  obtain ⟨hmin, hbelow⟩ := subBlockMinMax_isLeast (M := M) p hn
  obtain ⟨hmax, habove⟩ := subBlockMinMax_isGreatest (M := M) p hn
  have hmem : ∀ k < n, M.value (sanitiseFinite (p k)) ∈ values M p n := fun k hk => ⟨k, hk, rfl⟩
  have hfloor := value_floorWord M p n
  have hspread := natCast_spread (M := M) (p := p) hn
  constructor
  · intro hle
    obtain ⟨i, hi, hmax⟩ := hmax
    obtain ⟨j, hj, hmin⟩ := hmin
    dsimp only at hmax hmin
    rcases le_total 0 (M.value (subBlockMinMax M p n).1) with hsign | hsign
    · exact ⟨i, hi, .inl (by omega)⟩
    · exact ⟨i, hi, .inr ⟨j, hj, by omega⟩⟩
  · rintro ⟨i, hi, hle | ⟨j, hj, hle⟩⟩
    · have hi' := habove (hmem i hi)
      omega
    · have hi' := habove (hmem i hi)
      have hj' := hbelow (hmem j hj)
      omega

theorem floorWord_nonpos (M : Machine) (p : ℕ → BitVec 32) (n : ℕ) : real M (floorWord M p n) ≤ 0 := by
  rw [← real_zero M, real_le_iff, value_zero, value_floorWord]
  exact min_le_left _ _

theorem natCast_size_floorWord (M : Machine) (p : ℕ → BitVec 32) (n : ℕ) :
    (M.size (floorWord M p n) : ℤ) = -M.value (floorWord M p n) := by
  have habs := natAbs_value M (floorWord M p n)
  have hle : M.value (floorWord M p n) ≤ 0 := value_floorWord M p n ▸ min_le_left _ _
  omega

theorem le_size_floorWord_iff (hn : 0 < n) (ht : 0 < t) :
    t ≤ M.size (floorWord M p n) ↔ ∃ j < n, M.value (sanitiseFinite (p j)) ≤ -(t : ℤ) := by
  obtain ⟨hmin, hbelow⟩ := subBlockMinMax_isLeast (M := M) p hn
  have hsize := natCast_size_floorWord M p n
  have hfloor := value_floorWord M p n
  constructor
  · intro hle
    obtain ⟨j, hj, hmin⟩ := hmin
    dsimp only at hmin
    exact ⟨j, hj, by omega⟩
  · rintro ⟨j, hj, hle⟩
    have hj' := hbelow ⟨j, hj, rfl⟩
    dsimp only at hj'
    omega

end SubBlock

/-- The constants of a range format, and the distances at which an inverse becomes infinite. -/
structure Shape (s : RangeShape) (lo hi low : ℕ) : Prop where
  sound : Sound s
  codes : Exact s.codes 1
  codes_bounds : 3 ≤ s.codes ∧ s.codes ≤ 31
  level : Top s.top
  scales : Thresholds s.codes s.top lo hi
  offsets : OffsetThreshold s.top low
  subBlocks : 0 < s.subBlocks

theorem shape_Q2_K : Shape shapeQ2_K 25165823 94371845 31457281 :=
  ⟨⟨by decide, by decide, by decide, by decide, by decide⟩, by decide, by decide, by decide, by decide, by decide,
    by decide⟩

theorem shape_Q4_K : Shape shapeQ4_K 125829116 1981808705 132120580 :=
  ⟨⟨by decide, by decide, by decide, by decide, by decide⟩, by decide, by decide, by decide, by decide, by decide,
    by decide⟩

theorem shape_Q5_K : Shape shapeQ5_K 260046840 4095737985 132120580 :=
  ⟨⟨by decide, by decide, by decide, by decide, by decide⟩, by decide, by decide, by decide, by decide, by decide,
    by decide⟩

section SuperBlock

variable {s : RangeShape} {lo hi low ib : ℕ} {blk : ℕ → BitVec 32}

/-- The words of a sub-block. -/
def subWords (s : RangeShape) (blk : ℕ → BitVec 32) (ib : ℕ) : ℕ → BitVec 32 := fun j => blk (s.subSize * ib + j)

/-- The place of a word in its sub-block. -/
theorem subWords_eq (blk : ℕ → BitVec 32) (i : ℕ) : subWords s blk (i / s.subSize) (i % s.subSize) = blk i := by
  rw [subWords, Nat.div_add_mod]

/-- How far the least word of a super-block lies below zero. -/
def deepest (M : Machine) (s : RangeShape) (blk : ℕ → BitVec 32) : ℕ :=
  (Finset.range (s.subBlocks * s.subSize)).sup (fun i => (-M.value (sanitiseFinite (blk i))).toNat)

/-- The distance of the extremes as a word. -/
def spreadWord (M : Machine) (s : RangeShape) (blk : ℕ → BitVec 32) (ib : ℕ) : BitVec 32 :=
  M.sub (subBlockMinMax M (subWords s blk ib) s.subSize).2 (floorWord M (subWords s blk ib) s.subSize)

theorem subRange_fst (M : Machine) (s : RangeShape) (blk : ℕ → BitVec 32) (ib : ℕ) :
    (subRange M s blk ib).1 = M.div (spreadWord M s blk ib) (literal s.codes 1) := rfl

theorem subRange_snd (M : Machine) (s : RangeShape) (blk : ℕ → BitVec 32) (ib : ℕ) :
    (subRange M s blk ib).2 = fneg (floorWord M (subWords s blk ib) s.subSize) := rfl

theorem offset_nonneg (ib : ℕ) : 0 ≤ real M (subRange M s blk ib).2 := by
  rw [subRange_snd, real_fneg]
  exact neg_nonneg.mpr (floorWord_nonpos M _ _)

namespace Shape

variable (hs : Shape s lo hi low) (hflush : M.flush = true)

include hs

theorem mag_codes (M : Machine) : mag M (literal s.codes 1) = s.codes := by rw [hs.codes.mag, Nat.cast_one, div_one]

theorem finite_spreadWord (h : Narrow (subWords s blk ib) s.subSize) : IsFinite (spreadWord M s blk ib) :=
  (narrow_iff_floorWord (M := M) _ hs.sound.size).mp h

/-- The largest minimum is the distance of the least word from zero. -/
theorem size_maxRanges (M : Machine) (blk : ℕ → BitVec 32) : M.size (maxRanges M s blk).2 = deepest M s blk := by
  have hp : ∀ ib < s.subBlocks, IsFinite (subRange M s blk ib).2 ∧ 0 ≤ real M (subRange M s blk ib).2 :=
    fun ib _ => ⟨finite_fneg (finite_floorWord _ _), offset_nonneg ib⟩
  obtain ⟨hge, hmem⟩ := size_positiveMax hp
  rw [maxRanges_eq]
  simp only [subRange_snd, Machine.size_fneg] at hge hmem ⊢
  apply le_antisymm
  · rcases hmem with hz | ⟨ib, hib, heq⟩
    · exact hz ▸ Nat.zero_le _
    · rw [heq]
      rcases Nat.eq_zero_or_pos (M.size (floorWord M (subWords s blk ib) s.subSize)) with hz | hpos
      · exact hz ▸ Nat.zero_le _
      · obtain ⟨j, hj, hword⟩ := (le_size_floorWord_iff hs.sound.size hpos).mp le_rfl
        have hlt : s.subSize * ib + j < s.subBlocks * s.subSize := by
          have hend := Nat.mul_le_mul_left s.subSize (Nat.succ_le_of_lt hib)
          rw [Nat.mul_succ, Nat.mul_comm s.subSize s.subBlocks] at hend
          omega
        have hle :=
          Finset.le_sup (f := fun i => (-M.value (sanitiseFinite (blk i))).toNat) (Finset.mem_range.mpr hlt)
        change (-M.value (sanitiseFinite (subWords s blk ib j))).toNat ≤ deepest M s blk at hle
        omega
  · refine Finset.sup_le (fun i hi => ?_)
    have hib : i / s.subSize < s.subBlocks := Nat.div_lt_of_lt_mul (by rwa [Nat.mul_comm, ← Finset.mem_range])
    refine le_trans ?_ (hge _ hib)
    rcases Nat.eq_zero_or_pos (-M.value (sanitiseFinite (blk i))).toNat with hz | hpos
    · exact hz ▸ Nat.zero_le _
    · refine (le_size_floorWord_iff hs.sound.size hpos).mpr ⟨i % s.subSize, Nat.mod_lt i hs.sound.size, ?_⟩
      rw [subWords_eq]
      omega

include hflush

theorem spreadWord_approx (h : Narrow (subWords s blk ib) s.subSize) : Approx M (spreadWord M s blk ib)
    (real M (subBlockMinMax M (subWords s blk ib) s.subSize).2 -
      real M (floorWord M (subWords s blk ib) s.subSize)) := by
  have hle := real_le_iff.mpr (value_floorWord_le (M := M) (subWords s blk ib) hs.sound.size)
  have happrox := sub_approx hflush (subBlockMinMax_finite M (subWords s blk ib) s.subSize).2
    (finite_floorWord (M := M) (subWords s blk ib) s.subSize) (hs.finite_spreadWord h)
  rwa [abs_of_nonneg (sub_nonneg.mpr hle)] at happrox

theorem scale_approx (h : Narrow (subWords s blk ib) s.subSize) :
    Approx M (subRange M s blk ib).1 (mag M (spreadWord M s blk ib) / s.codes) := by
  have hcodes : (3 : ℚ) ≤ s.codes := by exact_mod_cast hs.codes_bounds.1
  rw [subRange_fst, ← hs.mag_codes M] at *
  exact div_constant hflush hs.codes.finite (by linarith) (hs.finite_spreadWord h)

theorem scale_nonneg (h : Narrow (subWords s blk ib) s.subSize) : 0 ≤ real M (subRange M s blk ib).1 := by
  have hcodes : (3 : ℚ) ≤ s.codes := by exact_mod_cast hs.codes_bounds.1
  have hnonneg := real_nonneg_of_msb (M := M) hs.sound.sign
  have hmag := hs.mag_codes M
  rw [mag_of_real_nonneg hnonneg] at hmag
  rw [subRange_fst]
  refine real_div_nonneg hflush (hs.finite_spreadWord h) hs.codes.finite ?_ (by linarith)
  exact real_sub_nonneg hflush (subBlockMinMax_finite M _ _).2 (finite_floorWord _ _)
    (real_le_iff.mpr (value_floorWord_le _ hs.sound.size))

/-- The ticks of the scale of a sub-block. -/
theorem size_scale (h : Narrow (subWords s blk ib) s.subSize) :
    M.size (subRange M s blk ib).1 = scaleTicks s.codes (spread M (subWords s blk ib) s.subSize) := by
  have hcodes : M.size (literal s.codes 1) = s.codes * 2 ^ 149 := by
    rw [Machine.size_of_normal hs.codes.normal, ← hs.codes.ticks, Nat.mul_one]
  have hpos : 0 < M.size (literal s.codes 1) := by
    rw [hcodes]
    exact Nat.mul_pos (Nat.lt_of_lt_of_le (by decide) hs.codes_bounds.1) (Nat.two_pow_pos 149)
  have hsize : M.size (spreadWord M s blk ib) = flushed (spread M (subWords s blk ib) s.subSize) 1 := by
    have hfloor := finite_floorWord (M := M) (subWords s blk ib) s.subSize
    have hspread := natCast_spread (M := M) (p := subWords s blk ib) hs.sound.size
    rw [spreadWord, Machine.sub, Machine.add_of_finite (subBlockMinMax_finite M _ _).2 (finite_fneg hfloor),
      size_round hflush, Machine.value_fneg, ← sub_eq_add_neg, ← hspread, Int.natAbs_natCast]
  rw [subRange_fst, Machine.div_of_finite (hs.finite_spreadWord h) hs.codes.finite hpos, size_round hflush,
    hcodes, hsize, scaleTicks]

/-- When the factor for the scales is finite, in terms of the words. -/
theorem finite_inverse_scale_iff (hnarrow : NarrowBlocks s blk) :
    IsFinite (inverseTop M s.top (maxRanges M s blk).1) ↔
    (∀ ib < s.subBlocks, ¬ Apart M lo (subWords s blk ib) s.subSize) ∨
      ∃ ib < s.subBlocks, Apart M hi (subWords s blk ib) s.subSize := by
  have hp : ∀ ib < s.subBlocks, IsFinite (subRange M s blk ib).1 ∧ 0 ≤ real M (subRange M s blk ib).1 :=
    fun ib hib => ⟨(hs.scale_approx hflush (hnarrow ib hib)).finite, hs.scale_nonneg hflush (hnarrow ib hib)⟩
  have hfin : ∀ ib < s.subBlocks, IsFinite (subRange M s blk ib).1 := fun ib hib => (hp ib hib).1
  obtain ⟨hge, hmem⟩ := size_positiveMax hp
  rw [maxRanges_eq, hs.level.finite_inverseTop_iff (finite_positiveMax hfin) (real_le_positiveMax hfin).1]
  generalize M.size (positiveMax M (fun ib => (subRange M s blk ib).1) s.subBlocks) = largest at hge hmem
  have hsize : ∀ ib < s.subBlocks, M.size (subRange M s blk ib).1 =
    scaleTicks s.codes (spread M (subWords s blk ib) s.subSize) :=
    fun ib hib => hs.size_scale hflush (hnarrow ib hib)
  have hapart : ∀ {t ib : ℕ}, Apart M t (subWords s blk ib) s.subSize ↔
    t ≤ spread M (subWords s blk ib) s.subSize :=
    fun {_ _} => (le_spread_iff hs.sound.size).symm
  simp only [hapart, Nat.not_le]
  have hzero : largest = 0 ↔ ∀ ib < s.subBlocks, spread M (subWords s blk ib) s.subSize < lo := by
    constructor
    · intro hz ib hib
      have hle := hge ib hib
      rw [hz, Nat.le_zero, hsize ib hib] at hle
      exact hs.scales.scale_eq_zero_iff.mp hle
    · intro hlow
      rcases hmem with hz | ⟨ib, hib, heq⟩
      · exact hz
      · rw [heq, hsize ib hib]
        exact hs.scales.scale_eq_zero_iff.mpr (hlow ib hib)
  rw [← hzero]
  refine or_congr_right' (fun hne => ⟨fun hfinite => ?_, ?_⟩)
  · obtain ⟨ib, hib, heq⟩ := hmem.resolve_left hne
    rw [heq, hsize ib hib] at hfinite hne
    exact ⟨ib, hib,
      (hs.scales.inverse_finite_iff (Nat.not_lt.mp (mt hs.scales.scale_eq_zero_iff.mpr hne))).mp hfinite⟩
  · rintro ⟨ib, hib, hhigh⟩
    have hlow := hs.scales.le.le.trans hhigh
    have hle := hge ib hib
    rw [hsize ib hib] at hle
    have hpos := Nat.pos_of_ne_zero (mt hs.scales.scale_eq_zero_iff.mp (Nat.not_lt.mpr hlow))
    exact (roundUnits_anti hpos hle).trans_lt ((hs.scales.inverse_finite_iff hlow).mpr hhigh)

omit hflush in
/-- When the factor for the minima is finite, in terms of the words. -/
theorem finite_inverse_offset_iff : IsFinite (inverseTop M s.top (maxRanges M s blk).2) ↔
    (∀ ib < s.subBlocks, ∀ j < s.subSize, 0 ≤ M.value (sanitiseFinite (subWords s blk ib j))) ∨
      ∃ ib < s.subBlocks, ∃ j < s.subSize, M.value (sanitiseFinite (subWords s blk ib j)) ≤ -(low : ℤ) := by
  have hp : ∀ ib < s.subBlocks, IsFinite (subRange M s blk ib).2 ∧ 0 ≤ real M (subRange M s blk ib).2 :=
    fun ib _ => ⟨finite_fneg (finite_floorWord _ _), offset_nonneg ib⟩
  have hfin : ∀ ib < s.subBlocks, IsFinite (subRange M s blk ib).2 := fun ib hib => (hp ib hib).1
  obtain ⟨hge, hmem⟩ := size_positiveMax hp
  rw [maxRanges_eq, hs.level.finite_inverseTop_iff (finite_positiveMax hfin) (real_le_positiveMax hfin).1]
  generalize M.size (positiveMax M (fun ib => (subRange M s blk ib).2) s.subBlocks) = largest at hge hmem
  simp only [subRange_snd, Machine.size_fneg] at hge hmem
  have hlow : 0 < low := hs.offsets.pos.trans_le (Nat.sub_le low 1)
  have hzero : largest = 0 ↔
      ∀ ib < s.subBlocks, ∀ j < s.subSize, 0 ≤ M.value (sanitiseFinite (subWords s blk ib j)) := by
    constructor
    · intro hz ib hib j hj
      by_contra hneg
      have hle := hge ib hib
      have hword : M.value (sanitiseFinite (subWords s blk ib j)) ≤ -((1 : ℕ) : ℤ) := by omega
      have hone := (le_size_floorWord_iff hs.sound.size Nat.one_pos).mpr ⟨j, hj, hword⟩
      omega
    · intro hall
      rcases hmem with hz | ⟨ib, hib, heq⟩
      · exact hz
      · by_contra hne
        rw [heq] at hne
        obtain ⟨j, hj, hneg⟩ := (le_size_floorWord_iff hs.sound.size Nat.one_pos).mp (Nat.pos_of_ne_zero hne)
        have hnonneg := hall ib hib j hj
        omega
  rw [← hzero]
  refine or_congr_right' (fun hne => ?_)
  rw [hs.offsets.inverse_finite_iff (Nat.pos_of_ne_zero hne)]
  constructor
  · intro hle
    obtain ⟨ib, hib, heq⟩ := hmem.resolve_left hne
    rw [heq] at hle
    exact ⟨ib, hib, (le_size_floorWord_iff hs.sound.size hlow).mp hle⟩
  · rintro ⟨ib, hib, hword⟩
    exact ((le_size_floorWord_iff hs.sound.size hlow).mpr hword).trans (hge ib hib)

end Shape

end SuperBlock

end Qtx.RangeSpreads
