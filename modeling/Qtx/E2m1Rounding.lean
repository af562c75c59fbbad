import Qtx.BinadeRounding
import Qtx.FloatScans
import Qtx.ScaledEncoders

/-!
# Rounding to E2M1

The element encoder of the four-bit formats compares its argument with the midpoints
between the eight levels. A machine that flushes subnormal operands compares in the same
way, since every midpoint is a normal word.
-/
namespace Qtx.ScaledEncoders

open Qtx.BinaryFormats Qtx.FloatWords Qtx.FloatMachine Qtx.FloatScans Qtx.FpeGuard Qtx.QuantizerHelpers

variable {M : Machine} {v c : BitVec 32}

/-- A positive constant that no machine flushes. -/
structure NormalConstant (c : BitVec 32) : Prop where
  sign : c.msb = false
  normal : 2 ^ 23 ≤ magnitude c
  finite : IsFinite c

theorem level_constant (hc : NormalConstant c) : M.level c = magnitude c := by
  have hflush : ¬ (M.flush && decide (magnitude c < 2 ^ 23)) = true := by
    rw [Bool.and_eq_true, decide_eq_true_eq]
    exact fun h => absurd h.2 (Nat.not_lt.mpr hc.normal)
  rw [Machine.level, if_neg hflush, rank, hc.sign, if_neg Bool.false_ne_true]

theorem level_fabs (M : Machine) (v : BitVec 32) :
    M.level (fabs v) = if M.flush && magnitude v < 2 ^ 23 then 0 else (magnitude v : ℤ) := by
  rw [Machine.level, magnitude_fabs, rank, msb_fabs, magnitude_fabs, if_neg Bool.false_ne_true]

theorem lt_constant (hv : IsFinite v) (hc : NormalConstant c) :
    M.lt (fabs v) c = decide (magnitude v < magnitude c) := by
  have hnormal := hc.normal
  rw [Machine.lt, decide_eq_false (finite_fabs hv).not_nan, decide_eq_false hc.finite.not_nan, Bool.not_false,
    Bool.true_and, Bool.true_and, level_constant hc, level_fabs, decide_eq_decide]
  split_ifs with h
  · rw [Bool.and_eq_true, decide_eq_true_eq] at h
    omega
  · exact Nat.cast_lt

theorem eq_constant (hv : IsFinite v) (hc : NormalConstant c) :
    M.eq (fabs v) c = decide (magnitude v = magnitude c) := by
  have hnormal := hc.normal
  rw [Machine.eq, decide_eq_false (finite_fabs hv).not_nan, decide_eq_false hc.finite.not_nan, Bool.not_false,
    Bool.true_and, Bool.true_and, level_constant hc, level_fabs, decide_eq_decide]
  split_ifs with h
  · rw [Bool.and_eq_true, decide_eq_true_eq] at h
    omega
  · exact Nat.cast_inj

theorem constant_le (hv : IsFinite v) (hc : NormalConstant c) :
    M.le c (fabs v) = decide (magnitude c ≤ magnitude v) := by
  have hnormal := hc.normal
  have hlevel := level_constant (M := M) hc
  have hfabs := level_fabs M v
  rw [Machine.le, Machine.lt, Machine.eq, decide_eq_false (finite_fabs hv).not_nan,
    decide_eq_false hc.finite.not_nan, hlevel, hfabs]
  simp only [Bool.not_false, Bool.true_and, ← Bool.decide_or, decide_eq_decide]
  split_ifs with h
  · rw [Bool.and_eq_true, decide_eq_true_eq] at h
    omega
  · omega

/-- The sign test keeps the sign of zero. -/
theorem sign_test (hv : IsFinite v) : (M.lt v zero || (M.eq v zero && v.msb)) = v.msb := by
  have hzero : M.level zero = 0 := by
    rw [Machine.level]
    split_ifs <;> rfl
  have hnan : ¬ IsNaN zero := finite_zero.not_nan
  rw [Machine.lt, Machine.eq, decide_eq_false hv.not_nan, decide_eq_false hnan, hzero]
  simp only [Bool.not_false, Bool.true_and]
  rw [Machine.level]
  split_ifs
  · simp
  · rw [rank]
    cases v.msb
    · simp
    · simp only [if_true, Bool.and_true, ← Bool.decide_or, decide_eq_true_eq]
      omega

/-- The level whose bin holds a magnitude. A midpoint belongs to the even level. -/
def binOf (N : ℕ) : ℕ :=
  if N ≤ 0x3E800000 then 0
  else if N < 0x3F400000 then 1
  else if N ≤ 0x3FA00000 then 2
  else if N < 0x3FE00000 then 3
  else if N ≤ 0x40200000 then 4
  else if N < 0x40600000 then 5
  else if N ≤ 0x40A00000 then 6
  else 7

theorem binOf_le (N : ℕ) : binOf N ≤ 7 := by
  unfold binOf
  split_ifs <;> decide

theorem two_le_binOf {N : ℕ} (h : 0x3F400000 ≤ N) : 2 ≤ binOf N := by
  unfold binOf
  split_ifs <;> omega

theorem six_le_binOf {N : ℕ} (h : 0x40600000 ≤ N) : 6 ≤ binOf N := by
  unfold binOf
  split_ifs <;> omega

theorem kMidpoints_normal : ∀ i < 7, NormalConstant (kMidpoints i) := by
  intro i hi
  have hall : ∀ i < 7, (kMidpoints i).msb = false ∧ 2 ^ 23 ≤ magnitude (kMidpoints i) ∧
      magnitude (kMidpoints i) < infinity := by decide
  obtain ⟨hsign, hnormal, hfinite⟩ := hall i hi
  exact ⟨hsign, hnormal, hfinite⟩

theorem midpointIndex_succ (hv : IsFinite v) {i : ℕ} (hi : i < 7) (n : ℕ) :
    midpointIndex M e2m1Tables (fabs v) (n + 1) i =
      if magnitude v = magnitude (kMidpoints i) then kTieToEven i
      else if magnitude v < magnitude (kMidpoints i) then BitVec.ofNat 8 i
      else midpointIndex M e2m1Tables (fabs v) n (i + 1) := by
  have hc := kMidpoints_normal i hi
  rw [midpointIndex]
  change (if M.eq (fabs v) (kMidpoints i) then kTieToEven i else
    if M.lt (fabs v) (kMidpoints i) then _ else _) = _
  rw [eq_constant hv hc, lt_constant hv hc]
  simp only [decide_eq_true_eq]

/-- The comparisons around a midpoint whose lower level is even. -/
theorem even_bin {α : Type*} {N m : ℕ} (x rest : α) :
    (if N = m then x else if N < m then x else rest) = if N ≤ m then x else rest := by
  split_ifs <;> first | rfl | omega

/-- The comparisons around an odd level, and around the even level above it. -/
theorem odd_even_bins {α : Type*} {N m m' : ℕ} (h : m < m') (x y rest : α) :
    (if N = m then y else if N < m then x else if N = m' then y else if N < m' then y else rest) =
      if N < m then x else if N ≤ m' then y else rest := by
  split_ifs <;> first | rfl | omega

theorem midpointIndex_eq (hv : IsFinite v) :
    midpointIndex M e2m1Tables (fabs v) 7 0 = BitVec.ofNat 8 (binOf (magnitude v)) := by
  have hmid : magnitude (kMidpoints 0) = 0x3E800000 ∧ magnitude (kMidpoints 1) = 0x3F400000 ∧
      magnitude (kMidpoints 2) = 0x3FA00000 ∧ magnitude (kMidpoints 3) = 0x3FE00000 ∧
      magnitude (kMidpoints 4) = 0x40200000 ∧ magnitude (kMidpoints 5) = 0x40600000 ∧
      magnitude (kMidpoints 6) = 0x40A00000 := by decide
  obtain ⟨hm0, hm1, hm2, hm3, hm4, hm5, hm6⟩ := hmid
  have heven : kTieToEven 0 = 0#8 ∧ kTieToEven 1 = 2#8 ∧ kTieToEven 2 = 2#8 ∧ kTieToEven 3 = 4#8 ∧
      kTieToEven 4 = 4#8 ∧ kTieToEven 5 = 6#8 ∧ kTieToEven 6 = 6#8 := by decide
  obtain ⟨ht0, ht1, ht2, ht3, ht4, ht5, ht6⟩ := heven
  rw [midpointIndex_succ hv (by decide) 6, midpointIndex_succ hv (by decide) 5, midpointIndex_succ hv (by decide) 4,
    midpointIndex_succ hv (by decide) 3, midpointIndex_succ hv (by decide) 2, midpointIndex_succ hv (by decide) 1,
    midpointIndex_succ hv (by decide) 0, midpointIndex]
  rw [hm0, hm1, hm2, hm3, hm4, hm5, hm6, ht0, ht1, ht2, ht3, ht4, ht5, ht6, even_bin, odd_even_bins (by decide),
    odd_even_bins (by decide), odd_even_bins (by decide)]
  simp only [binOf, apply_ite (BitVec.ofNat 8)]

theorem nearest_binOf (N : ℕ) :
    ∃ n, IsNearestEven 1 ((units 23 N : ℚ) / 2 ^ 148) n ∧ binOf N = min n 7 := by
  have hmem : ∀ {lo hi n : ℕ}, lo ≤ N → N ≤ hi → roundUnits 1 (units 23 lo) (2 ^ 148) = n →
      roundUnits 1 (units 23 hi) (2 ^ 148) = n → n ≤ 7 →
      ∃ k, IsNearestEven 1 ((units 23 N : ℚ) / 2 ^ 148) k ∧ n = min k 7 :=
    fun hlo hhi h h' h7 => ⟨_, nearest_between Nat.one_pos hlo hhi h h', (Nat.min_eq_left h7).symm⟩
  rw [binOf]
  split_ifs with h0 h1 h2 h3 h4 h5 h6
  · exact hmem (Nat.zero_le N) h0 (by decide) (by decide) (by decide)
  · exact hmem (Nat.lt_of_not_le h0) (Nat.le_pred_of_lt h1) (by decide) (by decide) (by decide)
  · exact hmem (Nat.le_of_not_lt h1) h2 (by decide) (by decide) (by decide)
  · exact hmem (Nat.lt_of_not_le h2) (Nat.le_pred_of_lt h3) (by decide) (by decide) (by decide)
  · exact hmem (Nat.le_of_not_lt h3) h4 (by decide) (by decide) (by decide)
  · exact hmem (Nat.lt_of_not_le h4) (Nat.le_pred_of_lt h5) (by decide) (by decide) (by decide)
  · exact hmem (Nat.le_of_not_lt h5) h6 (by decide) (by decide) (by decide)
  · -- above the last midpoint the nearest word is the largest level or lies beyond
    have hnear := isNearestEven_roundUnits Nat.one_pos (units 23 N) (Nat.two_pow_pos 148)
    rw [Nat.cast_pow, Nat.cast_two] at hnear
    refine ⟨_, hnear, ?_⟩
    have hstart := isNearestEven_roundUnits Nat.one_pos (units 23 0x40A00001) (Nat.two_pow_pos 148)
    have hseven : roundUnits 1 (units 23 0x40A00001) (2 ^ 148) = 7 := by decide
    rw [hseven, Nat.cast_pow, Nat.cast_two] at hstart
    have hge : 0x40A00001 ≤ N := by omega
    have hmono := hstart.mono hnear (div_le_div_of_nonneg_right
      (Nat.cast_le.mpr (units_le_units.mpr hge)) (by positivity))
    exact (Nat.min_eq_right hmono).symm

/-- The nibble of a finite element: its sign above its level. -/
theorem fp32ElementToNVFP4Safe_eq (hv : IsFinite v) :
    fp32ElementToNVFP4Safe M e2m1Tables v = BitVec.ofNat 8 (v.msb.toNat * 8 + binOf (magnitude v)) := by
  have hsix : literal 6 1 = 0x40C00000#32 := by decide
  have hnormal : NormalConstant 0x40C00000#32 := ⟨rfl, by decide, by unfold IsFinite; decide⟩
  have hmag : magnitude 0x40C00000#32 = 0x40C00000 := by decide
  have hle := binOf_le (magnitude v)
  have hor : ∀ (b : Bool) (n : ℕ), n ≤ 7 →
      (if b then 0x08#8 else 0x00#8) ||| (BitVec.ofNat 8 n &&& 0x07#8) = BitVec.ofNat 8 (b.toNat * 8 + n) := by
        decide
  rw [fp32ElementToNVFP4Safe, sign_test hv, hsix, constant_le hv hnormal, hmag, midpointIndex_eq hv]
  by_cases h : 0x40C00000 ≤ magnitude v
  · have hseven : binOf (magnitude v) = 7 := by
      unfold binOf
      split_ifs <;> omega
    rw [decide_eq_true h, hseven]
    exact hor v.msb 7 le_rfl
  · rw [decide_eq_false h]
    exact hor v.msb _ hle

/-- The nibble of a value: its sign, and the nearest of the levels, which are the words of a format
with one fraction bit in units of one half. -/
structure RoundsToLevel (v : BitVec 32) (h : BitVec 8) : Prop where
  nibble : h.toNat < 16
  sign : h.getLsbD 3 = v.msb
  nearest : ∃ n, IsNearestEven 1 (ticks v / 2 ^ 148) n ∧ h.toNat % 8 = min n 7

theorem fp32ElementToNVFP4Safe_rounds (hv : IsFinite v) :
    RoundsToLevel v (fp32ElementToNVFP4Safe M e2m1Tables v) := by
  have hle := binOf_le (magnitude v)
  have hsign : ∀ (b : Bool), ∀ n ≤ 7, (BitVec.ofNat 8 (b.toNat * 8 + n)).getLsbD 3 = b := by decide
  have hnat : (fp32ElementToNVFP4Safe M e2m1Tables v).toNat = v.msb.toNat * 8 + binOf (magnitude v) := by
    have hmsb := Bool.toNat_le v.msb
    rw [fp32ElementToNVFP4Safe_eq hv, BitVec.toNat_ofNat]
    exact Nat.mod_eq_of_lt (by omega)
  refine ⟨?_, ?_, ?_⟩
  · have hmsb := Bool.toNat_le v.msb
    omega
  · rw [fp32ElementToNVFP4Safe_eq hv]
    exact hsign _ _ hle
  · obtain ⟨n, hnear, hn⟩ := nearest_binOf (magnitude v)
    refine ⟨n, hnear, ?_⟩
    rw [hnat, ← hn]
    omega

end Qtx.ScaledEncoders
