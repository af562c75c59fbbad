import Qtx.BinadeRounding
import Qtx.ElementStreams
import Qtx.FpeGuardRounding

/-!
# Rounding to binary16

The binary16 encoder is correct on every word outside one binade. The guard below the
subnormal branch compares against constants one binade too low, so the words of
`[2⁻²⁶, 2⁻²⁵)` give the least positive value in place of zero.
-/
namespace Qtx.Fp16Rounding

open Qtx.BinaryFormats Qtx.FloatWords Qtx.FpeGuard Qtx.ByteStreams Qtx.ElementStreams

def binary16 : Format where
  fraction := 10
  lift := 125
  largest := 0x7BFF
  infinite := 0x7C00
  quiet := 0x7E00
  fraction_pos := by decide
  largest_le := by decide

/-- The binade below half of the least positive value. -/
def BelowHalf (v : BitVec 32) : Prop := 0x32800000 ≤ magnitude v ∧ magnitude v < 0x33000000

section Finite

variable {abs : BitVec 32}

theorem fp16Magnitude_subnormal (hlo : 0x33000000 ≤ abs.toNat) (hhi : abs.toNat < 0x38800000) :
    IsNearestEven 10 ((units 23 abs.toNat : ℚ) / 2 ^ 125) (fp16Magnitude abs).toNat ∧
      (fp16Magnitude abs).toNat < 0x7C00 := by
  have hf : abs.toNat % 2 ^ 23 < 2 ^ 23 := Nat.mod_lt _ (by decide)
  obtain ⟨E, hE⟩ : ∃ E, abs.toNat / 2 ^ 23 = E := ⟨_, rfl⟩
  have hElo : 102 ≤ E := by omega
  have hEhi : E ≤ 112 := by omega
  have hshift : (113#32 - abs >>> 23 + 13#32).toNat = 126 - E := by
    have hexp := toNat_exponent abs
    rw [hE] at hexp
    rw [BitVec.toNat_add, BitVec.toNat_sub_of_le (by rw [BitVec.le_def, hexp]; exact hEhi.trans (by decide)), hexp]
    have h113 : (113#32).toNat = 113 := rfl
    have h13 : (13#32).toNat = 13 := rfl
    rw [h113, h13, Nat.mod_eq_of_lt (by omega)]
    omega
  have hbranch : fp16Magnitude abs =
      let M := (abs &&& 0x007FFFFF#32) ||| 0x00800000#32
      if roundsUp M (126 - E) then M >>> (126 - E) + 1#32 else M >>> (126 - E) := by
    have h1 : ¬ 0x7F800000#32 ≤ abs := by rw [BitVec.le_def]; exact Nat.not_le.mpr (hhi.trans (by decide))
    have h2 : ¬ abs < 0x33000000#32 := by rw [BitVec.lt_def]; exact Nat.not_lt.mpr hlo
    have h3 : ¬ 0x47800000#32 ≤ abs := by rw [BitVec.le_def]; exact Nat.not_le.mpr (hhi.trans (by decide))
    have h4 : abs < 0x38800000#32 := by rw [BitVec.lt_def]; exact hhi
    simp only [fp16Magnitude, h1, h2, h3, h4, if_false, if_true, hshift]
  have hquot : (2 ^ 23 + abs.toNat % 2 ^ 23) / 2 ^ (126 - E) < 2 ^ 10 + 1 := by
    refine lt_of_le_of_lt (Nat.div_le_div_left (Nat.pow_le_pow_right (by decide) (by omega : 14 ≤ 126 - E))
      (by decide)) ?_
    omega
  have hround : (fp16Magnitude abs).toNat = roundQuot (2 ^ 23 + abs.toNat % 2 ^ 23) (2 ^ (126 - E)) := by
    rw [hbranch, toNat_ite_roundsUp, toNat_shift_roundsUp _ (by omega) (by omega), toNat_significand]
    rw [BitVec.toNat_ushiftRight, Nat.shiftRight_eq_div_pow, toNat_significand]
    exact lt_trans (Nat.succ_lt_succ hquot) (by decide)
  constructor
  · rw [hround]
    exact nearest_subnormal (by decide) (by omega) (by omega) (hquot.trans (by decide))
  · rw [hround, roundQuot]
    split_ifs <;> omega

/-- The carry out of the fraction runs into the exponent, and past the last exponent it is cut off. -/
theorem cutOff {x : BitVec 32} (hx : x.toNat ≤ 0x7C00) :
    (if x &&& 0x7C00#32 = 0x7C00#32 then 0x7BFF#32 else x).toNat = min x.toNat 0x7BFF := by
  rcases Nat.eq_or_lt_of_le hx with heq | hlt
  · obtain rfl : x = 0x7C00#32 := BitVec.eq_of_toNat_eq heq
    rfl
  · have hne : ¬ x &&& 0x7C00#32 = 0x7C00#32 := by
      intro h
      have hle : (x &&& 0x7C00#32).toNat ≤ x.toNat := by
        rw [BitVec.toNat_and]
        exact Nat.and_le_left
      rw [h] at hle
      exact absurd hlt (Nat.not_lt.mpr hle)
    rw [if_neg hne, Nat.min_eq_left (Nat.le_of_lt_succ hlt)]

/-- The exponent and the upper bits of the fraction, side by side. -/
theorem toNat_result (hlo : 113 ≤ abs.toNat / 2 ^ 23) (hhi : abs.toNat / 2 ^ 23 ≤ 142) :
    ((abs >>> 23 - 112#32) <<< 10 ||| (abs &&& 0x007FFFFF#32) >>> 13).toNat =
      (abs.toNat / 2 ^ 23 - 112) * 2 ^ 10 + abs.toNat % 2 ^ 23 / 2 ^ 13 := by
  have hf : abs.toNat % 2 ^ 23 < 2 ^ 23 := Nat.mod_lt _ (by decide)
  have he32 : (abs >>> 23 - 112#32).toNat = abs.toNat / 2 ^ 23 - 112 := by
    have hexp := toNat_exponent abs
    have h112 : (112#32).toNat = 112 := rfl
    rw [BitVec.toNat_sub_of_le (by rw [BitVec.le_def, hexp, h112]; omega), hexp, h112]
  have hm16 : ((abs &&& 0x007FFFFF#32) >>> 13).toNat = abs.toNat % 2 ^ 23 / 2 ^ 13 := by
    rw [BitVec.toNat_ushiftRight, Nat.shiftRight_eq_div_pow, toNat_fraction]
  rw [toNat_fields (by rw [he32]; omega) (by rw [hm16]; omega), he32, hm16]

/-- In the normal range the rounded significand is added to the exponent and cut off at the end. -/
theorem toNat_fp16Magnitude_normal (hlo : 0x38800000 ≤ abs.toNat) (hhi : abs.toNat < 0x47800000) :
    (fp16Magnitude abs).toNat =
      min ((abs.toNat / 2 ^ 23 - 112) * 2 ^ 10 + roundQuot (abs.toNat % 2 ^ 23) (2 ^ 13)) 0x7BFF := by
  have hf : abs.toNat % 2 ^ 23 < 2 ^ 23 := Nat.mod_lt _ (by decide)
  have hE : 113 ≤ abs.toNat / 2 ^ 23 ∧ abs.toNat / 2 ^ 23 ≤ 142 := by omega
  have hresult := toNat_result hE.1 hE.2
  have hquot := toNat_shift_roundsUp (abs &&& 0x007FFFFF#32) (s := 13) (by decide) (by decide)
  rw [BitVec.toNat_ushiftRight, Nat.shiftRight_eq_div_pow, toNat_fraction] at hquot
  have h1 : ¬ 0x7F800000#32 ≤ abs := by rw [BitVec.le_def]; exact Nat.not_le.mpr (hhi.trans (by decide))
  have h2 : ¬ abs < 0x33000000#32 := by rw [BitVec.lt_def]; exact Nat.not_lt.mpr (le_trans (by decide) hlo)
  have h3 : ¬ 0x47800000#32 ≤ abs := by rw [BitVec.le_def]; exact Nat.not_le.mpr hhi
  have h4 : ¬ abs < 0x38800000#32 := by rw [BitVec.lt_def]; exact Nat.not_lt.mpr hlo
  simp only [fp16Magnitude, h1, h2, h3, h4, if_false]
  rw [← hquot]
  generalize (abs >>> 23 - 112#32) <<< 10 ||| (abs &&& 0x007FFFFF#32) >>> 13 = result at *
  cases roundsUp (abs &&& 0x007FFFFF#32) 13
  · rw [if_neg Bool.false_ne_true, hresult, Bool.toNat_false, Nat.min_eq_left (by omega)]
    rfl
  · have hnext : (result + 1#32).toNat = result.toNat + 1 :=
      BitVec.toNat_add_of_lt (show result.toNat + 1 < 2 ^ 32 by omega)
    rw [if_pos rfl, cutOff (by omega), hnext, hresult, Bool.toNat_true, Nat.add_assoc]

theorem fp16Magnitude_normal (hlo : 0x38800000 ≤ abs.toNat) (hhi : abs.toNat < 0x47800000) :
    ∃ n, IsNearestEven 10 ((units 23 abs.toNat : ℚ) / 2 ^ 125) n ∧ (fp16Magnitude abs).toNat = min n 0x7BFF := by
  have hf : abs.toNat % 2 ^ 23 < 2 ^ 23 := Nat.mod_lt _ (by decide)
  obtain ⟨E, hE⟩ : ∃ E, abs.toNat / 2 ^ 23 = E := ⟨_, rfl⟩
  have hElo : 113 ≤ E := by omega
  have hnear := nearest_normal (m := 10) (L := 125) (N := abs.toNat) (B := 113) (d := 13) (by decide) rfl rfl
    (by decide) (by omega)
  refine ⟨_, hnear, ?_⟩
  have hexp : E - 113 + 1 = E - 112 := by omega
  rw [toNat_fp16Magnitude_normal hlo hhi, hE, hexp]

theorem fp16Magnitude_large (hlo : 0x47800000 ≤ abs.toNat) (hhi : abs.toNat < 0x7F800000) :
    ∃ n, IsNearestEven 10 ((units 23 abs.toNat : ℚ) / 2 ^ 125) n ∧ (fp16Magnitude abs).toNat = min n 0x7BFF := by
  have hnear := isNearestEven_roundUnits (m := 10) (by decide) (units 23 abs.toNat) (Nat.two_pow_pos 125)
  rw [Nat.cast_pow, Nat.cast_two] at hnear
  refine ⟨_, hnear, ?_⟩
  have hstart : units 10 0x7C00 * 2 ^ 125 ≤ units 23 abs.toNat := by
    have hmono := (units_le_units (m := 23)).mpr hlo
    have hpoint : units 10 0x7C00 * 2 ^ 125 = units 23 0x47800000 := by decide
    rwa [hpoint]
  have hle : ((units 10 0x7C00 : ℕ) : ℚ) ≤ (units 23 abs.toNat : ℚ) / 2 ^ 125 := by
    rw [le_div_iff₀ (by positivity)]
    exact_mod_cast hstart
  have hmono := (IsNearestEven.exact 10 0x7C00).mono hnear hle
  have h1 : ¬ 0x7F800000#32 ≤ abs := by rw [BitVec.le_def]; exact Nat.not_le.mpr hhi
  have h2 : ¬ abs < 0x33000000#32 := by rw [BitVec.lt_def]; exact Nat.not_lt.mpr (le_trans (by decide) hlo)
  have h3 : 0x47800000#32 ≤ abs := by rw [BitVec.le_def]; exact hlo
  simp only [fp16Magnitude, h1, h2, h3, if_false, if_true]
  rw [Nat.min_eq_right (le_trans (by decide) hmono)]
  rfl

end Finite

/-- The magnitude a finite word rounds to, outside the binade that the guard misses. -/
theorem fp16Magnitude_finite {abs : BitVec 32} (hhi : abs.toNat < 0x7F800000)
    (hbelow : ¬ (0x32800000 ≤ abs.toNat ∧ abs.toNat < 0x33000000)) :
    ∃ n, IsNearestEven 10 ((units 23 abs.toNat : ℚ) / 2 ^ 125) n ∧ (fp16Magnitude abs).toNat = min n 0x7BFF := by
  rcases Nat.lt_or_ge abs.toNat 0x33000000 with hzero | hzero
  · refine ⟨0, nearest_zero (by decide) hzero, ?_⟩
    have h1 : ¬ 0x7F800000#32 ≤ abs := by rw [BitVec.le_def]; exact Nat.not_le.mpr hhi
    have h2 : abs < 0x33000000#32 := by rw [BitVec.lt_def]; exact hzero
    have h3 : ¬ 0x32800000#32 ≤ abs := by
      rw [BitVec.le_def]
      exact fun h => hbelow ⟨h, hzero⟩
    simp only [fp16Magnitude, h1, h2, h3, if_false, if_true]
    rfl
  · rcases Nat.lt_or_ge abs.toNat 0x38800000 with hsub | hsub
    · obtain ⟨hnear, hlt⟩ := fp16Magnitude_subnormal hzero hsub
      exact ⟨_, hnear, (Nat.min_eq_left (Nat.le_of_lt_succ hlt)).symm⟩
    · rcases Nat.lt_or_ge abs.toNat 0x47800000 with hnormal | hlarge
      · exact fp16Magnitude_normal hsub hnormal
      · exact fp16Magnitude_large hlarge hhi

/-- In the binade that the guard misses the result is the least positive value. -/
theorem fp16Magnitude_below {abs : BitVec 32} (hlo : 0x32800000 ≤ abs.toNat) (hhi : abs.toNat < 0x33000000) :
    (fp16Magnitude abs).toNat = 1 := by
  have h1 : ¬ 0x7F800000#32 ≤ abs := by rw [BitVec.le_def]; exact Nat.not_le.mpr (hhi.trans (by decide))
  have h2 : abs < 0x33000000#32 := by rw [BitVec.lt_def]; exact hhi
  have h3 : 0x32800000#32 ≤ abs := by rw [BitVec.le_def]; exact hlo
  simp only [fp16Magnitude, h1, h2, h3, if_false, if_true]
  rfl

theorem fp16Magnitude_infinite {abs : BitVec 32} (h : abs.toNat = infinity) : fp16Magnitude abs = 0x7C00#32 := by
  obtain rfl : abs = 0x7F800000#32 := BitVec.eq_of_toNat_eq h
  rfl

theorem fp16Magnitude_nan {abs : BitVec 32} (h : infinity < abs.toNat) : fp16Magnitude abs = 0x7E00#32 := by
  have h1 : 0x7F800000#32 ≤ abs := by rw [BitVec.le_def]; exact h.le
  have h2 : 0x7F800000#32 < abs := by rw [BitVec.lt_def]; exact h
  simp only [fp16Magnitude, h1, h2, if_true]

theorem fp16Magnitude_lt (abs : BitVec 32) : (fp16Magnitude abs).toNat < 2 ^ 15 := by
  rcases Nat.lt_trichotomy abs.toNat infinity with hlt | heq | hgt
  · by_cases hbelow : 0x32800000 ≤ abs.toNat ∧ abs.toNat < 0x33000000
    · rw [fp16Magnitude_below hbelow.1 hbelow.2]
      decide
    · obtain ⟨n, -, hn⟩ := fp16Magnitude_finite hlt hbelow
      rw [hn]
      exact lt_of_le_of_lt (min_le_right _ _) (by decide)
  · rw [fp16Magnitude_infinite heq]
    decide
  · rw [fp16Magnitude_nan hgt]
    decide

/-- One word is rounded correctly if and only if it does not lie in the binade that the guard misses. -/
theorem roundsTo_iff (v : BitVec 32) : RoundsTo binary16 v (fp32ToFP16Safe v) ↔ ¬ BelowHalf v := by
  have hword := signed_half v (fp16Magnitude_lt (v &&& 0x7FFFFFFF#32))
  have habs := magnitude_eq v
  constructor
  · rintro hr ⟨hlo, hhi⟩
    obtain ⟨n, hnear, hn⟩ := hr.finite (hhi.trans (by decide))
    obtain rfl := (nearest_zero (by decide) hhi).unique hnear
    rw [← habs] at hlo hhi
    have hone := hword.2.trans (fp16Magnitude_below hlo hhi)
    exact absurd (hone.symm.trans hn) (by decide)
  · intro hbelow
    constructor
    · exact hword.1
    · intro hnan
      rw [fp32ToFP16Safe, hword.2, fp16Magnitude_nan (habs.symm ▸ hnan)]
      decide
    · intro hinf
      rw [fp32ToFP16Safe, hword.2, fp16Magnitude_infinite (habs.trans hinf)]
      rfl
    · intro hfin
      rw [BelowHalf, ← habs] at hbelow
      rw [← habs] at hfin
      obtain ⟨n, hnear, hn⟩ := fp16Magnitude_finite hfin hbelow
      refine ⟨n, ?_, hword.2.trans hn⟩
      rw [ticks, ← habs]
      exact hnear

/-- The first `n` half words of a stream are the rounded words of another, and keep their order. -/
structure CorrectlyRounded (src out : Bytes) (n : ℕ) : Prop where
  rounded : ∀ i < n, RoundsTo binary16 (wordAt src i) (halfAt out i)
  monotone : ∀ i < n, ∀ j < n, ¬ IsNaN (wordAt src i) → ¬ IsNaN (wordAt src j) →
    rank (wordAt src i) ≤ rank (wordAt src j) → rank (halfAt out i) ≤ rank (halfAt out j)

/-- The encoder is correct on a stream if and only if no word lies in the binade that the guard misses. -/
theorem compressFP32ToFP16_correctlyRounded {c : Call} {n : ℕ} (h : c.Fits 4 2 n) :
    CorrectlyRounded c.src (compressFP32ToFP16 c).2 n ↔ ∀ i < n, ¬ BelowHalf (wordAt c.src i) := by
  have hword : ∀ i < n, (RoundsTo binary16 (wordAt c.src i) (halfAt (compressFP32ToFP16 c).2 i) ↔
      ¬ BelowHalf (wordAt c.src i)) := by
    intro i hi
    rw [halfAt_compressFP32ToFP16 h hi]
    exact roundsTo_iff _
  constructor
  · intro hc i hi
    exact (hword i hi).mp (hc.rounded i hi)
  · intro hbelow
    have hrounded : ∀ i < n, RoundsTo binary16 (wordAt c.src i) (halfAt (compressFP32ToFP16 c).2 i) :=
      fun i hi => (hword i hi).mpr (hbelow i hi)
    constructor
    · exact hrounded
    · intro i hi j hj hnan hnan' hle
      exact (hrounded i hi).rank_mono (hrounded j hj) hnan hnan' hle

/-- A negative word, a subnormal result, a tie and the word after it, and a word above the largest value. -/
def mixedWords : List (BitVec 32) := [0xC0490FDB#32, 0x38000001#32, 0x3F801000#32, 0x3F803000#32, 0x49742400#32]

/-- A stream of these words, encoded into a buffer behind it. -/
def mixedCall : Call where
  src := wordBytes (mixedWords.getD · 0#32)
  srcSize := 20
  srcData := 0
  dst := fun _ => 0
  dstSize := 10
  dstData := 20

theorem compressFP32ToFP16_correctlyRounded_mixed :
    CorrectlyRounded mixedCall.src (compressFP32ToFP16 mixedCall).2 5 ∧
      (List.range 5).map (halfAt (compressFP32ToFP16 mixedCall).2) =
        [0xC248#16, 0x0200#16, 0x3C00#16, 0x3C02#16, 0x7BFF#16] := by
  have hfits : mixedCall.Fits 4 2 5 := ⟨rfl, by decide, by decide, by decide⟩
  have hoff : ∀ i < 5, ¬ BelowHalf (wordAt mixedCall.src i) := by
    unfold BelowHalf
    decide
  exact ⟨(compressFP32ToFP16_correctlyRounded hfits).mpr hoff, by decide⟩

/-- A stream of one word, encoded into a buffer behind it. -/
def oneWordCall (v : BitVec 32) : Call where
  src := bytesOf v
  srcSize := 4
  srcData := 0
  dst := fun _ => 0
  dstSize := 2
  dstData := 4

/-- The word of `2⁻²⁶` gives the least positive value instead of zero. -/
theorem compressFP32ToFP16_misrounds :
    (oneWordCall 0x32800000#32).Fits 4 2 1 ∧
      ¬ CorrectlyRounded (oneWordCall 0x32800000#32).src (compressFP32ToFP16 (oneWordCall 0x32800000#32)).2 1 := by
  have hfits : (oneWordCall 0x32800000#32).Fits 4 2 1 := ⟨rfl, by decide, by decide, by decide⟩
  have hhalf : halfAt (compressFP32ToFP16 (oneWordCall 0x32800000#32)).2 0 = 0x0001#16 := by decide
  have hsource : wordAt (oneWordCall 0x32800000#32).src 0 = 0x32800000#32 := by decide
  refine ⟨hfits, fun hc => ?_⟩
  obtain ⟨n, hnear, hn⟩ := (hc.rounded 0 Nat.zero_lt_one).finite (by rw [hsource]; decide)
  rw [hsource] at hnear
  obtain rfl := (nearest_zero (by decide) (by decide)).unique hnear
  rw [hhalf] at hn
  exact absurd hn (by decide)

end Qtx.Fp16Rounding
