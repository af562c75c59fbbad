import Qtx.BinadeRounding
import Qtx.Fp8Codecs
import Qtx.FpeGuardRounding

/-!
# Rounding to bfloat16

A bfloat16 word is the upper half of a binary32 word, and the exponent fields of the two
formats agree. Adding just under half of the last kept bit to the whole word rounds its
magnitude, and the carry out of the fraction runs into the exponent.
-/
namespace Qtx.FpeGuard

open Qtx.BinaryFormats Qtx.FloatWords

def bfloat16 : Format where
  fraction := 7
  lift := 16
  largest := 0x7F7F
  infinite := 0x7F80
  quiet := 0x7FC0
  fraction_pos := by decide
  largest_le := by decide

/-- The nearest word is the rounded upper half. -/
theorem nearest_upperHalf (N : ℕ) : IsNearestEven 7 ((units 23 N : ℚ) / 2 ^ 16) (roundQuot N (2 ^ 16)) := by
  rcases Nat.lt_or_ge N (2 ^ 23) with hlow | hnormal
  · have hnear := isNearestEven_shift (m := 7) (M := N) (e := 0) (s := 16) (by decide)
      (by rw [Nat.div_lt_iff_lt_mul (by decide)]; omega) (.inl rfl)
    rw [Nat.zero_mul, Nat.zero_add, pow_zero, mul_one] at hnear
    rwa [units_of_le (by omega)]
  · have hnear := nearest_normal (m := 7) (L := 16) (N := N) (B := 1) (d := 16) (by decide) rfl rfl Nat.one_pos
      (Nat.div_pos hnormal (by decide))
    have hpos : 1 ≤ N / 2 ^ 23 := Nat.div_pos hnormal (by decide)
    have hsplit : N = (N / 2 ^ 23) * 2 ^ 7 * 2 ^ 16 + N % 2 ^ 23 := by omega
    have heven : Even ((N / 2 ^ 23) * 2 ^ 7) := Even.mul_left (by decide) _
    rw [Nat.sub_add_cancel hpos, ← roundQuot_add_even _ (by decide) heven, ← hsplit] at hnear
    exact hnear

theorem fraction_eq_zero_iff {v : BitVec 32} (h : infinity ≤ magnitude v) :
    v &&& 0x007FFFFF#32 = 0#32 ↔ magnitude v = infinity := by
  have hlt : magnitude v < 2 ^ 31 := magnitude_lt v
  have hfraction := toNat_fraction v
  have hzero : (0#32).toNat = 0 := rfl
  rw [← BitVec.toNat_inj, hfraction, hzero]
  unfold magnitude infinity at *
  omega

/-- The scalar conversion, by the kind of its word. -/
theorem fp32ToBF16Safe_nan {v : BitVec 32} (h : IsNaN v) :
    fp32ToBF16Safe v = (((v >>> 16) &&& 0x8000#32) ||| 0x7FC0#32).setWidth 16 := by
  have hexp := (fullExponent_iff v).mpr h.le
  have hfrac : ¬ v &&& 0x007FFFFF#32 = 0#32 := fun hc => absurd ((fraction_eq_zero_iff h.le).mp hc) (Nat.ne_of_gt h)
  simp [fp32ToBF16Safe, hexp, hfrac]

theorem fp32ToBF16Safe_infinite {v : BitVec 32} (h : magnitude v = infinity) :
    fp32ToBF16Safe v = (v >>> 16).setWidth 16 := by
  have hexp := (fullExponent_iff v).mpr h.ge
  have hfrac := (fraction_eq_zero_iff h.ge).mpr h
  simp [fp32ToBF16Safe, hexp, hfrac]

theorem infinite_cases {v : BitVec 32} (h : magnitude v = infinity) : v = 0x7F800000#32 ∨ v = 0xFF800000#32 := by
  have hlt := v.isLt
  unfold magnitude infinity at h
  have hv : v.toNat = 0x7F800000 ∨ v.toNat = 0xFF800000 := by omega
  rcases hv with hv | hv
  · exact .inl (BitVec.eq_of_toNat_eq hv)
  · exact .inr (BitVec.eq_of_toNat_eq hv)

/-- The sum does not reach the sign bit. -/
theorem toNat_rounded {v : BitVec 32} (h : magnitude v < infinity) :
    (v + (0x7FFF#32 + ((v >>> 16) &&& 1#32))).toNat =
      v.msb.toNat * 2 ^ 31 + (magnitude v + (2 ^ 15 - 1 + magnitude v / 2 ^ 16 % 2)) := by
  have hv : v.toNat = v.msb.toNat * 2 ^ 31 + magnitude v := toNat_eq_magnitude v
  have hbit : ((v >>> 16) &&& 1#32).toNat = magnitude v / 2 ^ 16 % 2 := by
    have hone : v.toNat >>> 16 &&& (1#32).toNat = (v.toNat >>> 16) % 2 ^ 1 :=
      Nat.and_two_pow_sub_one_eq_mod (v.toNat >>> 16) 1
    rw [BitVec.toNat_and, BitVec.toNat_ushiftRight, hone, Nat.shiftRight_eq_div_pow, hv]
    omega
  have hbias : (0x7FFF#32).toNat = 2 ^ 15 - 1 := by decide
  have hsign : v.msb.toNat ≤ 1 := Bool.toNat_le v.msb
  have hlt : infinity < 2 ^ 31 - 2 ^ 15 := by decide
  rw [BitVec.toNat_add, BitVec.toNat_add, hbit, hbias, hv]
  omega

theorem fp32ToBF16Safe_finite {v : BitVec 32} (h : magnitude v < infinity) :
    (fp32ToBF16Safe v).msb = v.msb ∧
      magnitude (fp32ToBF16Safe v) = min (roundQuot (magnitude v) (2 ^ 16)) 0x7F7F := by
  have hexp : ¬ v &&& 0x7F800000#32 = 0x7F800000#32 :=
    fun hc => absurd ((fullExponent_iff v).mp hc) (Nat.not_le.mpr h)
  have hrounded := toNat_rounded h
  have hhalf := add_half_div (magnitude v) (s := 16) (by decide)
  have hword : fp32ToBF16Safe v =
      (let rounded := v + (0x7FFF#32 + ((v >>> 16) &&& 1#32))
       if rounded &&& 0x7F800000#32 = 0x7F800000#32 then
         ((v >>> 16) &&& 0x8000#32 ||| 0x7F7F#32).setWidth 16
       else (rounded >>> 16).setWidth 16) := by
    simp only [fp32ToBF16Safe, beq_eq_false_iff_ne.mpr hexp, Bool.false_and, Bool.false_eq_true, if_false,
      BitVec.setWidth_or]
    rfl
  obtain ⟨sum, hsum⟩ : ∃ sum, magnitude v + (2 ^ 15 - 1 + magnitude v / 2 ^ 16 % 2) = sum := ⟨_, rfl⟩
  have hbound : sum < 2 ^ 31 := by
    unfold infinity at h
    omega
  rw [hsum] at hrounded
  have hhalf' : sum / 2 ^ 16 = roundQuot (magnitude v) (2 ^ 16) := by rw [← hhalf, ← hsum]
  rw [hword]
  dsimp only
  generalize v + (0x7FFF#32 + ((v >>> 16) &&& 1#32)) = rounded at *
  have hmag : magnitude rounded = sum := by
    rw [magnitude, hrounded]
    exact Nat.mul_add_mod_of_lt hbound
  split_ifs with hover
  · -- the carry has filled the exponent field
    have hge : infinity ≤ sum := hmag ▸ (fullExponent_iff rounded).mp hover
    have hle : 0x7F80 ≤ sum / 2 ^ 16 := by
      rw [Nat.le_div_iff_mul_le (by decide)]
      exact hge
    have hlargest := signed_half v (m := 0x7F7F#32) (by decide)
    refine ⟨hlargest.1, hlargest.2.trans ?_⟩
    rw [← hhalf', Nat.min_eq_right (le_trans (by decide) hle)]
    rfl
  · have hlt : sum < infinity := Nat.not_le.mp (fun hc => hover ((fullExponent_iff rounded).mpr (hmag ▸ hc)))
    have hquot : sum / 2 ^ 16 < 0x7F80 := by
      rw [Nat.div_lt_iff_lt_mul (by decide)]
      exact hlt
    have hshift : ((rounded >>> 16).setWidth 16).toNat = v.msb.toNat * 2 ^ 15 + sum / 2 ^ 16 := by
      have hsign : v.msb.toNat ≤ 1 := Bool.toNat_le v.msb
      rw [BitVec.toNat_setWidth, BitVec.toNat_ushiftRight, Nat.shiftRight_eq_div_pow, hrounded]
      omega
    obtain ⟨hsign, hupper⟩ := sign_magnitude_of_toNat (w := 15) hshift (by omega)
    refine ⟨hsign, hupper.trans ?_⟩
    omega

theorem bfloat16_roundsTo (v : BitVec 32) : RoundsTo bfloat16 v (fp32ToBF16Safe v) := by
  rcases Nat.lt_trichotomy (magnitude v) infinity with hlt | heq | hgt
  · obtain ⟨hsign, hmag⟩ := fp32ToBF16Safe_finite hlt
    exact ⟨hsign, fun hc => absurd hc (Nat.not_lt.mpr hlt.le), fun hc => absurd hc (Nat.ne_of_lt hlt),
      fun _ => ⟨_, nearest_upperHalf _, hmag⟩⟩
  · rw [fp32ToBF16Safe_infinite heq]
    refine ⟨?_, fun hc => absurd hc (Nat.not_lt.mpr heq.le), fun _ => ?_,
      fun hc => absurd hc (Nat.not_lt.mpr heq.ge)⟩
    · rcases infinite_cases heq with rfl | rfl <;> rfl
    · rcases infinite_cases heq with rfl | rfl <;> rfl
  · have hquiet := signed_half v (m := 0x7FC0#32) (by decide)
    rw [fp32ToBF16Safe_nan hgt]
    exact ⟨hquiet.1, fun _ => hquiet.2.ge, fun hc => absurd hc (Nat.ne_of_gt hgt),
      fun hc => absurd hc (Nat.not_lt.mpr (Nat.le_of_lt hgt))⟩

end Qtx.FpeGuard
