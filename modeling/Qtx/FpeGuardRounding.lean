import Qtx.FpeGuard

/-!
# Rounding by bits

The test on the dropped bits rounds the quotient by a power of two to nearest even. With
it the binary16 conversion finds the nearest word, binade by binade.
-/
namespace Qtx.FpeGuard

open Qtx.BinaryFormats Qtx.FloatWords

theorem toNat_lowMask {k : ℕ} (hk : k < 32) : ((1#32 <<< k) - 1#32).toNat = 2 ^ k - 1 := by
  have hpow : 2 ^ k < 2 ^ 32 := Nat.pow_lt_pow_right (by decide) hk
  have hpos : 0 < 2 ^ k := Nat.two_pow_pos k
  have hone : (1#32).toNat = 1 := rfl
  have hshift : (1#32 <<< k).toNat = 2 ^ k := by
    rw [BitVec.toNat_shiftLeft, hone, Nat.one_shiftLeft, Nat.mod_eq_of_lt hpow]
  rw [BitVec.toNat_sub_of_le (by rw [BitVec.le_def, hshift]; exact hpos), hshift]
  rfl

/-- A quotient by twice `p`, read off the quotient by `p`. -/
theorem roundQuot_double (a : ℕ) {p : ℕ} (hp : 0 < p) : roundQuot a (2 * p) =
    a / (2 * p) + if a / p % 2 = 1 ∧ (a % p ≠ 0 ∨ a / (2 * p) % 2 = 1) then 1 else 0 := by
  have hmod : a % (2 * p) = a % p + p * (a / p % 2) := by rw [Nat.mul_comm 2 p, Nat.mod_mul]
  have hlt : a % p < p := Nat.mod_lt a hp
  rw [roundQuot, hmod]
  rcases Nat.mod_two_eq_zero_or_one (a / p) with h0 | h1
  · rw [h0, Nat.mul_zero, Nat.add_zero, if_pos (by omega), if_neg (by omega)]
    rfl
  · rw [h1, Nat.mul_one, if_neg (by omega)]
    by_cases hz : a % p = 0
    · rw [if_neg (by omega)]
      rcases Nat.mod_two_eq_zero_or_one (a / (2 * p)) with hq | hq <;> simp [hz, hq]
    · rw [if_pos (by omega), if_pos ⟨rfl, .inl hz⟩]

/-- The test on the dropped bits is round to nearest even. -/
theorem toNat_shift_roundsUp (x : BitVec 32) {s : ℕ} (hs : 0 < s) (h32 : s ≤ 32) :
    (x >>> s).toNat + (roundsUp x s).toNat = roundQuot x.toNat (2 ^ s) := by
  have hdouble : 2 ^ s = 2 * 2 ^ (s - 1) := by rw [Nat.mul_comm, ← pow_succ, Nat.sub_add_cancel hs]
  have hround : (x >>> (s - 1)) &&& 1#32 ≠ 0#32 ↔ x.toNat / 2 ^ (s - 1) % 2 = 1 := by
    rw [ne_eq, ← BitVec.toNat_inj, BitVec.toNat_and, BitVec.toNat_ushiftRight, Nat.shiftRight_eq_div_pow]
    simp
  have hsticky : x &&& ((1#32 <<< (s - 1)) - 1#32) ≠ 0#32 ↔ x.toNat % 2 ^ (s - 1) ≠ 0 := by
    rw [ne_eq, ← BitVec.toNat_inj, BitVec.toNat_and, toNat_lowMask (by omega), Nat.and_two_pow_sub_one_eq_mod]
    rfl
  have hkept : (x >>> s) &&& 1#32 ≠ 0#32 ↔ x.toNat / 2 ^ s % 2 = 1 := by
    rw [ne_eq, ← BitVec.toNat_inj, BitVec.toNat_and, BitVec.toNat_ushiftRight, Nat.shiftRight_eq_div_pow]
    simp
  have hup : roundsUp x s = true ↔ x.toNat / 2 ^ (s - 1) % 2 = 1 ∧
      (x.toNat % 2 ^ (s - 1) ≠ 0 ∨ x.toNat / 2 ^ s % 2 = 1) := by
    rw [← hround, ← hsticky, ← hkept]
    simp only [roundsUp, Bool.and_eq_true, Bool.or_eq_true, bne_iff_ne]
  rw [BitVec.toNat_ushiftRight, Nat.shiftRight_eq_div_pow, hdouble,
    roundQuot_double _ (Nat.two_pow_pos _), ← hdouble]
  congr 1
  by_cases h : roundsUp x s = true
  · rw [if_pos (hup.mp h), h]
    rfl
  · rw [if_neg (fun hc => h (hup.mpr hc)), Bool.not_eq_true _ |>.mp h]
    rfl

/-- The rounded significand, as the code adds it up. -/
theorem toNat_ite_roundsUp {x y : BitVec 32} {s : ℕ} (hlt : y.toNat + 1 < 2 ^ 32) :
    (if roundsUp x s then y + 1#32 else y).toNat = y.toNat + (roundsUp x s).toNat := by
  cases roundsUp x s
  · rfl
  · simp only [if_true, Bool.toNat_true]
    rw [BitVec.toNat_add]
    exact Nat.mod_eq_of_lt hlt

/-- The exponent field and the fraction field of a magnitude. -/
theorem toNat_exponent (abs : BitVec 32) : (abs >>> 23).toNat = abs.toNat / 2 ^ 23 := by
  rw [BitVec.toNat_ushiftRight, Nat.shiftRight_eq_div_pow]

theorem toNat_fraction (abs : BitVec 32) : (abs &&& 0x007FFFFF#32).toNat = abs.toNat % 2 ^ 23 := by
  rw [BitVec.toNat_and]
  exact Nat.and_two_pow_sub_one_eq_mod abs.toNat 23

theorem toNat_significand (abs : BitVec 32) :
    ((abs &&& 0x007FFFFF#32) ||| 0x00800000#32).toNat = 2 ^ 23 + abs.toNat % 2 ^ 23 := by
  have hlt : abs.toNat % 2 ^ 23 < 2 ^ 23 := Nat.mod_lt _ (by decide)
  rw [BitVec.toNat_or, toNat_fraction, Nat.or_comm]
  exact (Nat.two_pow_add_eq_or_of_lt hlt 1).symm

/-- Two fields that lie next to each other. -/
theorem toNat_fields {x y : BitVec 32} {k : ℕ} (hx : x.toNat * 2 ^ k < 2 ^ 32) (hy : y.toNat < 2 ^ k) :
    (x <<< k ||| y).toNat = x.toNat * 2 ^ k + y.toNat := by
  rw [BitVec.toNat_or, BitVec.toNat_shiftLeft, Nat.shiftLeft_eq, Nat.mod_eq_of_lt hx, ← Nat.shiftLeft_eq,
    ← Nat.shiftLeft_add_eq_or_of_lt hy]

/-- The sign bit, moved to the top of a narrower word. -/
theorem signBit_narrow (v : BitVec 32) {k w : ℕ} (hk : k + w = 31) :
    (v >>> k) &&& BitVec.twoPow 32 w = if v.msb then BitVec.twoPow 32 w else 0#32 := by
  rw [BitVec.and_twoPow, BitVec.getLsbD_ushiftRight, BitVec.msb_eq_getLsbD_last, hk]

theorem signBit_eq (v : BitVec 32) : (v >>> 16) &&& 0x8000#32 = if v.msb then 0x8000#32 else 0#32 :=
  signBit_narrow v (w := 15) rfl

/-- A magnitude below the sign bit of a narrower word. -/
theorem signed_narrow (v : BitVec 32) {k w : ℕ} (hk : k + w = 31) {m : BitVec 32} (hm : m.toNat < 2 ^ w) :
    (((v >>> k) &&& BitVec.twoPow 32 w ||| m).setWidth (w + 1)).msb = v.msb ∧
      magnitude (((v >>> k) &&& BitVec.twoPow 32 w ||| m).setWidth (w + 1)) = m.toNat := by
  have hpow : 2 ^ w < 2 ^ 32 := Nat.pow_lt_pow_right (by decide) (by omega)
  have hdouble : 2 ^ (w + 1) = 2 * 2 ^ w := by rw [pow_succ, Nat.mul_comm]
  have htoNat : (((v >>> k) &&& BitVec.twoPow 32 w ||| m).setWidth (w + 1)).toNat =
    v.msb.toNat * 2 ^ w + m.toNat := by
    rw [signBit_narrow v hk, BitVec.toNat_setWidth, BitVec.toNat_or]
    cases v.msb
    · simp only [Bool.false_eq_true, if_false, Bool.toNat_false]
      rw [BitVec.toNat_ofNat, Nat.zero_mod, Nat.zero_or, Nat.zero_mul, Nat.zero_add]
      exact Nat.mod_eq_of_lt (by omega)
    · have hor := (Nat.two_pow_add_eq_or_of_lt hm 1).symm
      rw [Nat.mul_one] at hor
      simp only [if_true, Bool.toNat_true]
      rw [BitVec.toNat_twoPow, Nat.mod_eq_of_lt hpow, hor, Nat.one_mul]
      exact Nat.mod_eq_of_lt (by omega)
  exact sign_magnitude_of_toNat htoNat hm

theorem signed_half (v : BitVec 32) {m : BitVec 32} (hm : m.toNat < 2 ^ 15) :
    (((v >>> 16) &&& 0x8000#32 ||| m).setWidth 16).msb = v.msb ∧
      magnitude (((v >>> 16) &&& 0x8000#32 ||| m).setWidth 16) = m.toNat :=
  signed_narrow v (w := 15) rfl hm

theorem signed_byte (v : BitVec 32) {m : BitVec 32} (hm : m.toNat < 2 ^ 7) :
    (((v >>> 24) &&& 0x80#32 ||| m).setWidth 8).msb = v.msb ∧
      magnitude (((v >>> 24) &&& 0x80#32 ||| m).setWidth 8) = m.toNat :=
  signed_narrow v (w := 7) rfl hm

end Qtx.FpeGuard
