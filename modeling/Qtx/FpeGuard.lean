import Qtx.FloatWords

/-!
# Conversions of floating-point words

The scalar helpers of `fpe_guard.hpp`, on the words of their arguments: tests that do not
rely on the floating-point mode, and the conversions between binary32 and the narrower
formats. Every conversion to a narrower word rounds to nearest even by the highest bit it
drops, the bits below it and the last bit it keeps.
-/
namespace Qtx.FpeGuard

def isFiniteStrict (v : BitVec 32) : Bool := v &&& 0x7F800000#32 != 0x7F800000#32

def sanitiseFinite (v : BitVec 32) : BitVec 32 :=
  let exp := v &&& 0x7F800000#32
  let nonfiniteMask := -(BitVec.ofBool (exp == 0x7F800000#32)).setWidth 32
  v &&& ~~~nonfiniteMask

/-- The round bit with the sticky bits or the last kept bit. -/
def roundsUp (x : BitVec 32) (shift : ℕ) : Bool :=
  let roundBit := (x >>> (shift - 1)) &&& 1#32
  let sticky := x &&& ((1#32 <<< (shift - 1)) - 1#32)
  let kept := x >>> shift
  roundBit != 0#32 && (sticky != 0#32 || kept &&& 1#32 != 0#32)

def fp32ToBF16Safe (bits : BitVec 32) : BitVec 16 :=
  let isInfOrNaN := bits &&& 0x7F800000#32 == 0x7F800000#32
  let isNaN := isInfOrNaN && bits &&& 0x007FFFFF#32 != 0#32
  if isNaN then (((bits >>> 16) &&& 0x8000#32) ||| 0x7FC0#32).setWidth 16
  else if isInfOrNaN then (bits >>> 16).setWidth 16
  else
    let roundingBias := 0x7FFF#32 + ((bits >>> 16) &&& 1#32)
    let rounded := bits + roundingBias
    if rounded &&& 0x7F800000#32 = 0x7F800000#32 then
      ((bits >>> 16) &&& 0x8000#32).setWidth 16 ||| 0x7F7F#16
    else (rounded >>> 16).setWidth 16

/-- What `fp32ToFP16Safe` ors to the sign bit, by the magnitude of its argument. -/
def fp16Magnitude (abs : BitVec 32) : BitVec 32 :=
  if 0x7F800000#32 ≤ abs then
    if 0x7F800000#32 < abs then 0x7E00#32 else 0x7C00#32
  else if abs < 0x33000000#32 then
    if 0x32800000#32 ≤ abs then 0x0001#32 else 0#32
  else if 0x47800000#32 ≤ abs then 0x7BFF#32
  else if abs < 0x38800000#32 then
    let fp32Exp := abs >>> 23
    let shift := (113#32 - fp32Exp + 13#32).toNat
    let mantWithLeadingOne := (abs &&& 0x007FFFFF#32) ||| 0x00800000#32
    let mant := mantWithLeadingOne >>> shift
    if roundsUp mantWithLeadingOne shift then mant + 1#32 else mant
  else
    let e32 := (abs >>> 23) - 112#32
    let m32 := abs &&& 0x007FFFFF#32
    let result := (e32 <<< 10) ||| (m32 >>> 13)
    if roundsUp m32 13 then
      if (result + 1#32) &&& 0x7C00#32 = 0x7C00#32 then 0x7BFF#32 else result + 1#32
    else result

def fp32ToFP16Safe (bits : BitVec 32) : BitVec 16 :=
  let sign := (bits >>> 16) &&& 0x8000#32
  let abs := bits &&& 0x7FFFFFFF#32
  (sign ||| fp16Magnitude abs).setWidth 16

/-- Shifts up until the bit `top` is set, and counts the shifts. -/
def normalise (top : BitVec 32) : ℕ → BitVec 32 → BitVec 32 → BitVec 32 × BitVec 32
  | 0, m, e => (m, e)
  | fuel + 1, m, e => if m &&& top = 0#32 then normalise top fuel (m <<< 1) (e + 1#32) else (m, e)

def fp16ToFP32 (h : BitVec 16) : BitVec 32 :=
  let sign := (h.setWidth 32 &&& 0x8000#32) <<< 16
  let exp := (h.setWidth 32 >>> 10) &&& 0x1F#32
  let mant := h.setWidth 32 &&& 0x03FF#32
  if exp = 0#32 then
    if mant = 0#32 then sign
    else
      let (m, e) := normalise 0x0400#32 10 mant 1#32
      let m := m &&& 0x03FF#32
      sign ||| ((114#32 - e) <<< 23) ||| (m <<< 13)
  else if exp = 0x1F#32 then
    if mant = 0#32 then sign ||| 0x7F800000#32 else sign ||| 0x7F800000#32 ||| (mant <<< 13)
  else sign ||| ((exp + 112#32) <<< 23) ||| (mant <<< 13)

def fp8E4M3ToFP32 (h : BitVec 8) : BitVec 32 :=
  let sign := (h.setWidth 32 &&& 0x80#32) <<< 24
  let exp := (h.setWidth 32 >>> 3) &&& 0x0F#32
  let mant := h.setWidth 32 &&& 0x07#32
  if exp = 0#32 then
    if mant = 0#32 then sign
    else
      let (m, e) := normalise 0x04#32 2 mant 1#32
      let m := m &&& 0x03#32
      sign ||| ((121#32 - e) <<< 23) ||| (m <<< 21)
  else if exp = 0x0F#32 ∧ mant = 0x07#32 then sign ||| 0x7FC00000#32
  else sign ||| ((exp + 120#32) <<< 23) ||| (mant <<< 20)

/-- The tables of E2M1: its levels, the midpoints between them, and the level a tie goes to. -/
structure E2m1Tables where
  kNVFP4Magnitudes : ℕ → BitVec 32
  kMidpoints : ℕ → BitVec 32
  kTieToEven : ℕ → BitVec 8

def kNVFP4Magnitudes (i : ℕ) : BitVec 32 :=
  [0#32, 0x3F000000#32, 0x3F800000#32, 0x3FC00000#32, 0x40000000#32, 0x40400000#32, 0x40800000#32,
    0x40C00000#32].getD i
    0#32

def kMidpoints (i : ℕ) : BitVec 32 :=
  [0x3E800000#32, 0x3F400000#32, 0x3FA00000#32, 0x3FE00000#32, 0x40200000#32, 0x40600000#32,
    0x40A00000#32].getD i 0#32

def kTieToEven (i : ℕ) : BitVec 8 := [0#8, 2#8, 2#8, 4#8, 4#8, 6#8, 6#8].getD i 0#8

def e2m1Tables : E2m1Tables := ⟨kNVFP4Magnitudes, kMidpoints, kTieToEven⟩

/-- The sixteen values of E2M1. -/
def nvfp4ElementToFP32 (T : E2m1Tables) (n : BitVec 8) : BitVec 32 :=
  let mag := T.kNVFP4Magnitudes (n &&& 0x07#8).toNat
  if n &&& 0x08#8 ≠ 0#8 then mag ^^^ 0x80000000#32 else mag

open Qtx.FloatWords

theorem toNat_exponentBits (v : BitVec 32) : (v &&& 0x7F800000#32).toNat = magnitude v / 2 ^ 23 * 2 ^ 23 := by
  have hshift : v &&& 0x7F800000#32 = ((v >>> 23) &&& 0xFF#32) <<< 23 := by
    have hmask : (0x7F800000#32 : BitVec 32) = 0xFF#32 <<< 23 := by decide
    apply BitVec.eq_of_getLsbD_eq
    intro i hi
    rw [hmask]
    simp only [BitVec.getLsbD_and, BitVec.getLsbD_shiftLeft, BitVec.getLsbD_ushiftRight, hi, decide_true,
      Bool.true_and]
    by_cases hlow : i < 23
    · simp [hlow]
    · have hsum : 23 + (i - 23) = i := by omega
      simp [hlow, hsum]
  have hbyte : (v.toNat / 2 ^ 23) &&& (0xFF#32).toNat = v.toNat / 2 ^ 23 % 2 ^ 8 :=
    Nat.and_two_pow_sub_one_eq_mod (v.toNat / 2 ^ 23) 8
  have hlt : v.toNat / 2 ^ 23 % 2 ^ 8 < 2 ^ 8 := Nat.mod_lt _ (by decide)
  rw [hshift, BitVec.toNat_shiftLeft, BitVec.toNat_and, BitVec.toNat_ushiftRight, Nat.shiftRight_eq_div_pow, hbyte,
    Nat.shiftLeft_eq, Nat.mod_eq_of_lt (by omega), magnitude]
  omega

/-- The words whose exponent field is full are infinity and the NaNs. -/
theorem fullExponent_iff (v : BitVec 32) : v &&& 0x7F800000#32 = 0x7F800000#32 ↔ infinity ≤ magnitude v := by
  have hlt : magnitude v < 2 ^ 31 := magnitude_lt v
  have hfull : (0x7F800000#32).toNat = 255 * 2 ^ 23 := by decide
  rw [← BitVec.toNat_inj, toNat_exponentBits, hfull, infinity]
  omega

theorem isFiniteStrict_iff (v : BitVec 32) : isFiniteStrict v = true ↔ magnitude v < infinity := by
  rw [isFiniteStrict, bne_iff_ne, ne_eq, fullExponent_iff, Nat.not_le]

theorem sanitiseFinite_finite {v : BitVec 32} (h : magnitude v < infinity) : sanitiseFinite v = v := by
  have hne : (v &&& 0x7F800000#32 == 0x7F800000#32) = false :=
    beq_eq_false_iff_ne.mpr (fun hc => absurd ((fullExponent_iff v).mp hc) (Nat.not_le.mpr h))
  have hmask : ~~~(-(BitVec.ofBool false).setWidth 32) = BitVec.allOnes 32 := by decide
  simp only [sanitiseFinite, hne, hmask, BitVec.and_allOnes]

theorem sanitiseFinite_nonfinite {v : BitVec 32} (h : infinity ≤ magnitude v) : sanitiseFinite v = 0#32 := by
  have heq := (fullExponent_iff v).mpr h
  have hmask : ~~~(-(BitVec.ofBool true).setWidth 32) = 0#32 := by decide
  simp only [sanitiseFinite, heq, beq_self_eq_true, hmask, BitVec.and_zero]

theorem magnitude_sanitiseFinite (v : BitVec 32) : magnitude (sanitiseFinite v) < infinity := by
  rcases Nat.lt_or_ge (magnitude v) infinity with h | h
  · rwa [sanitiseFinite_finite h]
  · rw [sanitiseFinite_nonfinite h]
    decide

end Qtx.FpeGuard
