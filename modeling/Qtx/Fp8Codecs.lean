import Qtx.FpeGuard

/-!
# E4M3, E5M2 and bfloat16 words

The conversions of `fpe_guard.hpp` between binary32 and the two byte formats, and the
widening of bfloat16. The two encoders share their branches and differ in their constants
and in the test that finds a rounded result past the largest finite one.
-/
namespace Qtx.FpeGuard

/-- The constants of an encoder to a byte. -/
structure Fp8Layout where
  fraction : ℕ
  /-- How many bits of the binary32 fraction are dropped. -/
  dropped : ℕ
  /-- The exponent field of the least normal value in binary32, and the field before it. -/
  minNormalExp : BitVec 32
  rebias : BitVec 32
  firstNormal : BitVec 32
  kSaturateAtOrAbove : BitVec 32
  kRoundToZeroBelow : BitVec 32
  nan : BitVec 32
  infinite : BitVec 32
  largest : BitVec 32
  subnormalMask : BitVec 32
  /-- The rounded result has left the finite range. -/
  spills : BitVec 32 → Bool

/-- What an encoder to a byte ors to the sign bit, by the magnitude of its argument. -/
def fp8Magnitude (f : Fp8Layout) (abs : BitVec 32) : BitVec 32 :=
  if 0x7F800000#32 ≤ abs then
    if 0x7F800000#32 < abs then f.nan else f.infinite
  else if f.kSaturateAtOrAbove ≤ abs then f.largest
  else if abs < f.kRoundToZeroBelow then 0#32
  else if abs < f.firstNormal then
    let fp32Exp := abs >>> 23
    let shift := (BitVec.ofNat 32 f.dropped + (f.minNormalExp - fp32Exp)).toNat
    let mantWithLeadingOne := (abs &&& 0x007FFFFF#32) ||| 0x00800000#32
    let mant := mantWithLeadingOne >>> shift
    (if roundsUp mantWithLeadingOne shift then mant + 1#32 else mant) &&& f.subnormalMask
  else
    let e8 := (abs >>> 23) - f.rebias
    let m32 := abs &&& 0x007FFFFF#32
    let result := (e8 <<< f.fraction) ||| (m32 >>> f.dropped)
    (if roundsUp m32 f.dropped then
      if f.spills (result + 1#32) then f.largest else result + 1#32
    else result) &&& 0x7F#32

def fp32ToFP8 (f : Fp8Layout) (bits : BitVec 32) : BitVec 8 :=
  let sign := (bits >>> 24) &&& 0x80#32
  let abs := bits &&& 0x7FFFFFFF#32
  (sign ||| fp8Magnitude f abs).setWidth 8

def e4m3Layout : Fp8Layout where
  fraction := 3
  dropped := 20
  minNormalExp := 121#32
  rebias := 120#32
  firstNormal := 0x3C800000#32
  kSaturateAtOrAbove := 0x43E80000#32
  kRoundToZeroBelow := 0x3A800000#32
  nan := 0x7F#32
  infinite := 0x7E#32
  largest := 0x7E#32
  subnormalMask := 0x0F#32
  spills result := result == 0x7F#32

def e5m2Layout : Fp8Layout where
  fraction := 2
  dropped := 21
  minNormalExp := 113#32
  rebias := 112#32
  firstNormal := 0x38800000#32
  kSaturateAtOrAbove := 0x477F0000#32
  kRoundToZeroBelow := 0x37000000#32
  nan := 0x7E#32
  infinite := 0x7C#32
  largest := 0x7B#32
  subnormalMask := 0x07#32
  spills result := result &&& 0x7C#32 == 0x7C#32

def fp32ToFP8E4M3Safe : BitVec 32 → BitVec 8 := fp32ToFP8 e4m3Layout

def fp32ToFP8E5M2Safe : BitVec 32 → BitVec 8 := fp32ToFP8 e5m2Layout

def fp8E5M2ToFP32 (h : BitVec 8) : BitVec 32 :=
  let sign := (h.setWidth 32 &&& 0x80#32) <<< 24
  let exp := (h.setWidth 32 >>> 2) &&& 0x1F#32
  let mant := h.setWidth 32 &&& 0x03#32
  if exp = 0#32 then
    if mant = 0#32 then sign
    else
      let (m, e) := normalise 0x02#32 1 mant 1#32
      let m := m &&& 0x01#32
      sign ||| ((113#32 - e) <<< 23) ||| (m <<< 22)
  else if exp = 0x1F#32 then
    if mant = 0#32 then sign ||| 0x7F800000#32 else sign ||| 0x7F800000#32 ||| (mant <<< 21)
  else sign ||| ((exp + 112#32) <<< 23) ||| (mant <<< 21)

def bf16ToFP32 (v : BitVec 16) : BitVec 32 := v.setWidth 32 <<< 16

end Qtx.FpeGuard
