import Qtx.Bf16Rounding
import Qtx.E2m1Rounding
import Qtx.ElementStreams
import Qtx.Fp8Rounding

/-!
# Correctly rounded encoders

Every word that the scalar bfloat16, E4M3 and E5M2 loops write is the rounded word of the
source, whatever the length of the stream, and the element encoder of the four-bit formats
finds the nearest level on a machine of either kind.
-/
namespace Qtx.EncoderRounding

open Qtx.ByteStreams Qtx.ElementStreams Qtx.FloatMachine Qtx.FloatWords Qtx.FpeGuard Qtx.ScaledEncoders

/-- Every one of the first `n` words of a stream, read with `read`, is a rounded word of the source. -/
def StreamRounds (f : Format) {w : ℕ} (read : Bytes → ℕ → BitVec w) (src out : Bytes) (n : ℕ) : Prop :=
  ∀ i < n, RoundsTo f (wordAt src i) (read out i)

theorem streamRounds_bf16 (src dst : Bytes) (n : ℕ) :
    StreamRounds bfloat16 halfAt src (compressFP32ToBF16Scalar src dst n).2 n := by
  intro i hi
  rw [compressFP32ToBF16Scalar, halfAt_encodeHalves hi]
  exact bfloat16_roundsTo _

theorem streamRounds_e4m3 (src dst : Bytes) (n : ℕ) :
    StreamRounds e4m3 byteAt src (compressFP32ToFP8E4M3Scalar src dst n).2 n := by
  intro i hi
  rw [compressFP32ToFP8E4M3Scalar, byteAt_encodeBytes hi]
  exact e4m3_roundsTo _

theorem streamRounds_e5m2 (src dst : Bytes) (n : ℕ) :
    StreamRounds e5m2 byteAt src (compressFP32ToFP8E5M2Scalar src dst n).2 n := by
  intro i hi
  rw [compressFP32ToFP8E5M2Scalar, byteAt_encodeBytes hi]
  exact e5m2_roundsTo _

theorem encoders_correctlyRounded (M : Machine) (src dst : Bytes) (n : ℕ) :
    StreamRounds bfloat16 halfAt src (compressFP32ToBF16Scalar src dst n).2 n ∧
      StreamRounds e4m3 byteAt src (compressFP32ToFP8E4M3Scalar src dst n).2 n ∧
      StreamRounds e5m2 byteAt src (compressFP32ToFP8E5M2Scalar src dst n).2 n ∧
      ∀ v, IsFinite v → RoundsToLevel v (fp32ElementToNVFP4Safe M e2m1Tables v) :=
  ⟨streamRounds_bf16 src dst n, streamRounds_e4m3 src dst n, streamRounds_e5m2 src dst n,
    fun _ hv => fp32ElementToNVFP4Safe_rounds hv⟩

/-- Midpoints go to the even word: `2⁻¹⁰` to zero in E4M3, and `5` to the level `4`. -/
example : fp32ToFP8E4M3Safe 0x3A800000#32 = 0x00#8 ∧ fp32ElementToNVFP4Safe plainMachine e2m1Tables 0x40A00000#32 =
    0x06#8 := by
  decide

end Qtx.EncoderRounding
