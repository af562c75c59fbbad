import Qtx.ElementDecoding
import Qtx.ElementStreams

/-!
# Lossy only once

A codec of an element-wise format rounds once: decoding is exact, and encoding what was
decoded gives the same word. So a stream that was compressed, restored and compressed again
has the same bytes, and so has every encoded stream without NaNs.
-/
namespace Qtx.ElementRoundTrips

open Qtx.ByteStreams Qtx.ElementStreams Qtx.FloatWords Qtx.FpeGuard Qtx.Fp16Rounding

/-- The two conversions of a format. The encoder has to be correct on decoded words only. -/
structure WordCodec (w : ℕ) where
  encode : BitVec 32 → BitVec (w + 1)
  decode : BitVec (w + 1) → BitVec 32
  format : Format
  gap : format.infinite ≤ format.largest + 1
  decodes : ∀ h, Decodes format h (decode h)
  rounds : ∀ h, magnitude h ≤ format.infinite → RoundsTo format (decode h) (encode (decode h))
  encodes_le : ∀ v, ¬ IsNaN v → magnitude (encode v) ≤ format.infinite
  sign : ∀ v, (encode v).msb = v.msb
  /-- All NaNs of a sign have one code, which is a NaN. -/
  nan : ∀ v, IsNaN v → format.infinite < magnitude (encode v)
  nan_code : ∀ v v', IsNaN v → IsNaN v' → magnitude (encode v) = magnitude (encode v')

namespace WordCodec

variable {w : ℕ} (C : WordCodec w)

theorem encode_decode {h : BitVec (w + 1)} (hle : magnitude h ≤ C.format.infinite) : C.encode (C.decode h) = h :=
  (C.decodes h).rounds_back (C.rounds h hle) C.gap hle

/-- What was encoded once does not change any more. -/
theorem encode_decode_encode (v : BitVec 32) : C.encode (C.decode (C.encode v)) = C.encode v := by
  by_cases hnan : IsNaN v
  · have hdecoded := (C.decodes (C.encode v)).nan (C.nan v hnan)
    apply eq_of_sign_magnitude
    · rw [C.sign, (C.decodes (C.encode v)).sign]
    · exact C.nan_code _ _ hdecoded hnan
  · exact C.encode_decode (C.encodes_le v hnan)

end WordCodec

/-- A word that is no NaN rounds to a word that is none. -/
theorem magnitude_le_infinite {f : Format} {w : ℕ} {v : BitVec 32} {h : BitVec w} (hr : RoundsTo f v h)
    (hnan : ¬ IsNaN v) :
    magnitude h ≤ f.infinite := by
  rcases Nat.eq_or_lt_of_le (Nat.not_lt.mp hnan) with hinf | hfin
  · exact (hr.infinite hinf).le
  · obtain ⟨n, -, hn⟩ := hr.finite hfin
    rw [hn]
    exact (min_le_right _ _).trans f.largest_le

def bf16Codec : WordCodec 15 where
  encode := fp32ToBF16Safe
  decode := bf16ToFP32
  format := bfloat16
  gap := le_rfl
  decodes := decodes_bfloat16
  rounds _ _ := bfloat16_roundsTo _
  encodes_le _ hnan := magnitude_le_infinite (bfloat16_roundsTo _) hnan
  sign v := (bfloat16_roundsTo v).sign
  nan v hnan := lt_of_lt_of_le (by decide) ((bfloat16_roundsTo v).nan hnan)
  nan_code v v' hnan hnan' := by
    rw [fp32ToBF16Safe_nan hnan, fp32ToBF16Safe_nan hnan', (signed_half v (by decide)).2,
      (signed_half v' (by decide)).2]

/-- The values of half words lie outside the binade that the binary16 encoder misses. -/
theorem not_belowHalf_fp16ToFP32 {h : BitVec 16} (hle : magnitude h ≤ binary16.infinite) :
    ¬ BelowHalf (fp16ToFP32 h) := by
  rintro ⟨hlo, hhi⟩
  have hd := decodes_binary16 h
  rcases Nat.lt_or_ge binary16.largest (magnitude h) with hinf | hfin
  · rw [hd.infinite hinf hle] at hhi
    exact absurd hhi (by decide)
  · have hticks := (hd.finite hfin).2
    have hlow := (BinaryFormats.units_le_units (m := 23)).mpr hlo
    have hhigh := (BinaryFormats.units_lt_units (m := 23)).mpr hhi
    have hstart : BinaryFormats.units 23 0x32800000 = 2 ^ 123 := by decide
    have hend : BinaryFormats.units 23 0x33000000 = 2 ^ 124 := by decide
    have hlift : binary16.lift = 125 := rfl
    rw [← ticks, hticks, hstart, hlift] at hlow
    rw [← ticks, hticks, hend, hlift] at hhigh
    omega

def fp16Codec : WordCodec 15 where
  encode := fp32ToFP16Safe
  decode := fp16ToFP32
  format := binary16
  gap := by decide
  decodes := decodes_binary16
  rounds _ hle := (roundsTo_iff _).mpr (not_belowHalf_fp16ToFP32 hle)
  encodes_le v hnan := by
    have hword := (signed_half v (fp16Magnitude_lt (v &&& 0x7FFFFFFF#32))).2
    by_cases hbelow : BelowHalf v
    · have habs := magnitude_eq v
      rw [BelowHalf, ← habs] at hbelow
      rw [fp32ToFP16Safe, hword, fp16Magnitude_below hbelow.1 hbelow.2]
      decide
    · exact magnitude_le_infinite ((roundsTo_iff v).mpr hbelow) hnan
  sign v := (signed_half v (fp16Magnitude_lt _)).1
  nan v hnan := by
    have hword := (signed_half v (fp16Magnitude_lt (v &&& 0x7FFFFFFF#32))).2
    rw [fp32ToFP16Safe, hword, fp16Magnitude_nan ((magnitude_eq v).symm ▸ hnan)]
    decide
  nan_code v v' hnan hnan' := by
    have hword := (signed_half v (fp16Magnitude_lt (v &&& 0x7FFFFFFF#32))).2
    have hword' := (signed_half v' (fp16Magnitude_lt (v' &&& 0x7FFFFFFF#32))).2
    rw [fp32ToFP16Safe, fp32ToFP16Safe, hword, hword', fp16Magnitude_nan ((magnitude_eq v).symm ▸ hnan),
      fp16Magnitude_nan ((magnitude_eq v').symm ▸ hnan')]

/-- The codec of a byte format whose constants fit together. -/
theorem magnitude_nan_fp8 {f : Fp8Layout} {lift : ℕ} (hf : f.Lawful lift) {v : BitVec 32} (hnan : IsNaN v) :
    magnitude (fp32ToFP8 f v) = f.nan.toNat := by
  rw [fp32ToFP8, (signed_byte v (hf.magnitude_lt _)).2,
    Fp8Layout.Lawful.magnitude_nan ((magnitude_eq v).symm ▸ hnan)]

def e4m3Codec : WordCodec 7 where
  encode := fp32ToFP8E4M3Safe
  decode := fp8E4M3ToFP32
  format := e4m3
  gap := by decide
  decodes := decodes_e4m3
  rounds _ _ := e4m3_roundsTo _
  encodes_le _ hnan := magnitude_le_infinite (e4m3_roundsTo _) hnan
  sign v := (e4m3_roundsTo v).sign
  nan v hnan := lt_of_lt_of_le (by decide) ((e4m3_roundsTo v).nan hnan)
  nan_code _ _ hnan hnan' :=
    (magnitude_nan_fp8 e4m3Layout_lawful hnan).trans (magnitude_nan_fp8 e4m3Layout_lawful hnan').symm

def e5m2Codec : WordCodec 7 where
  encode := fp32ToFP8E5M2Safe
  decode := fp8E5M2ToFP32
  format := e5m2
  gap := by decide
  decodes := decodes_e5m2
  rounds _ _ := e5m2_roundsTo _
  encodes_le _ hnan := magnitude_le_infinite (e5m2_roundsTo _) hnan
  sign v := (e5m2_roundsTo v).sign
  nan v hnan := lt_of_lt_of_le (by decide) ((e5m2_roundsTo v).nan hnan)
  nan_code _ _ hnan hnan' :=
    (magnitude_nan_fp8 e5m2Layout_lawful hnan).trans (magnitude_nan_fp8 e5m2Layout_lawful hnan').symm

section Streams

variable {n i : ℕ} {p q dst : Bytes}

theorem bytes_eq_of_halfAt (h : ∀ i < n, halfAt p i = halfAt q i) : ∀ k < n * 2, p k = q k := by
  intro k hk
  have hword := h (k / 2) (by omega)
  have hsplit : 2 * (k / 2) + k % 2 = k := Nat.div_add_mod k 2
  have hbyte : ∀ s : Bytes, bytesOf (halfAt s (k / 2)) (k % 2) = s k := by
    intro s
    rw [halfAt, bytesOf_loadU16 _ (Nat.mod_lt _ Nat.two_pos), skip_apply, hsplit]
  rw [← hbyte p, ← hbyte q, hword]

/-- A half word of a stream, decoded and encoded again. -/
theorem halfAt_restored (C : WordCodec 15) (c d₁ d₂ : Bytes) (hi : i < n) :
    halfAt (encodeHalves C.encode (decodeHalves C.decode c d₁ n).2 d₂ n).2 i =
    C.encode (C.decode (halfAt c i)) := by
  rw [halfAt_encodeHalves hi, wordAt_decodeHalves hi]

theorem byteAt_restored (C : WordCodec 7) (c d₁ d₂ : Bytes) (hi : i < n) :
    byteAt (encodeBytes C.encode (decodeBytes C.decode c d₁ n).2 d₂ n).2 i = C.encode (C.decode (byteAt c i)) := by
  rw [byteAt_encodeBytes hi, wordAt_decodeBytes hi]

end Streams

inductive ElementFormat
  | bf16 | fp16 | e4m3 | e5m2

namespace ElementFormat

def size : ElementFormat → ℕ
  | bf16 | fp16 => 2
  | e4m3 | e5m2 => 1

/-- The scalar loops. -/
def compress : ElementFormat → Bytes → Bytes → ℕ → ℕ × Bytes
  | bf16 => compressFP32ToBF16Scalar
  | fp16 => compressFP32ToFP16Scalar
  | e4m3 => compressFP32ToFP8E4M3Scalar
  | e5m2 => compressFP32ToFP8E5M2Scalar

def decompress : ElementFormat → Bytes → Bytes → ℕ → ℕ × Bytes
  | bf16 => decompressBF16ToFP32Scalar
  | fp16 => decompressFP16ToFP32Scalar
  | e4m3 => decompressFP8E4M3ToFP32Scalar
  | e5m2 => decompressFP8E5M2ToFP32Scalar

/-- The magnitude of a word of an encoded stream lies beyond infinity, or beyond the largest finite
value where the format has no infinity. -/
def EncodesNaN : ElementFormat → Bytes → ℕ → Prop
  | bf16, c, i => bfloat16.infinite < magnitude (halfAt c i)
  | fp16, c, i => binary16.infinite < magnitude (halfAt c i)
  | e4m3, c, i => FpeGuard.e4m3.infinite < magnitude (byteAt c i)
  | e5m2, c, i => FpeGuard.e5m2.infinite < magnitude (byteAt c i)

/-- Restoring the first `n` words of a stream and compressing them again gives the same bytes,
whatever the buffers held before. -/
def Stable (F : ElementFormat) (n : ℕ) (c : Bytes) : Prop :=
  ∀ restored dst : Bytes, ∀ k < n * F.size, (F.compress (F.decompress c restored n).2 dst n).2 k = c k

end ElementFormat

theorem stable_halves (C : WordCodec 15) {n : ℕ} {c : Bytes}
    (h : ∀ i < n, C.encode (C.decode (halfAt c i)) = halfAt c i) (restored dst : Bytes) :
    ∀ k < n * 2, (encodeHalves C.encode (decodeHalves C.decode c restored n).2 dst n).2 k = c k :=
  bytes_eq_of_halfAt fun i hi => (halfAt_restored C c restored dst hi).trans (h i hi)

theorem stable_bytes (C : WordCodec 7) {n : ℕ} {c : Bytes}
    (h : ∀ i < n, C.encode (C.decode (byteAt c i)) = byteAt c i) (restored dst : Bytes) :
    ∀ k < n * 1, (encodeBytes C.encode (decodeBytes C.decode c restored n).2 dst n).2 k = c k := by
  intro k hk
  rw [Nat.mul_one] at hk
  exact (byteAt_restored C c restored dst hk).trans (h k hk)

open ElementFormat in
/-- A compressed stream is stable, and so is every stream that encodes no NaN. -/
theorem lossy_once (F : ElementFormat) (n : ℕ) :
    (∀ x dst : Bytes, F.Stable n (F.compress x dst n).2) ∧
      ∀ c : Bytes, (∀ i < n, ¬ F.EncodesNaN c i) → F.Stable n c := by
  constructor
  · intro x dst
    cases F with
    | bf16 =>
      refine stable_halves bf16Codec fun i hi => ?_
      rw [compress, compressFP32ToBF16Scalar, halfAt_encodeHalves hi]
      exact bf16Codec.encode_decode_encode _
    | fp16 =>
      refine stable_halves fp16Codec fun i hi => ?_
      rw [compress, compressFP32ToFP16Scalar, halfAt_encodeHalves hi]
      exact fp16Codec.encode_decode_encode _
    | e4m3 =>
      refine stable_bytes e4m3Codec fun i hi => ?_
      rw [compress, compressFP32ToFP8E4M3Scalar, byteAt_encodeBytes hi]
      exact e4m3Codec.encode_decode_encode _
    | e5m2 =>
      refine stable_bytes e5m2Codec fun i hi => ?_
      rw [compress, compressFP32ToFP8E5M2Scalar, byteAt_encodeBytes hi]
      exact e5m2Codec.encode_decode_encode _
  · intro c hnan
    cases F with
    | bf16 => exact stable_halves bf16Codec fun i hi => bf16Codec.encode_decode (Nat.not_lt.mp (hnan i hi))
    | fp16 => exact stable_halves fp16Codec fun i hi => fp16Codec.encode_decode (Nat.not_lt.mp (hnan i hi))
    | e4m3 => exact stable_bytes e4m3Codec fun i hi => e4m3Codec.encode_decode (Nat.not_lt.mp (hnan i hi))
    | e5m2 => exact stable_bytes e5m2Codec fun i hi => e5m2Codec.encode_decode (Nat.not_lt.mp (hnan i hi))

end Qtx.ElementRoundTrips
