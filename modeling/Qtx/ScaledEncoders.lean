import Qtx.Fp8Codecs
import Qtx.ScaledBlocks

/-!
# INT8, INT4, NVFP4 and MXFP4 encoders

INT8 and INT4 divide a block by its largest absolute value and round half away from zero.
MXFP4 takes a power of two from the exponent field of the largest absolute value and
rounds every element to the nearest E2M1 level. NVFP4 does so under an E4M3 scale, and puts
one scale for all blocks in front of them.
-/
namespace Qtx.ScaledEncoders

open Qtx.ByteStreams Qtx.FloatMachine Qtx.FpeGuard Qtx.PackedDigits Qtx.QuantizerHelpers Qtx.ScaledBlocks

/-- The largest absolute value an integer format divides by, a constant of the compiler. -/
def kMax (levels : ℕ) : BitVec 32 := plainMachine.div maxFloat (literal levels 1)

variable (M : Machine)

def clampAbsMax (levels : ℕ) (v : BitVec 32) : BitVec 32 :=
  if !isFiniteStrict v then zero else if M.lt (kMax levels) v then kMax levels else v

def clampAbsMaxForINT8 : BitVec 32 → BitVec 32 := clampAbsMax M 127

def clampAbsMaxForINT4 : BitVec 32 → BitVec 32 := clampAbsMax M 7

/-- Adds a half with the sign of the argument and truncates. -/
def lroundHalfAwayFast (v : BitVec 32) : ℤ := M.toInt (M.add v (if v.msb then fneg half else half))

/-- The scale of a block of integers. -/
def intScale (levels : ℕ) (block : Bytes) : BitVec 32 :=
  let absMax := clampAbsMax M levels (absMax M (wordAt block) 32)
  if M.lt zero absMax then M.div absMax (literal levels 1) else zero

/-- The integer of an element. -/
def intLevel (levels : ℤ) (invScale v : BitVec 32) : ℤ :=
  clampInt (-levels) levels (lroundHalfAwayFast M (sanitiseFinite (M.mul (sanitiseFinite v) invScale)))

def encodeINT8 (block : Bytes) : Bytes :=
  let scale := intScale M 127 block
  let invScale := positiveReciprocal M scale
  join [(4, bytesOf scale), (32, fun i => BitVec.ofInt 8 (intLevel M 127 invScale (wordAt block i)))]

/-- Two neighbours share a byte. -/
def packNibbles (nibble : ℕ → BitVec 8) : Bytes :=
  fun k => (nibble (2 * k) &&& 0x0F#8) ||| ((nibble (2 * k + 1) &&& 0x0F#8) <<< 4)

def encodeINT4 (block : Bytes) : Bytes :=
  let scale := intScale M 7 block
  let invScale := positiveReciprocal M scale
  join [(4, bytesOf scale),
    (16, packNibbles (fun i => BitVec.ofInt 8 (intLevel M 7 invScale (wordAt block i))))]

/-- A byte of two nibbles is read back. -/
theorem nibbles_or (x y : BitVec 8) : ((x &&& 0x0F#8) ||| ((y &&& 0x0F#8) <<< 4)) &&& 0x0F#8 = x &&& 0x0F#8 ∧
    (((x &&& 0x0F#8) ||| ((y &&& 0x0F#8) <<< 4)) >>> 4) &&& 0x0F#8 = y &&& 0x0F#8 := by
  have hmask : ∀ j < 12, (0x0F#8).getLsbD j = decide (j < 4) := by decide
  constructor
  · apply BitVec.eq_of_getLsbD_eq
    intro j hj
    simp only [BitVec.getLsbD_and, BitVec.getLsbD_or, BitVec.getLsbD_shiftLeft, hmask j (by omega)]
    by_cases h : j < 4 <;> simp [h]
  · apply BitVec.eq_of_getLsbD_eq
    intro j hj
    have hge : ¬ 4 + j < 4 := by omega
    simp only [BitVec.getLsbD_and, BitVec.getLsbD_or, BitVec.getLsbD_shiftLeft, BitVec.getLsbD_ushiftRight,
      hmask j (by omega), hmask (4 + j) (by omega), Nat.add_sub_cancel_left, decide_eq_false hge]
    by_cases h : j < 4
    · have hlt : 4 + j < 8 := by omega
      simp [h, hlt]
    · simp [h]

theorem nibbleAt_packNibbles (nibble : ℕ → BitVec 8) (i : ℕ) :
    nibbleAt (packNibbles nibble) i = nibble i &&& 0x0F#8 := by
  obtain ⟨hlow, hhigh⟩ := nibbles_or (nibble (2 * (i / 2))) (nibble (2 * (i / 2) + 1))
  rw [nibbleAt, packNibbles, hlow, hhigh]
  split_ifs
  · have hi : 2 * (i / 2) = i := by omega
    rw [hi]
  · have hi : 2 * (i / 2) + 1 = i := by omega
    rw [hi]

section E2m1

variable (T : E2m1Tables)

/-- The level below the first of `n` midpoints from `i` on that is not below the argument. -/
def midpointIndex (a : BitVec 32) : ℕ → ℕ → BitVec 8
  | 0, _ => 7#8
  | n + 1, i =>
    if M.eq a (T.kMidpoints i) then T.kTieToEven i
    else if M.lt a (T.kMidpoints i) then BitVec.ofNat 8 i
    else midpointIndex a n (i + 1)

def fp32ElementToNVFP4Safe (scaled : BitVec 32) : BitVec 8 :=
  let a := fabs scaled
  let sign := if M.lt scaled zero || (M.eq scaled zero && scaled.msb) then 0x08#8 else 0x00#8
  if M.le (literal 6 1) a then sign ||| 0x07#8 else sign ||| (midpointIndex M T a 7 0 &&& 0x07#8)

end E2m1

/-- The exponent byte of a block, from the exponent field of its largest absolute value. -/
def sharedExponent (blockAbsMax : BitVec 32) : BitVec 8 :=
  if M.eq blockAbsMax zero then 0x00#8
  else
    let fp32Exp : ℤ := ((blockAbsMax >>> 23) &&& 0xFF#32).toNat - 127
    BitVec.ofInt 8 (clampInt 1 254 (fp32Exp - 2 + 127))

/-- The reciprocal of the scale that an exponent byte stands for. -/
def inverseScale (e8m0 : BitVec 8) : BitVec 32 := positiveReciprocal M (e8m0Scale e8m0)

def encodeMXFP4 (T : E2m1Tables) (block : Bytes) : Bytes :=
  let blk := wordAt block
  let e8m0 := sharedExponent M (absMax M blk 32)
  let invScale := inverseScale M e8m0
  join [(1, fun _ => e8m0),
    (16, packNibbles (fun i => fp32ElementToNVFP4Safe M T (M.mul (sanitiseFinite (blk i)) invScale)))]

/-- A block under the scale of the stream. The elements are divided by the scale the decoder will see. -/
def encodeNVFP4 (T : E2m1Tables) (globalScale : BitVec 32) (block : Bytes) : Bytes :=
  let blk := wordAt block
  let blockAbsMax := absMax M blk 16
  let blockScaleF :=
    if M.lt zero globalScale && M.lt zero blockAbsMax
      then M.div blockAbsMax (M.mul (literal 6 1) globalScale) else zero
  let blockScaleE4M3 := fp32ToFP8E4M3Safe blockScaleF
  let invScale := positiveReciprocal M (M.mul globalScale (fp8E4M3ToFP32 blockScaleE4M3))
  join [(1, fun _ => blockScaleE4M3),
    (8, packNibbles (fun i => fp32ElementToNVFP4Safe M T (M.mul (sanitiseFinite (blk i)) invScale)))]

def compressedSizeNVFP4 (elements : ℕ) : ℕ := if elements % 16 ≠ 0 then 0 else (4 + elements / 16 * 9) % 2 ^ 64

/-- The scale that takes the largest absolute value of a stream to the largest level under the largest
block scale. -/
def globalScaleNVFP4 (src : Bytes) (elements : ℕ) : BitVec 32 :=
  let globalAbsMax := absMax M (wordAt src) elements
  if M.lt zero globalAbsMax then M.div globalAbsMax (M.mul (literal 448 1) (literal 6 1)) else zero

def compressFP32ToNVFP4 (T : E2m1Tables) (c : Call) : ℕ × Bytes :=
  if c.srcSize % 64 ≠ 0 then (0, c.dst)
  else
    let elements := c.srcSize / 4
    let n := elements / 16
    let needBytes := compressedSizeNVFP4 elements
    if needBytes = 0 then (0, c.dst)
    else if c.dstSize < needBytes then (0, c.dst)
    else if spansOverlap c.srcData c.srcSize c.dstData needBytes then (0, c.dst)
    else
      let globalScale := globalScaleNVFP4 M c.src elements
      let header := store 4 0 (bytesOf globalScale) c.dst
      (needBytes, writeAt 4
        (fun out => tile 9 (fun b => encodeNVFP4 M T globalScale (c.src.skip (b * 64))) out n) header)

def compressFP32ToINT8 (c : Call) : ℕ × Bytes := c.encodeBlocks 128 36 (encodeINT8 M)

def compressFP32ToINT4 (c : Call) : ℕ × Bytes := c.encodeBlocks 128 20 (encodeINT4 M)

/-- An empty stream answers zero either way. -/
def compressFP32ToMXFP4 (T : E2m1Tables) (c : Call) : ℕ × Bytes := c.encodeBlocks 128 17 (encodeMXFP4 M T)

end Qtx.ScaledEncoders
