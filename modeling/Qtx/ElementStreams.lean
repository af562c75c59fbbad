import Qtx.ByteStreams
import Qtx.Fp8Codecs

/-!
# Element-wise streams

The loops of `quantizer.hpp` that turn every binary32 word into one half word or one byte,
and back, with no scale of a block. The vector back ends hand binary16 and the byte formats
to the scalar loops.
-/
namespace Qtx.ElementStreams

open Qtx.ByteStreams Qtx.FpeGuard

/-- The half words of a stream. -/
def halfAt (p : Bytes) (i : ℕ) : BitVec 16 := loadU16 (p.skip (2 * i))

/-- The bytes of a stream. -/
def byteAt (p : Bytes) (i : ℕ) : BitVec 8 := p i

/-- The loop of a scalar encoder from words to half words. -/
def encodeHalves (encode : BitVec 32 → BitVec 16) (src dst : Bytes) (n : ℕ) : ℕ × Bytes :=
  (n * 2 % 2 ^ 64, tile 2 (fun i => bytesOf (encode (wordAt src i))) dst n)

def compressFP32ToBF16Scalar : Bytes → Bytes → ℕ → ℕ × Bytes := encodeHalves fp32ToBF16Safe

def compressFP32ToFP16Scalar : Bytes → Bytes → ℕ → ℕ × Bytes := encodeHalves fp32ToFP16Safe

/-- The loop of a scalar encoder from words to bytes. -/
def encodeBytes (encode : BitVec 32 → BitVec 8) (src dst : Bytes) (n : ℕ) : ℕ × Bytes :=
  (n * 1 % 2 ^ 64, tile 1 (fun i => bytesOf (encode (wordAt src i))) dst n)

/-- The loops of the scalar decoders, from half words and from bytes. -/
def decodeHalves (decode : BitVec 16 → BitVec 32) (src dst : Bytes) (n : ℕ) : ℕ × Bytes :=
  (n * 4 % 2 ^ 64, tile 4 (fun i => bytesOf (decode (halfAt src i))) dst n)

def decodeBytes (decode : BitVec 8 → BitVec 32) (src dst : Bytes) (n : ℕ) : ℕ × Bytes :=
  (n * 4 % 2 ^ 64, tile 4 (fun i => bytesOf (decode (byteAt src i))) dst n)

def compressFP32ToFP8E4M3Scalar : Bytes → Bytes → ℕ → ℕ × Bytes := encodeBytes fp32ToFP8E4M3Safe

def compressFP32ToFP8E5M2Scalar : Bytes → Bytes → ℕ → ℕ × Bytes := encodeBytes fp32ToFP8E5M2Safe

def decompressBF16ToFP32Scalar : Bytes → Bytes → ℕ → ℕ × Bytes := decodeHalves bf16ToFP32

def decompressFP16ToFP32Scalar : Bytes → Bytes → ℕ → ℕ × Bytes := decodeHalves fp16ToFP32

def decompressFP8E4M3ToFP32Scalar : Bytes → Bytes → ℕ → ℕ × Bytes := decodeBytes fp8E4M3ToFP32

def decompressFP8E5M2ToFP32Scalar : Bytes → Bytes → ℕ → ℕ × Bytes := decodeBytes fp8E5M2ToFP32

def compressFP32ToFP16 (c : Call) : ℕ × Bytes := c.checked 4 2 (compressFP32ToFP16Scalar c.src c.dst)

variable {encode : BitVec 32 → BitVec 16} {src dst : Bytes} {n i : ℕ}

theorem encodeHalves_byte {k : ℕ} (hi : i < n) (hk : k < 2) :
    (encodeHalves encode src dst n).2 (2 * i + k) = bytesOf (encode (wordAt src i)) k := by
  rw [encodeHalves, Nat.mul_comm 2 i]
  exact tile_apply _ _ hi hk

theorem halfAt_encodeHalves (hi : i < n) : halfAt (encodeHalves encode src dst n).2 i = encode (wordAt src i) := by
  rw [halfAt, ← loadU16_bytesOf (encode (wordAt src i))]
  apply loadU16_congr
  intro k hk
  rw [skip_apply, encodeHalves_byte hi hk]

theorem byteAt_encodeBytes {encode : BitVec 32 → BitVec 8} (hi : i < n) :
    byteAt (encodeBytes encode src dst n).2 i = encode (wordAt src i) := by
  have hbyte := tile_apply (k := 0) (fun i => bytesOf (encode (wordAt src i))) dst hi Nat.zero_lt_one
  rw [Nat.mul_one, Nat.add_zero] at hbyte
  exact hbyte.trans BitVec.extractLsb'_eq_self

/-- The words that a loop over `n` pieces of four bytes wrote. -/
theorem wordAt_pieces {word : ℕ → BitVec 32} (hi : i < n) :
    wordAt (tile 4 (fun i => bytesOf (word i)) dst n) i = word i := by
  apply loadU32_eq
  intro k hk
  rw [skip_apply, Nat.mul_comm 4 i]
  exact tile_apply _ _ hi hk

theorem wordAt_decodeHalves {decode : BitVec 16 → BitVec 32} (hi : i < n) :
    wordAt (decodeHalves decode src dst n).2 i = decode (halfAt src i) := wordAt_pieces hi

theorem wordAt_decodeBytes {decode : BitVec 8 → BitVec 32} (hi : i < n) :
    wordAt (decodeBytes decode src dst n).2 i = decode (byteAt src i) := wordAt_pieces hi

theorem halfAt_compressFP32ToFP16 {c : Call} (h : c.Fits 4 2 n) (hi : i < n) :
    halfAt (compressFP32ToFP16 c).2 i = fp32ToFP16Safe (wordAt c.src i) := by
  rw [compressFP32ToFP16, Call.checked_of_fits h (by decide)]
  exact halfAt_encodeHalves hi

end Qtx.ElementStreams
