import Qtx.QuantizerHelpers

/-!
# INT8, INT4, NVFP4 and MXFP4 decoders

INT8 and INT4 blocks carry a binary32 scale that is read as zero when it is not finite.
MXFP4 blocks carry an exponent byte whose last value is rejected. An NVFP4 stream starts
with a binary32 scale for all blocks, and every block carries an E4M3 scale of its own.
-/
namespace Qtx.ScaledBlocks

open Qtx.ByteStreams Qtx.FloatMachine Qtx.FpeGuard Qtx.PackedDigits Qtx.QuantizerHelpers

variable (M : Machine)

/-- A scale that is not finite counts as zero. -/
def finiteScale (scaleRaw : BitVec 32) : BitVec 32 := if isFiniteStrict scaleRaw then scaleRaw else zero

def decodeINT8 (block : Bytes) : Bytes :=
  let scale := finiteScale (loadU32 block)
  wordBytes (fun i => M.mul (M.ofInt (block.skip 4 i).toInt) scale)

/-- The nibble of an element: two neighbours share a byte. -/
def nibbleAt (packed : Bytes) (i : ℕ) : BitVec 8 :=
  if i % 2 = 0 then packed (i / 2) &&& 0x0F#8 else (packed (i / 2) >>> 4) &&& 0x0F#8

def decodeINT4 (block : Bytes) : Bytes :=
  let scale := finiteScale (loadU32 block)
  wordBytes (fun i => M.mul (M.ofInt ((nibbleAt (block.skip 4) i ^^^ 0x08#8) - 0x08#8).toInt) scale)

/-- The power of two of an exponent byte. -/
def e8m0Scale (e8m0 : BitVec 8) : BitVec 32 := if e8m0 = 0#8 then zero else e8m0.setWidth 32 <<< 23

section E2m1

variable (T : E2m1Tables)

def decodeMXFP4 (block : Bytes) : Option Bytes :=
  let e8m0 := block 0
  if e8m0 = 0xFF#8 then none
  else some (wordBytes (fun i => M.mul (nvfp4ElementToFP32 T (nibbleAt (block.skip 1) i)) (e8m0Scale e8m0)))

/-- A block under the scale of the stream. -/
def decodeNVFP4 (globalScale : BitVec 32) (block : Bytes) : Bytes :=
  let combinedScale := M.mul globalScale (fp8E4M3ToFP32 (block 0))
  wordBytes (fun i => M.mul (nvfp4ElementToFP32 T (nibbleAt (block.skip 1) i)) combinedScale)

end E2m1

def decompressINT8ToFP32 (c : Call) : ℕ × Bytes := c.encodeBlocks 36 128 (decodeINT8 M)

def decompressINT4ToFP32 (c : Call) : ℕ × Bytes := c.encodeBlocks 20 128 (decodeINT4 M)

def decompressMXFP4ToFP32 (T : E2m1Tables) (c : Call) : ℕ × Bytes := c.decodeBlocks 17 128 (decodeMXFP4 M T)

def decompressNVFP4ToFP32 (T : E2m1Tables) (c : Call) : ℕ × Bytes :=
  if c.srcSize < 4 then (0, c.dst)
  else
    let payloadBytes := c.srcSize - 4
    if payloadBytes % 9 ≠ 0 then (0, c.dst)
    else
      let n := payloadBytes / 9
      let needBytes := n * 64 % 2 ^ 64
      if c.dstSize < needBytes then (0, c.dst)
      else if spansOverlap c.srcData c.srcSize c.dstData needBytes then (0, c.dst)
      else
        let globalScale := loadU32 c.src
        if !isFiniteStrict globalScale then (0, c.dst)
        else (needBytes, tile 64 (fun b => decodeNVFP4 M T globalScale ((c.src.skip 4).skip (b * 9))) c.dst n)

end Qtx.ScaledBlocks
