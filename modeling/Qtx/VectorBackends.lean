import Qtx.Bf16Kernel
import Qtx.ColdCodecs
import Qtx.IntKernels

/-!
# The vector back ends

The kernels of the builds with vector instructions. A kernel of an integer format loads a
whole block into registers, finds the scale and the quotients there, and stores the scale
and the bytes of its integer stage. What the float registers compute is a parameter.
-/
namespace Qtx.VectorBackends

open Qtx.ByteStreams Qtx.ColdCodecs Qtx.ElementStreams Qtx.FloatMachine Qtx.ScaledBlocks Qtx.VectorLanes

/-- From `k` registers of `n` words to the scale of the block and the converted quotients. -/
abbrev FloatStage (k n : ℕ) := (Fin k → Vec n 32) → BitVec 32 × (Fin k → Vec n 32)

/-- The registers of a block. -/
def loadBlock (k n : ℕ) (block : Bytes) : Fin k → Vec n 32 := fun r => loadWords n (block.skip (r * (n * 4)))

/-- The scale in front of the bytes of the integer stage. -/
def compressOneBlock {k n : ℕ} (payload : ℕ) (F : FloatStage k n) (narrow : (Fin k → Vec n 32) → Bytes)
    (block : Bytes) :
    Bytes :=
  let (scale, i) := F (loadBlock k n block)
  join [(4, bytesOf scale), (payload, narrow i)]

def compressOneBlockINT8AVX2 (F : FloatStage 4 8) : Bytes → Bytes :=
  compressOneBlock 32 F (fun i => IntKernels.compressOneBlockINT8AVX2 (i 0) (i 1) (i 2) (i 3))

def compressOneBlockINT8AVX512 (F : FloatStage 2 16) : Bytes → Bytes :=
  compressOneBlock 32 F (fun i => IntKernels.compressOneBlockINT8AVX512 (i 0) (i 1))

def compressOneBlockINT4AVX512 (F : FloatStage 2 16) : Bytes → Bytes :=
  compressOneBlock 16 F (fun i => IntKernels.compressOneBlockINT4AVX512 (i 0) (i 1))

section Decoders

variable (M : Machine)

/-- The levels of a register under the scale. -/
def scaled (scale : BitVec 32) (i : Vec 16 32) : Vec 16 32 := fun l => M.mul (M.ofInt (i l).toInt) scale

def decompressOneBlockINT8AVX512 (block : Bytes) : Bytes :=
  let scale := finiteScale (loadU32 block)
  let b0 := loadBytes 16 (block.skip 4)
  let b1 := loadBytes 16 (block.skip 20)
  join [(64, storeWords (scaled M scale (cvtSigned 32 b0))), (64, storeWords (scaled M scale (cvtSigned 32 b1)))]

def decompressOneBlockINT4AVX512 (block : Bytes) : Bytes :=
  let scale := finiteScale (loadU32 block)
  let (i0, i1) := IntKernels.decompressOneBlockINT4AVX512 (block.skip 4)
  join [(64, storeWords (scaled M scale i0)), (64, storeWords (scaled M scale i1))]

end Decoders

def decompressBF16Chunk16AVX512 (src : Bytes) : Bytes :=
  let u16s := loadHalves 16 src
  let u32s := cvtLow 32 u16s
  storeWords (slli u32s 16)

/-- Chunks of sixteen half words, and the rest in the scalar loop. -/
def decompressBF16ToFP32Impl (src dst : Bytes) (n : ℕ) : ℕ × Bytes :=
  let chunks := n / 16
  let i := chunks * 16
  let written := tile 64 (fun c => decompressBF16Chunk16AVX512 (src.skip (c * 32))) dst chunks
  (n * 4 % 2 ^ 64, if i < n then
      writeAt (i * 4) (fun rest => (decompressBF16ToFP32Scalar (src.skip (i * 2)) rest (n - i)).2) written
    else written)

/-- The instruction set that a build is compiled for, with the float stages of its kernels. -/
inductive Build
  | scalar
  | avx2 (int8 : FloatStage 4 8)
  | avx512 (int8 int4 : FloatStage 2 16)

/-- The kernels of a build. With AVX2 only the encoder of INT8 has one. -/
def Build.backend (M : Machine) : Build → Backend
  | scalar => scalarBackend M
  | avx2 int8 =>
      { scalarBackend M with compressFP32ToINT8Impl := blockKernel 128 36 (compressOneBlockINT8AVX2 int8) }
  | avx512 int8 int4 =>
    { compressFP32ToINT8Impl := blockKernel 128 36 (compressOneBlockINT8AVX512 int8)
      decompressINT8ToFP32Impl := blockKernel 36 128 (decompressOneBlockINT8AVX512 M)
      compressFP32ToINT4Impl := blockKernel 128 20 (compressOneBlockINT4AVX512 int4)
      decompressINT4ToFP32Impl := blockKernel 20 128 (decompressOneBlockINT4AVX512 M)
      compressFP32ToBF16Impl := ⟨Bf16Kernel.compressFP32ToBF16Impl, fun _ _ _ => rfl⟩
      decompressBF16ToFP32Impl := ⟨decompressBF16ToFP32Impl, fun _ _ _ => rfl⟩ }

end Qtx.VectorBackends
