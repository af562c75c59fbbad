import Qtx.BlockScales
import Qtx.KernelReads
import Qtx.TableLookups

/-!
# The codec calls

Every function of the quantizer that compresses or decompresses gets two spans. It works
on whole units of the source behind a header, and the size of its output is a multiple of
their number.
-/
namespace Qtx.CodecBounds

open Qtx.ByteStreams Qtx.ColdCodecs Qtx.ElementStreams Qtx.FloatMachine Qtx.FpeGuard Qtx.ScaledBlocks
  Qtx.ScaledEncoders Qtx.IQuants Qtx.BlockFormats Qtx.StreamReads Qtx.LevelReads Qtx.KernelReads Qtx.TableLookups
  Qtx.VectorBackends

inductive Format
  | quant (fmt : QuantFormat)
  | nvfp4 | mxfp4
  | block (f : BlockFormat)

inductive Codec
  | compress (f : Format)
  | decompress (f : Format)

/-- Two spans of less than 2^61 bytes without a common one. -/
structure Spans where
  srcSize : ℕ
  srcData : ℕ
  dstSize : ℕ
  dstData : ℕ
  src_lt : srcSize < 2 ^ 61
  dst_lt : dstSize < 2 ^ 61
  apart : srcData + srcSize ≤ dstData ∨ dstData + dstSize ≤ srcData

def Spans.call (s : Spans) (src dst : Bytes) : Call := ⟨src, s.srcSize, s.srcData, dst, s.dstSize, s.dstData⟩

namespace Codec

/-- The bytes of a unit of the source. -/
def inBytes : Codec → ℕ
  | compress (.quant .kFP32) | compress (.quant .kReserved) => 1
  | compress (.quant .kINT8) | compress (.quant .kINT4) | compress .mxfp4 => 128
  | compress (.quant _) => 4
  | compress .nvfp4 => 64
  | compress (.block f) => f.elements * 4
  | decompress (.quant .kBF16) | decompress (.quant .kFP16) => 2
  | decompress (.quant .kINT8) => 36
  | decompress (.quant .kINT4) => 20
  | decompress (.quant _) => 1
  | decompress .nvfp4 => 9
  | decompress .mxfp4 => 17
  | decompress (.block f) => f.blockBytes

/-- The bytes it becomes. -/
def outBytes : Codec → ℕ
  | compress (.quant .kFP32) | decompress (.quant .kFP32) => 1
  | compress (.quant .kReserved) | decompress (.quant .kReserved) => 0
  | compress (.quant .kBF16) | compress (.quant .kFP16) => 2
  | compress (.quant .kINT8) => 36
  | compress (.quant .kINT4) => 20
  | compress (.quant _) => 1
  | compress .nvfp4 => 9
  | compress .mxfp4 => 17
  | compress (.block f) => f.blockBytes
  | decompress (.quant .kINT8) | decompress (.quant .kINT4) | decompress .mxfp4 => 128
  | decompress (.quant _) => 4
  | decompress .nvfp4 => 64
  | decompress (.block f) => f.elements * 4

/-- An NVFP4 stream starts with a scale. -/
def inHeader : Codec → ℕ
  | decompress .nvfp4 => 4
  | _ => 0

def outHeader : Codec → ℕ
  | compress .nvfp4 => 4
  | _ => 0

def units (op : Codec) (srcSize : ℕ) : ℕ := (srcSize - op.inHeader) / op.inBytes

/-- The size of the output for a source of a given size. -/
def outputSize (op : Codec) (srcSize : ℕ) : ℕ := op.outHeader + op.units srcSize * op.outBytes

/-- The source is a header and whole units. -/
def Whole (op : Codec) (srcSize : ℕ) : Prop := op.inHeader ≤ srcSize ∧ (srcSize - op.inHeader) % op.inBytes = 0

/-- The lengths do not fit. -/
def Refuses (op : Codec) (s : Spans) : Prop := ¬ op.Whole s.srcSize ∨ s.dstSize < op.outputSize s.srcSize

variable (b : Build) (M : Machine) (T : Tables)

def run : Codec → Call → ℕ × Bytes
  | compress (.quant fmt) => ColdCodecs.compress (b.backend M) fmt
  | compress .nvfp4 => compressFP32ToNVFP4 M T.toE2m1Tables
  | compress .mxfp4 => compressFP32ToMXFP4 M T.toE2m1Tables
  | compress (.block f) => f.compress M T.toCodebooks
  | decompress (.quant fmt) => ColdCodecs.decompress (b.backend M) fmt
  | decompress .nvfp4 => decompressNVFP4ToFP32 M T.toE2m1Tables
  | decompress .mxfp4 => decompressMXFP4ToFP32 M T.toE2m1Tables
  | decompress (.block f) => f.decompress M T.toCodebooks

/-- The checks of a call pass. -/
structure Passes (op : Codec) (s : Spans) : Prop where
  whole : op.Whole s.srcSize
  room : op.outputSize s.srcSize % 2 ^ 64 ≤ s.dstSize
  apart : spansOverlap s.srcData s.srcSize s.dstData (op.outputSize s.srcSize % 2 ^ 64) = false

/-- The blocks of an NVFP4 stream behind the scale of their source. -/
def blocksToNVFP4 (T : E2m1Tables) : Loop := fun src dst n =>
  let globalScale := globalScaleNVFP4 M src (n * 16)
  ((4 + n * 9) % 2 ^ 64,
    writeAt 4 (fun out => tile 9 (fun b => encodeNVFP4 M T globalScale (src.skip (b * 64))) out n)
    (store 4 0 (bytesOf globalScale) dst))

def blocksFromNVFP4 (T : E2m1Tables) : Loop := fun src dst n =>
  let globalScale := loadU32 src
  if !isFiniteStrict globalScale then (0, dst)
  else (n * 64 % 2 ^ 64, tile 64 (fun b => decodeNVFP4 M T globalScale ((src.skip 4).skip (b * 9))) dst n)

/-- What a codec does with the units once the checks have passed. -/
def body : Codec → Loop
  | compress (.quant .kFP32) | decompress (.quant .kFP32) => copyBytes
  | compress (.quant .kBF16) => (b.backend M).compressFP32ToBF16Impl.run
  | compress (.quant .kFP16) => compressFP32ToFP16Scalar
  | compress (.quant .kFP8_E4M3) => compressFP32ToFP8E4M3Scalar
  | compress (.quant .kFP8_E5M2) => compressFP32ToFP8E5M2Scalar
  | compress (.quant .kINT8) => (b.backend M).compressFP32ToINT8Impl.run
  | compress (.quant .kINT4) => (b.backend M).compressFP32ToINT4Impl.run
  | compress .nvfp4 => blocksToNVFP4 M T.toE2m1Tables
  | compress .mxfp4 => encodeLoop 128 17 (encodeMXFP4 M T.toE2m1Tables)
  | compress (.block f) => encodeLoop (f.elements * 4) f.blockBytes (f.encode M T.toCodebooks)
  | decompress (.quant .kBF16) => (b.backend M).decompressBF16ToFP32Impl.run
  | decompress (.quant .kFP16) => decompressFP16ToFP32Scalar
  | decompress (.quant .kFP8_E4M3) => decompressFP8E4M3ToFP32Scalar
  | decompress (.quant .kFP8_E5M2) => decompressFP8E5M2ToFP32Scalar
  | decompress (.quant .kINT8) => (b.backend M).decompressINT8ToFP32Impl.run
  | decompress (.quant .kINT4) => (b.backend M).decompressINT4ToFP32Impl.run
  | decompress .nvfp4 => blocksFromNVFP4 M T.toE2m1Tables
  | decompress .mxfp4 => decodeLoop 17 128 (decodeMXFP4 M T.toE2m1Tables)
  | decompress (.block f) => decodeLoop f.blockBytes (f.elements * 4) (f.decode M T.toCodebooks)
  | compress (.quant .kReserved) | decompress (.quant .kReserved) => fun _ dst _ => (0, dst)

/-- All codecs but those of NVFP4. -/
def Headerless (op : Codec) : Prop := op ≠ compress .nvfp4 ∧ op ≠ decompress .nvfp4

theorem headerless_or (op : Codec) : op.Headerless ∨ op = compress .nvfp4 ∨ op = decompress .nvfp4 := by
  by_cases hc : op = compress .nvfp4
  · exact .inr (.inl hc)
  · by_cases hd : op = decompress .nvfp4
    · exact .inr (.inr hd)
    · exact .inl ⟨hc, hd⟩

theorem Headerless.inHeader_eq {op : Codec} (hop : op.Headerless) : op.inHeader = 0 := by
  unfold inHeader
  split
  · exact absurd rfl hop.2
  · rfl

theorem Headerless.outHeader_eq {op : Codec} (hop : op.Headerless) : op.outHeader = 0 := by
  unfold outHeader
  split
  · exact absurd rfl hop.1
  · rfl

section Run

variable {b M T} {op : Codec} {s : Spans} {src dst : Bytes}

theorem run_eq (hop : op.Headerless) (c : Call) :
    op.run b M T c = c.checked op.inBytes op.outBytes (op.body b M T c.src c.dst) := by
  rcases op with (fmt | - | - | f) | (fmt | - | - | f)
  · cases fmt
    case kReserved => exact (c.checked_nothing 1).symm
    all_goals rfl
  · exact absurd rfl hop.1
  · rfl
  · exact f.compress_eq c
  · cases fmt
    case kReserved => exact (c.checked_nothing 1).symm
    all_goals rfl
  · exact absurd rfl hop.2
  · rfl
  · exact f.decompress_eq c

theorem Headerless.units_eq (hop : op.Headerless) (n : ℕ) : op.units n = n / op.inBytes := by
  rw [units, hop.inHeader_eq, Nat.sub_zero]

theorem Headerless.outputSize_eq (hop : op.Headerless) (n : ℕ) :
    op.outputSize n = n / op.inBytes * op.outBytes := by
  rw [outputSize, hop.units_eq, hop.outHeader_eq, Nat.zero_add]

theorem Headerless.whole_iff (hop : op.Headerless) (n : ℕ) : op.Whole n ↔ n % op.inBytes = 0 := by
  rw [Whole, hop.inHeader_eq, Nat.sub_zero]
  exact and_iff_right (Nat.zero_le n)

/-! The two NVFP4 functions, for calls that pass the checks and for the others. -/

theorem compressedSizeNVFP4_eq {n : ℕ} (h : n % 64 = 0) :
    compressedSizeNVFP4 (n / 4) = (4 + n / 64 * 9) % 2 ^ 64 := by
  rw [compressedSizeNVFP4, if_neg (by omega), Nat.div_div_eq_div_mul]

theorem compressNVFP4_of_checks {c : Call} (hlt : c.srcSize < 2 ^ 61) (hunits : c.srcSize % 64 = 0)
    (hroom : (4 + c.srcSize / 64 * 9) % 2 ^ 64 ≤ c.dstSize)
    (hapart : spansOverlap c.srcData c.srcSize c.dstData ((4 + c.srcSize / 64 * 9) % 2 ^ 64) = false) :
    compressFP32ToNVFP4 M T.toE2m1Tables c = blocksToNVFP4 M T.toE2m1Tables c.src c.dst (c.srcSize / 64) := by
  have hpos : (4 + c.srcSize / 64 * 9) % 2 ^ 64 ≠ 0 := by
    have hsized : 4 + c.srcSize / 64 * 9 < 2 ^ 64 := by omega
    rw [Nat.mod_eq_of_lt hsized]
    exact Nat.ne_of_gt (by omega)
  have helements : c.srcSize / 4 = c.srcSize / 64 * 16 := by omega
  have hsize : compressedSizeNVFP4 (c.srcSize / 64 * 16) = (4 + c.srcSize / 64 * 9) % 2 ^ 64 := by
    rw [← helements, compressedSizeNVFP4_eq hunits]
  have hblocks : c.srcSize / 64 * 16 / 16 = c.srcSize / 64 := Nat.mul_div_cancel _ (by decide)
  simp only [compressFP32ToNVFP4, hunits, ne_eq, not_true_eq_false, if_false, helements, hsize, hpos,
    Nat.not_lt.mpr hroom, hapart, Bool.false_eq_true, hblocks, blocksToNVFP4]

theorem compressNVFP4_cases (c : Call) : (c.srcSize % 64 = 0 ∧ (4 + c.srcSize / 64 * 9) % 2 ^ 64 ≤ c.dstSize ∧
    spansOverlap c.srcData c.srcSize c.dstData ((4 + c.srcSize / 64 * 9) % 2 ^ 64) = false) ∨
    compressFP32ToNVFP4 M T.toE2m1Tables c = (0, c.dst) := by
  rw [compressFP32ToNVFP4]
  dsimp only
  split_ifs with hunits hzero hroom hapart
  · exact .inr rfl
  · exact .inr rfl
  · exact .inr rfl
  · exact .inr rfl
  · have hwhole : c.srcSize % 64 = 0 := not_ne_iff.mp hunits
    rw [compressedSizeNVFP4_eq hwhole] at hroom hapart
    exact .inl ⟨hwhole, Nat.not_lt.mp hroom, Bool.eq_false_iff.mpr hapart⟩

theorem decompressNVFP4_of_checks {c : Call} (hheader : 4 ≤ c.srcSize) (hunits : (c.srcSize - 4) % 9 = 0)
    (hroom : (c.srcSize - 4) / 9 * 64 % 2 ^ 64 ≤ c.dstSize)
    (hapart : spansOverlap c.srcData c.srcSize c.dstData ((c.srcSize - 4) / 9 * 64 % 2 ^ 64) = false) :
    decompressNVFP4ToFP32 M T.toE2m1Tables c = blocksFromNVFP4 M T.toE2m1Tables c.src c.dst
    ((c.srcSize - 4) / 9) := by
  simp only [decompressNVFP4ToFP32, Nat.not_lt.mpr hheader, hunits, ne_eq, not_true_eq_false, if_false,
    Nat.not_lt.mpr hroom, hapart, Bool.false_eq_true, blocksFromNVFP4]

theorem decompressNVFP4_cases (c : Call) : (4 ≤ c.srcSize ∧ (c.srcSize - 4) % 9 = 0 ∧
    (c.srcSize - 4) / 9 * 64 % 2 ^ 64 ≤ c.dstSize ∧
    spansOverlap c.srcData c.srcSize c.dstData ((c.srcSize - 4) / 9 * 64 % 2 ^ 64) = false) ∨
    decompressNVFP4ToFP32 M T.toE2m1Tables c = (0, c.dst) := by
  rw [decompressNVFP4ToFP32]
  dsimp only
  split_ifs with hheader hunits hroom hapart
  · exact .inr rfl
  · exact .inr rfl
  · exact .inr rfl
  · exact .inr rfl
  · exact .inr rfl
  · exact .inl ⟨Nat.not_lt.mp hheader, not_ne_iff.mp hunits, Nat.not_lt.mp hroom, Bool.eq_false_iff.mpr hapart⟩

theorem run_of_passes (h : op.Passes s) :
    op.run b M T (s.call src dst) = op.body b M T src dst (op.units s.srcSize) := by
  obtain ⟨hwhole, hroom, hapart⟩ := h
  rcases op.headerless_or with hop | rfl | rfl
  · rw [hop.outputSize_eq] at hroom hapart
    rw [run_eq hop, hop.units_eq]
    exact Call.checked_of_checks _ ((hop.whole_iff _).mp hwhole) hroom hapart
  · exact compressNVFP4_of_checks s.src_lt hwhole.2 hroom hapart
  · rw [outputSize, show (decompress .nvfp4).outHeader = 0 from rfl, Nat.zero_add] at hroom hapart
    exact decompressNVFP4_of_checks hwhole.1 hwhole.2 hroom hapart

theorem run_of_not_passes (h : ¬ op.Passes s) : op.run b M T (s.call src dst) = (0, dst) := by
  rcases op.headerless_or with hop | rfl | rfl
  · rw [run_eq hop]
    refine (Call.checked_cases _ _ _ _).resolve_left fun ⟨hunits, hroom, hapart⟩ =>
      h ⟨(hop.whole_iff _).mpr hunits, ?_, ?_⟩
    · rwa [hop.outputSize_eq]
    · rwa [hop.outputSize_eq]
  · exact (compressNVFP4_cases (s.call src dst)).resolve_left fun ⟨hunits, hroom, hapart⟩ =>
      h ⟨⟨Nat.zero_le _, hunits⟩, hroom, hapart⟩
  · refine (decompressNVFP4_cases (s.call src dst)).resolve_left fun ⟨hheader, hunits, hroom, hapart⟩ =>
      h ⟨⟨hheader, hunits⟩, ?_, ?_⟩
    · rwa [outputSize, show (decompress .nvfp4).outHeader = 0 from rfl, Nat.zero_add]
    · rwa [outputSize, show (decompress .nvfp4).outHeader = 0 from rfl, Nat.zero_add]

end Run

end Codec

end Qtx.CodecBounds
