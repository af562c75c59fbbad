import Qtx.LevelReads
import Qtx.VectorBackends

/-!
# What the kernels read

The kernels of the formats with a float scale and of the element-wise formats, in every
build: each reads its blocks or words and writes theirs alone.
-/
namespace Qtx.KernelReads

open Qtx.ByteStreams Qtx.ColdCodecs Qtx.ElementStreams Qtx.FloatMachine Qtx.FpeGuard Qtx.QuantizerHelpers
  Qtx.ScaledBlocks Qtx.ScaledEncoders Qtx.StreamReads Qtx.LevelReads Qtx.VectorLanes Qtx.VectorBackends

variable {M : Machine} {T : E2m1Tables} {p q : Bytes}

/-! Nibbles. -/

theorem nibbleAt_congr {n i : ℕ} (h : SameBytes n p q) (hi : i < 2 * n) : nibbleAt p i = nibbleAt q i := by
  rw [nibbleAt, nibbleAt, h (i / 2) (by omega)]

theorem packNibbles_congr {n k : ℕ} {x y : ℕ → BitVec 8} (h : ∀ i < 2 * n, x i = y i) (hk : k < n) :
    packNibbles x k = packNibbles y k := by
  rw [packNibbles, packNibbles, h (2 * k) (by omega), h (2 * k + 1) (by omega)]

/-! Blocks with a scale in front. -/

theorem intScale_congr {levels : ℕ} (h : ∀ i < 32, wordAt p i = wordAt q i) :
    intScale M levels p = intScale M levels q := by
  rw [intScale, intScale, absMax_congr h]

theorem encodeINT8_alike : Alike 128 36 (encodeINT8 M) (encodeINT8 M) := by
  intro p q h k _
  have hblk := wordAt_same (n := 32) h
  have heq : encodeINT8 M p = encodeINT8 M q := by
    simp only [encodeINT8, intScale_congr hblk]
    exact join_congr (fun _ _ => rfl) (join_congr (fun i hi => by rw [hblk i hi]) rfl)
  rw [heq]

theorem encodeINT4_alike : Alike 128 20 (encodeINT4 M) (encodeINT4 M) := by
  intro p q h k _
  have hblk := wordAt_same (n := 32) h
  have heq : encodeINT4 M p = encodeINT4 M q := by
    simp only [encodeINT4, intScale_congr hblk]
    exact join_congr (fun _ _ => rfl)
      (join_congr (fun i hi => packNibbles_congr (fun i hi => by rw [hblk i hi]) hi) rfl)
  rw [heq]

theorem decodeINT8_alike : Alike 36 (32 * 4) (decodeINT8 M) (decodeINT8 M) := by
  intro p q h
  have hlevel : ∀ i < 32, p.skip 4 i = q.skip 4 i := h.skip (by decide)
  rw [decodeINT8, decodeINT8, h.loadU32_eq (by decide)]
  exact sameBytes_wordBytes fun i hi => by rw [hlevel i hi]

theorem decodeINT4_alike : Alike 20 (32 * 4) (decodeINT4 M) (decodeINT4 M) := by
  intro p q h
  have hlevel : SameBytes 16 (p.skip 4) (q.skip 4) := h.skip (by decide)
  rw [decodeINT4, decodeINT4, h.loadU32_eq (by decide)]
  exact sameBytes_wordBytes fun i hi => by rw [nibbleAt_congr hlevel hi]

theorem encodeMXFP4_alike : Alike 128 17 (encodeMXFP4 M T) (encodeMXFP4 M T) := by
  intro p q h k _
  have hblk := wordAt_same (n := 32) h
  have heq : encodeMXFP4 M T p = encodeMXFP4 M T q := by
    simp only [encodeMXFP4, absMax_congr hblk]
    exact join_congr (fun _ _ => rfl)
      (join_congr (fun i hi => packNibbles_congr (fun i hi => by rw [hblk i hi]) hi) rfl)
  rw [heq]

theorem decodeMXFP4_alike : AlikeOption 17 (32 * 4) (decodeMXFP4 M T) (decodeMXFP4 M T) := by
  intro p q h
  have hlevel : SameBytes 16 (p.skip 1) (q.skip 1) := h.skip (by decide)
  simp only [decodeMXFP4, h 0 (by decide)]
  split_ifs
  · exact .none
  · exact .some (sameBytes_wordBytes fun i hi => by rw [nibbleAt_congr hlevel hi])

theorem encodeNVFP4_alike (globalScale : BitVec 32) :
    Alike 64 9 (encodeNVFP4 M T globalScale) (encodeNVFP4 M T globalScale) := by
  intro p q h k _
  have hblk := wordAt_same (n := 16) h
  have heq : encodeNVFP4 M T globalScale p = encodeNVFP4 M T globalScale q := by
    simp only [encodeNVFP4, absMax_congr hblk]
    exact join_congr (fun _ _ => rfl)
      (join_congr (fun i hi => packNibbles_congr (fun i hi => by rw [hblk i hi]) hi) rfl)
  rw [heq]

theorem decodeNVFP4_alike (globalScale : BitVec 32) :
    Alike 9 (16 * 4) (decodeNVFP4 M T globalScale) (decodeNVFP4 M T globalScale) := by
  intro p q h
  have hlevel : SameBytes 8 (p.skip 1) (q.skip 1) := h.skip (by decide)
  rw [decodeNVFP4, decodeNVFP4, h 0 (by decide)]
  exact sameBytes_wordBytes fun i hi => by rw [nibbleAt_congr hlevel hi]

/-! The blocks of the vector kernels. -/

theorem loadBlock_congr {k n : ℕ} (h : SameBytes (k * (n * 4)) p q) : loadBlock k n p = loadBlock k n q := by
  funext r l
  have hend := block_end (n * 4) r.isLt
  exact (h.skip (m := n * 4) hend).wordAt_eq (by omega)

theorem compressOneBlock_alike {k n payload outBytes : ℕ} (F : FloatStage k n)
    (narrow : (Fin k → Vec n 32) → Bytes) :
    Alike (k * (n * 4)) outBytes (compressOneBlock payload F narrow) (compressOneBlock payload F narrow) := by
  intro p q h j _
  rw [compressOneBlock, compressOneBlock, loadBlock_congr h]

theorem loadBytes_congr {n : ℕ} (h : SameBytes n p q) : loadBytes n p = loadBytes n q :=
  funext fun l => h l l.isLt

theorem decompressOneBlockINT8AVX512_alike :
    Alike 36 128 (decompressOneBlockINT8AVX512 M) (decompressOneBlockINT8AVX512 M) := by
  intro p q h k _
  rw [decompressOneBlockINT8AVX512, decompressOneBlockINT8AVX512, h.loadU32_eq (by decide),
    loadBytes_congr (h.skip (j := 4) (m := 16) (by decide)),
      loadBytes_congr (h.skip (j := 20) (m := 16) (by decide))]

theorem decompressOneBlockINT4AVX512_alike :
    Alike 20 128 (VectorBackends.decompressOneBlockINT4AVX512 M)
    (VectorBackends.decompressOneBlockINT4AVX512 M) := by
  intro p q h k _
  have hlevels : IntKernels.decompressOneBlockINT4AVX512 (p.skip 4) =
    IntKernels.decompressOneBlockINT4AVX512 (q.skip 4) := by
    rw [IntKernels.decompressOneBlockINT4AVX512, IntKernels.decompressOneBlockINT4AVX512,
      loadBytes_congr (h.skip (j := 4) (m := 16) (by decide))]
  rw [VectorBackends.decompressOneBlockINT4AVX512, VectorBackends.decompressOneBlockINT4AVX512,
    h.loadU32_eq (by decide), hlevels]

theorem compressBF16Chunk16AVX512_alike : Alike (16 * 4) (16 * 2) Bf16Kernel.compressBF16Chunk16AVX512
    Bf16Kernel.compressBF16Chunk16AVX512 := by
  intro p q h k _
  have hload : loadWords 16 p = loadWords 16 q := funext fun l => h.wordAt_eq (by omega)
  rw [Bf16Kernel.compressBF16Chunk16AVX512, Bf16Kernel.compressBF16Chunk16AVX512, hload]

theorem decompressBF16Chunk16AVX512_alike : Alike (16 * 2) (16 * 4) decompressBF16Chunk16AVX512
    decompressBF16Chunk16AVX512 := by
  intro p q h k _
  have hload : loadHalves 16 p = loadHalves 16 q := funext fun l => (h.skip (m := 2) (by omega)).loadU16_eq le_rfl
  rw [decompressBF16Chunk16AVX512, decompressBF16Chunk16AVX512, hload]

/-! Words and half words of a stream. -/

theorem bounded_encodeHalves (encode : BitVec 32 → BitVec 16) : Bounded 4 2 (encodeHalves encode) :=
  bounded_tile fun _ _ _ b h hb k _ => by rw [h.wordAt_eq (i := b) (by omega)]

theorem bounded_encodeBytes (encode : BitVec 32 → BitVec 8) : Bounded 4 1 (encodeBytes encode) :=
  bounded_tile fun _ _ _ b h hb k _ => by rw [h.wordAt_eq (i := b) (by omega)]

theorem bounded_decodeHalves (decode : BitVec 16 → BitVec 32) : Bounded 2 4 (decodeHalves decode) :=
  bounded_tile fun _ _ _ b h hb k _ => by
    rw [halfAt, halfAt, (h.skip (m := 2) (by omega)).loadU16_eq le_rfl]

theorem bounded_decodeBytes (decode : BitVec 8 → BitVec 32) : Bounded 1 4 (decodeBytes decode) :=
  bounded_tile fun _ _ _ b h hb k _ => by rw [byteAt, byteAt, h b (by omega)]

theorem bounded_copyBytes : Bounded 1 1 copyBytes where
  reads src src' dst n h := by
    have hcopy : (fun a => if a < n then src a else dst a) = fun a => if a < n then src' a else dst a := by
      funext a
      split_ifs with ha
      · exact h a (by omega)
      · rfl
    rw [copyBytes, copyBytes, hcopy]
  contained := ⟨fun _ _ _ _ ha => if_neg (by omega), fun _ _ n _ => .inr (Nat.mul_one n).symm⟩

/-! The kernels of every build. -/

theorem bounded_blockKernel {inBytes outBytes : ℕ} {encode : Bytes → Bytes}
    (h : Alike inBytes outBytes encode encode) :
    Bounded inBytes outBytes (blockKernel inBytes outBytes encode).run := bounded_encodeLoop h

/-- The kernels of a back end stay in their blocks. -/
structure BoundedKernels (B : Backend) : Prop where
  compressINT8 : Bounded 128 36 B.compressFP32ToINT8Impl.run
  decompressINT8 : Bounded 36 128 B.decompressINT8ToFP32Impl.run
  compressINT4 : Bounded 128 20 B.compressFP32ToINT4Impl.run
  decompressINT4 : Bounded 20 128 B.decompressINT4ToFP32Impl.run
  compressBF16 : Bounded 4 2 B.compressFP32ToBF16Impl.run
  decompressBF16 : Bounded 2 4 B.decompressBF16ToFP32Impl.run

theorem boundedKernels_scalar : BoundedKernels (scalarBackend M) where
  compressINT8 := bounded_blockKernel encodeINT8_alike
  decompressINT8 := bounded_blockKernel decodeINT8_alike
  compressINT4 := bounded_blockKernel encodeINT4_alike
  decompressINT4 := bounded_blockKernel decodeINT4_alike
  compressBF16 := bounded_encodeHalves _
  decompressBF16 := bounded_decodeHalves _

theorem boundedKernels (b : Build) : BoundedKernels (b.backend M) := by
  cases b with
  | scalar => exact boundedKernels_scalar
  | avx2 int8 =>
    exact { boundedKernels_scalar with
      compressINT8 := bounded_blockKernel (compressOneBlock_alike (k := 4) (n := 8) int8 _) }
  | avx512 int8 int4 =>
    exact {
      compressINT8 := bounded_blockKernel (compressOneBlock_alike (k := 2) (n := 16) int8 _)
      decompressINT8 := bounded_blockKernel decompressOneBlockINT8AVX512_alike
      compressINT4 := bounded_blockKernel (compressOneBlock_alike (k := 2) (n := 16) int4 _)
      decompressINT4 := bounded_blockKernel decompressOneBlockINT4AVX512_alike
      compressBF16 := bounded_chunkLoop 16 compressBF16Chunk16AVX512_alike (bounded_encodeHalves _)
      decompressBF16 := bounded_chunkLoop 16 decompressBF16Chunk16AVX512_alike (bounded_decodeHalves _) }

end Qtx.KernelReads
