import Qtx.CodecCalls

/-!
# What a codec does with its units

Once the checks of a call have passed, a loop over the units reads no further than its
source, writes no further than its output, and depends on the tables at the entries that
it looks up only.
-/
namespace Qtx.CodecBounds

open Qtx.ByteStreams Qtx.ColdCodecs Qtx.ElementStreams Qtx.FloatMachine Qtx.FpeGuard Qtx.ScaledBlocks
  Qtx.ScaledEncoders Qtx.IQuants Qtx.BlockFormats Qtx.StreamReads Qtx.LevelReads Qtx.KernelReads Qtx.TableLookups
  Qtx.VectorBackends

namespace Codec

variable (b : Build) (M : Machine) (T : Tables)

/-- The lookups for a unit of the source. -/
def lookups : Codec → Bytes → List Lookup
  | compress .nvfp4, _ | compress .mxfp4, _ => midpointLookups
  | compress (.block f), _ => (searched f).flatMap Table.entries
  | decompress .nvfp4, block => (List.range 16).flatMap (nibbleLookups block)
  | decompress .mxfp4, block => (List.range 32).flatMap (nibbleLookups block)
  | decompress (.block f), block => (List.range f.elements).flatMap (blockLookups f block)
  | _, _ => []

/-- The lookups of a call, unit by unit. -/
def LooksUp (op : Codec) (s : Spans) (src : Bytes) (l : Lookup) : Prop :=
  ∃ u < op.units s.srcSize, l ∈ op.lookups ((src.skip op.inHeader).skip (u * op.inBytes))

/-- The points that the searches of an encoder find. -/
def found : Codec → (ℕ → BitVec 32) → BitVec 32 → List Lookup
  | compress (.block f), target, delta => searches M T.toCodebooks f target delta
  | _, _, _ => []

section Body

variable {b M T} {T' : Tables} {op : Codec} {src src' dst : Bytes} {n : ℕ}

theorem bounded_nothing : Bounded 1 0 fun _ dst _ => (0, dst) :=
  ⟨fun _ _ _ _ _ => rfl, fun _ _ _ _ _ => rfl, fun _ _ _ _ => .inl rfl⟩

/-- The element formats of the arena stay in their units in every build. -/
theorem compress_bounded (fmt : QuantFormat) :
    Bounded (compress (.quant fmt)).inBytes (compress (.quant fmt)).outBytes
    ((compress (.quant fmt)).body b M T) := by
  have hkernels := boundedKernels (M := M) b
  cases fmt with
  | kFP32 => exact bounded_copyBytes
  | kBF16 => exact hkernels.compressBF16
  | kFP16 => exact bounded_encodeHalves _
  | kFP8_E4M3 => exact bounded_encodeBytes _
  | kFP8_E5M2 => exact bounded_encodeBytes _
  | kINT8 => exact hkernels.compressINT8
  | kINT4 => exact hkernels.compressINT4
  | kReserved => exact bounded_nothing

theorem decompress_bounded (fmt : QuantFormat) : Bounded (decompress (.quant fmt)).inBytes
    (decompress (.quant fmt)).outBytes ((decompress (.quant fmt)).body b M T) := by
  have hkernels := boundedKernels (M := M) b
  cases fmt with
  | kFP32 => exact bounded_copyBytes
  | kBF16 => exact hkernels.decompressBF16
  | kFP16 => exact bounded_decodeHalves _
  | kFP8_E4M3 => exact bounded_decodeBytes _
  | kFP8_E5M2 => exact bounded_decodeBytes _
  | kINT8 => exact hkernels.decompressINT8
  | kINT4 => exact hkernels.decompressINT4
  | kReserved => exact bounded_nothing

theorem body_reads (hop : op.Headerless) : ReadsAlike op.inBytes (op.body b M T) (op.body b M T) := by
  rcases op with (fmt | - | - | f) | (fmt | - | - | f)
  · exact (compress_bounded fmt).reads
  · exact absurd rfl hop.1
  · exact readsAlike_encodeLoop encodeMXFP4_alike
  · exact readsAlike_encodeLoop (DecoderReads.encode_alike f)
  · exact (decompress_bounded fmt).reads
  · exact absurd rfl hop.2
  · exact readsAlike_decodeLoop decodeMXFP4_alike
  · exact readsAlike_decodeLoop (DecoderReads.decode_alike f)

theorem body_contained (hop : op.Headerless) : Contained op.outBytes (op.body b M T) := by
  rcases op with (fmt | - | - | f) | (fmt | - | - | f)
  · exact (compress_bounded fmt).contained
  · exact absurd rfl hop.1
  · exact contained_encodeLoop _
  · exact contained_encodeLoop _
  · exact (decompress_bounded fmt).contained
  · exact absurd rfl hop.2
  · exact contained_decodeLoop _
  · exact contained_decodeLoop _

theorem blocksToNVFP4_reads {T : E2m1Tables} (h : SameBytes (n * 64) src src') :
    blocksToNVFP4 M T src dst n = blocksToNVFP4 M T src' dst n := by
  have hscale : globalScaleNVFP4 M src (n * 16) = globalScaleNVFP4 M src' (n * 16) := by
    rw [globalScaleNVFP4, globalScaleNVFP4, absMax_congr fun i hi => h.wordAt_eq (by omega)]
  have htile : ∀ out, tile 9 (fun b => encodeNVFP4 M T (globalScaleNVFP4 M src' (n * 16))
    (src.skip (b * 64))) out n =
      tile 9 (fun b => encodeNVFP4 M T (globalScaleNVFP4 M src' (n * 16)) (src'.skip (b * 64))) out n :=
    fun out => tile_congr out fun b hb k hk => encodeNVFP4_alike _ _ _ (block_same h hb) k hk
  simp only [blocksToNVFP4, hscale, htile]

theorem blocksFromNVFP4_reads {T : E2m1Tables} (h : SameBytes (4 + n * 9) src src') :
    blocksFromNVFP4 M T src dst n = blocksFromNVFP4 M T src' dst n := by
  have hscale : loadU32 src = loadU32 src' := h.loadU32_eq (Nat.le_add_right 4 _)
  have hpayload : SameBytes (n * 9) (src.skip 4) (src'.skip 4) := h.skip le_rfl
  have htile : tile 64 (fun b => decodeNVFP4 M T (loadU32 src') ((src.skip 4).skip (b * 9))) dst n =
      tile 64 (fun b => decodeNVFP4 M T (loadU32 src') ((src'.skip 4).skip (b * 9))) dst n :=
    tile_congr dst fun b hb k hk => decodeNVFP4_alike _ _ _ (block_same hpayload hb) k hk
  simp only [blocksFromNVFP4, hscale, htile]

/-- The units are all that a codec reads. -/
theorem body_same (h : SameBytes (op.inHeader + n * op.inBytes) src src') :
    op.body b M T src dst n = op.body b M T src' dst n := by
  rcases op.headerless_or with hop | rfl | rfl
  · rw [hop.inHeader_eq, Nat.zero_add] at h
    exact body_reads hop _ _ _ _ h
  · exact blocksToNVFP4_reads (h.mono (Nat.le_add_left _ _))
  · exact blocksFromNVFP4_reads h

/-- Their lookups are all that matters of the tables. -/
theorem body_of_lookups
    (h : ∀ u < n, ∀ l ∈ op.lookups ((src.skip op.inHeader).skip (u * op.inBytes)), T.entry l = T'.entry l) :
    op.body b M T src dst n = op.body b M T' src dst n := by
  have hrange : ∀ (m : ℕ) (p : ℕ → List Lookup), (∀ l ∈ (List.range m).flatMap p, T.entry l = T'.entry l) →
      ∀ i < m, ∀ l ∈ p i, T.entry l = T'.entry l :=
    fun m p hp i hi l hl => hp l (List.mem_flatMap.mpr ⟨i, List.mem_range.mpr hi, hl⟩)
  have hskip : op.inHeader = 0 → src.skip op.inHeader = src := fun hz => by rw [hz, skip_zero]
  rcases op with (fmt | - | - | f) | (fmt | - | - | f)
  case compress.quant => cases fmt <;> rfl
  case decompress.quant => cases fmt <;> rfl
  case compress.nvfp4 =>
    have htile : ∀ global out, tile 9 (fun b => encodeNVFP4 M T.toE2m1Tables global (src.skip (b * 64))) out n =
        tile 9 (fun b => encodeNVFP4 M T'.toE2m1Tables global (src.skip (b * 64))) out n :=
      fun global out => tile_congr out fun b hb k _ => by rw [encodeNVFP4_of_entries (h b hb)]
    simp only [body, blocksToNVFP4, htile]
  case compress.mxfp4 =>
    exact congrArg (Prod.mk _) (tile_congr dst fun b hb k _ => by rw [encodeMXFP4_of_entries (h b hb)])
  case compress.block =>
    refine congrArg (Prod.mk _) (tile_congr dst fun b hb k _ => ?_)
    rw [encode_of_entries f _ fun t ht l hl => h b hb l (List.mem_flatMap.mpr ⟨t, ht, hl⟩)]
  case decompress.nvfp4 =>
    have htile : ∀ global,
      tile 64 (fun b => decodeNVFP4 M T.toE2m1Tables global ((src.skip 4).skip (b * 9))) dst n =
        tile 64 (fun b => decodeNVFP4 M T'.toE2m1Tables global ((src.skip 4).skip (b * 9))) dst n :=
      fun global => tile_congr dst fun b hb k hk => decodeNVFP4_of_entries global (hrange 16 _ (h b hb)) k hk
    simp only [body, blocksFromNVFP4, htile]
  case decompress.mxfp4 =>
    rw [hskip rfl] at h
    have htile := tileWhile_congr dst fun b hb => decodeMXFP4_of_entries (M := M) (hrange 32 _ (h b hb))
    simp only [body, decodeLoop]
    exact congrArg (fun r : Bytes × Bool => (if r.2 then n * 128 % 2 ^ 64 else 0, r.1)) htile
  case decompress.block =>
    rw [hskip rfl] at h
    have htile := tileWhile_congr dst fun b hb => decode_of_entries (M := M) f (hrange f.elements _ (h b hb))
    simp only [body, decodeLoop]
    exact congrArg (fun r : Bytes × Bool => (if r.2 then n * (f.elements * 4) % 2 ^ 64 else 0, r.1)) htile

theorem blocksToNVFP4_above {a : ℕ} (ha : 4 + n * 9 ≤ a) :
    (blocksToNVFP4 M T.toE2m1Tables src dst n).2 a = dst a := by
  have hsum : 4 + (a - 4) = a := by omega
  simp only [blocksToNVFP4]
  rw [writeAt, if_neg (by omega), tile_of_le _ _ (by omega), skip_apply, hsum]
  exact store_above _ _ (by omega)

theorem blocksFromNVFP4_above {a : ℕ} (ha : n * 64 ≤ a) :
    (blocksFromNVFP4 M T.toE2m1Tables src dst n).2 a = dst a := by
  rw [blocksFromNVFP4]
  split_ifs
  · rfl
  · exact tile_of_le _ _ ha

theorem blocksFromNVFP4_count (hn : n * 64 < 2 ^ 64) :
    (blocksFromNVFP4 M T.toE2m1Tables src dst n).1 = 0 ∨ (blocksFromNVFP4 M T.toE2m1Tables src dst n).1 =
    n * 64 := by
  rw [blocksFromNVFP4]
  split_ifs
  · exact .inl rfl
  · exact .inr (Nat.mod_eq_of_lt hn)

/-- Nothing behind the output is written. -/
theorem body_above {a : ℕ} (ha : op.outHeader + n * op.outBytes ≤ a) : (op.body b M T src dst n).2 a = dst a := by
  rcases op.headerless_or with hop | rfl | rfl
  · rw [hop.outHeader_eq, Nat.zero_add] at ha
    exact (body_contained hop).above _ _ _ _ ha
  · exact blocksToNVFP4_above ha
  · exact blocksFromNVFP4_above (le_trans (Nat.le_add_left _ _) ha)

theorem body_count (hn : op.outHeader + n * op.outBytes < 2 ^ 64) :
    (op.body b M T src dst n).1 = 0 ∨ (op.body b M T src dst n).1 = op.outHeader + n * op.outBytes := by
  rcases op.headerless_or with hop | rfl | rfl
  · rw [hop.outHeader_eq, Nat.zero_add] at hn ⊢
    exact (body_contained hop).count _ _ _ hn
  · exact .inr (Nat.mod_eq_of_lt hn)
  · rw [show (decompress .nvfp4).outHeader = 0 from rfl, Nat.zero_add] at hn ⊢
    exact blocksFromNVFP4_count hn

end Body

end Codec

end Qtx.CodecBounds
