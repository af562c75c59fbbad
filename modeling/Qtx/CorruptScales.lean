import Qtx.BlockScales
import Qtx.FloatScans
import Qtx.ScaledBlocks

/-!
# Corrupted scales

Every decoder meets a scale that is not finite in one of two ways: it rejects the stream,
or it reads the scale as zero. The block scale of NVFP4 is the exception. Its decoder tests
the scale of the stream only, and a block scale that is a NaN makes all elements of its
block NaNs.
-/
namespace Qtx.CorruptScales

open Qtx.BinaryFormats Qtx.ByteStreams Qtx.FloatWords Qtx.FloatMachine Qtx.FpeGuard Qtx.QuantizerHelpers
  Qtx.FloatScans Qtx.IQuants Qtx.ScaledBlocks Qtx.BlockFormats

inductive DecoderFormat
  | half (f : BlockFormat)
  | int8 | int4 | mxfp4 | nvfp4
  deriving DecidableEq

namespace DecoderFormat

def headerBytes : DecoderFormat → ℕ
  | nvfp4 => 4
  | _ => 0

def blockBytes : DecoderFormat → ℕ
  | half f => f.blockBytes
  | int8 => 36
  | int4 => 20
  | mxfp4 => 17
  | nvfp4 => 9

def elements : DecoderFormat → ℕ
  | half f => f.elements
  | nvfp4 => 16
  | _ => 32

variable (M : Machine) (C : Codebooks)

def decompress : DecoderFormat → Call → ℕ × Bytes
  | half f => f.decompress M C
  | int8 => decompressINT8ToFP32 M
  | int4 => decompressINT4ToFP32 M
  | mxfp4 => decompressMXFP4ToFP32 M e2m1Tables
  | nvfp4 => decompressNVFP4ToFP32 M e2m1Tables

/-- A block of a stream. -/
def blockAt (f : DecoderFormat) (src : Bytes) (b : ℕ) : Bytes := (src.skip f.headerBytes).skip (b * f.blockBytes)

/-- The scales and minima of a block, as they decode. -/
def blockScales : DecoderFormat → Bytes → List (BitVec 32)
  | half f, block => (f.storedScales block).map fp16ToFP32
  | int8, block | int4, block => [loadU32 block]
  | mxfp4, block => [e8m0Scale (block 0)]
  | nvfp4, block => [fp8E4M3ToFP32 (block 0)]

/-- The scales of a whole stream. -/
def streamScales : DecoderFormat → Bytes → List (BitVec 32)
  | nvfp4, src => [loadU32 src]
  | _, _ => []

/-- The stream has `n` blocks and the destination has room for their elements. -/
structure Fits (f : DecoderFormat) (c : Call) (n : ℕ) : Prop where
  srcSize : c.srcSize = f.headerBytes + n * f.blockBytes
  dstSize : n * (f.elements * 4) ≤ c.dstSize
  sized : n * (f.elements * 4) < 2 ^ 64
  apart : spansOverlap c.srcData c.srcSize c.dstData (n * (f.elements * 4)) = false

/-- A scale that is not finite makes the decoder return 0 or reaches none of the elements it governs. -/
structure Contained (f : DecoderFormat) (c : Call) (n : ℕ) : Prop where
  block : ∀ b < n, ∀ s ∈ f.blockScales (f.blockAt c.src b), ¬ IsFinite s →
    (f.decompress M C c).1 = 0 ∨ ∀ i < f.elements, IsFinite (wordAt (f.decompress M C c).2 (b * f.elements + i))
  stream : ∀ s ∈ f.streamScales c.src, ¬ IsFinite s →
    (f.decompress M C c).1 = 0 ∨ ∀ i < n * f.elements, IsFinite (wordAt (f.decompress M C c).2 i)

end DecoderFormat

variable {M : Machine} {C : Codebooks} {x y : BitVec 32}

/-! Words. -/

theorem isNaN_mul_right (h : IsNaN y) : IsNaN (M.mul x y) := by
  simp only [Machine.mul, h, or_true, if_true]
  exact M.nan_isNaN x y

theorem not_finite_of_isNaN (h : IsNaN x) : ¬ IsFinite x := Nat.not_lt.mpr (Nat.le_of_lt h)

/-- Small integers are finite words. -/
theorem finite_ofInt {i : ℤ} (h : i.natAbs ≤ 2 ^ 8) : IsFinite (M.ofInt i) := by
  rw [Machine.ofInt, Machine.finite_round_iff]
  exact lt_of_le_of_lt (Nat.mul_le_mul_right _ h) (by decide)

theorem finite_mul_zero (hx : IsFinite x) : IsFinite (M.mul x zero) := by
  have hsize : M.size zero = 0 := by
    have hvalue := natAbs_value M zero
    rw [value_zero] at hvalue
    exact hvalue.symm
  refine lt_of_le_of_lt (Machine.magnitude_mul_le (k := 0) hx finite_zero ?_) (by decide)
  rw [hsize, Nat.mul_zero]
  exact Nat.zero_le _

/-- The only exponent byte without a finite scale is the one the decoder rejects. -/
theorem finite_e8m0Scale : ∀ e < 255, magnitude (e8m0Scale (BitVec.ofNat 8 e)) < infinity := by
  decide +kernel

/-- An E4M3 byte is a NaN if all bits below its sign are set, and finite otherwise. -/
theorem fp8E4M3_cases : ∀ e < 256, (e &&& 0x7F = 0x7F → infinity < magnitude (fp8E4M3ToFP32 (BitVec.ofNat 8 e))) ∧
    (e &&& 0x7F ≠ 0x7F → magnitude (fp8E4M3ToFP32 (BitVec.ofNat 8 e)) < infinity) := by
  decide +kernel

/-! The formats. -/

variable {c : Call} {n : ℕ}

theorem blockAt_headless {f : DecoderFormat} (h : f.headerBytes = 0) (src : Bytes) (b : ℕ) :
    f.blockAt src b = src.skip (b * f.blockBytes) := by
  rw [DecoderFormat.blockAt, h, skip_zero]

theorem call_fits {f : DecoderFormat} (hhead : f.headerBytes = 0) (h : f.Fits c n) :
    c.Fits f.blockBytes (f.elements * 4) n := by
  refine ⟨?_, h.dstSize, h.sized, h.apart⟩
  rw [h.srcSize, hhead, Nat.zero_add]

theorem contained_half (f : BlockFormat) (h : (DecoderFormat.half f).Fits c n) :
    (DecoderFormat.half f).Contained M C c n := by
  refine ⟨?_, fun s hs => absurd hs List.not_mem_nil⟩
  intro b hb s hs hbad
  rw [blockAt_headless rfl] at hs
  obtain ⟨stored, hmem, rfl⟩ := List.mem_map.mp hs
  have hnone : f.decode M C (c.src.skip (b * f.blockBytes)) = none := by
    rw [← Option.not_isSome_iff_eq_none, f.decode_isSome_iff]
    intro hall
    exact hbad ((isFiniteStrict_iff _).mp (hall stored hmem))
  left
  rw [DecoderFormat.decompress, BlockFormat.decompress_eq]
  exact Call.decodeBlocks_rejects (call_fits rfl h) f.blockBytes_pos hb hnone

/-- A scale that is read as zero makes every element zero. -/
theorem finite_scaled {raw : BitVec 32} (hbad : ¬ IsFinite raw) {i : ℤ} (hi : i.natAbs ≤ 2 ^ 8) :
    IsFinite (M.mul (M.ofInt i) (finiteScale raw)) := by
  have hzero : finiteScale raw = zero := by
    rw [finiteScale, if_neg (fun h => hbad ((isFiniteStrict_iff raw).mp h))]
  rw [hzero]
  exact finite_mul_zero (finite_ofInt hi)

theorem natAbs_toInt_le (v : BitVec 8) : v.toInt.natAbs ≤ 2 ^ 8 := by
  have hlo := v.le_toInt
  have hhi := v.toInt_lt
  omega

/-- Blocks of integers under a binary32 scale, the one in question not finite. -/
theorem finite_integers {inBytes b : ℕ} {decode : Bytes → Bytes} (level : Bytes → ℕ → BitVec 8)
    (hfits : c.Fits inBytes (32 * 4) n) (hpos : 0 < inBytes)
    (hdecode : ∀ block i,
      wordAt (decode block) i = M.mul (M.ofInt (level block i).toInt) (finiteScale (loadU32 block)))
    (hb : b < n) (hbad : ¬ IsFinite (loadU32 (c.src.skip (b * inBytes)))) :
    ∀ i < 32, IsFinite (wordAt (c.encodeBlocks inBytes (32 * 4) decode).2 (b * 32 + i)) := by
  intro i hi
  rw [Call.wordAt_encodeBlocks hfits hpos hb hi, hdecode]
  exact finite_scaled hbad (natAbs_toInt_le _)

theorem contained_int8 (h : DecoderFormat.int8.Fits c n) : DecoderFormat.int8.Contained M C c n := by
  refine ⟨?_, fun s hs => absurd hs List.not_mem_nil⟩
  intro b hb s hs hbad
  obtain rfl := List.mem_singleton.mp hs
  rw [blockAt_headless rfl] at hbad
  exact .inr (finite_integers (fun block i => block.skip 4 i) (call_fits rfl h) (by decide)
    (fun _ _ => by rw [decodeINT8, wordAt_wordBytes]) hb hbad)

theorem contained_int4 (h : DecoderFormat.int4.Fits c n) : DecoderFormat.int4.Contained M C c n := by
  refine ⟨?_, fun s hs => absurd hs List.not_mem_nil⟩
  intro b hb s hs hbad
  obtain rfl := List.mem_singleton.mp hs
  rw [blockAt_headless rfl] at hbad
  exact .inr (finite_integers (fun block i => (nibbleAt (block.skip 4) i ^^^ 0x08#8) - 0x08#8)
    (call_fits rfl h) (by decide)
    (fun _ _ => by rw [decodeINT4, wordAt_wordBytes]) hb hbad)

theorem contained_mxfp4 (h : DecoderFormat.mxfp4.Fits c n) : DecoderFormat.mxfp4.Contained M C c n := by
  refine ⟨?_, fun s hs => absurd hs List.not_mem_nil⟩
  intro b hb s hs hbad
  obtain rfl := List.mem_singleton.mp hs
  rw [blockAt_headless rfl] at hbad
  left
  have hlast : c.src.skip (b * 17) 0 = 0xFF#8 := by
    by_contra hne
    have hlt : (c.src.skip (b * 17) 0).toNat < 255 := by
      have hbyte := (c.src.skip (b * 17) 0).isLt
      have hne' : (c.src.skip (b * 17) 0).toNat ≠ (0xFF#8).toNat := fun h => hne (BitVec.eq_of_toNat_eq h)
      have hvalue : (0xFF#8).toNat = 255 := rfl
      omega
    have hfinite := finite_e8m0Scale _ hlt
    rw [BitVec.ofNat_toNat, BitVec.setWidth_eq] at hfinite
    exact hbad hfinite
  exact Call.decodeBlocks_rejects (call_fits rfl h) (by decide) hb (if_pos hlast)

/-! NVFP4. -/

theorem decompressNVFP4_of_fits (h : DecoderFormat.nvfp4.Fits c n) : decompressNVFP4ToFP32 M e2m1Tables c =
    if !isFiniteStrict (loadU32 c.src) then (0, c.dst)
    else (n * 64,
      tile 64 (fun b => decodeNVFP4 M e2m1Tables (loadU32 c.src) ((c.src.skip 4).skip (b * 9))) c.dst n) := by
  have hsize : c.srcSize = 4 + n * 9 := h.srcSize
  have hroom : ¬ c.dstSize < n * 64 := Nat.not_lt.mpr h.dstSize
  have hsized : n * 64 % 2 ^ 64 = n * 64 := Nat.mod_eq_of_lt h.sized
  have happart : spansOverlap c.srcData c.srcSize c.dstData (n * 64) = false := h.apart
  have hshort : ¬ c.srcSize < 4 := by omega
  have hpayload : c.srcSize - 4 = n * 9 := by omega
  have hblocks : n * 9 / 9 = n := Nat.mul_div_cancel n (by decide)
  have hmod : ¬ n * 9 % 9 ≠ 0 := by rw [Nat.mul_mod_left]; exact fun h => h rfl
  simp only [decompressNVFP4ToFP32, hshort, hpayload, hmod, hblocks, hsized, hroom, happart, if_false,
    Bool.false_eq_true]

theorem finite_fp8E4M3_iff (e : BitVec 8) : IsFinite (fp8E4M3ToFP32 e) ↔ e &&& 0x7F#8 ≠ 0x7F#8 := by
  have hcases := fp8E4M3_cases e.toNat e.isLt
  rw [BitVec.ofNat_toNat, BitVec.setWidth_eq] at hcases
  have hmask : e.toNat &&& 0x7F = 0x7F ↔ e &&& 0x7F#8 = 0x7F#8 := by
    rw [← BitVec.toNat_inj, BitVec.toNat_and]
    exact Iff.rfl
  constructor
  · intro hfin heq
    exact not_finite_of_isNaN (hcases.1 (hmask.mpr heq)) hfin
  · exact fun hne => hcases.2 (mt hmask.mp hne)

theorem isNaN_fp8E4M3 {e : BitVec 8} (h : e &&& 0x7F#8 = 0x7F#8) : IsNaN (fp8E4M3ToFP32 e) := by
  have hcases := fp8E4M3_cases e.toNat e.isLt
  rw [BitVec.ofNat_toNat, BitVec.setWidth_eq] at hcases
  apply hcases.1
  have hmask := congrArg BitVec.toNat h
  rwa [BitVec.toNat_and] at hmask

/-- A block scale that is a NaN makes every element a NaN. -/
theorem isNaN_decodeNVFP4 {global : BitVec 32} {block : Bytes} (h : block 0 &&& 0x7F#8 = 0x7F#8) (i : ℕ) :
    IsNaN (wordAt (decodeNVFP4 M e2m1Tables global block) i) := by
  rw [decodeNVFP4, wordAt_wordBytes]
  exact isNaN_mul_right (isNaN_mul_right (isNaN_fp8E4M3 h))

/-- The streams of NVFP4 whose corruption is not noticed. -/
def NaNBlock (src : Bytes) (n : ℕ) : Prop :=
  IsFinite (loadU32 src) ∧ ∃ b < n, DecoderFormat.nvfp4.blockAt src b 0 &&& 0x7F#8 = 0x7F#8

theorem contained_nvfp4_iff (h : DecoderFormat.nvfp4.Fits c n) :
    DecoderFormat.nvfp4.Contained M C c n ↔ ¬ NaNBlock c.src n := by
  have hcall : DecoderFormat.nvfp4.decompress M C c = _ := decompressNVFP4_of_fits h
  by_cases hglobal : IsFinite (loadU32 c.src)
  · rw [(isFiniteStrict_iff _).mpr hglobal, if_neg (by decide)] at hcall
    constructor
    · rintro hcontained ⟨-, b, hb, hnan⟩
      have hbad : ¬ IsFinite (fp8E4M3ToFP32 (DecoderFormat.nvfp4.blockAt c.src b 0)) :=
        fun hfin => (finite_fp8E4M3_iff _).mp hfin hnan
      rcases hcontained.block b hb _ (List.mem_singleton.mpr rfl) hbad with hzero | hfinite
      · rw [hcall] at hzero
        dsimp only at hzero
        omega
      · have helement := hfinite 0 (by decide)
        rw [hcall] at helement
        have hword :=
          wordAt_tile (k := 16) (fun b => decodeNVFP4 M e2m1Tables (loadU32 c.src)
            ((c.src.skip 4).skip (b * 9))) c.dst hb
          (i := 0) (by decide)
        exact not_finite_of_isNaN (hword ▸ isNaN_decodeNVFP4 hnan 0) helement
    · intro hnone
      constructor
      · intro b hb s hs hbad
        obtain rfl := List.mem_singleton.mp hs
        refine absurd ((finite_fp8E4M3_iff _).mpr ?_) hbad
        exact fun hnan => hnone ⟨hglobal, b, hb, hnan⟩
      · intro s hs hbad
        obtain rfl := List.mem_singleton.mp hs
        exact absurd hglobal hbad
  · have hreject : isFiniteStrict (loadU32 c.src) = false := by
      rw [← Bool.not_eq_true, isFiniteStrict_iff]
      exact hglobal
    rw [hreject, if_pos (by decide)] at hcall
    have hzero : (DecoderFormat.nvfp4.decompress M C c).1 = 0 := by rw [hcall]
    exact iff_of_true ⟨fun _ _ _ _ _ => .inl hzero, fun _ _ _ => .inl hzero⟩ (fun hbad => hglobal hbad.1)

/-- No scale that is not finite reaches the output, except a block scale of NVFP4 that is a NaN under a
finite scale of the stream. -/
theorem contained_iff {f : DecoderFormat} (h : f.Fits c n) :
    f.Contained M C c n ↔ ¬ (f = .nvfp4 ∧ NaNBlock c.src n) := by
  cases f with
  | half f => exact iff_of_true (contained_half f h) (fun hbad => DecoderFormat.noConfusion hbad.1)
  | int8 => exact iff_of_true (contained_int8 h) (fun hbad => DecoderFormat.noConfusion hbad.1)
  | int4 => exact iff_of_true (contained_int4 h) (fun hbad => DecoderFormat.noConfusion hbad.1)
  | mxfp4 => exact iff_of_true (contained_mxfp4 h) (fun hbad => DecoderFormat.noConfusion hbad.1)
  | nvfp4 =>
    rw [contained_nvfp4_iff h]
    simp only [true_and]

/-- Two blocks of INT8 with the levels 5, the first under an infinite scale and the second under 1.0. -/
def twoBlockStream : Call where
  src := join [(4, bytesOf 0x7F800000#32), (32, fun _ => 5#8), (4, bytesOf 0x3F800000#32), (32, fun _ => 5#8)]
  srcSize := 72
  srcData := 0
  dst := fun _ => 0
  dstSize := 256
  dstData := 72

/-- All elements of the corrupted block are finite, although the decoder accepts the stream. -/
theorem contained_iff_infinite : ¬ IsFinite (loadU32 twoBlockStream.src) ∧
    (DecoderFormat.int8.decompress plainMachine emptyCodebooks twoBlockStream).1 = 256 ∧
    ∀ i < 32, IsFinite (wordAt (DecoderFormat.int8.decompress plainMachine emptyCodebooks twoBlockStream).2 i) := by
  have hfits : DecoderFormat.int8.Fits twoBlockStream 2 := ⟨rfl, Nat.le_refl 256, by decide, rfl⟩
  have hcontained := (contained_iff (M := plainMachine) (C := emptyCodebooks) hfits).mpr
    (fun hbad => DecoderFormat.noConfusion hbad.1)
  have hinfinite : ¬ IsFinite (loadU32 twoBlockStream.src) := by unfold IsFinite; decide
  have hcount : (DecoderFormat.int8.decompress plainMachine emptyCodebooks twoBlockStream).1 = 256 := by decide
  refine ⟨hinfinite, hcount, ?_⟩
  rcases hcontained.block 0 (by decide) _ (List.mem_singleton.mpr rfl) hinfinite with hzero | hfinite
  · rw [hcount] at hzero
    exact absurd hzero (by decide)
  · intro i hi
    have helement := hfinite i hi
    rwa [Nat.zero_mul, Nat.zero_add] at helement

/-- A stream of one block whose first byte, the scale of the block, is `e`. -/
def oneBlockStream (e : BitVec 8) : Call where
  src := join [(4, bytesOf 0x3F800000#32), (9, fun k => if k = 0 then e else 0x22#8)]
  srcSize := 13
  srcData := 0
  dst := fun _ => 0
  dstSize := 64
  dstData := 13

theorem fits_oneBlockStream (e : BitVec 8) : DecoderFormat.nvfp4.Fits (oneBlockStream e) 1 :=
  ⟨rfl, Nat.le_refl 64, by decide, rfl⟩

/-- The sixteen elements of a block under a NaN scale are written. -/
theorem not_contained_nan : DecoderFormat.nvfp4.Fits (oneBlockStream 0x7F#8) 1 ∧
    ¬ DecoderFormat.nvfp4.Contained plainMachine emptyCodebooks (oneBlockStream 0x7F#8) 1 := by
  refine ⟨fits_oneBlockStream _, fun h => (contained_nvfp4_iff (fits_oneBlockStream _)).mp h ?_⟩
  exact ⟨by unfold IsFinite; decide, 0, Nat.one_pos, by decide⟩

end Qtx.CorruptScales
