import Qtx.ElementStreams
import Qtx.GenID
import Qtx.ScaledEncoders

/-!
# Cold codecs

The universal dispatcher of `quantizer.hpp` and the codec policies of `cold_codec.hpp` that
forward to it. The back end of a build supplies the kernels of INT8, INT4 and bfloat16; the
other formats use the scalar loops in every build. A policy answers the size of a count of
elements on its own, without a look at the functions that compress and decompress.
-/
namespace Qtx.ColdCodecs

open Qtx.ByteStreams Qtx.ElementStreams Qtx.FloatMachine Qtx.ScaledBlocks Qtx.ScaledEncoders

/-- A loop over `n` units, each of which takes `outBytes` bytes of the destination. -/
structure Kernel (outBytes : ℕ) where
  run : Bytes → Bytes → ℕ → ℕ × Bytes
  count : ∀ src dst n, (run src dst n).1 = n * outBytes % 2 ^ 64

/-- The kernels that a back end implements on its own. -/
structure Backend where
  compressFP32ToINT8Impl : Kernel 36
  decompressINT8ToFP32Impl : Kernel 128
  compressFP32ToINT4Impl : Kernel 20
  decompressINT4ToFP32Impl : Kernel 128
  compressFP32ToBF16Impl : Kernel 2
  decompressBF16ToFP32Impl : Kernel 4

/-- A kernel that handles its blocks one by one. -/
def blockKernel (inBytes outBytes : ℕ) (encode : Bytes → Bytes) : Kernel outBytes where
  run src dst n := (n * outBytes % 2 ^ 64, tile outBytes (fun b => encode (src.skip (b * inBytes))) dst n)
  count _ _ _ := rfl

/-- The back end of a build without vector instructions. -/
def scalarBackend (M : Machine) : Backend where
  compressFP32ToINT8Impl := blockKernel 128 36 (encodeINT8 M)
  decompressINT8ToFP32Impl := blockKernel 36 128 (decodeINT8 M)
  compressFP32ToINT4Impl := blockKernel 128 20 (encodeINT4 M)
  decompressINT4ToFP32Impl := blockKernel 20 128 (decodeINT4 M)
  compressFP32ToBF16Impl := ⟨compressFP32ToBF16Scalar, fun _ _ _ => rfl⟩
  decompressBF16ToFP32Impl := ⟨decompressBF16ToFP32Scalar, fun _ _ _ => rfl⟩

/-- `memcpy` of `n` bytes. -/
def copyBytes (src dst : Bytes) (n : ℕ) : ℕ × Bytes := (n, fun a => if a < n then src a else dst a)

/-- The blocks of 32 elements that hold a count of elements, in 64-bit arithmetic. -/
def blockCount (elements : ℕ) : ℕ := (elements + 32 - 1) % 2 ^ 64 / 32

def compressedSize : QuantFormat → ℕ → ℕ
  | .kFP32, n => n * 4 % 2 ^ 64
  | .kBF16, n | .kFP16, n => n * 2 % 2 ^ 64
  | .kFP8_E4M3, n | .kFP8_E5M2, n => n * 1 % 2 ^ 64
  | .kINT8, n => blockCount n * 36 % 2 ^ 64
  | .kINT4, n => blockCount n * 20 % 2 ^ 64
  | .kReserved, _ => 0

variable (B : Backend)

def compress : QuantFormat → Call → ℕ × Bytes
  | .kFP32, c => c.checked 1 1 (copyBytes c.src c.dst)
  | .kBF16, c => c.checked 4 2 (B.compressFP32ToBF16Impl.run c.src c.dst)
  | .kFP16, c => compressFP32ToFP16 c
  | .kFP8_E4M3, c => c.checked 4 1 (compressFP32ToFP8E4M3Scalar c.src c.dst)
  | .kFP8_E5M2, c => c.checked 4 1 (compressFP32ToFP8E5M2Scalar c.src c.dst)
  | .kINT8, c => c.checked 128 36 (B.compressFP32ToINT8Impl.run c.src c.dst)
  | .kINT4, c => c.checked 128 20 (B.compressFP32ToINT4Impl.run c.src c.dst)
  | .kReserved, c => (0, c.dst)

def decompress : QuantFormat → Call → ℕ × Bytes
  | .kFP32, c => c.checked 1 1 (copyBytes c.src c.dst)
  | .kBF16, c => c.checked 2 4 (B.decompressBF16ToFP32Impl.run c.src c.dst)
  | .kFP16, c => c.checked 2 4 (decompressFP16ToFP32Scalar c.src c.dst)
  | .kFP8_E4M3, c => c.checked 1 4 (decompressFP8E4M3ToFP32Scalar c.src c.dst)
  | .kFP8_E5M2, c => c.checked 1 4 (decompressFP8E5M2ToFP32Scalar c.src c.dst)
  | .kINT8, c => c.checked 36 128 (B.decompressINT8ToFP32Impl.run c.src c.dst)
  | .kINT4, c => c.checked 20 128 (B.decompressINT4ToFP32Impl.run c.src c.dst)
  | .kReserved, c => (0, c.dst)

/-- In the scalar build the calls are the stream functions of the block formats. -/
theorem compress_scalar_INT8 (M : Machine) (c : Call) :
    compress (scalarBackend M) .kINT8 c = compressFP32ToINT8 M c := rfl

theorem compress_scalar_INT4 (M : Machine) (c : Call) :
    compress (scalarBackend M) .kINT4 c = compressFP32ToINT4 M c := rfl

theorem decompress_scalar_INT8 (M : Machine) (c : Call) :
    decompress (scalarBackend M) .kINT8 c = decompressINT8ToFP32 M c := rfl

theorem decompress_scalar_INT4 (M : Machine) (c : Call) :
    decompress (scalarBackend M) .kINT4 c = decompressINT4ToFP32 M c := rfl

structure ColdCodecPolicy where
  compressedBound : ℕ → ℕ
  compress : Call → ℕ × Bytes
  decompress : Call → ℕ × Bytes

def formatColdCodec (fmt : QuantFormat) : ColdCodecPolicy where
  compressedBound := compressedSize fmt
  compress := compress B fmt
  decompress := decompress B fmt

/-- The two spans have no byte in common. -/
def Call.Disjoint (c : Call) : Prop := c.srcData + c.srcSize ≤ c.dstData ∨ c.dstData + c.dstSize ≤ c.srcData

/-- What a bridge relies on when it sizes its cold slots for `n` elements. -/
structure ColdCodecPolicy.SizeContract (P : ColdCodecPolicy) (n : ℕ) : Prop where
  /-- A bound of zero and a compressor that rejects every input come together. -/
  unsupported : P.compressedBound n = 0 ↔ ∀ c : Call, c.srcSize = 4 * n → (P.compress c).1 = 0
  compressed : P.compressedBound n ≠ 0 → ∀ c : Call, c.srcSize = 4 * n → P.compressedBound n ≤ c.dstSize →
    Call.Disjoint c → (P.compress c).1 = P.compressedBound n
  /-- The bytes that were written decompress to as many floats. -/
  restored : P.compressedBound n ≠ 0 → ∀ c d : Call, c.srcSize = 4 * n → P.compressedBound n ≤ c.dstSize →
    Call.Disjoint c → d.srcSize = P.compressedBound n → (∀ k < P.compressedBound n, d.src k = (P.compress c).2 k) →
    d.dstSize = 4 * n → Call.Disjoint d → (P.decompress d).1 = 4 * n

/-- The elements that a format handles together, and the bytes they compress to. -/
def unit : QuantFormat → ℕ
  | .kINT8 | .kINT4 => 32
  | _ => 1

def unitBytes : QuantFormat → ℕ
  | .kFP32 => 4
  | .kBF16 | .kFP16 => 2
  | .kFP8_E4M3 | .kFP8_E5M2 => 1
  | .kINT8 => 36
  | .kINT4 => 20
  | .kReserved => 0

section Counts

variable {c : Call} {inBytes outBytes n : ℕ} {body : ℕ → ℕ × Bytes}

theorem checked_count (hbody : (body n).1 = n * outBytes % 2 ^ 64) (hpos : 0 < inBytes)
    (hsrc : c.srcSize = n * inBytes) (hsized : n * outBytes < 2 ^ 64) (hdst : n * outBytes ≤ c.dstSize)
    (hne : n * outBytes ≠ 0) (hdisjoint : Call.Disjoint c) :
    (c.checked inBytes outBytes body).1 = n * outBytes := by
  have hfits : c.Fits inBytes outBytes n := by
    refine ⟨hsrc, hdst, hsized, ?_⟩
    rw [spansOverlap]
    rcases hdisjoint with h | h <;> split_ifs with hle <;> rw [decide_eq_false_iff_not] <;> omega
  rw [Call.checked_of_fits hfits hpos, hbody, Nat.mod_eq_of_lt hsized]

theorem checked_partial (hmod : c.srcSize % inBytes ≠ 0) : (c.checked inBytes outBytes body).1 = 0 := by
  rw [Call.checked, if_pos hmod]

end Counts

variable {B} {fmt : QuantFormat} {c : Call} {n k : ℕ}

theorem unitBytes_pos (h : fmt ≠ .kReserved) : 0 < unitBytes fmt := by
  cases fmt <;> first | exact absurd rfl h | decide

/-- Whole units are accepted, and every unit takes its bytes. -/
theorem compress_count (hfmt : fmt ≠ .kReserved) (hk : 0 < k) (hn : n = k * unit fmt) (hlt : 4 * n < 2 ^ 63)
    (hsrc : c.srcSize = 4 * n) (hdst : k * unitBytes fmt ≤ c.dstSize) (hdisjoint : Call.Disjoint c) :
    (compress B fmt c).1 = k * unitBytes fmt := by
  have hne : k * unitBytes fmt ≠ 0 := Nat.mul_ne_zero (Nat.ne_of_gt hk) (Nat.ne_of_gt (unitBytes_pos hfmt))
  cases fmt <;> simp only [unit, unitBytes] at hn hdst hne ⊢
  case kFP32 =>
    have hcopy : (copyBytes c.src c.dst (4 * n)).1 = 4 * n * 1 % 2 ^ 64 := by rw [copyBytes]; omega
    have hcount : (compress B .kFP32 c).1 = 4 * n * 1 :=
      checked_count hcopy Nat.one_pos (by omega) (by omega) (by omega) (by omega) hdisjoint
    omega
  case kReserved => exact absurd rfl hfmt
  case kBF16 =>
    exact checked_count (B.compressFP32ToBF16Impl.count _ _ _) (by decide) (by omega) (by omega) hdst hne hdisjoint
  case kINT8 =>
    exact checked_count (B.compressFP32ToINT8Impl.count _ _ _) (by decide) (by omega) (by omega) hdst hne hdisjoint
  case kINT4 =>
    exact checked_count (B.compressFP32ToINT4Impl.count _ _ _) (by decide) (by omega) (by omega) hdst hne hdisjoint
  all_goals exact checked_count rfl (by decide) (by omega) (by omega) hdst hne hdisjoint

theorem decompress_count (hfmt : fmt ≠ .kReserved) (hk : 0 < k) (hn : n = k * unit fmt)
    (hlt : 4 * n < 2 ^ 63) (hsrc : c.srcSize = k * unitBytes fmt) (hdst : 4 * n ≤ c.dstSize)
    (hdisjoint : Call.Disjoint c) :
    (decompress B fmt c).1 = 4 * n := by
  cases fmt <;> simp only [unit, unitBytes] at hn hsrc ⊢
  case kFP32 =>
    have hcopy : (copyBytes c.src c.dst (4 * n)).1 = 4 * n * 1 % 2 ^ 64 := by rw [copyBytes]; omega
    have hcount : (decompress B .kFP32 c).1 = 4 * n * 1 :=
      checked_count hcopy Nat.one_pos (by omega) (by omega) (by omega) (by omega) hdisjoint
    omega
  case kReserved => exact absurd rfl hfmt
  case kBF16 =>
    have hcount : (decompress B .kBF16 c).1 = k * 4 :=
      checked_count (B.decompressBF16ToFP32Impl.count _ _ _) (by decide) (by omega) (by omega) (by omega) (by omega)
        hdisjoint
    omega
  case kINT8 =>
    have hcount : (decompress B .kINT8 c).1 = k * 128 :=
      checked_count (B.decompressINT8ToFP32Impl.count _ _ _) (by decide) (by omega) (by omega) (by omega) (by omega)
        hdisjoint
    omega
  case kINT4 =>
    have hcount : (decompress B .kINT4 c).1 = k * 128 :=
      checked_count (B.decompressINT4ToFP32Impl.count _ _ _) (by decide) (by omega) (by omega) (by omega) (by omega)
        hdisjoint
    omega
  all_goals
    refine (checked_count (n := k) rfl (by decide) (by omega) (by omega) (by omega) (by omega) hdisjoint).trans ?_
    omega

/-- A partial unit is rejected, whatever the destination. -/
theorem compress_partial (hremainder : n % unit fmt ≠ 0) (hsrc : c.srcSize = 4 * n) : (compress B fmt c).1 = 0 := by
  cases fmt <;> simp only [unit] at hremainder
  case kINT8 => exact checked_partial (by omega)
  case kINT4 => exact checked_partial (by omega)
  all_goals omega

/-- The size is the one of whole units, the last of which may be partial. -/
theorem compressedSize_eq (h : 4 * n < 2 ^ 63) :
    compressedSize fmt n = (n + unit fmt - 1) / unit fmt * unitBytes fmt := by
  cases fmt <;> simp only [compressedSize, blockCount, unit, unitBytes] <;> omega

/-- The contract holds unless an integer format is asked for a count with a partial block. -/
theorem formatColdCodec_sizeContract_iff (B : Backend) (fmt : QuantFormat) {n : ℕ} (hn : 0 < n)
    (h : 4 * n < 2 ^ 63) :
    (formatColdCodec B fmt).SizeContract n ↔ (fmt = .kINT8 ∨ fmt = .kINT4 → n % 32 = 0) := by
  have hbound : (formatColdCodec B fmt).compressedBound n = (n + unit fmt - 1) / unit fmt * unitBytes fmt :=
    compressedSize_eq h
  by_cases hfmt : fmt = .kReserved
  · subst hfmt
    refine iff_of_true ⟨iff_of_true hbound (fun c _ => rfl), ?_, ?_⟩ (by rintro (h | h) <;> cases h)
    · exact fun hne => absurd hbound hne
    · exact fun hne => absurd hbound hne
  have hpos := unitBytes_pos hfmt
  by_cases hremainder : n % unit fmt = 0
  · -- whole units
    obtain ⟨k, hk⟩ := Nat.dvd_of_mod_eq_zero hremainder
    have hunit : 0 < unit fmt := by cases fmt <;> decide
    have hkpos : 0 < k := Nat.pos_of_ne_zero (by rintro rfl; omega)
    have hcount : (n + unit fmt - 1) / unit fmt = k := by
      rw [hk, Nat.mul_comm, Nat.add_sub_assoc hunit, Nat.add_comm, Nat.add_mul_div_right _ _ hunit,
        Nat.div_eq_of_lt (Nat.sub_lt hunit Nat.one_pos), Nat.zero_add]
    rw [Nat.mul_comm] at hk
    rw [hcount] at hbound
    have hne : (formatColdCodec B fmt).compressedBound n ≠ 0 := by
      rw [hbound]
      exact Nat.mul_ne_zero (Nat.ne_of_gt hkpos) (Nat.ne_of_gt hpos)
    refine iff_of_true ⟨iff_of_false hne ?_, ?_, ?_⟩ ?_
    · intro hreject
      let c : Call := ⟨fun _ => 0, 4 * n, 0, fun _ => 0, k * unitBytes fmt, 4 * n⟩
      have haccept : (compress B fmt c).1 = k * unitBytes fmt :=
        compress_count hfmt hkpos hk h rfl le_rfl (.inl (Nat.zero_add _).le)
      exact hne (hbound.trans (haccept.symm.trans (hreject c rfl)))
    · rw [hbound]
      exact fun _ c hsrc hdst hdisjoint => compress_count hfmt hkpos hk h hsrc hdst hdisjoint
    · rw [hbound]
      intro _ c d _ _ _ hsrc _ hdst hdisjoint
      exact decompress_count hfmt hkpos hk h hsrc hdst.ge hdisjoint
    · rintro (rfl | rfl) <;> exact hremainder
  · -- the bound counts the partial unit, and the compressor rejects it
    have hinteger : fmt = .kINT8 ∨ fmt = .kINT4 := by
      cases fmt <;> simp only [unit, Nat.mod_one, not_true_eq_false] at hremainder <;> simp
    have hunit : unit fmt = 32 := by rcases hinteger with rfl | rfl <;> rfl
    refine iff_of_false (fun hcontract => ?_) (fun hwhole => hremainder (by rw [hunit]; exact hwhole hinteger))
    have hzero := hcontract.unsupported.mpr (fun c hsrc => compress_partial hremainder hsrc)
    rw [hbound, hunit] at hzero
    have hblocks : 0 < (n + 32 - 1) / 32 := Nat.div_pos (by omega) (by decide)
    exact absurd hzero (Nat.ne_of_gt (Nat.mul_pos hblocks hpos))

theorem formatColdCodec_sizeContract_block :
    (formatColdCodec (scalarBackend plainMachine) .kINT8).SizeContract 32 :=
  (formatColdCodec_sizeContract_iff _ _ (by decide) (by decide)).mpr (fun _ => rfl)

/-- For 33 elements INT8 promises 72 bytes and compresses nothing. -/
theorem formatColdCodec_sizeContract_partial :
    4 * 33 < 2 ^ 63 ∧ ¬ (formatColdCodec (scalarBackend plainMachine) .kINT8).SizeContract 33 := by
  refine ⟨by decide, fun hcontract => ?_⟩
  have hzero := hcontract.unsupported.mpr (fun c hsrc => checked_partial (by rw [hsrc]; decide))
  exact absurd hzero (by decide)

end Qtx.ColdCodecs
