import Qtx.Bf16Rounding
import Qtx.ElementStreams
import Qtx.VectorLanes

/-!
# The bfloat16 vector kernel

The kernel encodes sixteen words at a time and leaves the rest to the scalar loop. A lane
agrees with the scalar conversion on every word except a NaN with the sign bit set, which
the kernel replaces by the quiet NaN without a sign.
-/
namespace Qtx.Bf16Kernel

open Qtx.ByteStreams Qtx.ElementStreams Qtx.FloatWords Qtx.FpeGuard Qtx.VectorLanes

def compressBF16Chunk16AVX512 (src : Bytes) : Bytes :=
  let bits := loadWords 16 src
  let absMask := set1 0x7FFFFFFF#32
  let infBits := set1 0x7F800000#32
  let absBits := and bits absMask
  let isNaN := cmpgt absBits infBits
  let one := set1 1#32
  let s := and (srli bits 16) one
  let bias := add s (set1 0x7FFF#32)
  let rounded := add bits bias
  let roundedExp := and rounded infBits
  let roundedIsInf := cmpeq roundedExp infBits
  let inputWasNonfinite := cmpeq absBits infBits
  let inputWasInfOrNaN := kor inputWasNonfinite isNaN
  let overflowed := kandn inputWasInfOrNaN roundedIsInf
  let signBit := and bits (set1 0x80000000#32)
  let largestFiniteTop := or signBit (set1 0x7F7F0000#32)
  let rounded := maskBlend overflowed rounded largestFiniteTop
  let qnanTop := set1 0x7FC00000#32
  let rounded := maskBlend isNaN rounded qnanTop
  let top16 := cvtLow 16 (srli rounded 16)
  storeHalves top16

def compressFP32ToBF16Impl (src dst : Bytes) (n : ℕ) : ℕ × Bytes :=
  let chunks := n / 16
  let i := chunks * 16
  let written := tile 32 (fun c => compressBF16Chunk16AVX512 (src.skip (c * 64))) dst chunks
  (n * 2 % 2 ^ 64, if i < n then
      writeAt (i * 2) (fun rest => (compressFP32ToBF16Scalar (src.skip (i * 4)) rest (n - i)).2) written
    else written)

/-- What one lane makes of its word. -/
def lane (bits : BitVec 32) : BitVec 16 :=
  let absBits := bits &&& 0x7FFFFFFF#32
  let isNaN := (0x7F800000#32).slt absBits
  let rounded := bits + (((bits >>> 16) &&& 1#32) + 0x7FFF#32)
  let overflowed := !(absBits == 0x7F800000#32 || isNaN) && rounded &&& 0x7F800000#32 == 0x7F800000#32
  let rounded := if overflowed then (bits &&& 0x80000000#32) ||| 0x7F7F0000#32 else rounded
  let rounded := if isNaN then 0x7FC00000#32 else rounded
  (rounded >>> 16).setWidth 16

theorem compressBF16Chunk16AVX512_apply (src : Bytes) (l : Fin 16) {k : ℕ} (hk : k < 2) :
    compressBF16Chunk16AVX512 src (2 * l + k) = bytesOf (lane (wordAt src l)) k :=
  storeHalves_apply _ l hk

/-- The comparison of the kernel finds the NaNs. -/
theorem slt_iff (v : BitVec 32) : (0x7F800000#32).slt (v &&& 0x7FFFFFFF#32) = true ↔ IsNaN v := by
  have hlt : magnitude v < 2 ^ 31 := magnitude_lt v
  have habs := magnitude_eq v
  have hint : (v &&& 0x7FFFFFFF#32).toInt = magnitude v := by
    rw [BitVec.toInt_eq_toNat_of_lt (by omega), habs]
  have hinf : (0x7F800000#32).toInt = (infinity : ℤ) := by decide
  rw [BitVec.slt_iff_toInt_lt, hint, hinf, IsNaN, Nat.cast_lt]

theorem absBits_eq_iff (v : BitVec 32) : v &&& 0x7FFFFFFF#32 = 0x7F800000#32 ↔ magnitude v = infinity := by
  rw [← BitVec.toNat_inj, magnitude_eq]
  rfl

theorem lane_finite {v : BitVec 32} (h : magnitude v < infinity) : lane v = fp32ToBF16Safe v := by
  have hnan : (0x7F800000#32).slt (v &&& 0x7FFFFFFF#32) = false :=
    Bool.eq_false_iff.mpr (fun hc => absurd ((slt_iff v).mp hc) (Nat.not_lt.mpr h.le))
  have habs : ¬ v &&& 0x7FFFFFFF#32 = 0x7F800000#32 := fun hc => absurd ((absBits_eq_iff v).mp hc) (Nat.ne_of_lt h)
  have hexp : ¬ v &&& 0x7F800000#32 = 0x7F800000#32 :=
    fun hc => absurd ((fullExponent_iff v).mp hc) (Nat.not_le.mpr h)
  have hbias : v + (((v >>> 16) &&& 1#32) + 0x7FFF#32) = v + (0x7FFF#32 + ((v >>> 16) &&& 1#32)) := by
    rw [BitVec.add_comm 0x7FFF#32]
  -- the sign word over the saturated magnitude, shifted down
  have hlargest : (((v &&& 0x80000000#32) ||| 0x7F7F0000#32) >>> 16).setWidth 16 =
      ((v >>> 16) &&& 0x8000#32).setWidth 16 ||| 0x7F7F#16 := by
    have hsign : (0x80000000#32 : BitVec 32) >>> 16 = 0x8000#32 := by decide
    have htop : (0x7F7F0000#32 : BitVec 32) >>> 16 = 0x7F7F#32 := by decide
    rw [BitVec.ushiftRight_or_distrib, BitVec.ushiftRight_and_distrib, hsign, htop, BitVec.setWidth_or]
    rfl
  simp only [lane, fp32ToBF16Safe, hnan, hexp, hbias, beq_iff_eq, Bool.false_eq_true, if_false, Bool.or_false,
    Bool.and_eq_true, false_and, beq_eq_false_iff_ne.mpr habs, Bool.not_false, true_and]
  split_ifs
  · exact hlargest
  · rfl

/-- A lane is the scalar conversion unless its word is a NaN with the sign bit set. -/
theorem lane_eq_iff (v : BitVec 32) : lane v = fp32ToBF16Safe v ↔ ¬ (IsNaN v ∧ v.msb = true) := by
  rcases Nat.lt_trichotomy (magnitude v) infinity with hlt | heq | hgt
  · exact iff_of_true (lane_finite hlt) (fun h => absurd h.1 (Nat.not_lt.mpr hlt.le))
  · refine iff_of_true ?_ (fun h => absurd h.1 (Nat.not_lt.mpr heq.le))
    rcases infinite_cases heq with rfl | rfl <;> decide
  · have hnan : IsNaN v := hgt
    have hlane : lane v = 0x7FC0#16 := by
      simp only [lane, (slt_iff v).mpr hnan, if_true]
      decide
    rw [hlane, fp32ToBF16Safe_nan hnan, signBit_eq]
    cases v.msb
    · exact iff_of_true (by decide) (fun h => absurd h.2 Bool.false_ne_true)
    · exact iff_of_false (by decide) (fun h => h ⟨hnan, rfl⟩)

section Streams

variable {src dst : Bytes} {n i k : ℕ}

theorem scalar_byte (hi : i < n) (hk : k < 2) :
    (compressFP32ToBF16Scalar src dst n).2 (2 * i + k) = bytesOf (fp32ToBF16Safe (wordAt src i)) k :=
  encodeHalves_byte hi hk

theorem scalar_above {a : ℕ} (ha : 2 * n ≤ a) : (compressFP32ToBF16Scalar src dst n).2 a = dst a :=
  tile_of_le _ dst (by rwa [Nat.mul_comm])

theorem wordAt_skip (p : Bytes) (b i : ℕ) : wordAt (p.skip (4 * b)) i = wordAt p (b + i) := by
  apply loadU32_congr
  intro k _
  rw [skip_apply, skip_apply, skip_apply, Nat.mul_add, Nat.add_assoc]

/-- In front of the tail the kernel writes its lanes. -/
theorem impl_byte_vector (hi : i < n / 16 * 16) (hk : k < 2) :
    (compressFP32ToBF16Impl src dst n).2 (2 * i + k) = bytesOf (lane (wordAt src i)) k := by
  have hchunk : tile 32 (fun c => compressBF16Chunk16AVX512 (src.skip (c * 64))) dst (n / 16) (2 * i + k) =
      bytesOf (lane (wordAt src i)) k := by
    have hsplit : 2 * i + k = i / 16 * 32 + (2 * (i % 16) + k) := by omega
    have hskip : i / 16 * 64 = 4 * (i / 16 * 16) := by omega
    have hword : i / 16 * 16 + i % 16 = i := by omega
    have hlane := compressBF16Chunk16AVX512_apply (src.skip (i / 16 * 64)) ⟨i % 16, by omega⟩ hk
    rw [hsplit, tile_apply _ dst (by omega) (by omega), hlane, hskip, wordAt_skip, hword]
  rw [compressFP32ToBF16Impl]
  simp only
  split_ifs
  · rw [writeAt, if_pos (by omega), hchunk]
  · exact hchunk

/-- Behind the last whole chunk the kernel is the scalar loop. -/
theorem impl_byte_tail (hi : n / 16 * 16 ≤ i) (hn : i < n) (hk : k < 2) :
    (compressFP32ToBF16Impl src dst n).2 (2 * i + k) = bytesOf (fp32ToBF16Safe (wordAt src i)) k := by
  have hlt : n / 16 * 16 < n := by omega
  have hoffset : 2 * i + k - n / 16 * 16 * 2 = 2 * (i - n / 16 * 16) + k := by omega
  have hword : n / 16 * 16 + (i - n / 16 * 16) = i := by omega
  rw [compressFP32ToBF16Impl]
  simp only
  rw [if_pos hlt, writeAt, if_neg (by omega), hoffset, scalar_byte (by omega) hk, Nat.mul_comm _ 4,
    wordAt_skip, hword]

theorem impl_above {a : ℕ} (ha : 2 * n ≤ a) : (compressFP32ToBF16Impl src dst n).2 a = dst a := by
  have hsum : n / 16 * 16 * 2 + (a - n / 16 * 16 * 2) = a := by omega
  rw [compressFP32ToBF16Impl]
  simp only
  split_ifs
  · rw [writeAt, if_neg (by omega), scalar_above (by omega), skip_apply, hsum, tile_of_le _ dst (by omega)]
  · exact tile_of_le _ dst (by omega)

/-- The kernel and the scalar loop write the same bytes if and only if no whole chunk holds a NaN
with the sign bit set. -/
theorem compressFP32ToBF16Impl_eq_iff (src dst : Bytes) (n : ℕ) :
    compressFP32ToBF16Impl src dst n = compressFP32ToBF16Scalar src dst n ↔
      ∀ i < n / 16 * 16, ¬ (IsNaN (wordAt src i) ∧ (wordAt src i).msb = true) := by
  constructor
  · intro heq i hi
    rw [← lane_eq_iff]
    have hbyte : ∀ k < 2, bytesOf (lane (wordAt src i)) k = bytesOf (fp32ToBF16Safe (wordAt src i)) k := by
      intro k hk
      have hvector : (compressFP32ToBF16Impl src dst n).2 (2 * i + k) = _ := impl_byte_vector hi hk
      rw [← hvector, heq, scalar_byte (by omega) hk]
    rw [← loadU16_bytesOf (lane _), loadU16_congr hbyte, loadU16_bytesOf]
  · intro hnan
    refine Prod.ext rfl (funext fun a => ?_)
    rcases Nat.lt_or_ge a (2 * n) with hlt | hge
    · have hsplit : a = 2 * (a / 2) + a % 2 := by omega
      have hk : a % 2 < 2 := Nat.mod_lt _ (by decide)
      rw [hsplit, scalar_byte (by omega) hk]
      rcases Nat.lt_or_ge (a / 2) (n / 16 * 16) with hi | hi
      · rw [impl_byte_vector hi hk, (lane_eq_iff _).mpr (hnan _ hi)]
      · exact impl_byte_tail hi (by omega) hk
    · rw [impl_above hge, scalar_above hge]

/-- Sixteen words of the quiet NaN with the sign bit set. -/
theorem compressFP32ToBF16Impl_ne :
    compressFP32ToBF16Impl (wordBytes fun _ => 0xFFC00000#32) (fun _ => 0) 16 ≠
      compressFP32ToBF16Scalar (wordBytes fun _ => 0xFFC00000#32) (fun _ => 0) 16 := by
  intro heq
  have himpl : (compressFP32ToBF16Impl (wordBytes fun _ => 0xFFC00000#32) (fun _ => 0) 16).2 1 = 0x7F#8 := by decide
  have hscalar : (compressFP32ToBF16Scalar (wordBytes fun _ => 0xFFC00000#32) (fun _ => 0) 16).2 1 = 0xFF#8 := by
    decide
  rw [heq, hscalar] at himpl
  exact absurd himpl (by decide)

end Streams

end Qtx.Bf16Kernel
