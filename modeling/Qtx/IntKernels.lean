import Qtx.ScaledEncoders
import Qtx.VectorLanes
import Mathlib.Data.Fin.VecNotation
import Mathlib.Tactic.FinCases

/-!
# The integer stages of the vector kernels

A vector kernel converts the quotients of a block to 32-bit integers, and from there on works
with integers alone: it narrows them to bytes or packs them to nibbles, and unpacks nibbles
again. The stages agree with the scalar loops on all integers.
-/
namespace Qtx.IntKernels

open Qtx.ByteStreams Qtx.FloatMachine Qtx.FpeGuard Qtx.PackedDigits Qtx.QuantizerHelpers Qtx.ScaledBlocks
  Qtx.ScaledEncoders Qtx.VectorLanes

/-- The registers of a block of integers. -/
def lanes (n first : ℕ) (q : ℕ → BitVec 32) : Vec n 32 := fun l => q (first + l)

/-! The kernels from the conversion to integers on: the registers become the payload of the block. -/

/-- The clamp of the bytes to `[-127, 127]`. -/
def capBytes {n : ℕ} (p : Vec n 8) : Vec n 8 :=
  let capHi := set1 127#8
  let capLo := set1 (-127#8)
  maxS (minS p capHi) capLo

def compressOneBlockINT8AVX2 (i0 i1 i2 i3 : Vec 8 32) : Bytes :=
  let p := packsEpi16 (packsEpi32 i0 i1) (packsEpi32 i2 i3)
  let p := permutevar8x32 p ![0, 4, 1, 5, 2, 6, 3, 7]
  storeBytes (capBytes p)

def compressOneBlockINT8AVX512 (i0 i1 : Vec 16 32) : Bytes :=
  let p0 := cvtSaturated 8 i0
  let p1 := cvtSaturated 8 i1
  join [(16, storeBytes (capBytes p0)), (16, storeBytes (capBytes p1))]

/-- The low bytes of the half words. -/
def pick : Vec 16 8 := ![0, 2, 4, 6, 8, 10, 12, 14, -1, -1, -1, -1, -1, -1, -1, -1]

/-- One half of a block of nibbles: the low eight bytes hold the sixteen levels of a register. -/
def packPairs (i : Vec 16 32) : Vec 16 8 :=
  let capHi := set1 7#32
  let capLo := set1 (-7#32)
  let i := maxS (minS i capHi) capLo
  let e := and (cvtLow 8 i) (set1 0x0F#8)
  let mul := bytesOfHalves (n := 8) (set1 0x1001#16)
  let pp := maddubs (n := 8) e mul
  shuffleEpi8 (bytesOfHalves pp) pick

def compressOneBlockINT4AVX512 (i0 i1 : Vec 16 32) : Bytes :=
  let packedLo8 := packPairs i0
  let packedHi8 := packPairs i1
  storeBytes (unpackloEpi64 packedLo8 packedHi8)

/-- The levels before they are scaled, in two registers. -/
def decompressOneBlockINT4AVX512 (packed : Bytes) : Vec 16 32 × Vec 16 32 :=
  let packed := loadBytes 16 packed
  let loMask := set1 0x0F#8
  let loN := and packed loMask
  let hiN := and (bytesOfHalves (srli (halves (n := 8) packed) 4)) loMask
  let bias := set1 0x08#8
  let loS := sub (xor loN bias) bias
  let hiS := sub (xor hiN bias) bias
  (cvtSigned 32 (unpackloEpi8 loS hiS), cvtSigned 32 (unpackhiEpi8 loS hiS))

/-! The same stages of the scalar loops. -/

/-- The clamp and the store of the scalar loops. -/
def storeClamped (levels : ℤ) (r : ℕ → ℤ) : Bytes := fun i => BitVec.ofInt 8 (clampInt (-levels) levels (r i))

def packClamped (r : ℕ → ℤ) : Bytes := packNibbles (storeClamped 7 r)

def signedNibble (packed : Bytes) (i : ℕ) : ℤ := ((nibbleAt packed i ^^^ 0x08#8) - 0x08#8).toInt

section Scalar

variable (M : Machine)

/-- The word that the scalar loops round. -/
def quotient (invScale v : BitVec 32) : BitVec 32 :=
  sanitiseFinite (M.mul (sanitiseFinite v) invScale)

theorem encodeINT8_eq (block : Bytes) : encodeINT8 M block = join [(4, bytesOf (intScale M 127 block)),
    (32, storeClamped 127 (fun i =>
      lroundHalfAwayFast M (quotient M (positiveReciprocal M (intScale M 127 block)) (wordAt block i))))] :=
  rfl

theorem encodeINT4_eq (block : Bytes) : encodeINT4 M block = join [(4, bytesOf (intScale M 7 block)),
    (16, packClamped (fun i =>
      lroundHalfAwayFast M (quotient M (positiveReciprocal M (intScale M 7 block)) (wordAt block i))))] :=
  rfl

theorem decodeINT4_eq (block : Bytes) : decodeINT4 M block =
    wordBytes (fun i => M.mul (M.ofInt (signedNibble (block.skip 4) i)) (finiteScale (loadU32 block))) :=
  rfl

end Scalar

section Narrowing

variable {n : ℕ} {q : ℕ → BitVec 32}

/-- A byte with the right integer value is the byte of the scalar store. -/
theorem eq_storeClamped {x : BitVec 8} {levels : ℤ} (hlevels : 0 ≤ levels) (hle : levels ≤ 127) {r : ℕ → ℤ} {i : ℕ}
    (h : x.toInt = max (-levels) (min levels (r i))) : x = storeClamped levels r i := by
  rw [storeClamped, ← BitVec.ofInt_toInt (x := x), h, clampInt]
  congr 1
  split_ifs
  all_goals omega

theorem toInt_capBytes (p : Vec n 8) (l : Fin n) : (capBytes p l).toInt = max (-127) (min 127 (p l).toInt) := by
  have hhi : (set1 127#8 : Vec n 8) l = 127#8 := rfl
  have hlo : (set1 (-127#8) : Vec n 8) l = -127#8 := rfl
  rw [capBytes, toInt_maxS, toInt_minS, hhi, hlo]
  have h1 : (127#8).toInt = 127 := by decide
  have h2 : (-127#8).toInt = -127 := by decide
  omega

/-- Saturating once or twice and the clamp of the bytes are one clamp. -/
theorem capBytes_saturated {p : Vec n 8} {l : Fin n} {i : ℕ}
    (h : p l = saturate 8 (q i) ∨ p l = saturate 8 (saturate 16 (q i))) :
    capBytes p l = storeClamped 127 (fun i => (q i).toInt) i := by
  apply eq_storeClamped (by decide) le_rfl
  rw [toInt_capBytes]
  rcases h with h | h
  · rw [h, saturate, toInt_saturateInt (by decide)]
    omega
  · rw [h, saturate, toInt_saturateInt (by decide), saturate, toInt_saturateInt (by decide)]
    omega

/-- The permutation undoes the interleaving of the two packs. -/
theorem permute_packs (q : ℕ → BitVec 32) (k : Fin 32) :
    permutevar8x32 (packsEpi16 (packsEpi32 (lanes 8 0 q) (lanes 8 8 q)) (packsEpi32 (lanes 8 16 q) (lanes 8 24 q)))
      ![0, 4, 1, 5, 2, 6, 3, 7] k = saturate 8 (saturate 16 (q k)) := by
  fin_cases k
  all_goals rfl

theorem compressOneBlockINT8AVX2_eq (q : ℕ → BitVec 32) {i : ℕ} (hi : i < 32) :
    compressOneBlockINT8AVX2 (lanes 8 0 q) (lanes 8 8 q) (lanes 8 16 q) (lanes 8 24 q) i =
      storeClamped 127 (fun i => (q i).toInt) i := by
  have hstore := storeBytes_apply (capBytes (permutevar8x32 (packsEpi16 (packsEpi32 (lanes 8 0 q) (lanes 8 8 q))
    (packsEpi32 (lanes 8 16 q) (lanes 8 24 q))) ![0, 4, 1, 5, 2, 6, 3, 7])) ⟨i, hi⟩
  exact hstore.trans (capBytes_saturated (.inr (permute_packs q ⟨i, hi⟩)))

theorem compressOneBlockINT8AVX512_eq (q : ℕ → BitVec 32) {i : ℕ} (hi : i < 32) :
    compressOneBlockINT8AVX512 (lanes 16 0 q) (lanes 16 16 q) i = storeClamped 127 (fun i => (q i).toInt) i := by
  rw [compressOneBlockINT8AVX512]
  rcases Nat.lt_or_ge i 16 with hlow | hhigh
  · have hlane : cvtSaturated 8 (lanes 16 0 q) ⟨i, hlow⟩ = saturate 8 (q i) := by
      rw [cvtSaturated, lanes, Nat.zero_add]
    rw [join_apply _ _ hlow]
    exact (storeBytes_apply _ ⟨i, hlow⟩).trans (capBytes_saturated (.inl hlane))
  · obtain ⟨j, rfl⟩ := Nat.exists_eq_add_of_le hhigh
    have hlane : cvtSaturated 8 (lanes 16 16 q) ⟨j, by omega⟩ = saturate 8 (q (16 + j)) := rfl
    rw [join_add, join_apply _ _ (by omega)]
    exact (storeBytes_apply _ ⟨j, by omega⟩).trans (capBytes_saturated (.inl hlane))

end Narrowing

section Packing

variable {q : ℕ → BitVec 32} {x y : BitVec 8}

/-- The low byte of a level is the byte of the scalar store. -/
theorem cvtLow_clamped (i : Vec 16 32) (l : Fin 16) :
    cvtLow 8 (maxS (minS i (set1 7#32)) (set1 (-7#32))) l = storeClamped 7 (fun _ => (i l).toInt) 0 := by
  have hhi : (set1 7#32 : Vec 16 32) l = 7#32 := rfl
  have hlo : (set1 (-7#32) : Vec 16 32) l = -7#32 := rfl
  have h1 : (7#32).toInt = 7 := by decide
  have h2 : (-7#32).toInt = -7 := by decide
  have hint : (maxS (minS i (set1 7#32)) (set1 (-7#32)) l).toInt = max (-7) (min 7 (i l).toInt) := by
    rw [toInt_maxS, toInt_minS, hhi, hlo]
    omega
  apply eq_storeClamped (by decide) (by decide)
  rw [← hint, cvtLow, BitVec.toInt_eq_toNat_cond, BitVec.toNat_setWidth]
  rw [BitVec.toInt_eq_toNat_cond] at hint ⊢
  split_ifs at hint ⊢
  all_goals omega

theorem mul_bytes (k : Fin 16) : bytesOfHalves (n := 8) (set1 0x1001#16) k = if (k : ℕ) % 2 = 0 then 1#8
    else 16#8 := by
  revert k
  decide

/-- Sixteen times the second nibble plus the first one is the byte of both. -/
theorem pair_byte (hx : x.toNat < 16) (hy : y.toNat < 16) :
    (saturateInt 16 (x.toNat * (1#8).toInt + y.toNat * (16#8).toInt)).setWidth 8 = x ||| (y <<< 4) := by
  have h1 : (1#8).toInt = 1 := by decide
  have h2 : (16#8).toInt = 16 := by decide
  have hvalue : saturateInt 16 (x.toNat * (1#8).toInt + y.toNat * (16#8).toInt) =
    BitVec.ofNat 16 (x.toNat + y.toNat * 2 ^ 4) := by
    rw [h1, h2, saturateInt, ← BitVec.ofInt_natCast]
    congr 1
    push_cast
    omega
  have hshift : y.toNat <<< 4 % 2 ^ 8 = y.toNat <<< 4 := Nat.mod_eq_of_lt (by omega)
  apply BitVec.eq_of_toNat_eq
  rw [hvalue, BitVec.toNat_setWidth, BitVec.toNat_ofNat, BitVec.toNat_or, BitVec.toNat_shiftLeft, hshift,
    or_shiftLeft (by omega)]
  omega

theorem shuffle_pick (v : Vec 16 8) (k : Fin 8) : shuffleEpi8 v pick ⟨k, by omega⟩ = v ⟨2 * k, by omega⟩ := by
  fin_cases k
  all_goals rfl

theorem mask_lt (x : BitVec 8) : (x &&& 0x0F#8).toNat < 16 := by
  rw [BitVec.toNat_and]
  exact Nat.lt_succ_of_le Nat.and_le_right

theorem packPairs_eq (q : ℕ → BitVec 32) (first : ℕ) {k : ℕ} (hk : k < 8) :
    packPairs (lanes 16 first q) ⟨k, by omega⟩ = packClamped (fun i => (q (first + i)).toInt) k := by
  have hlow : ∀ l : Fin 16, VectorLanes.and (cvtLow 8 (maxS (minS (lanes 16 first q) (set1 7#32)) (set1 (-7#32))))
    (set1 0x0F#8) l =
      storeClamped 7 (fun i => (q (first + i)).toInt) l &&& 0x0F#8 := by
    intro l
    rw [VectorLanes.and, cvtLow_clamped]
    rfl
  have heven : (2 * k) % 2 = 0 := by omega
  have hodd : (2 * k + 1) % 2 ≠ 0 := by omega
  have hhalf : 2 * k / 2 = k := by omega
  rw [packPairs, shuffle_pick _ ⟨k, hk⟩]
  simp only [bytesOfHalves, hhalf, heven, Nat.mul_zero, BitVec.ushiftRight_zero]
  have hone : bytesOfHalves (n := 8) (set1 0x1001#16) ⟨2 * k, by omega⟩ = 1#8 := (mul_bytes _).trans (if_pos heven)
  have hsixteen : bytesOfHalves (n := 8) (set1 0x1001#16) ⟨2 * k + 1, by omega⟩ = 16#8 :=
    (mul_bytes _).trans (if_neg hodd)
  rw [maddubs, hlow, hlow]
  simp only [hone, hsixteen]
  exact pair_byte (mask_lt _) (mask_lt _)

theorem compressOneBlockINT4AVX512_eq (q : ℕ → BitVec 32) {k : ℕ} (hk : k < 16) :
    compressOneBlockINT4AVX512 (lanes 16 0 q) (lanes 16 16 q) k = packClamped (fun i => (q i).toInt) k := by
  refine (storeBytes_apply _ ⟨k, hk⟩).trans ?_
  rw [unpackloEpi64]
  split_ifs with hlow
  · have hhalf := packPairs_eq q 0 hlow
    simp only [Nat.zero_add] at hhalf
    exact hhalf
  · obtain ⟨j, rfl⟩ := Nat.exists_eq_add_of_le (Nat.not_lt.mp hlow)
    have hhalf := packPairs_eq q 16 (k := j) (by omega)
    simp only [Nat.add_sub_cancel_left]
    rw [hhalf]
    simp only [packClamped, packNibbles, storeClamped, Nat.mul_add, Nat.add_assoc]

end Packing

section Unpacking

variable {packed : Bytes}

/-- A shift of a half word moves bits between its bytes, and the mask takes them away again. -/
theorem shift_half (a b : BitVec 8) : (((b ++ a) >>> 4 >>> 0).setWidth 8) &&& 0x0F#8 = (a >>> 4) &&& 0x0F#8 ∧
    (((b ++ a) >>> 4 >>> 8).setWidth 8) &&& 0x0F#8 = (b >>> 4) &&& 0x0F#8 := by
  have hmask : ∀ j < 8, (0x0F#8).getLsbD j = decide (j < 4) := by decide
  constructor
  · apply BitVec.eq_of_getLsbD_eq
    intro j hj
    simp only [BitVec.getLsbD_and, BitVec.getLsbD_setWidth, BitVec.getLsbD_ushiftRight,
      BitVec.getLsbD_append, hmask j hj]
    by_cases h : j < 4
    · have hlow : 4 + j < 8 := by omega
      simp [h, hj, hlow]
    · simp [h]
  · apply BitVec.eq_of_getLsbD_eq
    intro j hj
    have hhigh : ¬ 4 + (8 + j) < 8 := by omega
    have hbit : 4 + (8 + j) - 8 = 4 + j := by omega
    simp only [BitVec.getLsbD_and, BitVec.getLsbD_setWidth, BitVec.getLsbD_ushiftRight,
      BitVec.getLsbD_append, hmask j hj, hhigh, hbit, decide_true, hj, Bool.true_and, if_false]

theorem hiN_eq (p : Vec 16 8) (k : Fin 16) :
    bytesOfHalves (srli (halves (n := 8) p) 4) k &&& 0x0F#8 = (p k >>> 4) &&& 0x0F#8 := by
  obtain ⟨hlow, hhigh⟩ := shift_half (p ⟨2 * (k / 2), by omega⟩) (p ⟨2 * (k / 2) + 1, by omega⟩)
  rcases Nat.mod_two_eq_zero_or_one k with heven | hodd
  · have hk : (⟨2 * (k / 2), by omega⟩ : Fin 16) = k := Fin.ext (by simp only; omega)
    simp only [bytesOfHalves, srli, halves, heven, Nat.mul_zero]
    rwa [hk] at hlow ⊢
  · have hk : (⟨2 * (k / 2) + 1, by omega⟩ : Fin 16) = k := Fin.ext (by simp only; omega)
    simp only [bytesOfHalves, srli, halves, hodd, Nat.mul_one]
    rwa [hk] at hhigh ⊢

theorem lane_lt {i : Fin 32} (h : ¬ (i : ℕ) < 16) : (i : ℕ) - 16 < 16 := by omega

/-- The level of an element in the two registers. -/
def levelAt (r : Vec 16 32 × Vec 16 32) (i : Fin 32) : BitVec 32 :=
  if h : (i : ℕ) < 16 then r.1 ⟨i, h⟩ else r.2 ⟨i - 16, lane_lt h⟩

theorem levelAt_cvtSigned (a b : Vec 16 8) (i : Fin 32) : levelAt (cvtSigned 32 a, cvtSigned 32 b) i =
    (if h : (i : ℕ) < 16 then a ⟨i, h⟩ else b ⟨i - 16, lane_lt h⟩ : BitVec 8).signExtend 32 := by
  rw [levelAt]
  split_ifs
  · rfl
  · rfl

/-- The interleaved registers hold the elements in order. -/
theorem levelAt_decompress (packed : Bytes) (i : Fin 32) :
    (levelAt (decompressOneBlockINT4AVX512 packed) i).toInt = signedNibble packed i := by
  have hhi : ∀ k : Fin 16, VectorLanes.and (bytesOfHalves (srli (halves (n := 8) (loadBytes 16 packed)) 4))
    (set1 0x0F#8) k =
      (packed k >>> 4) &&& 0x0F#8 := fun k => hiN_eq (loadBytes 16 packed) k
  rw [decompressOneBlockINT4AVX512, levelAt_cvtSigned, unpack_apply, BitVec.toInt_signExtend_of_le (by decide),
    signedNibble, nibbleAt]
  congr 1
  split_ifs
  · rfl
  · rw [sub, VectorLanes.xor, hhi]
    rfl

/-- Four bits hold the clamped levels with their signs. -/
theorem signedNibble_packClamped {r : ℕ → ℤ} {i : ℕ} (hlow : -7 ≤ r i) (hhigh : r i ≤ 7) :
    signedNibble (packClamped r) i = r i := by
  have hall : ∀ k < 15, (((BitVec.ofInt 8 (clampInt (-7) 7 ((k : ℕ) - 7 : ℤ)) &&& 0x0F#8) ^^^ 0x08#8) -
    0x08#8).toInt =
      (k : ℤ) - 7 := by decide
  have hr : (((r i + 7).toNat : ℕ) : ℤ) - 7 = r i := by omega
  rw [signedNibble, packClamped, nibbleAt_packNibbles, storeClamped, ← hr]
  exact hall _ (by omega)

theorem signedNibble_congr {p p' : Bytes} {i : ℕ} (h : p (i / 2) = p' (i / 2)) :
    signedNibble p i = signedNibble p' i := by
  rw [signedNibble, signedNibble, nibbleAt, nibbleAt, h]

end Unpacking

/-- On all integers and all payload bytes: the vector stages give the bytes and the levels of the scalar
loops, in the same order, and unpacking inverts packing on the levels from -7 to 7. -/
theorem integer_stages_eq :
    (∀ (q : ℕ → BitVec 32), ∀ i < 32,
      compressOneBlockINT8AVX2 (lanes 8 0 q) (lanes 8 8 q) (lanes 8 16 q) (lanes 8 24 q) i =
        storeClamped 127 (fun i => (q i).toInt) i ∧
      compressOneBlockINT8AVX512 (lanes 16 0 q) (lanes 16 16 q) i = storeClamped 127 (fun i => (q i).toInt) i) ∧
    (∀ (q : ℕ → BitVec 32), ∀ k < 16,
      compressOneBlockINT4AVX512 (lanes 16 0 q) (lanes 16 16 q) k = packClamped (fun i => (q i).toInt) k) ∧
    (∀ (packed : Bytes) (i : Fin 32), (levelAt (decompressOneBlockINT4AVX512 packed) i).toInt =
      signedNibble packed i) ∧
    ∀ (q : ℕ → BitVec 32), ∀ i : Fin 32, -7 ≤ (q i).toInt → (q i).toInt ≤ 7 →
      levelAt (decompressOneBlockINT4AVX512 (compressOneBlockINT4AVX512 (lanes 16 0 q) (lanes 16 16 q)))
      i = q i := by
  refine ⟨fun q i hi => ⟨compressOneBlockINT8AVX2_eq q hi, compressOneBlockINT8AVX512_eq q hi⟩,
    fun q k hk => compressOneBlockINT4AVX512_eq q hk, levelAt_decompress, fun q i hlow hhigh => ?_⟩
  apply BitVec.eq_of_toInt_eq
  rw [levelAt_decompress, signedNibble_congr (compressOneBlockINT4AVX512_eq q (by omega))]
  exact signedNibble_packClamped hlow hhigh

/-- The least integer among small levels. -/
def sampleLevels (i : ℕ) : BitVec 32 := if i = 1 then 0x80000000#32 else BitVec.ofNat 32 (i / 2)

theorem integer_stages_sample :
    compressOneBlockINT8AVX2 (lanes 8 0 sampleLevels) (lanes 8 8 sampleLevels) (lanes 8 16 sampleLevels)
      (lanes 8 24 sampleLevels) 1 = 0x81#8 ∧
    levelAt (decompressOneBlockINT4AVX512 (compressOneBlockINT4AVX512 (lanes 16 0 sampleLevels)
      (lanes 16 16 sampleLevels))) 14 = 7#32 := by
  obtain ⟨hbytes, -, -, hround⟩ := integer_stages_eq
  exact ⟨(hbytes sampleLevels 1 (by decide)).1.trans (by decide), hround sampleLevels 14 (by decide) (by decide)⟩

end Qtx.IntKernels
