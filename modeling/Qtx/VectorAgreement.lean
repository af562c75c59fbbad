import Qtx.VectorFloatStages

/-!
# Vector builds and scalar builds

What a build with vector kernels stores and restores, against the scalar build. All builds
restore the same words from the same bytes. What they store differs in the levels of the
quotients that two ways of rounding take apart, and nowhere else.
-/
namespace Qtx.VectorAgreement

open Qtx.BinaryFormats Qtx.ByteStreams Qtx.ColdCodecs Qtx.ElementStreams Qtx.FloatErrors Qtx.FloatMachine
  Qtx.FloatScans Qtx.FloatWords Qtx.FpeGuard Qtx.GenID Qtx.IntBlockErrors Qtx.IntKernels Qtx.IntRoundTrips
  Qtx.LroundHalfAway Qtx.QuantizerHelpers Qtx.ScaledBlocks Qtx.ScaledEncoders Qtx.VectorBackends
  Qtx.VectorFloatStages Qtx.VectorLanes

section Decoders

variable (M : Machine) {src dst block : Bytes} {n k : ℕ}

/-- A loop over whole chunks of `m` pieces with a loop over the pieces that are left is one loop over the pieces. -/
theorem tile_chunks {m : ℕ} (size : ℕ) (dst : Bytes) (n : ℕ) (hm : 0 < m) (piece chunk : ℕ → Bytes)
    (rest : Bytes → Bytes) (hchunk : ∀ c < n / m, ∀ j < m, ∀ k < size, chunk c (j * size + k) = piece (c * m + j) k)
    (hrest : ∀ p, rest p = tile size (fun i => piece (n / m * m + i)) p (n - n / m * m)) :
    (if n / m * m < n then writeAt (n / m * m * size) rest (tile (m * size) chunk dst (n / m))
      else tile (m * size) chunk dst (n / m)) = tile size piece dst n := by
  have hle : n / m * m ≤ n := Nat.div_mul_le_self n m
  have hwhole : ∀ a < n / m * m * size, tile (m * size) chunk dst (n / m) a = tile size piece dst n a := by
    intro a ha
    have hsize : 0 < size := Nat.pos_of_ne_zero (by rintro rfl; omega)
    have hi : a / size < n / m * m := Nat.div_lt_of_lt_mul (by rwa [Nat.mul_comm])
    have hk : a % size < size := Nat.mod_lt a hsize
    have hj : a / size % m < m := Nat.mod_lt _ hm
    have hc : a / size / m < n / m := Nat.div_lt_of_lt_mul (by rwa [Nat.mul_comm])
    have hpiece : a = a / size * size + a % size := (Nat.div_add_mod' a size).symm
    have hindex : a / size = a / size / m * m + a / size % m := (Nat.div_add_mod' _ m).symm
    have hoffset : a = a / size / m * (m * size) + (a / size % m * size + a % size) := by
      rw [← Nat.add_assoc, ← Nat.mul_assoc, ← Nat.add_mul, ← hindex, ← hpiece]
    have hinner : a / size % m * size + a % size < m * size := by
      have hend := block_end size hj
      omega
    have hright : tile size piece dst n a = piece (a / size) (a % size) := by
      conv_lhs => rw [hpiece]
      exact tile_apply _ _ (Nat.lt_of_lt_of_le hi hle) hk
    have hleft : tile (m * size) chunk dst (n / m) a = chunk (a / size / m) (a / size % m * size + a % size) := by
      conv_lhs => rw [hoffset]
      exact tile_apply _ _ hc hinner
    rw [hleft, hright, hchunk _ hc _ hj _ hk, ← hindex]
  have hbehind : ∀ a, n / m * m * size ≤ a → tile (m * size) chunk dst (n / m) a = dst a := by
    intro a ha
    exact tile_of_le _ _ (by rwa [← Nat.mul_assoc])
  funext a
  split_ifs with hlt
  · rw [writeAt]
    split_ifs with ha
    · exact hwhole a ha
    · obtain ⟨d, rfl⟩ := Nat.exists_eq_add_of_le (Nat.not_lt.mp ha)
      rw [Nat.add_sub_cancel_left, hrest]
      have htotal : n * size = n / m * m * size + (n - n / m * m) * size := by
        rw [← Nat.add_mul, Nat.add_sub_cancel' hle]
      rcases Nat.lt_or_ge d ((n - n / m * m) * size) with hd | hd
      · have hsize : 0 < size := Nat.pos_of_ne_zero (by rintro rfl; omega)
        have hi : d / size < n - n / m * m := Nat.div_lt_of_lt_mul (by rwa [Nat.mul_comm])
        have hk : d % size < size := Nat.mod_lt d hsize
        have hd' : d = d / size * size + d % size := (Nat.div_add_mod' d size).symm
        have hsum : n / m * m * size + d = (n / m * m + d / size) * size + d % size := by
          rw [Nat.add_mul, Nat.add_assoc, ← hd']
        rw [hsum, tile_apply piece dst (by omega) hk]
        conv_lhs => rw [hd']
        exact tile_apply _ _ hi hk
      · rw [tile_of_le _ _ hd, skip_apply, hbehind _ (Nat.le_add_right _ _), tile_of_le _ _ (by omega)]
  · have hn : n / m * m = n := by omega
    rcases Nat.lt_or_ge a (n / m * m * size) with ha | ha
    · exact hwhole a ha
    · rw [hbehind a ha, tile_of_le _ _ (by rwa [hn] at ha)]

theorem storeWords_apply {m : ℕ} (a : Vec m 32) (hk : k / 4 < m) :
    storeWords a k = bytesOf (a ⟨k / 4, hk⟩) (k % 4) :=
  dif_pos hk

/-- Two registers of words, one behind the other. -/
theorem join_storeWords {a b : Vec 16 32} {v : ℕ → BitVec 32} (ha : ∀ l : Fin 16, a l = v l)
    (hb : ∀ l : Fin 16, b l = v (16 + l)) (hk : k < 128) :
    join [(64, storeWords a), (64, storeWords b)] k = wordBytes v k := by
  rcases Nat.lt_or_ge k 64 with hlow | hhigh
  · rw [join_apply _ _ hlow, storeWords_apply _ (by omega), ha]
    rfl
  · obtain ⟨j, rfl⟩ := Nat.exists_eq_add_of_le hhigh
    have hdiv : (64 + j) / 4 = 16 + j / 4 := by omega
    have hmod : (64 + j) % 4 = j % 4 := by omega
    rw [join_add, join_apply _ _ (by omega), storeWords_apply _ (by omega), hb, wordBytes, hdiv, hmod]

theorem decompressOneBlockINT8AVX512_eq (block : Bytes) (hk : k < 128) :
    decompressOneBlockINT8AVX512 M block k = decodeINT8 M block k := by
  rw [decompressOneBlockINT8AVX512, decodeINT8]
  refine join_storeWords (fun l => ?_) (fun l => ?_) hk
  · rw [scaled, cvtSigned, BitVec.toInt_signExtend_of_le (by decide)]
    rfl
  · have hbyte : loadBytes 16 (block.skip 20) l = block.skip 4 (16 + l) := by
      rw [loadBytes, skip_apply, skip_apply, ← Nat.add_assoc]
    rw [scaled, cvtSigned, BitVec.toInt_signExtend_of_le (by decide), hbyte]

theorem decompressOneBlockINT4AVX512_eq (block : Bytes) (hk : k < 128) :
    VectorBackends.decompressOneBlockINT4AVX512 M block k = decodeINT4 M block k := by
  have hlevel := levelAt_decompress (block.skip 4)
  have hstored : VectorBackends.decompressOneBlockINT4AVX512 M block =
      join [(64, storeWords (scaled M (finiteScale (loadU32 block))
        (IntKernels.decompressOneBlockINT4AVX512 (block.skip 4)).1)),
        (64, storeWords (scaled M (finiteScale (loadU32 block))
          (IntKernels.decompressOneBlockINT4AVX512 (block.skip 4)).2))] :=
    rfl
  rw [hstored, decodeINT4_eq]
  generalize IntKernels.decompressOneBlockINT4AVX512 (block.skip 4) = r at hlevel ⊢
  refine join_storeWords (fun l => ?_) (fun l => ?_) hk
  · have h := hlevel ⟨l, by omega⟩
    rw [levelAt, dif_pos l.isLt] at h
    rw [scaled, h]
  · have h := hlevel ⟨16 + l, by omega⟩
    rw [levelAt, dif_neg (by simp)] at h
    simp only [Nat.add_sub_cancel_left] at h
    rw [scaled, h]

theorem decompressBF16Chunk16AVX512_apply (src : Bytes) {j : ℕ} (hj : j < 16) (hk : k < 4) :
    decompressBF16Chunk16AVX512 src (j * 4 + k) = bytesOf (bf16ToFP32 (halfAt src j)) k := by
  have hdiv : (j * 4 + k) / 4 = j := by omega
  have hmod : (j * 4 + k) % 4 = k := by omega
  rw [decompressBF16Chunk16AVX512, storeWords_apply _ (by omega), hmod]
  simp only [hdiv]
  rfl

theorem halfAt_skip (p : Bytes) (b i : ℕ) : halfAt (p.skip (b * 2)) i = halfAt p (b + i) := by
  apply loadU16_congr
  intro k _
  rw [skip_apply, skip_apply, skip_apply]
  congr 1
  omega

theorem decompressBF16ToFP32Impl_eq (src dst : Bytes) (n : ℕ) :
    decompressBF16ToFP32Impl src dst n = decompressBF16ToFP32Scalar src dst n := by
  have htile := tile_chunks (m := 16) 4 dst n (by decide) (fun i => bytesOf (bf16ToFP32 (halfAt src i)))
    (fun c => decompressBF16Chunk16AVX512 (src.skip (c * 32)))
    (fun p => (decompressBF16ToFP32Scalar (src.skip (n / 16 * 16 * 2)) p (n - n / 16 * 16)).2)
    (fun c _ j hj k hk => ?_) (fun p => ?_)
  · exact Prod.ext rfl htile
  · have hskip : c * 32 = c * 16 * 2 := by omega
    rw [decompressBF16Chunk16AVX512_apply _ hj hk, hskip, halfAt_skip]
  · simp only [decompressBF16ToFP32Scalar, decodeHalves, halfAt_skip]

theorem blockKernel_congr {inBytes outBytes : ℕ} {decode decode' : Bytes → Bytes}
    (h : ∀ block, ∀ k < outBytes, decode block k = decode' block k) :
    (blockKernel inBytes outBytes decode).run = (blockKernel inBytes outBytes decode').run := by
  funext src dst n
  simp only [blockKernel]
  rw [tile_congr dst fun b _ k hk => h (src.skip (b * inBytes)) k hk]

/-- Every build, whatever its float stages, answers every call of the decoders as the scalar build does. -/
theorem decompress_builds_agree (B : Build) (f : QuantFormat) (c : Call) :
    decompress (B.backend M) f c = decompress (scalarBackend M) f c := by
  have hINT8 : (B.backend M).decompressINT8ToFP32Impl.run = (scalarBackend M).decompressINT8ToFP32Impl.run := by
    cases B with
    | scalar | avx2 => rfl
    | avx512 => exact blockKernel_congr fun block _ hk => decompressOneBlockINT8AVX512_eq M block hk
  have hINT4 : (B.backend M).decompressINT4ToFP32Impl.run = (scalarBackend M).decompressINT4ToFP32Impl.run := by
    cases B with
    | scalar | avx2 => rfl
    | avx512 => exact blockKernel_congr fun block _ hk => decompressOneBlockINT4AVX512_eq M block hk
  have hBF16 : (B.backend M).decompressBF16ToFP32Impl.run = (scalarBackend M).decompressBF16ToFP32Impl.run := by
    cases B with
    | scalar | avx2 => rfl
    | avx512 =>
      funext src dst n
      exact decompressBF16ToFP32Impl_eq src dst n
  cases f <;> simp only [decompress, hINT8, hINT4, hBF16]

end Decoders

section Rounding

variable {M : Machine} {levels : ℕ} {q : BitVec 32}

/-- The number just below a half, and the halves above an even number below the largest level. -/
def RoundsApart (levels : ℕ) (q : BitVec 32) : Prop :=
  magnitude q = 0x3EFFFFFF ∨ ∃ k < levels, Even k ∧ |number q| = k + 1 / 2

/-- Half away from zero and half to even. -/
theorem half_up_eq (a : ℕ) {h : ℕ} (hh : 0 < h) :
    (a + h) / (2 * h) = roundQuot a (2 * h) + if a % (2 * h) = h ∧ a / (2 * h) % 2 = 0 then 1 else 0 := by
  have hmod : a % (2 * h) < 2 * h := Nat.mod_lt a (by omega)
  have hdiv : (a + h) / (2 * h) = a / (2 * h) + (a % (2 * h) + h) / (2 * h) := by
    conv_lhs => rw [← Nat.div_add_mod a (2 * h)]
    rw [Nat.add_assoc, Nat.mul_add_div (by omega)]
  rw [hdiv, roundQuot]
  rcases Nat.lt_trichotomy (a % (2 * h)) h with hlt | heq | hgt
  · have hzero : (a % (2 * h) + h) / (2 * h) = 0 := Nat.div_eq_of_lt (by omega)
    rw [hzero, if_pos (by omega), if_neg (by omega)]
  · have hone : (a % (2 * h) + h) / (2 * h) = 1 := by
      rw [heq, ← two_mul, Nat.div_self (by omega)]
    rw [hone, if_neg (by omega), if_neg (by omega)]
    split_ifs with heven
    · rw [heven.2]
    · omega
  · have hone : (a % (2 * h) + h) / (2 * h) = 1 := Nat.div_eq_of_lt_le (by omega) (by omega)
    rw [hone, if_neg (by omega), if_pos (by omega), if_neg (by omega)]

theorem abs_number (q : BitVec 32) : |number q| = ticks q / 2 ^ 149 := by
  rw [number]
  split_ifs
  · rw [abs_neg, abs_of_nonneg (by positivity)]
  · rw [abs_of_nonneg (by positivity)]

/-- A half above `k`, in ticks. -/
theorem abs_number_eq_half {k : ℕ} :
    |number q| = k + 1 / 2 ↔ ticks q % 2 ^ 149 = 2 ^ 148 ∧ ticks q / 2 ^ 149 = k := by
  have hticks : |number q| = k + 1 / 2 ↔ ticks q = k * 2 ^ 149 + 2 ^ 148 := by
    rw [abs_number, div_eq_iff (by positivity), ← Nat.cast_inj (R := ℚ)]
    push_cast
    constructor
    · intro h
      rw [h]
      ring
    · intro h
      rw [h]
      ring
  rw [hticks]
  have hdiv := Nat.div_add_mod (ticks q) (2 ^ 149)
  constructor
  · intro h
    rw [h]
    omega
  · rintro ⟨hmod, rfl⟩
    omega

/-- Adding a half and truncating against the nearest integer with ties to even. -/
theorem roundedHalf_eq (hq : magnitude q < 0x4B000000) : roundedHalf (ticks q) = roundQuot (ticks q) (2 ^ 149) +
    if magnitude q = 0x3EFFFFFF ∨ ticks q % 2 ^ 149 = 2 ^ 148 ∧ ticks q / 2 ^ 149 % 2 = 0 then 1 else 0 := by
  by_cases hlast : magnitude q = 0x3EFFFFFF
  · have hticks : ticks q = (2 ^ 24 - 1) * 2 ^ 124 := by
      rw [ticks, hlast]
      decide
    rw [if_pos (.inl hlast), hticks]
    decide
  · have hsum := half_up_eq (ticks q) (Nat.two_pow_pos 148)
    have hround : roundedHalf (ticks q) = (ticks q + 2 ^ 148) / 2 ^ 149 := (roundedHalf_eq_iff _).mpr (by omega)
    simp only [hlast, false_or]
    exact hround.trans hsum

theorem roundsApart_iff : RoundsApart levels q ↔ magnitude q = 0x3EFFFFFF ∨
    ticks q % 2 ^ 149 = 2 ^ 148 ∧ ticks q / 2 ^ 149 % 2 = 0 ∧ ticks q / 2 ^ 149 < levels := by
  rw [RoundsApart]
  refine or_congr_right ⟨?_, ?_⟩
  · rintro ⟨k, hk, heven, hhalf⟩
    obtain ⟨hmod, rfl⟩ := abs_number_eq_half.mp hhalf
    exact ⟨hmod, Nat.even_iff.mp heven, hk⟩
  · rintro ⟨hmod, heven, hlt⟩
    exact ⟨_, hlt, Nat.even_iff.mpr heven, abs_number_eq_half.mpr ⟨hmod, rfl⟩⟩

instance (levels : ℕ) (q : BitVec 32) : Decidable (RoundsApart levels q) := decidable_of_iff _ roundsApart_iff.symm

/-- After the clamp the two roundings are one apart, or they agree. -/
theorem min_roundedHalf (hpos : 0 < levels) (hq : magnitude q < 0x4B000000) : min (roundedHalf (ticks q)) levels =
    min (roundQuot (ticks q) (2 ^ 149)) levels + if RoundsApart levels q then 1 else 0 := by
  rw [roundedHalf_eq hq]
  simp only [roundsApart_iff]
  by_cases hlast : magnitude q = 0x3EFFFFFF
  · have hticks : ticks q = (2 ^ 24 - 1) * 2 ^ 124 := by
      rw [ticks, hlast]
      decide
    have hzero : roundQuot (ticks q) (2 ^ 149) = 0 := by
      rw [hticks]
      decide
    rw [if_pos (.inl hlast), if_pos (.inl hlast), hzero]
    omega
  · simp only [hlast, false_or]
    by_cases htie : ticks q % 2 ^ 149 = 2 ^ 148 ∧ ticks q / 2 ^ 149 % 2 = 0
    · -- the tie goes down to the even quotient
      have hquot : roundQuot (ticks q) (2 ^ 149) = ticks q / 2 ^ 149 := by
        rw [roundQuot, if_neg (by omega), if_neg (by omega), htie.2, Nat.add_zero]
      rw [if_pos htie, hquot]
      split_ifs with hlt
      · omega
      · omega
    · have hnot : ¬ (ticks q % 2 ^ 149 = 2 ^ 148 ∧ ticks q / 2 ^ 149 % 2 = 0 ∧ ticks q / 2 ^ 149 < levels) :=
        fun h => htie ⟨h.1, h.2.1⟩
      rw [if_neg htie, if_neg hnot, Nat.add_zero, Nat.add_zero]

theorem clampInt_withSign (neg : Bool) (n : ℕ) :
    clampInt (-levels) levels (withSign neg n) = withSign neg (min n levels) := by
  rw [clampInt, withSign, withSign]
  split_ifs <;> omega

theorem roundQuot_size (M : Machine) (q : BitVec 32) :
    roundQuot (M.size q) (2 ^ 149) = roundQuot (ticks q) (2 ^ 149) := by
  rw [Machine.size]
  split_ifs with hflush
  · rw [Bool.and_eq_true, decide_eq_true_eq] at hflush
    have hsmall : units 23 (2 ^ 23) < 2 ^ 147 := by decide
    have hticks : ticks q ≤ units 23 (2 ^ 23) := units_le_units.mpr hflush.2.le
    rw [roundQuot, roundQuot, Nat.div_eq_of_lt (by omega : ticks q < 2 ^ 149),
      Nat.mod_eq_of_lt (by omega : ticks q < 2 ^ 149), if_pos (by omega), if_pos (by omega)]
    decide
  · rfl

/-- The level that the vector instructions convert a small word to. -/
theorem toInt_cvtEpi32 (hq : magnitude q < 0x4B000000) :
    (cvtEpi32 M q).toInt = withSign q.msb (roundQuot (ticks q) (2 ^ 149)) := by
  have hticks : ticks q < units 23 0x4B000000 := units_lt_units.mpr hq
  have hunits : units 23 0x4B000000 = 2 ^ 23 * 2 ^ 149 := by decide
  have hquot : ticks q / 2 ^ 149 < 2 ^ 23 := Nat.div_lt_of_lt_mul (by omega)
  have hround : roundQuot (ticks q) (2 ^ 149) ≤ 2 ^ 23 := by
    rw [roundQuot]
    split_ifs <;> omega
  have hrange : -2 ^ 31 ≤ withSign q.msb (roundQuot (ticks q) (2 ^ 149)) ∧
      withSign q.msb (roundQuot (ticks q) (2 ^ 149)) < 2 ^ 31 := by
    rw [withSign]
    split_ifs <;> omega
  have hfin : magnitude q < infinity := Nat.lt_trans hq (by decide)
  simp only [cvtEpi32, roundQuot_size]
  rw [if_pos ⟨hfin, hrange⟩]
  exact BitVec.toInt_ofInt_eq_self (by decide) hrange.1 hrange.2

end Rounding

section Blocks

variable {M : Machine} {levels : ℕ} {block : Bytes} {f : IntFormat}

/-- The quotient of a word of a block that both loops round. -/
def blockQuotient (M : Machine) (levels : ℕ) (block : Bytes) (j : ℕ) : BitVec 32 :=
  M.mul (sanitiseFinite (wordAt block j)) (positiveReciprocal M (intScale M levels block))

/-- The quotients are finite and far inside the range of the conversions. -/
theorem blockQuotient_small (h : LevelCount levels) (hflush : M.flush = true) (block : Bytes) {j : ℕ}
    (hj : j < 32) :
    magnitude (blockQuotient M levels block j) < 0x4B000000 ∧ mag M (blockQuotient M levels block j) < 2 ^ 22 := by
  rcases eq_or_ne (mag M (intScale M levels block)) 0 with hz | hne
  · have hreal : real M (intScale M levels block) = 0 := real_eq_zero_iff.mpr hz
    have hinv : positiveReciprocal M (intScale M levels block) = zero := by
      refine if_neg fun hlt => ?_
      rw [lt_iff finite_zero (scaleOf_intScale h hflush block).finite, ← real_lt_iff, hreal, real_zero] at hlt
      exact lt_irrefl _ hlt
    have hmul : blockQuotient M levels block j = signed (sanitiseFinite (wordAt block j)).msb 0 := by
      rw [blockQuotient, hinv, mul_zero_right (finite_sanitiseFinite _)]
    have hmagnitude : magnitude (blockQuotient M levels block j) = 0 := by
      rw [hmul]
      exact magnitude_signed _ (Nat.zero_le _)
    have hsize : M.size (blockQuotient M levels block j) ≤ units 23 0 := Machine.size_le hmagnitude.le
    rw [units_zero, Nat.le_zero] at hsize
    rw [hmagnitude, mag, hsize]
    norm_num
  · obtain ⟨-, hsmall, -⟩ := quotientOf_block h hflush hj hne
    exact ⟨magnitude_lt_of_mag hsmall, hsmall⟩

theorem quotient_eq (h : LevelCount levels) (hflush : M.flush = true) (block : Bytes) {j : ℕ} (hj : j < 32) :
    quotient M (positiveReciprocal M (intScale M levels block)) (wordAt block j) = blockQuotient M levels block j :=
  sanitiseFinite_finite (Nat.lt_trans (blockQuotient_small h hflush block hj).1 (by decide))

/-- The bytes of the levels of a block. -/
def pack : IntFormat → (ℕ → ℤ) → Bytes
  | .int8 => storeClamped 127
  | .int4 => packClamped

def payload (f : IntFormat) : ℕ := f.blockBytes - 4

/-- The level of an element, as a decoder reads it. -/
def storedLevel : IntFormat → Bytes → ℕ → ℤ
  | .int8, p, i => (p i).toInt
  | .int4, p, i => signedNibble p i

theorem encode_eq (M : Machine) (f : IntFormat) (block : Bytes) : f.encode M block =
    join [(4, bytesOf (intScale M f.levels block)), (payload f, pack f fun i =>
      lroundHalfAwayFast M (quotient M (positiveReciprocal M (intScale M f.levels block)) (wordAt block i)))] := by
  cases f with
  | int8 => exact encodeINT8_eq M block
  | int4 => exact encodeINT4_eq M block

theorem storedLevel_pack (f : IntFormat) (r : ℕ → ℤ) (i : ℕ) :
    storedLevel f (pack f r) i = clampInt (-f.levels) f.levels (r i) := by
  cases f with
  | int8 =>
    obtain ⟨hlow, hhigh⟩ := clampInt_bounds (show (-127 : ℤ) ≤ 127 by decide) (r i)
    exact BitVec.toInt_ofInt_eq_self (by decide) (by omega) (by omega)
  | int4 =>
    obtain ⟨hlow, hhigh⟩ := clampInt_bounds (show (-7 : ℤ) ≤ 7 by decide) (r i)
    have hclamped : packClamped r = packClamped fun i => clampInt (-7) 7 (r i) := by
      have hstore : storeClamped 7 r = storeClamped 7 fun i => clampInt (-7) 7 (r i) := by
        funext i
        obtain ⟨hlow, hhigh⟩ := clampInt_bounds (show (-7 : ℤ) ≤ 7 by decide) (r i)
        rw [storeClamped, storeClamped, clampInt, clampInt]
        split_ifs <;> first | rfl | omega
      rw [packClamped, hstore, packClamped]
    rw [storedLevel, pack, hclamped]
    exact signedNibble_packClamped hlow hhigh

theorem pack_congr {r r' : ℕ → ℤ}
    (h : ∀ i < 32, clampInt (-f.levels) f.levels (r i) = clampInt (-f.levels) f.levels (r' i)) {k : ℕ}
    (hk : k < payload f) : pack f r k = pack f r' k := by
  cases f with
  | int8 => exact congrArg (BitVec.ofInt 8) (h k hk)
  | int4 =>
    have hk16 : k < 16 := hk
    have hlow := congrArg (BitVec.ofInt 8) (h (2 * k) (by omega))
    have hhigh := congrArg (BitVec.ofInt 8) (h (2 * k + 1) (by omega))
    exact congrArg₂ (fun x y => (x &&& 0x0F#8) ||| ((y &&& 0x0F#8) <<< 4)) hlow hhigh

theorem storedLevel_congr {p p' : Bytes} (h : ∀ k < payload f, p k = p' k) {i : ℕ} (hi : i < 32) :
    storedLevel f p i = storedLevel f p' i := by
  cases f with
  | int8 => exact congrArg BitVec.toInt (h i hi)
  | int4 =>
    have hpayload : payload .int4 = 16 := rfl
    exact signedNibble_congr (h (i / 2) (by omega))

/-- A stored block is read back. -/
theorem stored_block {p : Bytes} {scale : BitVec 32} {r : ℕ → ℤ}
    (h : ∀ k < f.blockBytes, p k = join [(4, bytesOf scale), (payload f, pack f r)] k) :
    loadU32 p = scale ∧ ∀ i < 32, storedLevel f (p.skip 4) i = clampInt (-f.levels) f.levels (r i) := by
  have hbytes : f.blockBytes = 4 + payload f := by cases f <;> rfl
  refine ⟨loadU32_eq fun k hk => ?_, fun i hi => ?_⟩
  · rw [h k (by omega), join_apply _ _ hk]
  · rw [← storedLevel_pack]
    refine storedLevel_congr (fun k hk => ?_) hi
    rw [skip_apply, h _ (by omega), join_add, join_apply _ _ hk]

end Blocks

/-- The encoders that have a vector kernel. -/
inductive VectorKernel
  | int8AVX2
  | int8AVX512
  | int4AVX512

namespace VectorKernel

def format : VectorKernel → IntFormat
  | int8AVX2 | int8AVX512 => .int8
  | int4AVX512 => .int4

def quantFormat : VectorKernel → QuantFormat
  | int8AVX2 | int8AVX512 => .kINT8
  | int4AVX512 => .kINT4

variable (M : Machine)

/-- The build that uses the kernel. -/
def build : VectorKernel → Build
  | int8AVX2 => .avx2 (floatStage256 M 127)
  | int8AVX512 | int4AVX512 => .avx512 (floatStage512 M 127) (floatStage512 M 7)

def encode : VectorKernel → Bytes → Bytes
  | int8AVX2 => compressOneBlockINT8AVX2 (floatStage256 M 127)
  | int8AVX512 => compressOneBlockINT8AVX512 (floatStage512 M 127)
  | int4AVX512 => VectorBackends.compressOneBlockINT4AVX512 (floatStage512 M 7)

/-- What the scalar build stores. -/
def compressScalar (k : VectorKernel) (c : Call) : ℕ × Bytes := compress (scalarBackend M) k.quantFormat c

def compressVector (k : VectorKernel) (c : Call) : ℕ × Bytes := compress ((k.build M).backend M) k.quantFormat c

variable {M} {k : VectorKernel} {block : Bytes}

theorem compressVector_eq (M : Machine) (k : VectorKernel) (c : Call) :
    k.compressVector M c = c.encodeBlocks 128 k.format.blockBytes (k.encode M) := by
  cases k <;> rfl

theorem compressScalar_eq (M : Machine) (k : VectorKernel) (c : Call) :
    k.compressScalar M c = c.encodeBlocks 128 k.format.blockBytes (k.format.encode M) := by
  cases k <;> rfl

/-- A vector kernel stores the scale of the scalar loop and its own levels. -/
theorem encode_eq (hM : M.flush = true) (k : VectorKernel) (block : Bytes) {j : ℕ} (hj : j < k.format.blockBytes) :
    k.encode M block j = join [(4, bytesOf (intScale M k.format.levels block)),
      (payload k.format, pack k.format fun i => (converted M k.format.levels block i).toInt)] j := by
  have hfin : ∀ i < 32, IsFinite (blockQuotient M 127 block i) := fun i hi =>
    Nat.lt_trans (blockQuotient_small levelCount_INT8 hM block hi).1 (by decide)
  cases k with
  | int8AVX2 =>
    rw [encode, VectorBackends.compressOneBlockINT8AVX2, compressOneBlock,
      floatStage256_eq levelCount_INT8 block hfin]
    exact join_payload _ (fun i hi => compressOneBlockINT8AVX2_eq _ hi) hj
  | int8AVX512 =>
    rw [encode, VectorBackends.compressOneBlockINT8AVX512, compressOneBlock, floatStage512_eq levelCount_INT8]
    exact join_payload _ (fun i hi => compressOneBlockINT8AVX512_eq _ hi) hj
  | int4AVX512 =>
    rw [encode, VectorBackends.compressOneBlockINT4AVX512, compressOneBlock, floatStage512_eq levelCount_INT4]
    exact join_payload _ (fun i hi => compressOneBlockINT4AVX512_eq _ hi) hj

theorem levelCount (k : VectorKernel) : LevelCount k.format.levels := k.format.levelCount

/-- The level of the scalar loop is that of the kernel, or the next one away from zero. -/
theorem level_eq (hM : M.flush = true) (k : VectorKernel) (block : Bytes) {j : ℕ} (hj : j < 32) :
    clampInt (-k.format.levels) k.format.levels (lroundHalfAwayFast M
        (quotient M (positiveReciprocal M (intScale M k.format.levels block)) (wordAt block j))) =
      clampInt (-k.format.levels) k.format.levels (converted M k.format.levels block j).toInt +
        if RoundsApart k.format.levels (blockQuotient M k.format.levels block j) then
          withSign (blockQuotient M k.format.levels block j).msb 1 else 0 := by
  have hpos : 0 < k.format.levels := Nat.lt_of_lt_of_le Nat.two_pos k.levelCount.two_le
  obtain ⟨hmagnitude, hsmall⟩ := blockQuotient_small k.levelCount hM block hj
  rw [converted, quotient_eq k.levelCount hM block hj, clampInt_lround hsmall, toInt_cvtEpi32 hmagnitude,
    clampInt_withSign, min_roundedHalf hpos hmagnitude]
  rw [withSign, withSign, withSign]
  split_ifs <;> push_cast <;> ring

/-- A block that a kernel stored and one that the scalar loop stored: the same scale, and levels
that differ by one where the two ways of rounding part. -/
def OneApart (M : Machine) (f : IntFormat) (block vector scalar : Bytes) : Prop :=
  loadU32 vector = loadU32 scalar ∧
    ∀ i < 32, storedLevel f (scalar.skip 4) i = storedLevel f (vector.skip 4) i +
      if RoundsApart f.levels (blockQuotient M f.levels block i)
        then withSign (blockQuotient M f.levels block i).msb 1 else 0

theorem oneApart_block (hM : M.flush = true) (k : VectorKernel) (block : Bytes) {vector scalar : Bytes}
    (hvector : ∀ j < k.format.blockBytes, vector j = k.encode M block j)
    (hscalar : ∀ j < k.format.blockBytes, scalar j = k.format.encode M block j) :
    OneApart M k.format block vector scalar := by
  obtain ⟨hscale, hlevel⟩ := stored_block (f := k.format) fun j hj => (hvector j hj).trans (encode_eq hM k block hj)
  obtain ⟨hscale', hlevel'⟩ := stored_block (f := k.format) fun j hj =>
    (hscalar j hj).trans (congrFun (VectorAgreement.encode_eq M k.format block) j)
  refine ⟨hscale.trans hscale'.symm, fun i hi => ?_⟩
  rw [hlevel i hi, hlevel' i hi]
  exact level_eq hM k block hi

/-- With subnormals flushed, over every stream of whole blocks: the blocks of a vector build are
one apart from those of the scalar build, and the streams are equal if and only if the two ways of
rounding part nowhere. -/
theorem compress_eq_iff (k : VectorKernel) (hM : M.flush = true) {n : ℕ} {c : Call}
    (h : c.Fits 128 k.format.blockBytes n) :
    (∀ b < n, OneApart M k.format (c.src.skip (b * 128)) ((k.compressVector M c).2.skip (b * k.format.blockBytes))
      ((k.compressScalar M c).2.skip (b * k.format.blockBytes))) ∧
    (k.compressVector M c = k.compressScalar M c ↔
      ∀ b < n, ∀ i < 32, ¬ RoundsApart k.format.levels
        (blockQuotient M k.format.levels (c.src.skip (b * 128)) i)) := by
  have hvector : k.compressVector M c = (n * k.format.blockBytes % 2 ^ 64,
      tile k.format.blockBytes (fun b => k.encode M (c.src.skip (b * 128))) c.dst n) := by
    rw [compressVector_eq, Call.encodeBlocks, Call.checked_of_fits h (by decide)]
  have hscalar : k.compressScalar M c = (n * k.format.blockBytes % 2 ^ 64,
      tile k.format.blockBytes (fun b => k.format.encode M (c.src.skip (b * 128))) c.dst n) := by
    rw [compressScalar_eq, Call.encodeBlocks, Call.checked_of_fits h (by decide)]
  have hblocks : ∀ b < n, OneApart M k.format (c.src.skip (b * 128))
      ((k.compressVector M c).2.skip (b * k.format.blockBytes))
      ((k.compressScalar M c).2.skip (b * k.format.blockBytes)) := by
    intro b hb
    rw [hvector, hscalar]
    exact oneApart_block hM k _ (fun j hj => tile_apply _ _ hb hj) (fun j hj => tile_apply _ _ hb hj)
  refine ⟨hblocks, fun heq b hb i hi hapart => ?_, fun hagree => ?_⟩
  · have hlevel := (hblocks b hb).2 i hi
    rw [heq, if_pos hapart, withSign] at hlevel
    split_ifs at hlevel <;> omega
  · rw [hvector, hscalar]
    refine Prod.ext rfl (tile_congr c.dst fun b hb j hj => ?_)
    have hbytes : k.format.blockBytes = 4 + payload k.format := by cases k <;> rfl
    rw [encode_eq hM k _ hj, VectorAgreement.encode_eq]
    refine join_payload _ (fun i hi => pack_congr (fun i hi => ?_) hi) (by rwa [← hbytes])
    rw [level_eq hM k _ hi, if_neg (hagree b hb i hi), add_zero]

/-- The two vector encoders of INT8 answer every call in the same way. -/
theorem compress_INT8_eq (hM : M.flush = true) (c : Call) :
    int8AVX2.compressVector M c = int8AVX512.compressVector M c := by
  rw [compressVector_eq, compressVector_eq]
  refine congrArg (c.checked 128 36) (funext fun n => Prod.ext rfl (tile_congr c.dst fun b _ j hj => ?_))
  rw [encode_eq hM int8AVX2 _ hj, encode_eq hM int8AVX512 _ hj]
  rfl

end VectorKernel

/-- A block under a scale of one with a half in it. -/
def halfBlock : Call where
  src := wordBytes fun i => if i = 0 then 0x42FE0000#32 else if i = 1 then 0x3F000000#32 else 0#32
  srcSize := 128
  srcData := 0
  dst _ := 0
  dstSize := 36
  dstData := 128

theorem compress_halfBlock_ne :
    VectorKernel.int8AVX2.compressVector flushMachine halfBlock ≠
    VectorKernel.int8AVX2.compressScalar flushMachine halfBlock := by
  have hfits : halfBlock.Fits 128 36 1 := ⟨rfl, le_rfl, by decide, rfl⟩
  have hapart : RoundsApart 127 (blockQuotient flushMachine 127 (halfBlock.src.skip (0 * 128)) 1) := by
    decide +kernel
  have h := VectorKernel.compress_eq_iff .int8AVX2 (M := flushMachine) rfl hfits
  exact fun heq => h.2.mp heq 0 Nat.one_pos 1 (by decide) hapart

end Qtx.VectorAgreement
