import Qtx.IntBlockErrors

/-!
# Streams of INT8 and INT4 blocks

What comes back from a stream that was compressed and decompressed, on two machines that need
not treat subnormals alike: the encoders flush them, and the decoders leave that to the caller.
-/
namespace Qtx.IntRoundTrips

open Qtx.BinaryFormats Qtx.ByteStreams Qtx.FloatErrors Qtx.FloatMachine Qtx.FloatWords Qtx.FpeGuard
  Qtx.IntBlockErrors Qtx.IntKernels Qtx.LroundHalfAway Qtx.QuantizerHelpers Qtx.ScaledBlocks Qtx.ScaledEncoders

theorem join_payload {size : ℕ} (scale : BitVec 32) {p p' : Bytes} (h : ∀ k < size, p k = p' k) {j : ℕ}
    (hj : j < 4 + size) :
    join [(4, bytesOf scale), (size, p)] j = join [(4, bytesOf scale), (size, p')] j := by
  rcases Nat.lt_or_ge j 4 with hlow | hhigh
  · rw [join_apply _ _ hlow, join_apply _ _ hlow]
  · obtain ⟨i, rfl⟩ := Nat.exists_eq_add_of_le hhigh
    have hi : i < size := Nat.lt_of_add_lt_add_left hj
    rw [join_add, join_add, join_apply _ _ hi, join_apply _ _ hi, h i hi]

inductive IntFormat
  | int8
  | int4
deriving DecidableEq

namespace IntFormat

def levels : IntFormat → ℕ
  | int8 => 127
  | int4 => 7

def blockBytes : IntFormat → ℕ
  | int8 => 36
  | int4 => 20

def encode (M : Machine) : IntFormat → Bytes → Bytes
  | int8 => encodeINT8 M
  | int4 => encodeINT4 M

def decode (M : Machine) : IntFormat → Bytes → Bytes
  | int8 => decodeINT8 M
  | int4 => decodeINT4 M

def compress (M : Machine) : IntFormat → Call → ℕ × Bytes
  | int8 => compressFP32ToINT8 M
  | int4 => compressFP32ToINT4 M

def decompress (M : Machine) : IntFormat → Call → ℕ × Bytes
  | int8 => decompressINT8ToFP32 M
  | int4 => decompressINT4ToFP32 M

variable {f : IntFormat} {M D : Machine} {block p : Bytes} {j n : ℕ}

theorem levelCount (f : IntFormat) : LevelCount f.levels := by
  cases f with
  | int8 => exact levelCount_INT8
  | int4 => exact levelCount_INT4

theorem blockBytes_pos (f : IntFormat) : 0 < f.blockBytes := by cases f <;> decide

theorem compress_eq (M : Machine) (f : IntFormat) (c : Call) :
    f.compress M c = c.encodeBlocks 128 f.blockBytes (f.encode M) := by
  cases f <;> rfl

theorem decompress_eq (M : Machine) (f : IntFormat) (c : Call) :
    f.decompress M c = c.encodeBlocks f.blockBytes 128 (f.decode M) := by
  cases f <;> rfl

/-- The integer of a word of a block. -/
def level (M : Machine) (f : IntFormat) (block : Bytes) (j : ℕ) : ℤ :=
  intLevel M f.levels (positiveReciprocal M (intScale M f.levels block)) (wordAt block j)

theorem level_bounds (M : Machine) (f : IntFormat) (block : Bytes) (j : ℕ) :
    -(f.levels : ℤ) ≤ f.level M block j ∧ f.level M block j ≤ f.levels :=
  clampInt_bounds (by omega) _

/-- The scale of a stored block is read back. -/
theorem loadU32_encode (h : ∀ k < f.blockBytes, p k = f.encode M block k) :
    loadU32 p = intScale M f.levels block := by
  apply loadU32_eq
  intro k hk
  cases f with
  | int8 =>
    rw [h k (Nat.lt_trans hk (by decide)), encode, encodeINT8, join_apply _ _ hk]
    rfl
  | int4 =>
    rw [h k (Nat.lt_trans hk (by decide)), encode, encodeINT4, join_apply _ _ hk]
    rfl

theorem toInt_level_INT8 (M : Machine) (block : Bytes) (j : ℕ) :
    (BitVec.ofInt 8 (int8.level M block j)).toInt = int8.level M block j := by
  obtain ⟨hlow, hhigh⟩ := level_bounds M int8 block j
  have hlevels : int8.levels = 127 := rfl
  rw [hlevels] at hlow hhigh
  rw [BitVec.toInt_ofInt, Int.bmod_def]
  split_ifs <;> omega

/-- A level is clamped already. -/
theorem storeClamped_level (M : Machine) (block : Bytes) (i : ℕ) :
    storeClamped 7 (int4.level M block) i = BitVec.ofInt 8 (int4.level M block i) := by
  obtain ⟨hlow, hhigh⟩ := level_bounds M int4 block i
  have hlevels : int4.levels = 7 := rfl
  rw [hlevels] at hlow hhigh
  rw [storeClamped, clampInt]
  split_ifs <;> first | rfl | omega

/-- The levels of a stored block are read back, and scaled. -/
theorem wordAt_decode (h : ∀ k < f.blockBytes, p k = f.encode M block k)
    (hscale : IsFinite (intScale M f.levels block)) (hj : j < 32) :
    wordAt (f.decode D p) j = decodedWord M D f.levels block j := by
  have hload := loadU32_encode h
  have hfinite : finiteScale (intScale M f.levels block) = intScale M f.levels block :=
    if_pos ((isFiniteStrict_iff _).mpr hscale)
  cases f with
  | int8 =>
    have hbyte : p.skip 4 j = BitVec.ofInt 8 (int8.level M block j) := by
      have hlt : j < 32 := hj
      rw [skip_apply, h (4 + j) (by simp only [blockBytes]; omega), encode, encodeINT8, join_add,
        join_apply _ _ hlt]
      rfl
    rw [decode, decodeINT8, wordAt_wordBytes, hload, hfinite, hbyte, toInt_level_INT8]
    rfl
  | int4 =>
    have hnibble : signedNibble (p.skip 4) j = int4.level M block j := by
      obtain ⟨hlow, hhigh⟩ := level_bounds M int4 block j
      have hbyte : p.skip 4 (j / 2) = packClamped (int4.level M block) (j / 2) := by
        rw [skip_apply, h (4 + j / 2) (by simp only [blockBytes]; omega), encode, encodeINT4, join_add,
          join_apply _ _ (by omega), packClamped]
        exact congrFun (congrArg packNibbles (funext fun i => (storeClamped_level M block i).symm)) (j / 2)
      rw [signedNibble_congr hbyte]
      exact signedNibble_packClamped hlow hhigh
    rw [decode, decodeINT4_eq, wordAt_wordBytes, hload, hfinite, hnibble]
    rfl

/-- The decoded word is off by half a step of the scale and next to nothing more, the step being the
largest absolute value over the levels; or the whole block was so small that it became zeros. -/
def Close (M : Machine) (f : IntFormat) (block : Bytes) (j : ℕ) (scale decoded : BitVec 32) : Prop :=
  IsFinite decoded ∧
    (scale = zero ∧ number decoded = 0 ∧ real M (blockMax M f.levels block) < f.levels / 2 ^ 126 ∨
      |number scale - real M (blockMax M f.levels block) / f.levels| ≤ number scale / 2 ^ 24 ∧
        |number decoded - clampQ (real M (blockMax M f.levels block)) (real M (sanitiseFinite (wordAt block j)))| ≤
          (1 / 2 + 1 / 2 ^ 15) * number scale)

/-- A level under a scale of zero. -/
theorem decodedWord_zero (D : Machine) (h : intScale M f.levels block = zero) (j : ℕ) :
    IsFinite (decodedWord M D f.levels block j) ∧ number (decodedWord M D f.levels block j) = 0 := by
  obtain ⟨hlow, hhigh⟩ := level_bounds M f block j
  have hsmall : (f.level M block j).natAbs < 128 := by
    have := f.levelCount.le
    omega
  have hfin : IsFinite (D.ofInt (f.level M block j)) := by
    rw [Machine.ofInt, Machine.finite_round_iff]
    exact lt_of_lt_of_le (Nat.mul_lt_mul_of_pos_right hsmall (Nat.two_pow_pos 149)) (by decide)
  have hword : decodedWord M D f.levels block j = signed (D.ofInt (f.level M block j)).msb 0 := by
    rw [decodedWord, h, ← mul_zero_right hfin, level, h]
  have hmagnitude := magnitude_signed (D.ofInt (f.level M block j)).msb (Nat.zero_le infinity)
  rw [hword, number, ticks, hmagnitude, units_zero]
  refine ⟨?_, by simp⟩
  rw [IsFinite, hmagnitude]
  decide

/-- A flushed scale is the word of zero. -/
theorem intScale_eq_zero (hflush : M.flush = true) (h : mag M (intScale M f.levels block) = 0) :
    intScale M f.levels block = zero := by
  have hfmt := f.levelCount
  obtain ⟨hfin, -, -⟩ := blockMax_spec hfmt M block
  have hscale : intScale M f.levels block = if M.lt zero (blockMax M f.levels block) then
      M.div (blockMax M f.levels block) (literal f.levels 1) else zero := rfl
  rw [hscale] at h ⊢
  split_ifs at h ⊢ with hlt
  · have hlevels : mag M (literal f.levels 1) ≠ 0 := by
      have : (2 : ℚ) ≤ f.levels := by exact_mod_cast hfmt.two_le
      rw [hfmt.mag_literal]
      linarith
    rw [FloatScans.lt_iff FloatScans.finite_zero hfin, ← real_lt_iff, real_zero] at hlt
    rw [Machine.div_of_finite hfin hfmt.exact.finite (size_pos_of_mag hlevels), msb_of_real_pos hlt,
      hfmt.sign] at h ⊢
    exact round_eq_zero_of_mag hflush h
  · rfl

theorem close_decodedWord (D : Machine) (f : IntFormat) (hflush : M.flush = true) (block : Bytes) (hj : j < 32) :
    f.Close M block j (intScale M f.levels block) (decodedWord M D f.levels block j) := by
  have hscale := scaleOf_intScale f.levelCount hflush block
  obtain ⟨-, hanonneg, -⟩ := blockMax_spec f.levelCount M block
  rcases eq_or_ne (mag M (intScale M f.levels block)) 0 with hz | hne
  · have hzero := intScale_eq_zero hflush hz
    obtain ⟨hfin, hnumber⟩ := decodedWord_zero D hzero j
    exact ⟨hfin, .inl ⟨hzero, hnumber, by rw [← mag_of_real_nonneg hanonneg]; exact hscale.flushed hz⟩⟩
  · obtain ⟨hfin, hnear⟩ := decodedWord_near D f.levelCount hflush hj hne
    have hnumber : number (intScale M f.levels block) = mag M (intScale M f.levels block) := by
      rw [number_eq_real (M := M) (normal_of_mag hflush hne), real_of_msb hscale.sign]
    refine ⟨hfin, .inr ⟨?_, ?_⟩⟩
    · rw [hnumber, ← mag_of_real_nonneg hanonneg]
      exact hscale.error hne
    · rw [hnumber]
      exact hnear

section Streams

variable {x c : Call} {b i k : ℕ}

theorem compress_apply (M : Machine) (hx : x.Fits 128 f.blockBytes n) (hb : b < n) (hk : k < f.blockBytes) :
    (f.compress M x).2 (b * f.blockBytes + k) = f.encode M (x.src.skip (b * 128)) k := by
  rw [compress_eq, Call.encodeBlocks, Call.checked_of_fits hx (by decide)]
  exact tile_apply _ _ hb hk

/-- A block of the source of a call that decompresses what another one compressed. -/
theorem stored_block (hx : x.Fits 128 f.blockBytes n)
    (hstored : ∀ k < n * f.blockBytes, c.src k = (f.compress M x).2 k) (hb : b < n) (hk : k < f.blockBytes) :
    c.src.skip (b * f.blockBytes) k = f.encode M (x.src.skip (b * 128)) k := by
  have hend := block_end f.blockBytes hb
  rw [skip_apply, hstored _ (by omega), compress_apply M hx hb hk]

theorem wordAt_decompress (D : Machine) (hM : M.flush = true) (hx : x.Fits 128 f.blockBytes n)
    (hc : c.Fits f.blockBytes 128 n) (hstored : ∀ k < n * f.blockBytes, c.src k = (f.compress M x).2 k) (hb : b < n)
    (hi : i < 32) :
    wordAt (f.decompress D c).2 (b * 32 + i) = decodedWord M D f.levels (x.src.skip (b * 128)) i := by
  rw [decompress_eq, Call.wordAt_encodeBlocks (k := 32) hc f.blockBytes_pos hb hi]
  exact wordAt_decode (fun k hk => stored_block hx hstored hb hk) (scaleOf_intScale f.levelCount hM _).finite hi

/-- For every stream of whole blocks, NaNs and infinities among its words included, and every two machines of
which the encoding one flushes subnormals: what INT8 and INT4 give back is close to what was put in. -/
theorem roundTrip_close (f : IntFormat) {M D : Machine} (hM : M.flush = true) {n : ℕ} {x c : Call}
    (hx : x.Fits 128 f.blockBytes n) (hc : c.Fits f.blockBytes 128 n)
    (hstored : ∀ k < n * f.blockBytes, c.src k = (f.compress M x).2 k) :
    (f.compress M x).1 = n * f.blockBytes ∧ (f.decompress D c).1 = n * 128 ∧
    ∀ b < n, ∀ i < 32, f.Close M (x.src.skip (b * 128)) i (loadU32 (c.src.skip (b * f.blockBytes)))
      (wordAt (f.decompress D c).2 (b * 32 + i)) := by
  have hcompress : (f.compress M x).1 = n * f.blockBytes := by
    rw [compress_eq, Call.encodeBlocks, Call.checked_of_fits hx (by decide), Nat.mod_eq_of_lt hx.sized]
  have hdecompress : (f.decompress D c).1 = n * 128 := by
    rw [decompress_eq, Call.encodeBlocks, Call.checked_of_fits hc f.blockBytes_pos, Nat.mod_eq_of_lt hc.sized]
  refine ⟨hcompress, hdecompress, fun b hb i hi => ?_⟩
  rw [wordAt_decompress D hM hx hc hstored hb hi, loadU32_encode (fun k hk => stored_block hx hstored hb hk)]
  exact close_decodedWord D f hM _ hi

end Streams

end IntFormat

/-- A NaN and an infinity among powers of two. -/
def specialWords (i : ℕ) : BitVec 32 :=
  if i = 0 then 0x7FC00000#32 else if i = 1 then 0xFF800000#32 else BitVec.ofNat 32 (0x3F800000 + i * 0x800000)

def specialBlock : Call where
  src := wordBytes specialWords
  srcSize := 128
  srcData := 0
  dst _ := 0
  dstSize := 36
  dstData := 128

def storedSpecials : Call where
  src := (IntFormat.int8.compress flushMachine specialBlock).2
  srcSize := 36
  srcData := 0
  dst _ := 0
  dstSize := 128
  dstData := 36

theorem roundTrip_close_specials :
    IntFormat.int8.Close flushMachine (specialBlock.src.skip (0 * 128)) 1
      (loadU32 (storedSpecials.src.skip (0 * 36)))
      (wordAt (IntFormat.int8.decompress plainMachine storedSpecials).2 (0 * 32 + 1)) := by
  have hfits : specialBlock.Fits 128 36 1 := ⟨rfl, le_rfl, by decide, rfl⟩
  have hfits' : storedSpecials.Fits 36 128 1 := ⟨rfl, le_rfl, by decide, rfl⟩
  have h := IntFormat.roundTrip_close .int8 (M := flushMachine)
    (D := plainMachine) rfl hfits hfits' (fun _ _ => rfl)
  exact h.2.2 0 Nat.one_pos 1 (by decide)

end Qtx.IntRoundTrips
