import Qtx.Mxfp4Blocks

/-!
# MXFP4 round trips

A compressed stream is decoded without rounding: every element is its level times the power
of two of its block. Compressing the decoded stream gives the compressed stream again.
-/
namespace Qtx.Mxfp4Blocks

open Qtx.BinaryFormats Qtx.ByteStreams Qtx.FloatWords Qtx.FloatMachine Qtx.FpeGuard Qtx.PackedDigits
  Qtx.ScaledBlocks
open Qtx.ScaledEncoders

/-- A word is exactly a level times `2 ^ (e - 127)`, or zero where the exponent byte `e` is. -/
structure IsScaledLevel (e8m0 nibble : BitVec 8) (v : BitVec 32) : Prop where
  finite : IsFinite v
  sign : v.msb = (nvfp4ElementToFP32 e2m1Tables nibble).msb
  /-- No word is subnormal. -/
  normal : magnitude v = 0 ∨ 2 ^ 23 ≤ magnitude v
  ticks : ticks v * 2 ^ 127 = if e8m0 = 0#8 then 0
    else ticks (nvfp4ElementToFP32 e2m1Tables nibble) * 2 ^ e8m0.toNat

theorem ticks_levelWord {b : Bool} {k : ℕ} (hk : k ≤ 7) :
    FloatWords.ticks (signed b (levelWord k)) = units 1 k * 2 ^ 148 := by
  have hall : ∀ b : Bool, ∀ k ≤ 7, FloatWords.ticks (signed b (levelWord k)) = units 1 k * 2 ^ 148 := by decide
  exact hall b k hk

namespace Stored

variable {s : Stored}

theorem isScaledLevel_value (hs : s.Canonical) {i : ℕ} (hi : i < 32) :
    IsScaledLevel s.exponent (s.nibble i) (s.value i) := by
  have hk := hs.level_le i hi
  have hlevel : nvfp4ElementToFP32 e2m1Tables (s.nibble i) = signed (s.sign i) (levelWord (s.level i)) :=
    levelWord_value hk
  have hbound : levelWord (s.level i) ≤ infinity := by
    have hall : ∀ k ≤ 7, levelWord k ≤ infinity := by decide
    exact hall _ hk
  refine ⟨value_finite hs hi, ?_, ?_, ?_⟩
  · rw [hlevel, msb_signed _ hbound]
    rcases value_cases hs hi with ⟨-, hvalue⟩ | ⟨-, -, hsign, -⟩
    · rw [hvalue, msb_signed _ (Nat.zero_le _)]
    · exact hsign
  · rcases value_cases hs hi with ⟨-, hvalue⟩ | ⟨-, -, -, hmag, hnormal, -⟩
    · rw [hvalue, magnitude_signed _ (Nat.zero_le _)]
      exact .inl rfl
    · right
      omega
  · rw [ticks_value hs hi, hlevel, ticks_levelWord hk]
    split_ifs
    · rw [Nat.zero_mul]
    · have hexponent : s.exponent.toNat + 21 + 127 = 148 + s.exponent.toNat := by omega
      rw [Nat.mul_assoc, Nat.mul_assoc, ← pow_add, ← pow_add, hexponent]

/-- The decoder reads a canonical block. -/
theorem decodeMXFP4_pack (D : Machine) (hs : s.Canonical) {p : Bytes} (hp : ∀ j < 17, p j = s.pack j) :
    ∃ v : ℕ → BitVec 32, decodeMXFP4 D e2m1Tables p = some (wordBytes v) ∧ ∀ i < 32, v i = s.value i := by
  have hexp : p 0 = s.exponent := by rw [hp 0 (by omega), pack, join_apply _ _ Nat.one_pos]
  have hne : s.exponent ≠ 0xFF#8 := by
    intro hc
    have hle := hs.exponent_le
    rw [hc] at hle
    exact absurd hle (by decide)
  rw [decodeMXFP4, hexp, if_neg hne]
  refine ⟨_, rfl, fun i hi => ?_⟩
  rw [nibbleAt_pack hs hp hi, mul_e8m0Scale D hs hi]

/-- Blocks with the same exponent, signs and levels are stored as the same bytes. -/
theorem pack_congr {t : Stored} (hexp : s.exponent = t.exponent)
    (h : ∀ i < 32, s.sign i = t.sign i ∧ s.level i = t.level i) {j : ℕ} (hj : j < 17) : s.pack j = t.pack j := by
  have hnibble : ∀ i < 32, s.nibble i = t.nibble i := by
    intro i hi
    rw [nibble, nibble, (h i hi).1, (h i hi).2]
  rcases Nat.eq_zero_or_pos j with rfl | hpos
  · rw [pack, pack, join_apply _ _ Nat.one_pos, join_apply _ _ Nat.one_pos, hexp]
  · obtain ⟨k, rfl⟩ : ∃ k, j = 1 + k := ⟨j - 1, by omega⟩
    have hskip : ∀ p : Bytes, p (1 + k) = p.skip 1 k := fun _ => rfl
    rw [hskip s.pack, hskip t.pack, pack, pack, join_skip_self, join_skip_self, join_apply _ _ (by omega),
      join_apply _ _ (by omega), packNibbles, packNibbles, hnibble _ (by omega), hnibble _ (by omega)]

end Stored

variable {M : Machine} {n b : ℕ}

/-- The block that the encoder stores for block `b` of a stream. -/
def storedAt (M : Machine) (src : Bytes) (b : ℕ) : Stored := storedOf M (wordAt (src.skip (b * 128)))

theorem compressFP32ToMXFP4_eq {x : Call} (hx : x.Fits 128 17 n) :
    compressFP32ToMXFP4 M e2m1Tables x =
      (n * 17, tile 17 (fun b => encodeMXFP4 M e2m1Tables (x.src.skip (b * 128))) x.dst n) := by
  rw [compressFP32ToMXFP4, Call.encodeBlocks, Call.checked_of_fits hx (by omega), Nat.mod_eq_of_lt hx.sized]

/-- What the encoder writes. -/
theorem compressFP32ToMXFP4_apply (hM : M.flush = true) {x : Call} (hx : x.Fits 128 17 n) (hb : b < n) {j : ℕ}
    (hj : j < 17) :
    (compressFP32ToMXFP4 M e2m1Tables x).2 (b * 17 + j) = (storedAt M x.src b).pack j := by
  rw [compressFP32ToMXFP4_eq hx]
  dsimp only
  rw [tile_apply _ _ hb hj, encodeMXFP4_eq hM _ hj, storedAt]

/-- What the decoder makes of it. -/
theorem decompressMXFP4ToFP32_stored (hM : M.flush = true) (D : Machine) {x c : Call} (hx : x.Fits 128 17 n)
    (hc : c.Fits 17 128 n) (hstored : ∀ k < n * 17, c.src k = (compressFP32ToMXFP4 M e2m1Tables x).2 k) :
    (decompressMXFP4ToFP32 D e2m1Tables c).1 = n * 128 ∧ ∀ b < n, ∀ i < 32,
      wordAt (decompressMXFP4ToFP32 D e2m1Tables c).2 (b * 32 + i) = (storedAt M x.src b).value i := by
  have hblock : ∀ b, b < n → ∃ v : ℕ → BitVec 32, decodeMXFP4 D e2m1Tables (c.src.skip (b * 17)) =
    some (wordBytes v) ∧
      ∀ i < 32, v i = (storedAt M x.src b).value i := by
    intro b hb
    apply Stored.decodeMXFP4_pack D (canonical_storedOf hM _)
    intro j hj
    have hend := block_end 17 hb
    rw [skip_apply, hstored _ (by omega), compressFP32ToMXFP4_apply hM hx hb hj, storedAt]
  choose! v hdecode hvalue using hblock
  rw [decompressMXFP4ToFP32, Call.decodeBlocks_accepts hc (by omega) hdecode]
  refine ⟨rfl, fun b hb i hi => ?_⟩
  dsimp only
  rw [wordAt_tile (k := 32) _ _ hb hi, wordAt_wordBytes, hvalue b hb i hi]

/-- A compressed stream decodes exactly, and what it decodes to is compressed to the same bytes. -/
theorem exact_after_compression {M D : Machine} (hM : M.flush = true) {n : ℕ} {x c y : Call} (hx : x.Fits 128 17 n)
    (hc : c.Fits 17 128 n) (hy : y.Fits 128 17 n)
    (hstored : ∀ k < n * 17, c.src k = (compressFP32ToMXFP4 M e2m1Tables x).2 k)
    (hdecoded : ∀ k < n * 128, y.src k = (decompressMXFP4ToFP32 D e2m1Tables c).2 k) :
    (compressFP32ToMXFP4 M e2m1Tables x).1 = n * 17 ∧
    (decompressMXFP4ToFP32 D e2m1Tables c).1 = n * 128 ∧
    (∀ b < n, ∀ i < 32, IsScaledLevel (c.src (b * 17)) (nibbleAt (c.src.skip (b * 17 + 1)) i)
      (wordAt (decompressMXFP4ToFP32 D e2m1Tables c).2 (b * 32 + i))) ∧
    (compressFP32ToMXFP4 M e2m1Tables y).1 = n * 17 ∧
    ∀ k < n * 17, (compressFP32ToMXFP4 M e2m1Tables y).2 k = c.src k := by
  obtain ⟨hsize, hwords⟩ := decompressMXFP4ToFP32_stored hM D hx hc hstored
  have hpack : ∀ b < n, ∀ j < 17, c.src (b * 17 + j) = (storedAt M x.src b).pack j := by
    intro b hb j hj
    have hend := block_end 17 hb
    rw [hstored _ (by omega), compressFP32ToMXFP4_apply hM hx hb hj]
  refine ⟨by rw [compressFP32ToMXFP4_eq hx], hsize, fun b hb i hi => ?_, by rw [compressFP32ToMXFP4_eq hy],
    fun k hk => ?_⟩
  · have hcanonical : (storedAt M x.src b).Canonical := canonical_storedOf hM _
    have hexp : c.src (b * 17) = (storedAt M x.src b).exponent := by
      have hfirst := hpack b hb 0 (by omega)
      rwa [Nat.add_zero, Stored.pack, join_apply _ _ Nat.one_pos] at hfirst
    have hnibble := Stored.nibbleAt_pack hcanonical (p := c.src.skip (b * 17)) (hpack b hb) hi
    rw [skip_skip] at hnibble
    rw [hwords b hb i hi, hexp, hnibble]
    exact Stored.isScaledLevel_value hcanonical hi
  · obtain ⟨b, j, hb, hj, rfl⟩ : ∃ b j, b < n ∧ j < 17 ∧ k = b * 17 + j :=
      ⟨k / 17, k % 17, by omega, Nat.mod_lt _ (by omega), by omega⟩
    -- the decoded words of the block are the values of its canonical form
    have hblk : ∀ i < 32, wordAt (y.src.skip (b * 128)) i = (storedAt M x.src b).value i := by
      intro i hi
      have hend := block_end 128 hb
      rw [← hwords b hb i hi]
      apply loadU32_congr
      intro k hk
      have hoffset : b * 128 + (4 * i + k) = 4 * (b * 32 + i) + k := by ring
      rw [skip_apply, skip_apply, skip_apply, hoffset, hdecoded _ (by omega)]
    obtain ⟨hexp, hrest⟩ := storedOf_value hM (canonical_storedOf hM _) hblk
    rw [compressFP32ToMXFP4_apply hM hy hb hj, hpack b hb j hj]
    exact Stored.pack_congr hexp hrest hj

/-- One block of words that count up, the last of them NaN. -/
def countingBlock : Call where
  src := wordBytes (fun i => if i = 31 then 0x7FC00000#32 else flushMachine.ofInt i)
  srcSize := 128
  srcData := 0
  dst := fun _ => 0
  dstSize := 17
  dstData := 128

def storedBlock : Call where
  src := (compressFP32ToMXFP4 flushMachine e2m1Tables countingBlock).2
  srcSize := 17
  srcData := 0
  dst := fun _ => 0
  dstSize := 128
  dstData := 17

def decodedBlock : Call where
  src := (decompressMXFP4ToFP32 plainMachine e2m1Tables storedBlock).2
  srcSize := 128
  srcData := 0
  dst := fun _ => 0
  dstSize := 17
  dstData := 128

theorem exact_after_compression_counting :
    IsScaledLevel (storedBlock.src 0) (nibbleAt (storedBlock.src.skip 1) 30)
        (wordAt (decompressMXFP4ToFP32 plainMachine e2m1Tables storedBlock).2 30) ∧
      ∀ k < 17, (compressFP32ToMXFP4 flushMachine e2m1Tables decodedBlock).2 k = storedBlock.src k := by
  have hfits : countingBlock.Fits 128 17 1 := ⟨rfl, Nat.le_refl 17, by decide, rfl⟩
  have hfits' : storedBlock.Fits 17 128 1 := ⟨rfl, Nat.le_refl 128, by decide, rfl⟩
  have hfits'' : decodedBlock.Fits 128 17 1 := ⟨rfl, Nat.le_refl 17, by decide, rfl⟩
  have hstored : storedBlock.src = (compressFP32ToMXFP4 flushMachine e2m1Tables countingBlock).2 := by
    rw [storedBlock]
  have hdecoded : decodedBlock.src = (decompressMXFP4ToFP32 plainMachine e2m1Tables storedBlock).2 := by
    rw [decodedBlock]
  obtain ⟨-, -, hwords, -, hback⟩ := exact_after_compression (M := flushMachine) rfl hfits hfits' hfits''
    (fun k _ => congrFun hstored k) (fun k _ => congrFun hdecoded k)
  exact ⟨hwords 0 Nat.one_pos 30 (by omega), hback⟩

end Qtx.Mxfp4Blocks
