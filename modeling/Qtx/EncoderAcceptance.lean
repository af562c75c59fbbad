import Qtx.BlockScales
import Qtx.GridEncoders

/-!
# What the decoders accept of what the encoders write

A decoder accepts every block of its encoder, with one exception: in the formats that put
their levels between the least and the largest word of a sub-block, the difference of the
two can overflow, and the block is written with an infinite scale.
-/
namespace Qtx.BlockFormats

open Qtx.ByteStreams Qtx.FloatWords Qtx.FloatMachine Qtx.FpeGuard Qtx.QuantizerHelpers Qtx.FloatScans
  Qtx.LegacyBlocks Qtx.KQuants Qtx.IQuants Qtx.GridFields Qtx.EncoderScales

namespace BlockFormat

/-- The number of words between whose extremes a format puts its levels. -/
def rangeSize : BlockFormat → Option ℕ
  | q4_1 | q5_1 | q4_K | q5_K => some 32
  | q2_K => some 16
  | _ => none

/-- No two words of a sub-block are so far apart that their difference overflows. -/
def NarrowRanges (f : BlockFormat) (block : Bytes) : Prop :=
  ∀ n ∈ f.rangeSize, ∀ g < f.elements / n, Narrow (fun j => wordAt block (n * g + j)) n

variable {M M' : Machine} {C C' : Codebooks}

theorem sound_shapeQ2_K : Sound shapeQ2_K := ⟨by decide, by decide, by decide, by decide, by decide⟩

theorem sound_shapeQ4_K : Sound shapeQ4_K := ⟨by decide, by decide, by decide, by decide, by decide⟩

theorem sound_shapeQ5_K : Sound shapeQ5_K := ⟨by decide, by decide, by decide, by decide, by decide⟩

/-- A block with one stored scale. -/
theorem accepted_one {f : BlockFormat} {bytes : Bytes} {d : BitVec 32}
    (h : f.storedScales bytes = [fp32ToFP16Safe d]) (hd : IsFinite d) :
    ∀ h ∈ f.storedScales bytes, AcceptedScale h := by
  simpa [h, acceptedScale_stored_iff] using hd

/-- A block with a scale and a minimum that is always finite. -/
theorem accepted_two {f : BlockFormat} {bytes : Bytes} {d dmin : BitVec 32}
    (h : f.storedScales bytes = [fp32ToFP16Safe d, fp32ToFP16Safe dmin]) (hmin : IsFinite dmin) :
    (∀ h ∈ f.storedScales bytes, AcceptedScale h) ↔ IsFinite d := by
  simp [h, acceptedScale_stored_iff, hmin]

/-- One range over a block of 32 words. -/
theorem finite_range_iff {c : BitVec 32} (hc : AtLeastOne c) (hsign : c.msb = false) (block : Bytes) :
    IsFinite (M.div (M.sub (subBlockMinMax M (wordAt block) 32).2 (subBlockMinMax M (wordAt block) 32).1) c) ↔
      Narrow (wordAt block) 32 := by
  obtain ⟨hlo, hhi⟩ := subBlockMinMax_finite M (wordAt block) 32
  have hcap := div_sub_capped hhi hlo (value_min_le_max (M := M) (wordAt block) (by decide)) hc hsign
  rw [hcap.2, narrow_iff M (by decide)]

theorem narrowRanges_one {f : BlockFormat} (hsize : f.rangeSize = some 32) (helements : f.elements = 32)
    (block : Bytes) :
    f.NarrowRanges block ↔ Narrow (wordAt block) 32 := by
  simp [NarrowRanges, hsize, helements]

theorem narrowRanges_subBlocks {f : BlockFormat} {s : RangeShape} {block : Bytes}
    (hsize : f.rangeSize = some s.subSize) (hblocks : f.elements / s.subSize = s.subBlocks) :
    f.NarrowRanges block ↔ NarrowBlocks s (wordAt block) := by
  simp only [NarrowRanges, NarrowBlocks, hsize, Option.mem_some_iff, forall_eq', hblocks]

theorem storedScales_blockFormat (f : GridFormat) (block : Bytes) :
    f.blockFormat.storedScales block = [(f.read block).d] := by
  cases f <;> rfl

/-- The I-quants with fields accept every block. -/
theorem accepted_grid (f : GridFormat) (block : Bytes) :
    ∀ h ∈ f.blockFormat.storedScales (f.blockFormat.encode M C block), AcceptedScale h := by
  rcases f.encode_eq (M := M) (C := C) block with ⟨-, hz⟩ | ⟨-, x, hx, hpack⟩
  · rw [hz]
    exact storedScales_zero _
  · obtain ⟨v, hv, hd⟩ := hx.scale
    rw [hpack]
    apply accepted_one _ hv
    rw [storedScales_blockFormat, (GridLayouts.readsBack f hx.inRange).d, hd]

theorem narrowRanges_of_none {f : BlockFormat} (hf : f.rangeSize = none) (block : Bytes) :
    f.NarrowRanges block := by
  simp [NarrowRanges, hf]

theorem narrowRanges_grid (f : GridFormat) (block : Bytes) : f.blockFormat.NarrowRanges block :=
  narrowRanges_of_none (by cases f <;> rfl) block

/-- A block is accepted if and only if none of its ranges overflows. -/
theorem accepted_encode_iff (f : BlockFormat) (block : Bytes) :
    (∀ h ∈ f.storedScales (f.encode M C block), AcceptedScale h) ↔ f.NarrowRanges block := by
  cases f with
  | q4_1 =>
    rw [encode, encodeQ4_1]
    dsimp only
    rw [accepted_two (storedScales_packQ4_1 _ _ _) (subBlockMinMax_finite M _ _).1,
      finite_range_iff (by decide) (by decide), narrowRanges_one rfl rfl]
  | q5_1 =>
    rw [encode, encodeQ5_1]
    dsimp only
    rw [accepted_two (storedScales_packQ5_1 _ _ _) (subBlockMinMax_finite M _ _).1,
      finite_range_iff (by decide) (by decide), narrowRanges_one rfl rfl]
  | q5_0 =>
    have hc : AtLeastOne (fneg (literal 16 1)) := by decide
    rw [encode, encodeQ5_0]
    exact iff_of_true (accepted_one (storedScales_packQ5_0 _ _) (hc.div (subBlockSignedAbsMax_finite M _ _)))
      (narrowRanges_of_none rfl block)
  | iq4_NL =>
    have hc : AtLeastOne minIQ4 := by decide
    rw [encode, encodeIQ4_NL]
    refine iff_of_true (accepted_one (storedScales_packIQ4_NL _ _) ?_) (narrowRanges_of_none rfl block)
    split_ifs
    · exact hc.div (subBlockSignedAbsMax_finite M _ _)
    · exact finite_zero
  | q3_K =>
    have hc : AtLeastOne (fneg (literal 4 1)) := by decide
    rw [encode, encodeQ3_K]
    dsimp only
    refine iff_of_true ?_ (narrowRanges_of_none rfl block)
    split_ifs
    · exact storedScales_zero _
    · exact accepted_one (storedScales_packQ3_K _ _ _)
        (finite_inverse (by decide) (by decide) (fun ib => finite_subScale hc 16 _ ib) 16)
  | q6_K =>
    have hc : AtLeastOne (fneg (literal 32 1)) := by decide
    rw [encode, encodeQ6_K]
    dsimp only
    refine iff_of_true ?_ (narrowRanges_of_none rfl block)
    split_ifs
    · exact storedScales_zero _
    · exact accepted_one (storedScales_packQ6_K _ _ _)
        (finite_inverse (by decide) (by decide) (fun ib => finite_subScale hc 16 _ ib) 16)
  | q2_K =>
    rw [encode, encodeQ2_K, accepted_two (storedScales_packQ2_K _ _ _ _ _) (rangePlan_finite sound_shapeQ2_K).2,
      (rangePlan_finite sound_shapeQ2_K).1, narrowRanges_subBlocks (s := shapeQ2_K) rfl rfl]
  | q4_K =>
    rw [encode, encodeQ4_K, narrowRanges_subBlocks (s := shapeQ4_K) rfl rfl]
    split_ifs with hz
    · exact iff_of_true (storedScales_zero _) (narrowBlocks_of_isZeroRange sound_shapeQ4_K hz)
    · rw [accepted_two (storedScales_packQ4_K _ _ _ _ _) (rangePlan_finite sound_shapeQ4_K).2,
        (rangePlan_finite sound_shapeQ4_K).1]
  | q5_K =>
    rw [encode, encodeQ5_K, narrowRanges_subBlocks (s := shapeQ5_K) rfl rfl]
    split_ifs with hz
    · exact iff_of_true (storedScales_zero _) (narrowBlocks_of_isZeroRange sound_shapeQ5_K hz)
    · rw [accepted_two (storedScales_packQ5_K _ _ _ _ _) (rangePlan_finite sound_shapeQ5_K).2,
        (rangePlan_finite sound_shapeQ5_K).1]
  | iq4_XS => exact iff_of_true (accepted_grid .iq4_XS block) (narrowRanges_grid .iq4_XS block)
  | iq2_XXS => exact iff_of_true (accepted_grid .iq2_XXS block) (narrowRanges_grid .iq2_XXS block)
  | iq2_XS => exact iff_of_true (accepted_grid .iq2_XS block) (narrowRanges_grid .iq2_XS block)
  | iq2_S => exact iff_of_true (accepted_grid .iq2_S block) (narrowRanges_grid .iq2_S block)
  | iq3_XXS => exact iff_of_true (accepted_grid .iq3_XXS block) (narrowRanges_grid .iq3_XXS block)
  | iq3_S => exact iff_of_true (accepted_grid .iq3_S block) (narrowRanges_grid .iq3_S block)
  | iq1_S => exact iff_of_true (accepted_grid .iq1_S block) (narrowRanges_grid .iq1_S block)
  | iq1_M => exact iff_of_true (accepted_grid .iq1_M block) (narrowRanges_grid .iq1_M block)

/-! Streams. -/

/-- The stored scales lie within the block. -/
theorem storedScales_congr (f : BlockFormat) {p q : Bytes} (h : ∀ k < f.blockBytes, p k = q k) :
    f.storedScales p = f.storedScales q := by
  have hload : ∀ k, k + 2 ≤ f.blockBytes → loadU16 (p.skip k) = loadU16 (q.skip k) := by
    intro k hk
    exact loadU16_congr (fun i hi => h (k + i) (by omega))
  have hfirst : 2 ≤ f.blockBytes → loadU16 p = loadU16 q := fun hk => loadU16_congr (fun i hi => h i (by omega))
  cases f
  case iq1_M =>
    have hword : ∀ k < 4, wordIQ1_M p k = wordIQ1_M q k := by
      intro k hk
      exact congrArg BitVec.toNat (loadU16_congr (fun i hi => h (48 + (2 * k + i)) (by rw [blockBytes]; omega)))
    simp only [storedScales, superIQ1_M, hword 0 (by decide), hword 1 (by decide), hword 2 (by decide),
      hword 3 (by decide)]
  case q4_1 | q5_1 | q4_K | q5_K => simp only [storedScales, hfirst (by decide), hload 2 (by decide)]
  case q2_K => simp only [storedScales, hload 80 (by decide), hload 82 (by decide)]
  case q3_K => simp only [storedScales, hload 108 (by decide)]
  case q6_K => simp only [storedScales, hload 208 (by decide)]
  all_goals simp only [storedScales, hfirst (by decide)]

/-- Decompressing what an encoder wrote answers the original size if and only if no range of any block
overflows. -/
theorem decompress_compress_size {f : BlockFormat} {c d : Call} {n : ℕ}
    (hc : c.Fits (f.elements * 4) f.blockBytes n) (hd : d.Fits f.blockBytes (f.elements * 4) n)
    (hsrc : ∀ a < n * f.blockBytes, d.src a = (f.compress M C c).2 a) :
    (f.decompress M' C' d).1 = c.srcSize ↔ ∀ b < n, f.NarrowRanges (c.src.skip (b * (f.elements * 4))) := by
  have hin : 0 < f.elements * 4 := Nat.mul_pos f.elements_pos (by decide)
  have hblock : ∀ b < n, ((f.decode M' C' (d.src.skip (b * f.blockBytes))).isSome = true ↔
      f.NarrowRanges (c.src.skip (b * (f.elements * 4)))) := by
    intro b hb
    have hbytes : ∀ k < f.blockBytes,
        d.src.skip (b * f.blockBytes) k = f.encode M C (c.src.skip (b * (f.elements * 4))) k := by
      intro k hk
      have hend := block_end f.blockBytes hb
      rw [skip_apply, hsrc _ (by omega), compress_eq, Call.encodeBlocks, Call.checked_of_fits hc hin]
      exact tile_apply _ _ hb hk
    rw [decode_isSome_iff, storedScales_congr f hbytes, accepted_encode_iff]
  rw [decompress_eq, Call.decodeBlocks, Call.checked_of_fits hd f.blockBytes_pos,
    Nat.mod_eq_of_lt hd.sized, hc.srcSize, ← forall₂_congr hblock]
  dsimp only
  rw [← tileWhile_accepted (f.elements * 4) _ d.dst n]
  split_ifs with hall
  · exact iff_of_true rfl hall
  · -- a call of no blocks is never rejected
    refine iff_of_false ?_ hall
    intro hzero
    obtain rfl : n = 0 := (Nat.mul_eq_zero.mp hzero.symm).resolve_right (Nat.ne_of_gt hin)
    exact hall rfl

/-- One block of Q4_1, encoded into a buffer behind it. -/
def oneBlockCall (src : Bytes) : Call where
  src := src
  srcSize := 128
  srcData := 0
  dst := fun _ => 0
  dstSize := 20
  dstData := 128

/-- The call that decodes what another one wrote. -/
def returnCall (c : Call) : Call where
  src := (q4_1.compress plainMachine emptyCodebooks c).2
  srcSize := 20
  srcData := 0
  dst := fun _ => 0
  dstSize := 128
  dstData := 20

theorem fits_oneBlockCall (src : Bytes) : (oneBlockCall src).Fits (q4_1.elements * 4) q4_1.blockBytes 1 :=
  ⟨rfl, Nat.le_refl 20, by decide, rfl⟩

theorem fits_returnCall (c : Call) : (returnCall c).Fits q4_1.blockBytes (q4_1.elements * 4) 1 :=
  ⟨rfl, Nat.le_refl 128, by decide, rfl⟩

/-- A negative word and two positive ones in turn. -/
def spreadWords (i : ℕ) : BitVec 32 := if i % 3 = 0 then fneg one else if i % 3 = 1 then half else literal 3 1

theorem narrow_spreadWords (k n : ℕ) : Narrow (fun j => spreadWords (k + j)) n := by
  intro i _ j _
  dsimp only [spreadWords]
  split_ifs <;> decide

theorem wordAt_spreadWords : wordAt (wordBytes spreadWords) = spreadWords := funext (wordAt_wordBytes spreadWords)

theorem decompress_compress_size_spread :
    (q4_1.decompress plainMachine emptyCodebooks (returnCall (oneBlockCall (wordBytes spreadWords)))).1 = 128 := by
  refine (decompress_compress_size (fits_oneBlockCall _) (fits_returnCall _) (fun _ _ => rfl)).mpr ?_
  intro b hb
  obtain rfl := Nat.lt_one_iff.mp hb
  have hnarrow := narrow_spreadWords 0 32
  simp only [Nat.zero_add] at hnarrow
  rw [narrowRanges_one rfl rfl, Nat.zero_mul, skip_zero]
  change Narrow (wordAt (wordBytes spreadWords)) 32
  rwa [wordAt_spreadWords]

/-- The largest float and its negative in one block. -/
def extremeWords (i : ℕ) : BitVec 32 := if i = 0 then maxFloat else if i = 1 then fneg maxFloat else zero

theorem decompress_rejects_extremeWords :
    (oneBlockCall (wordBytes extremeWords)).Fits (q4_1.elements * 4) q4_1.blockBytes 1 ∧
      (returnCall (oneBlockCall (wordBytes extremeWords))).Fits q4_1.blockBytes (q4_1.elements * 4) 1 ∧
      (q4_1.decompress plainMachine emptyCodebooks
        (returnCall (oneBlockCall (wordBytes extremeWords)))).1 ≠
        (oneBlockCall (wordBytes extremeWords)).srcSize := by
  refine ⟨fits_oneBlockCall _, fits_returnCall _, ?_⟩
  decide +kernel

end BlockFormat

end Qtx.BlockFormats
