import Qtx.BlockFormats
import Qtx.StreamReads

/-!
# What the block encoders read

A scan reads its words and no others, so the plan that an encoder makes of a block depends
on the words of the block, and the packed bytes depend on the scales and levels of its
sub-blocks.
-/
namespace Qtx.LevelReads

open Qtx.ByteStreams Qtx.FloatMachine Qtx.FpeGuard Qtx.PackedDigits Qtx.QuantizerHelpers Qtx.StreamReads
  Qtx.LegacyBlocks Qtx.KQuants

variable {M : Machine} {n : ℕ} {p q : ℕ → BitVec 32}

/-! Scans. -/

theorem subBlockSignedAbsMax_congr (h : ∀ j < n, p j = q j) :
    subBlockSignedAbsMax M p n = subBlockSignedAbsMax M q n :=
  congrArg Prod.snd (loop_congr _ fun j hj acc => by rw [h j hj])

theorem subBlockMinMax_congr (h : ∀ j < n, p j = q j) : subBlockMinMax M p n = subBlockMinMax M q n :=
  loop_congr _ fun j hj acc => by rw [h j hj]

theorem absMax_congr (h : ∀ j < n, p j = q j) : absMax M p n = absMax M q n :=
  loop_congr _ fun j hj acc => by rw [h j hj]

theorem positiveMax_congr (h : ∀ j < n, p j = q j) : positiveMax M p n = positiveMax M q n :=
  loop_congr _ fun j hj acc => by rw [h j hj]

theorem extremeScale_congr (h : ∀ j < n, p j = q j) : extremeScale M p n = extremeScale M q n :=
  loop_congr _ fun j hj acc => by rw [h j hj]

/-- The words of a block. -/
theorem wordAt_same {block block' : Bytes} (h : SameBytes (n * 4) block block') :
    ∀ i < n, wordAt block i = wordAt block' i :=
  fun _ hi => h.wordAt_eq (by omega)

/-! Packing. -/

section Packing

variable {x y : ℕ → ℕ} {k : ℕ}

theorem packHalves_congr (h : ∀ i < 32, x i = y i) (hk : k < 16) : packHalves x k = packHalves y k := by
  rw [packHalves, packHalves, h k (by omega), h (k + 16) (by omega)]

theorem packFifth_congr (h : ∀ i < 32, x i = y i) : packFifth x = packFifth y := by
  rw [packFifth, packFifth]
  exact congrArg _ (loop_congr _ fun j hj qh => by rw [h j (by omega), h (j + 16) (by omega)])

theorem packStripes_congr (h : ∀ i < 256, x i = y i) (hk : k < 64) : packStripes x k = packStripes y k := by
  simp only [packStripes]
  rw [h _ (by omega), h (_ + 32) (by omega), h (_ + 64) (by omega), h (_ + 96) (by omega)]

theorem packHighBits_congr {x y : ℕ → Bool} (h : ∀ i < 256, x i = y i) (hk : k < 32) :
    packHighBits x k = packHighBits y k :=
  congrArg (BitVec.ofNat 8) (bitMask_congr fun t ht => h (32 * t + k) (by omega))

theorem packPairs_congr (h : ∀ i < 256, x i = y i) (hk : k < 128) : packPairs x k = packPairs y k := by
  simp only [packPairs]
  rw [h _ (by omega), h (_ + 32) (by omega)]

theorem packLowQ6K_congr (h : ∀ i < 256, x i = y i) (hk : k < 128) : packLowQ6K x k = packLowQ6K y k := by
  simp only [packLowQ6K]
  rw [h _ (by omega), h (_ + 64) (by omega)]

theorem packScalesMinsK4_congr {min min' : ℕ → ℕ} (h : ∀ j < 8, x j = y j) (hmin : ∀ j < 8, min j = min' j)
    (hk : k < 12) : packScalesMinsK4 x min k = packScalesMinsK4 y min' k := by
  simp only [packScalesMinsK4]
  split_ifs
  · rw [h k (by omega), h (k + 4) (by omega)]
  · rw [hmin (k - 4) (by omega), hmin k (by omega)]
  · rw [h (k - 4) (by omega), hmin (k - 4) (by omega)]

theorem packScalesQ3K_congr (h : ∀ j < 16, x j = y j) (hk : k < 12) : packScalesQ3K x k = packScalesQ3K y k := by
  simp only [packScalesQ3K]
  split_ifs
  · rw [h k (by omega), h (k + 8) (by omega)]
  · rw [h (k - 8) (by omega), h (k - 4) (by omega), h k (by omega), h (k + 4) (by omega)]

/-! Whole blocks. -/

variable {d m : BitVec 16} {min min' : ℕ → ℕ} {level level' : ℕ → ℕ}

theorem packQ4_1_congr (h : ∀ i < 32, x i = y i) : packQ4_1 d m x = packQ4_1 d m y := by
  refine join_congr (fun _ _ => rfl) (join_congr (fun _ _ => rfl) (join_congr (fun j hj => ?_) rfl))
  rw [h j (by omega), h (j + 16) (by omega)]

theorem packQ5_0_congr (h : ∀ i < 32, x i = y i) : packQ5_0 d x = packQ5_0 d y := by
  rw [packQ5_0, packQ5_0, packFifth_congr h]
  refine join_congr (fun _ _ => rfl) (join_congr (fun _ _ => rfl) (join_congr (fun k hk => ?_) rfl))
  exact packHalves_congr h hk

theorem packQ5_1_congr (h : ∀ i < 32, x i = y i) : packQ5_1 d m x = packQ5_1 d m y := by
  rw [packQ5_1, packQ5_1, packFifth_congr h]
  refine join_congr (fun _ _ => rfl) (join_congr (fun _ _ => rfl) (join_congr (fun _ _ => rfl)
    (join_congr (fun k hk => ?_) rfl)))
  exact packHalves_congr h hk

theorem packQ2_K_congr (hs : ∀ j < 16, x j = y j) (hm : ∀ j < 16, min j = min' j)
    (hl : ∀ i < 256, level i = level' i) :
    packQ2_K x min level d m = packQ2_K y min' level' d m := by
  refine join_congr (fun j hj => ?_) (join_congr (fun k hk => packStripes_congr hl hk) rfl)
  rw [hs j hj, hm j hj]

theorem packQ3_K_congr (hs : ∀ j < 16, x j = y j) (hl : ∀ i < 256, level i = level' i) :
    packQ3_K x level d = packQ3_K y level' d := by
  refine join_congr (fun k hk => ?_) (join_congr (fun k hk => ?_) (join_congr (fun k hk => ?_) rfl))
  · exact packHighBits_congr (fun i hi => by rw [hl i hi]) hk
  · exact packStripes_congr (fun i hi => by rw [hl i hi]) hk
  · exact packScalesQ3K_congr hs hk

theorem packQ4_K_congr (hs : ∀ j < 8, x j = y j) (hm : ∀ j < 8, min j = min' j)
    (hl : ∀ i < 256, level i = level' i) :
    packQ4_K d m x min level = packQ4_K d m y min' level' := by
  refine join_congr (fun _ _ => rfl) (join_congr (fun _ _ => rfl) (join_congr (fun k hk => ?_)
    (join_congr (fun k hk => packPairs_congr hl hk) rfl)))
  exact packScalesMinsK4_congr hs hm hk

theorem packQ5_K_congr (hs : ∀ j < 8, x j = y j) (hm : ∀ j < 8, min j = min' j)
    (hl : ∀ i < 256, level i = level' i) :
    packQ5_K d m x min level = packQ5_K d m y min' level' := by
  refine join_congr (fun _ _ => rfl) (join_congr (fun _ _ => rfl) (join_congr (fun k hk => ?_)
    (join_congr (fun k hk => ?_) (join_congr (fun k hk => ?_) rfl))))
  · exact packScalesMinsK4_congr hs hm hk
  · exact packHighBits_congr (fun i hi => by rw [hl i hi]) hk
  · exact packPairs_congr (fun i hi => by rw [hl i hi]) hk

theorem packQ6_K_congr {scale scale' : ℕ → BitVec 8} (hl : ∀ i < 256, level i = level' i)
    (hs : ∀ j < 16, scale j = scale' j) : packQ6_K level scale d = packQ6_K level' scale' d := by
  refine join_congr (fun k hk => ?_) (join_congr (fun k hk => ?_) (join_congr (fun k hk => hs k hk) rfl))
  · exact packLowQ6K_congr hl hk
  · exact packStripes_congr (fun i hi => by rw [hl i hi]) hk

end Packing

/-! Sub-blocks between their least and their largest word. -/

section Ranges

variable {s : RangeShape} {blk blk' : ℕ → BitVec 32}

theorem subRange_congr {ib : ℕ} (h : ∀ i < s.subBlocks * s.subSize, blk i = blk' i) (hib : ib < s.subBlocks) :
    subRange M s blk ib = subRange M s blk' ib := by
  have hend := block_end s.subSize hib
  have hscan : subBlockMinMax M (fun j => blk (s.subSize * ib + j)) s.subSize =
      subBlockMinMax M (fun j => blk' (s.subSize * ib + j)) s.subSize :=
    subBlockMinMax_congr fun j hj => h _ (by rw [Nat.mul_comm s.subSize ib]; omega)
  rw [subRange, subRange, hscan]

theorem maxRanges_congr (h : ∀ i < s.subBlocks * s.subSize, blk i = blk' i) :
    maxRanges M s blk = maxRanges M s blk' :=
  loop_congr _ fun ib hib acc => by rw [subRange_congr h hib]

theorem isZeroRange_congr (h : ∀ i < s.subBlocks * s.subSize, blk i = blk' i) :
    isZeroRange M s blk = isZeroRange M s blk' := by
  rw [isZeroRange, isZeroRange, maxRanges_congr h]

/-- The same plan, as far as the shape has sub-blocks. -/
structure SamePlan (s : RangeShape) (x y : RangePlan) : Prop where
  d : x.d = y.d
  dmin : x.dmin = y.dmin
  scale : ∀ ib < s.subBlocks, x.scale ib = y.scale ib
  min : ∀ ib < s.subBlocks, x.min ib = y.min ib
  level : ∀ i < s.subBlocks * s.subSize, x.level i = y.level i

theorem rangePlan_same (h : ∀ i < s.subBlocks * s.subSize, blk i = blk' i) :
    SamePlan s (rangePlan M s blk) (rangePlan M s blk') := by
  have hmax := maxRanges_congr (M := M) h
  have hscale : ∀ ib < s.subBlocks, (rangePlan M s blk).scale ib = (rangePlan M s blk').scale ib := by
    intro ib hib
    simp only [rangePlan, hmax, subRange_congr h hib]
  have hmin : ∀ ib < s.subBlocks, (rangePlan M s blk).min ib = (rangePlan M s blk').min ib := by
    intro ib hib
    simp only [rangePlan, hmax, subRange_congr h hib]
  refine ⟨?_, ?_, hscale, hmin, fun i hi => ?_⟩
  · simp only [rangePlan, hmax]
  · simp only [rangePlan, hmax]
  · have hib : i / s.subSize < s.subBlocks := Nat.div_lt_of_lt_mul (by rwa [Nat.mul_comm])
    have hs := hscale _ hib
    have hm := hmin _ hib
    simp only [rangePlan] at hs hm ⊢
    rw [hs, hm, hmax, h i hi]

end Ranges

/-! The encoders. -/

section Encoders

variable {p q : Bytes}

theorem encodeQ4_1_congr (h : SameBytes 128 p q) : encodeQ4_1 M p = encodeQ4_1 M q := by
  have hblk := wordAt_same (n := 32) h
  simp only [encodeQ4_1, subBlockMinMax_congr hblk]
  exact packQ4_1_congr fun i hi => by rw [hblk i hi]

theorem encodeQ5_0_congr (h : SameBytes 128 p q) : encodeQ5_0 M p = encodeQ5_0 M q := by
  have hblk := wordAt_same (n := 32) h
  simp only [encodeQ5_0, subBlockSignedAbsMax_congr hblk]
  exact packQ5_0_congr fun i hi => by rw [hblk i hi]

theorem encodeQ5_1_congr (h : SameBytes 128 p q) : encodeQ5_1 M p = encodeQ5_1 M q := by
  have hblk := wordAt_same (n := 32) h
  simp only [encodeQ5_1, subBlockMinMax_congr hblk]
  exact packQ5_1_congr fun i hi => by rw [hblk i hi]

theorem encodeQ2_K_congr (h : SameBytes 1024 p q) : encodeQ2_K M p = encodeQ2_K M q := by
  have hplan := rangePlan_same (M := M) (s := shapeQ2_K) (wordAt_same (n := 256) h)
  simp only [encodeQ2_K, hplan.d, hplan.dmin]
  exact packQ2_K_congr hplan.scale hplan.min hplan.level

theorem encodeQ4_K_congr (h : SameBytes 1024 p q) : encodeQ4_K M p = encodeQ4_K M q := by
  have hblk : ∀ i < shapeQ4_K.subBlocks * shapeQ4_K.subSize, wordAt p i = wordAt q i := wordAt_same (n := 256) h
  have hplan := rangePlan_same (M := M) hblk
  simp only [encodeQ4_K, isZeroRange_congr hblk, hplan.d, hplan.dmin]
  exact if_congr Iff.rfl rfl (packQ4_K_congr hplan.scale hplan.min hplan.level)

theorem encodeQ5_K_congr (h : SameBytes 1024 p q) : encodeQ5_K M p = encodeQ5_K M q := by
  have hblk : ∀ i < shapeQ5_K.subBlocks * shapeQ5_K.subSize, wordAt p i = wordAt q i := wordAt_same (n := 256) h
  have hplan := rangePlan_same (M := M) hblk
  simp only [encodeQ5_K, isZeroRange_congr hblk, hplan.d, hplan.dmin]
  exact if_congr Iff.rfl rfl (packQ5_K_congr hplan.scale hplan.min hplan.level)

theorem subScale_congr {size : ℕ} {lowest : BitVec 32} {blk blk' : ℕ → BitVec 32} {n ib : ℕ}
    (h : ∀ i < n * size, blk i = blk' i) (hib : ib < n) :
    subScale M size lowest blk ib = subScale M size lowest blk' ib := by
  have hend := block_end size hib
  have hscan : subBlockSignedAbsMax M (fun j => blk (size * ib + j)) size =
      subBlockSignedAbsMax M (fun j => blk' (size * ib + j)) size :=
    subBlockSignedAbsMax_congr fun j hj => h _ (by rw [Nat.mul_comm size ib]; omega)
  rw [subScale, subScale, hscan]

theorem encodeQ3_K_congr (h : SameBytes 1024 p q) : encodeQ3_K M p = encodeQ3_K M q := by
  have hblk := wordAt_same (n := 256) h
  have hscale : ∀ ib < 16, subScale M 16 (fneg (literal 4 1)) (wordAt p) ib =
      subScale M 16 (fneg (literal 4 1)) (wordAt q) ib := fun ib hib => subScale_congr (n := 16) hblk hib
  simp only [encodeQ3_K, extremeScale_congr hscale]
  refine if_congr Iff.rfl rfl (packQ3_K_congr (fun j hj => ?_) (fun i hi => ?_))
  · rw [hscale j hj]
  · rw [hscale (i / 16) (by omega), hblk i hi]

theorem encodeQ6_K_congr (h : SameBytes 1024 p q) : encodeQ6_K M p = encodeQ6_K M q := by
  have hblk := wordAt_same (n := 256) h
  have hscale : ∀ ib < 16, subScale M 16 (fneg (literal 32 1)) (wordAt p) ib =
      subScale M 16 (fneg (literal 32 1)) (wordAt q) ib := fun ib hib => subScale_congr (n := 16) hblk hib
  simp only [encodeQ6_K, extremeScale_congr hscale]
  refine if_congr Iff.rfl rfl (packQ6_K_congr (fun i hi => ?_) (fun j hj => ?_))
  · rw [hscale (i / 16) (by omega), hblk i hi]
  · rw [hscale j hj]

end Encoders

end Qtx.LevelReads
