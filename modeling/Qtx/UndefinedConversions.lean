import Qtx.ConversionReads
import Qtx.LevelEncoders

/-!
# Where an undefined conversion shows

In the formats with ranges every scale, minimum and level of a block can be read back from
its bytes. One whose conversion is undefined is the least or the largest one, as the
conversion answers, so that bytes which are the same for all answers come from defined
conversions only.
-/
namespace Qtx.UndefinedConversions

open Qtx.ByteStreams Qtx.FloatWords Qtx.FloatMachine Qtx.FpeGuard Qtx.PackedDigits Qtx.QuantizerHelpers
  Qtx.LegacyBlocks Qtx.KQuants Qtx.IQuants Qtx.BlockFormats Qtx.LevelFields Qtx.LevelFields.LevelFormat
  Qtx.IntegerConversions Qtx.ConversionReads

variable {M : Machine} {block : Bytes}

section Conversions

variable {x : BitVec 32} {top : ℕ}

theorem toInt_answering (h : ¬ Convertible M x) (g : BitVec 32 → ℤ) : (answering M g).toInt x = g x := if_neg h

/-- A clamped integer that is the same whatever an undefined conversion answers comes from a defined one. -/
theorem convertible_of_clamped (htop : 0 < top)
    (h : ∀ g, (clampInt 0 top ((answering M g).toInt x)).toNat = (clampInt 0 top (M.toInt x)).toNat) :
    Convertible M x := by
  by_contra hundef
  have hsame := (h fun _ => 0).trans (h fun _ => top).symm
  rw [toInt_answering hundef, toInt_answering hundef, clampInt, clampInt] at hsame
  split_ifs at hsame <;> omega

theorem convertible_of_nearest (htop : 0 < top) (h : ∀ g,
    (clampInt 0 top (nearestInt (answering M g) x)).toNat = (clampInt 0 top (nearestInt M x)).toNat) :
    Convertible M (nearestArgument M x) := by
  by_contra hundef
  by_cases hsign : M.le zero x = true
  · have hnearest : ∀ g, nearestInt (answering M g) x = g (nearestArgument M x) := by
      intro g
      rw [← toInt_answering hundef g, nearestArgument, if_pos hsign]
      exact if_pos hsign
    have hsame := (h fun _ => 0).trans (h fun _ => top).symm
    rw [hnearest, hnearest, clampInt, clampInt] at hsame
    split_ifs at hsame <;> omega
  · have hnearest : ∀ g, nearestInt (answering M g) x = -g (nearestArgument M x) := by
      intro g
      rw [← toInt_answering hundef g, nearestArgument, if_neg hsign]
      exact if_neg hsign
    have hsame := (h fun _ => 0).trans (h fun _ => -top).symm
    rw [hnearest, hnearest, clampInt, clampInt] at hsame
    split_ifs at hsame <;> omega

end Conversions

section Ranges

variable {s : RangeShape} {blk : ℕ → BitVec 32}

/-- A plan that is the same for all answers comes from defined conversions. -/
theorem convertible_of_plans (htop : 0 < s.top) (hcodes : 0 < s.codes)
    (h : ∀ g, LevelReads.SamePlan s (rangePlan (answering M g) s blk) (rangePlan M s blk)) :
    ∀ w ∈ planConversions M s blk ∪ levelConversions M s blk, Convertible M w := by
  rintro w (⟨ib, hib, rfl | rfl⟩ | ⟨i, hi, hne, rfl⟩)
  · refine convertible_of_nearest htop fun g => ?_
    have hscale := (h g).scale ib hib
    rwa [scale_rangePlan, scale_rangePlan] at hscale
  · refine convertible_of_nearest htop fun g => ?_
    have hmin := (h g).min ib hib
    rwa [min_rangePlan, min_rangePlan] at hmin
  · refine convertible_of_nearest hcodes fun g => ?_
    have hib : i / s.subSize < s.subBlocks := Nat.div_lt_of_lt_mul (by rwa [Nat.mul_comm])
    have hlevel := (h g).level i hi
    rw [level_rangePlan, level_rangePlan, localScale_answering ((h g).scale _ hib),
      localMin_answering ((h g).min _ hib)]
      at hlevel
    exact (if_neg (Bool.eq_false_iff.mp hne)).symm.trans (hlevel.trans (if_neg (Bool.eq_false_iff.mp hne)))

/-- The plans of a shape are fields of a format without offsets. -/
structure Packs (f : LevelFormat) (s : RangeShape) : Prop where
  levelOffset : f.levelOffset = 0
  scaleOffset : f.scaleOffset = 0
  top_pos : 0 < s.top
  top_lt : s.top < 2 ^ f.scaleBits
  codes_pos : 0 < s.codes
  codes_lt : s.codes < 2 ^ f.levelBits
  blocks : s.subBlocks = f.subBlocks
  mins : s.subBlocks = f.minBlocks
  size : s.subBlocks * s.subSize = f.blockFormat.elements

/-- Plans that are packed into the same bytes. -/
theorem Packs.samePlan {f : LevelFormat} {g : BitVec 32 → ℤ} (hf : Packs f s)
    (h : f.pack (planFields (rangePlan (answering M g) s blk)) = f.pack (planFields (rangePlan M s blk))) :
    LevelReads.SamePlan s (rangePlan (answering M g) s blk) (rangePlan M s blk) := by
  have hin := fun N : Machine =>
    inRange_planFields (M := N) hf.levelOffset hf.scaleOffset hf.top_lt hf.codes_lt blk
  have hread : f.Agree (f.read (f.pack (planFields (rangePlan M s blk))))
      (planFields (rangePlan (answering M g) s blk)) :=
    read_of_packed (hin (answering M g)) (fun k _ => congrFun h k)
  have hagree := hread.symm.trans (read_of_packed (hin M) (fun _ _ => rfl))
  refine ⟨rfl, rfl, fun ib hib => ?_, fun ib hib => ?_, fun i hi => ?_⟩
  · exact Int.ofNat.inj (hagree.scale ib (hf.blocks ▸ hib))
  · exact Int.ofNat.inj (hagree.min ib (hf.mins ▸ hib))
  · exact Int.ofNat.inj (hagree.level i (hf.size ▸ hi))

/-- A super-block that is the same for all answers comes from defined conversions. -/
theorem Packs.convertible {f : LevelFormat} (hf : Packs f s)
    (h : ∀ g, f.pack (planFields (rangePlan (answering M g) s blk)) = f.pack (planFields (rangePlan M s blk))) :
    ∀ w ∈ planConversions M s blk ∪ levelConversions M s blk, Convertible M w :=
  convertible_of_plans hf.top_pos hf.codes_pos fun g => hf.samePlan (h g)

/-- Super-blocks without a range are written as zeros, without any conversion. -/
theorem Packs.convertible_unless_zero {f : LevelFormat} (hf : Packs f s)
    (h : ∀ g, (if isZeroRange M s blk then fun _ => 0
        else f.pack (planFields (rangePlan (answering M g) s blk))) =
      if isZeroRange M s blk then fun _ => 0 else f.pack (planFields (rangePlan M s blk))) :
    ∀ w ∈ (if isZeroRange M s blk then ∅ else planConversions M s blk ∪ levelConversions M s blk),
      Convertible M w := by
  split_ifs at h ⊢
  · exact fun w hw => absurd hw (Set.notMem_empty w)
  · exact hf.convertible h

theorem convertible_of_encodeQ2_K (h : ∀ g, encodeQ2_K (answering M g) block = encodeQ2_K M block) :
    ∀ w ∈ conversionsQ2_K M block, Convertible M w := by
  have hpacks : Packs q2_K shapeQ2_K :=
    ⟨rfl, rfl, by decide, by decide, by decide, by decide, rfl, rfl, rfl⟩
  exact hpacks.convertible h

theorem convertible_of_encodeQ4_K (h : ∀ g, encodeQ4_K (answering M g) block = encodeQ4_K M block) :
    ∀ w ∈ conversionsQ4_K M block, Convertible M w := by
  have hpacks : Packs q4_K shapeQ4_K :=
    ⟨rfl, rfl, by decide, by decide, by decide, by decide, rfl, rfl, rfl⟩
  exact hpacks.convertible_unless_zero h

theorem convertible_of_encodeQ5_K (h : ∀ g, encodeQ5_K (answering M g) block = encodeQ5_K M block) :
    ∀ w ∈ conversionsQ5_K M block, Convertible M w := by
  have hpacks : Packs q5_K shapeQ5_K :=
    ⟨rfl, rfl, by decide, by decide, by decide, by decide, rfl, rfl, rfl⟩
  exact hpacks.convertible_unless_zero h

end Ranges

/-! Blocks with one range. -/

section Blocks

/-- The levels of Q4_1 are read back. -/
theorem unpackQ4_1_pack (d m : BitVec 16) {level : ℕ → ℕ} (hlevel : ∀ i, level i < 2 ^ 4) {i : ℕ} (hi : i < 32) :
    unpackQ4_1 (packQ4_1 d m level) i = level i := by
  rw [unpackQ4_1, LevelLayouts.unpackHalves_eq _ _ hi]
  refine LevelLayouts.halves.unpack_pack (fun i _ => hlevel i) (fun k (hk : k < 16) => ?_) hi
  have hpack := nibbles_eq (fun t => level (16 * t + k))
  rw [Nat.mul_zero, Nat.zero_add, Nat.mul_one, Nat.add_comm] at hpack
  rw [packQ4_1, skip_apply, Nat.add_assoc 2 2 k, join_add, join_add, join_apply _ _ hk]
  exact hpack

theorem unpackQ5_1_pack (d m : BitVec 16) {level : ℕ → ℕ} (hlevel : ∀ i, level i < 2 ^ 5) {i : ℕ} (hi : i < 32) :
    unpackQ5_1 (packQ5_1 d m level) i = level i := by
  have hin : q5_1.InRange ⟨d, m, fun _ => 0, fun _ => 0, fun i => level i⟩ :=
    ⟨fun i _ => fits_natCast (hlevel i), fun j hj => absurd hj (Nat.not_lt_zero j),
      fun j hj => absurd hj (Nat.not_lt_zero j)⟩
  exact Int.ofNat.inj ((read_of_packed hin fun _ _ => rfl).level i hi)

theorem rangeLevel_lt (top : ℕ) {bits : ℕ} (htop : top < 2 ^ bits) (vmin id v : BitVec 32) :
    rangeLevel M top vmin id v < 2 ^ bits := clamp_lt htop _

/-- A block of levels that is the same for all answers comes from defined conversions. -/
theorem convertible_of_rangeLevels {top bits : ℕ} (htop : 0 < top) (hbits : top < 2 ^ bits)
    {pack : (ℕ → ℕ) → Bytes} {unpack : Bytes → ℕ → ℕ}
    (hunpack : ∀ level : ℕ → ℕ, (∀ i, level i < 2 ^ bits) → ∀ i < 32, unpack (pack level) i = level i)
    {vmin id : BitVec 32} {v : ℕ → BitVec 32}
    (h : ∀ g, pack (fun j => rangeLevel (answering M g) top vmin id (v j)) =
      pack (fun j => rangeLevel M top vmin id (v j))) {j : ℕ} (hj : j < 32) :
    Convertible M (rangeArgument M vmin id (v j)) := by
  refine convertible_of_clamped htop fun g => ?_
  have hread := congrArg (fun b => unpack b j) (h g)
  have hlt : ∀ N : Machine, ∀ i, rangeLevel N top vmin id (v i) < 2 ^ bits :=
    fun _ _ => rangeLevel_lt top hbits _ _ _
  rwa [hunpack _ (hlt _) j hj, hunpack _ (hlt _) j hj] at hread

theorem convertible_of_encodeQ4_1 (h : ∀ g, encodeQ4_1 (answering M g) block = encodeQ4_1 M block) :
    ∀ w ∈ conversionsQ4_1 M block, Convertible M w := by
  change ∀ w ∈ rangeConversions M 15 block, Convertible M w
  unfold rangeConversions
  unfold encodeQ4_1 at h
  simp only [subBlockMinMax_answering, reciprocal_answering, div_answering, sub_answering] at h
  dsimp only
  generalize subBlockMinMax M (wordAt block) 32 = extremes at h ⊢
  rintro w ⟨j, hj, rfl⟩
  exact convertible_of_rangeLevels (Nat.succ_pos 14) (Nat.lt_succ_self 15)
    (fun _ hlevel _ => unpackQ4_1_pack _ _ hlevel) h hj

theorem convertible_of_encodeQ5_1 (h : ∀ g, encodeQ5_1 (answering M g) block = encodeQ5_1 M block) :
    ∀ w ∈ conversionsQ5_1 M block, Convertible M w := by
  change ∀ w ∈ rangeConversions M 31 block, Convertible M w
  unfold rangeConversions
  unfold encodeQ5_1 at h
  simp only [subBlockMinMax_answering, reciprocal_answering, div_answering, sub_answering] at h
  dsimp only
  generalize subBlockMinMax M (wordAt block) 32 = extremes at h ⊢
  rintro w ⟨j, hj, rfl⟩
  exact convertible_of_rangeLevels (Nat.succ_pos 30) (Nat.lt_succ_self 31)
    (fun _ hlevel _ => unpackQ5_1_pack _ _ hlevel) h hj

end Blocks

end Qtx.UndefinedConversions
