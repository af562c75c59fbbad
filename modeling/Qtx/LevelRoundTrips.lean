import Qtx.LevelLayouts

/-!
# Round trips of the K-quant and Q5 blocks

A block spells the pieces of fields in range exactly when these are the fields that are read
from it. So fields are read back, and every block is packed from exactly one assignment.
-/
namespace Qtx.LevelFields.LevelFormat

open Qtx.ByteStreams Qtx.PackedDigits Qtx.LegacyBlocks Qtx.KQuants Qtx.BlockFormats Qtx.LevelLayouts

section Fits

variable {offset bits : ℕ} {v : ℤ}

theorem Fits.toNat_lt (h : Fits offset bits v) : (v + offset).toNat < 2 ^ bits := by
  have hcast : ((2 ^ bits : ℕ) : ℤ) = 2 ^ bits := by push_cast; rfl
  have hlt := h.2
  rw [← hcast] at hlt
  exact (Int.toNat_lt_of_ne_zero (Nat.two_pow_pos bits).ne').mpr hlt

theorem Fits.toNat_eq (h : Fits offset bits v) : ((v + offset).toNat : ℤ) = v + offset := Int.toNat_of_nonneg h.1

theorem fits_of_add_eq {n : ℕ} (h : v + offset = n) (hn : n < 2 ^ bits) : Fits offset bits v := by
  refine ⟨h ▸ Int.natCast_nonneg n, ?_⟩
  rw [h]
  exact_mod_cast hn

theorem fits_natCast {n : ℕ} (hn : n < 2 ^ bits) : Fits 0 bits n := fits_of_add_eq (Int.add_zero _) hn

end Fits

variable {f : LevelFormat} {x y : Fields} {block : Bytes}

/-! The numbers that are stored. -/

def levelCode (f : LevelFormat) (x : Fields) (i : ℕ) : ℕ := (x.level i + f.levelOffset).toNat

def scaleCode (f : LevelFormat) (x : Fields) (j : ℕ) : ℕ := (x.scale j + f.scaleOffset).toNat

def minCode (x : Fields) (j : ℕ) : ℕ := (x.min j).toNat

namespace InRange

theorem levelCode_lt (hx : f.InRange x) {i : ℕ} (hi : i < f.blockFormat.elements) :
    f.levelCode x i < 2 ^ f.levelBits := (hx.level i hi).toNat_lt

theorem scaleCode_lt (hx : f.InRange x) {j : ℕ} (hj : j < f.subBlocks) : f.scaleCode x j < 2 ^ f.scaleBits :=
  (hx.scale j hj).toNat_lt

theorem minCode_lt (hx : f.InRange x) {j : ℕ} (hj : j < f.minBlocks) : minCode x j < 2 ^ f.scaleBits := by
  have hlt := (hx.min j hj).toNat_lt
  rwa [Nat.cast_zero, Int.add_zero] at hlt

/-- Fields agree with those in range exactly when they are stored as the same numbers. -/
theorem agree_iff (hx : f.InRange x) (y : Fields) : f.Agree y x ↔ y.d = x.d ∧ (f.hasMin = true → y.dmin = x.dmin) ∧
    (∀ i < f.blockFormat.elements, y.level i + f.levelOffset = f.levelCode x i) ∧
    (∀ j < f.subBlocks, y.scale j + f.scaleOffset = f.scaleCode x j) ∧
    ∀ j < f.minBlocks, y.min j = minCode x j := by
  have hlevel : ∀ i < f.blockFormat.elements,
      (y.level i + f.levelOffset = f.levelCode x i ↔ y.level i = x.level i) := by
    intro i hi
    rw [levelCode, (hx.level i hi).toNat_eq, Int.add_left_inj]
  have hscale : ∀ j < f.subBlocks, (y.scale j + f.scaleOffset = f.scaleCode x j ↔ y.scale j = x.scale j) := by
    intro j hj
    rw [scaleCode, (hx.scale j hj).toNat_eq, Int.add_left_inj]
  have hmin : ∀ j < f.minBlocks, (y.min j = minCode x j ↔ y.min j = x.min j) := by
    intro j hj
    have hcode := (hx.min j hj).toNat_eq
    rw [Nat.cast_zero, Int.add_zero] at hcode
    rw [minCode, hcode]
  rw [forall₂_congr hlevel, forall₂_congr hscale, forall₂_congr hmin]
  exact ⟨fun h => ⟨h.d, h.dmin, h.level, h.scale, h.min⟩, fun h => ⟨h.1, h.2.1, h.2.2.1, h.2.2.2.1, h.2.2.2.2⟩⟩

end InRange

/-- The pieces of a block, in order. -/
def pieces (f : LevelFormat) (x : Fields) : List (ℕ × Bytes) :=
  let level := f.levelCode x
  let scale := f.scaleCode x
  let min := minCode x
  match f with
  | q2_K =>
      [(16, fun j => nibbles (scale j) (min j)), (64, packStripes level), (2, bytesOf x.d), (2, bytesOf x.dmin)]
  | q3_K => [(32, packHighBits (fun i => 3 < level i)),
      (64, packStripes (fun i => if 3 < level i then level i - 4 else level i)), (12, packScalesQ3K scale),
      (2, bytesOf x.d)]
  | q4_K => [(2, bytesOf x.d), (2, bytesOf x.dmin), (12, packScalesMinsK4 scale min), (128, packPairs level)]
  | q5_K => [(2, bytesOf x.d), (2, bytesOf x.dmin), (12, packScalesMinsK4 scale min),
      (32, packHighBits (fun i => 15 < level i)),
      (128, packPairs (fun i => if 15 < level i then level i - 16 else level i))]
  | q6_K => [(128, packLowQ6K level), (64, packStripes (fun i => level i >>> 4)),
      (16, fun j => BitVec.ofInt 8 (x.scale j)), (2, bytesOf x.d)]
  | q5_0 => [(2, bytesOf x.d), (4, bytesOf (packFifth level)), (16, packHalves level)]
  | q5_1 => [(2, bytesOf x.d), (2, bytesOf x.dmin), (4, bytesOf (packFifth level)), (16, packHalves level)]

theorem levelCode_eq (h : f.levelOffset = 0) (x : Fields) : f.levelCode x = fun i => (x.level i).toNat := by
  funext i
  rw [levelCode, h, Nat.cast_zero, Int.add_zero]

theorem scaleCode_eq (h : f.scaleOffset = 0) (x : Fields) : f.scaleCode x = fun j => (x.scale j).toNat := by
  funext j
  rw [scaleCode, h, Nat.cast_zero, Int.add_zero]

theorem pack_eq (f : LevelFormat) (x : Fields) : f.pack x = join (f.pieces x) := by
  have hlevel := fun h => levelCode_eq (f := f) h x
  have hscale := fun h => scaleCode_eq (f := f) h x
  cases f
  case q3_K | q6_K => rfl
  all_goals
    simp only [pieces, hlevel rfl, hscale rfl]
    rfl

theorem sum_pieces (f : LevelFormat) (x : Fields) : ((f.pieces x).map Prod.fst).sum = f.blockFormat.blockBytes := by
  cases f <;> rfl

theorem spells_pieces_iff (f : LevelFormat) (block : Bytes) (x : Fields) :
    Spells block (f.pieces x) ↔ ∀ k < f.blockFormat.blockBytes, block k = f.pack x k := by
  rw [spells_iff, sum_pieces, pack_eq]

/-- A block spells fields in range exactly when they are read from it. -/
theorem spells_iff_agree (hx : f.InRange x) : Spells block (f.pieces x) ↔ f.Agree (f.read block) x := by
  have hlevel := fun i => hx.levelCode_lt (i := i)
  have hscale := fun j => hx.scaleCode_lt (j := j)
  have hmin := fun j => hx.minCode_lt (j := j)
  rw [hx.agree_iff]
  cases f
  all_goals
    simp only [pieces, Spells, skip_skip, Nat.reduceAdd, and_true, read, unpackQ2_K, unpackQ4_K,
      unpackQ5_0, unpackQ5_1, blockFormat, BlockFormat.elements, subBlocks, minBlocks, hasMin, levelOffset,
      scaleOffset, Nat.cast_zero, add_zero, Nat.cast_ofNat, sub_add_cancel, Nat.cast_inj, Bool.false_eq_true,
      Nat.not_lt_zero, false_imp_iff, implies_true, true_imp_iff]
  case q2_K =>
    rw [scalesQ2_K_iff hscale hmin, levelsQ2_K_iff hlevel, loadU16_iff, loadU16_iff]
    tauto
  case q3_K =>
    rw [← and_assoc, levelsQ3_K_iff hlevel, scalesQ3_K_iff hscale, loadU16_iff]
    tauto
  case q4_K =>
    rw [scalesK4_iff hscale hmin, levelsQ4_K_iff hlevel, loadU16_iff, loadU16_iff]
    tauto
  case q5_K =>
    rw [scalesK4_iff hscale hmin, levelsQ5_K_iff hlevel, loadU16_iff, loadU16_iff]
    tauto
  case q6_K =>
    have hsigned : ∀ j < 16, -128 ≤ x.scale j ∧ x.scale j < 128 := by
      intro j hj
      obtain ⟨hlow, hhigh⟩ := hx.scale j hj
      simp only [scaleOffset, scaleBits] at hlow hhigh
      omega
    have hread : ∀ j < 16, (unpackScaleQ6K block (16 * j) + 128 = q6_K.scaleCode x j ↔
        (block.skip 192 j).toInt = x.scale j) := by
      intro j hj
      have hindex : 16 * j / 128 * 8 + 16 * j % 32 / 16 + 2 * (16 * j % 128 / 32) = j := by omega
      rw [unpackScaleQ6K, hindex, scaleCode, (hx.scale j hj).toNat_eq]
      exact Int.add_left_inj 128
    rw [← and_assoc, levelsQ6_K_iff hlevel, scalesQ6_K_iff hsigned, loadU16_iff, forall₂_congr hread]
    tauto
  case q5_0 =>
    rw [fiveBits_iff hlevel, loadU16_iff]
    simp only [true_and]
  case q5_1 =>
    rw [fiveBits_iff hlevel, loadU16_iff, loadU16_iff]

/-- What is read from a block is in range. -/
theorem inRange_read (f : LevelFormat) (block : Bytes) : f.InRange (f.read block) := by
  have hfive : ∀ (qs qh : Bytes) (i : ℕ), i < 32 → unpackHalves qs i ||| unpackFifth (loadU32 qh) i < 2 ^ 5 := by
    intro qs qh i hi
    rw [unpackFive_eq qs qh hi]
    exact halves.unpack_split_lt (b := fifthBits) qs qh i
  have hK4 : ∀ j, Fits 0 6 (unpackScaleMinK4 j (block.skip 4)).1 ∧ Fits 0 6 (unpackScaleMinK4 j (block.skip 4)).2 :=
    fun j => ⟨fits_natCast (unpackScaleMinK4_lt _ j).1, fits_natCast (unpackScaleMinK4_lt _ j).2⟩
  cases f with
  | q2_K =>
    refine ⟨fun i _ => fits_natCast (stripes.unpack_lt _ i), fun j _ => fits_natCast ?_, fun j _ => fits_natCast ?_⟩
    · exact Nat.and_lt_two_pow _ (by decide)
    · change (block j).toNat >>> 4 < 2 ^ 4
      rw [Nat.shiftRight_eq_div_pow]
      exact Nat.div_lt_of_lt_mul (block j).isLt
  | q3_K =>
    refine ⟨fun i _ => ?_, fun j hj => ?_, fun j hj => absurd hj (Nat.not_lt_zero j)⟩
    · exact fits_of_add_eq (unpackQ3_K_eq block i) (stripes.unpack_split_lt (b := highBits) _ _ i)
    · exact fits_of_add_eq (Int.sub_add_cancel _ _) (unpackScaleQ3K_lt _ hj)
  | q4_K =>
    refine ⟨fun i _ => fits_natCast ?_, fun j _ => (hK4 j).1, fun j _ => (hK4 j).2⟩
    rw [unpackQ4_K, unpackPairs_eq]
    exact pairs.unpack_lt _ i
  | q5_K =>
    refine ⟨fun i _ => fits_natCast ?_, fun j _ => (hK4 j).1, fun j _ => (hK4 j).2⟩
    rw [unpackQ5_K_eq]
    exact pairs.unpack_split_lt (b := highBits) _ _ i
  | q6_K =>
    refine ⟨fun i _ => ?_, fun j _ => ?_, fun j hj => absurd hj (Nat.not_lt_zero j)⟩
    · exact fits_of_add_eq (unpackQ6_K_eq block i) (widePairs.unpack_split_lt (b := stripes) _ _ i)
    · have hlow : -2 ^ 7 ≤ unpackScaleQ6K block (16 * j) := BitVec.le_toInt _
      have hhigh : unpackScaleQ6K block (16 * j) < 2 ^ 7 := BitVec.toInt_lt
      change 0 ≤ unpackScaleQ6K block (16 * j) + 128 ∧ unpackScaleQ6K block (16 * j) + 128 < 2 ^ 8
      omega
  | q5_0 =>
    exact ⟨fun i hi => fits_natCast (hfive _ _ i hi), fun j hj => absurd hj (Nat.not_lt_zero j),
      fun j hj => absurd hj (Nat.not_lt_zero j)⟩
  | q5_1 =>
    exact ⟨fun i hi => fits_natCast (hfive _ _ i hi), fun j hj => absurd hj (Nat.not_lt_zero j),
      fun j hj => absurd hj (Nat.not_lt_zero j)⟩

theorem Agree.symm (h : f.Agree y x) : f.Agree x y where
  d := h.d.symm
  dmin hmin := (h.dmin hmin).symm
  level i hi := (h.level i hi).symm
  scale j hj := (h.scale j hj).symm
  min j hj := (h.min j hj).symm

theorem Agree.trans {z : Fields} (hz : f.Agree z y) (hy : f.Agree y x) : f.Agree z x where
  d := hz.d.trans hy.d
  dmin hmin := (hz.dmin hmin).trans (hy.dmin hmin)
  level i hi := (hz.level i hi).trans (hy.level i hi)
  scale j hj := (hz.scale j hj).trans (hy.scale j hj)
  min j hj := (hz.min j hj).trans (hy.min j hj)

/-- Every block is packed from the fields that are read from it. -/
theorem pack_read (f : LevelFormat) (block : Bytes) :
    ∀ k < f.blockFormat.blockBytes, f.pack (f.read block) k = block k := by
  have hself : f.Agree (f.read block) (f.read block) :=
    ⟨rfl, fun _ => rfl, fun _ _ => rfl, fun _ _ => rfl, fun _ _ => rfl⟩
  have hspells := (spells_iff_agree (f.inRange_read block)).mpr hself
  exact fun k hk => ((f.spells_pieces_iff block _).mp hspells k hk).symm

/-- Fields in range are read from every block that holds what they pack. -/
theorem read_of_packed (hx : f.InRange x) (h : ∀ k < f.blockFormat.blockBytes, f.pack x k = block k) :
    f.Agree (f.read block) x :=
  (spells_iff_agree hx).mp ((f.spells_pieces_iff block x).mpr (fun k hk => (h k hk).symm))

end Qtx.LevelFields.LevelFormat
