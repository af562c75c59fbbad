import Qtx.GridReads
import Qtx.GridFields
import Qtx.LevelFields

/-!
# What the block formats read

The fields that a decoder reads from a block depend on the bytes of the block, and so does
every element. Indices and sign codes are within their tables whatever the bytes are.
-/
namespace Qtx.DecoderReads

open Qtx.ByteStreams Qtx.FloatMachine Qtx.FpeGuard Qtx.QuantizerHelpers Qtx.StreamReads Qtx.LegacyBlocks Qtx.KQuants
  Qtx.IQuants Qtx.BlockFormats Qtx.GridReads

variable {M : Machine} {C : Codebooks} {p q : Bytes}

/-! Levels. -/

namespace Level

open Qtx.LevelFields

theorem read_agree (f : LevelFormat) (h : SameBytes f.blockFormat.blockBytes p q) :
    f.Agree (f.read p) (f.read q) := by
  cases f
  all_goals
    simp only [LevelFormat.blockFormat, BlockFormat.blockBytes, SameBytes] at h
    refine ⟨?_, fun _ => ?_, fun i hi => ?_, fun j hj => ?_, fun j hj => ?_⟩
    any_goals simp only [LevelFormat.blockFormat, BlockFormat.elements] at hi
    any_goals simp only [LevelFormat.subBlocks, LevelFormat.minBlocks] at hj
    all_goals
      simp (disch := omega) only [LevelFormat.read, unpackScaleMinQ2K, unpackQ2_K, unpackScaleQ3K, unpackQ3_K,
        unpackStripes, highBit, unpackScaleMinK4, unpackQ4_K, unpackPairs, unpackQ5_K, unpackScaleQ6K, unpackQ6_K,
        unpackLowQ6K, unpackQ5_0, unpackHalves, unpackFifth, unpackQ5_1, loadU16, loadU32, skip_apply, h]
  -- what is left of a test of one bit differs in its decision procedure only
  all_goals congr

/-- An element depends on the level, the scale and the minimum that are its own. -/
theorem element_congr {f : LevelFormat} {d : BitVec 32} {x y : Fields} (h : f.Agree x y) {i : ℕ}
    (hi : i < f.blockFormat.elements) :
    f.element M d (fp16ToFP32 x.dmin) x i = f.element M d (fp16ToFP32 y.dmin) y i := by
  have hlevel := h.level i hi
  have hdmin := h.dmin
  have hscale := h.scale
  have hmin := h.min
  cases f
  all_goals
    simp only [LevelFormat.blockFormat, BlockFormat.elements, LevelFormat.subBlocks, LevelFormat.minBlocks,
      LevelFormat.hasMin, forall_const] at hi hscale hmin hdmin
    simp (disch := omega) only [LevelFormat.element, hlevel, hdmin, hscale, hmin]

theorem decode_alike (f : LevelFormat) : AlikeOption f.blockFormat.blockBytes (f.blockFormat.elements * 4)
    (f.blockFormat.decode M C) (f.blockFormat.decode M C) := by
  intro p q h
  have hread := read_agree f h
  have hdmin : (f.hasMin && !isFiniteStrict (fp16ToFP32 (f.read p).dmin)) =
      (f.hasMin && !isFiniteStrict (fp16ToFP32 (f.read q).dmin)) := by
    cases hmin : f.hasMin with
    | false => rw [Bool.false_and, Bool.false_and]
    | true => rw [hread.dmin hmin]
  rw [f.decode_eq, f.decode_eq]
  refine rel_words ?_ fun i hi => ?_
  · rw [hread.d, hdmin]
  · rw [hread.d]
    exact element_congr hread hi

end Level

/-! Grids. -/

namespace Grid

open Qtx.GridFields

/-- The same fields, as far as the decoder of a format uses them. -/
structure SameFields (f : GridFormat) (x y : Fields) : Prop where
  d : x.d = y.d
  index : ∀ ib < 8, ∀ g < f.indices, x.index ib g = y.index ib g
  signs : ∀ ib < 8, ∀ l < 4, x.signs ib l = y.signs ib l
  scale : ∀ ib < 8, ∀ half < 2, x.scale ib half = y.scale ib half

theorem read_same (f : GridFormat) (h : SameBytes f.blockFormat.blockBytes p q) :
    SameFields f (f.read p) (f.read q) := by
  cases f
  all_goals
    simp only [GridFormat.blockFormat, BlockFormat.blockBytes, SameBytes] at h
    refine ⟨?_, fun ib hib g hg => ?_, fun ib hib l hl => ?_, fun ib hib half hhalf => ?_⟩
    any_goals simp only [GridFormat.indices] at hg
    all_goals
      simp (disch := omega) only [GridFormat.read, gridIQ2_XXS, auxIQ2_XXS, wordIQ2_XS, gridIQ2_S, signsIQ2_S,
        gridIQ3_XXS, auxIQ3_XXS, gridIQ3_S, signsIQ3_S, scaleIQ3_S, highIQ1_S, gridIQ1_S, scaleIQ1_S,
        deltaNegIQ1_S, wordIQ1_M, superIQ1_M, scaleIQ1_M, gridIQ1_M, deltaNegIQ1_M, halfScale, unpackHalvesIQ4,
        unpackScaleIQ4, loadU16, loadU32, skip_apply, h]

/-- A byte with some bits above it. -/
theorem byte_or_lt {x s w : ℕ} (v : BitVec 8) (hx : x < 2 ^ s) (hw : 8 ≤ w) (hs : s + 8 ≤ w) :
    v.toNat ||| x <<< 8 < 2 ^ w := by
  apply Nat.or_lt_two_pow
  · exact lt_of_lt_of_le v.isLt (Nat.pow_le_pow_right (by decide) hw)
  · rw [Nat.shiftLeft_eq]
    calc x * 2 ^ 8 < 2 ^ s * 2 ^ 8 := Nat.mul_lt_mul_of_pos_right hx (by decide)
      _ = 2 ^ (s + 8) := (pow_add 2 s 8).symm
      _ ≤ 2 ^ w := Nat.pow_le_pow_right (by decide) hs

theorem unpackHalvesIQ4_lt (qs : Bytes) (i : ℕ) : unpackHalvesIQ4 qs i < 2 ^ 4 := by
  rw [unpackHalvesIQ4]
  split_ifs <;> exact Nat.and_lt_two_pow _ (by decide)

/-- Every index is one of the grid, whatever the bytes are. -/
theorem index_lt (f : GridFormat) (block : Bytes) (ib g : ℕ) : (f.read block).index ib g < 2 ^ f.indexBits := by
  cases f with
  | iq2_XXS => exact BitVec.isLt _
  | iq2_XS => exact Nat.and_lt_two_pow _ (by decide)
  | iq2_S => exact byte_or_lt (s := 2) _ (Nat.and_lt_two_pow _ (by decide)) (by decide) (by decide)
  | iq3_XXS => exact BitVec.isLt _
  | iq3_S => exact byte_or_lt (s := 1) _ (Nat.and_lt_two_pow _ (by decide)) (by decide) (by decide)
  | iq1_S => exact byte_or_lt (s := 3) _ (Nat.and_lt_two_pow _ (by decide)) (by decide) (by decide)
  | iq1_M =>
    apply Nat.or_lt_two_pow
    · exact lt_of_lt_of_le (BitVec.isLt _) (by decide)
    · exact Nat.and_lt_two_pow _ (by decide)
  | iq4_XS => exact unpackHalvesIQ4_lt _ _

/-- So is every sign code of seven bits. -/
theorem code_lt {f : GridFormat} (hf : f.signBits = 7) (block : Bytes) (ib l : ℕ) :
    (f.read block).signs ib l < 2 ^ 7 := by
  cases f
  case iq2_XXS | iq3_XXS => exact Nat.and_lt_two_pow _ (by decide)
  case iq2_XS =>
    change (wordIQ2_XS block ib l).toNat >>> 9 < 2 ^ 7
    rw [Nat.shiftRight_eq_div_pow]
    exact Nat.div_lt_of_lt_mul (BitVec.isLt _)
  all_goals exact absurd hf (by decide)

theorem element_congr {f : GridFormat} {d : BitVec 32} {x y : Fields} (h : SameFields f x y) {i : ℕ}
    (hi : i < 256) :
    f.element M C d x i = f.element M C d y i := by
  have hib : i / 32 < 8 := by omega
  have heighth : i % 32 / 8 < 4 := by omega
  have hhalf : i % 32 / 16 < 2 := by omega
  have hsigns := h.signs _ hib _ heighth
  have hscale := h.scale _ hib _ hhalf
  cases f
  all_goals
    simp only [GridFormat.element, hsigns, hscale]
  case iq3_XXS | iq3_S | iq4_XS => rw [h.index _ hib _ (by simp only [GridFormat.indices]; omega)]
  all_goals rw [h.index _ hib _ heighth]

theorem decode_alike (f : GridFormat) :
    AlikeOption f.blockFormat.blockBytes (256 * 4) (f.blockFormat.decode M C) (f.blockFormat.decode M C) := by
  intro p q h
  have hread := read_same f h
  rw [f.decode_eq, f.decode_eq]
  refine rel_words ?_ fun i hi => ?_
  · rw [hread.d]
  · rw [hread.d]
    exact element_congr hread hi

end Grid

/-! All block formats. -/

theorem decodeQ4_1_alike : AlikeOption 20 (32 * 4) (decodeQ4_1 M) (decodeQ4_1 M) := by
  intro p q h
  have hd : loadU16 p = loadU16 q := h.loadU16_eq (by decide)
  have hm : loadU16 (p.skip 2) = loadU16 (q.skip 2) := (h.skip (m := 18) (by decide)).loadU16_eq (by decide)
  have hlevel : ∀ i < 32, unpackQ4_1 p i = unpackQ4_1 q i := by
    intro i hi
    simp (disch := omega) only [unpackQ4_1, unpackHalves, skip_apply, h _]
  rw [decodeQ4_1, decodeQ4_1, hd, hm]
  exact rel_words rfl fun i hi => by rw [hlevel i hi]

theorem decodeIQ4_NL_alike : AlikeOption 18 (32 * 4) (decodeIQ4_NL M C) (decodeIQ4_NL M C) := by
  intro p q h
  have hd : loadU16 p = loadU16 q := h.loadU16_eq (by decide)
  have hindex : ∀ i < 32, unpackHalvesIQ4 (p.skip 2) i = unpackHalvesIQ4 (q.skip 2) i := by
    intro i hi
    simp (disch := omega) only [unpackHalvesIQ4, skip_apply, h _]
  rw [decodeIQ4_NL, decodeIQ4_NL, hd]
  exact rel_words rfl fun i hi => by rw [hindex i hi]

theorem decode_alike (f : BlockFormat) :
    AlikeOption f.blockBytes (f.elements * 4) (f.decode M C) (f.decode M C) := by
  cases f with
  | q4_1 => exact decodeQ4_1_alike
  | q5_0 => exact Level.decode_alike .q5_0
  | q5_1 => exact Level.decode_alike .q5_1
  | q2_K => exact Level.decode_alike .q2_K
  | q3_K => exact Level.decode_alike .q3_K
  | q4_K => exact Level.decode_alike .q4_K
  | q5_K => exact Level.decode_alike .q5_K
  | q6_K => exact Level.decode_alike .q6_K
  | iq4_NL => exact decodeIQ4_NL_alike
  | iq4_XS => exact Grid.decode_alike .iq4_XS
  | iq2_XXS => exact Grid.decode_alike .iq2_XXS
  | iq2_XS => exact Grid.decode_alike .iq2_XS
  | iq2_S => exact Grid.decode_alike .iq2_S
  | iq3_XXS => exact Grid.decode_alike .iq3_XXS
  | iq3_S => exact Grid.decode_alike .iq3_S
  | iq1_S => exact Grid.decode_alike .iq1_S
  | iq1_M => exact Grid.decode_alike .iq1_M

theorem encode_congr (f : BlockFormat) (h : SameBytes (f.elements * 4) p q) : f.encode M C p = f.encode M C q := by
  cases f with dsimp only [BlockFormat.encode]
  | q4_1 => exact LevelReads.encodeQ4_1_congr h
  | q5_0 => exact LevelReads.encodeQ5_0_congr h
  | q5_1 => exact LevelReads.encodeQ5_1_congr h
  | q2_K => exact LevelReads.encodeQ2_K_congr h
  | q3_K => exact LevelReads.encodeQ3_K_congr h
  | q4_K => exact LevelReads.encodeQ4_K_congr h
  | q5_K => exact LevelReads.encodeQ5_K_congr h
  | q6_K => exact LevelReads.encodeQ6_K_congr h
  | iq4_NL => exact encodeIQ4_NL_congr (fun _ _ => rfl) h
  | iq4_XS => exact encodeIQ4_XS_congr (fun _ _ => rfl) h
  | iq2_XXS => exact encodeIQ2_XXS_congr (fun _ _ => rfl) h
  | iq2_XS => exact encodeIQ2_XS_congr (fun _ _ => rfl) h
  | iq2_S => exact encodeIQ2_S_congr (fun _ _ => rfl) h
  | iq3_XXS => exact encodeIQ3_XXS_congr (fun _ _ => rfl) h
  | iq3_S => exact encodeIQ3_S_congr (fun _ _ => rfl) h
  | iq1_S => exact encodeIQ1_S_congr (fun _ _ => rfl) h
  | iq1_M => exact encodeIQ1_M_congr (fun _ _ => rfl) h

theorem encode_alike (f : BlockFormat) : Alike (f.elements * 4) f.blockBytes (f.encode M C) (f.encode M C) :=
  fun _ _ h k _ => congrFun (encode_congr f h) k

end Qtx.DecoderReads
