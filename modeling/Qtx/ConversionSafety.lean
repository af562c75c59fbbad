import Qtx.DefinedConversions
import Qtx.EncoderAcceptance
import Qtx.RangeConversions
import Qtx.UndefinedConversions

/-!
# Which encoders convert only what an integer can hold

The encoders with a signed scale, the grids and the integer formats never convert a word
that is not finite or too large. The encoders with ranges do, for the blocks that are
described here, and these are the blocks whose bytes depend on what an undefined conversion
answers.
-/
namespace Qtx.IntegerConversions

open Qtx.ByteStreams Qtx.FloatWords Qtx.FloatMachine Qtx.FpeGuard Qtx.QuantizerHelpers Qtx.FloatScans
  Qtx.FloatErrors Qtx.KQuants Qtx.IQuants Qtx.BlockFormats Qtx.EncoderScales Qtx.ConversionBounds
  Qtx.DefinedConversions Qtx.StoredMultiples Qtx.RangeSpreads Qtx.RangeConversions Qtx.ConversionReads
  Qtx.UndefinedConversions Qtx.StoredLevels

namespace Encoder

/-- The blocks for which an encoder converts nothing undefined. -/
def Safe (M : Machine) : Encoder → Bytes → Prop
  | .format .q4_1, block | .format .q5_1, block => Narrow (wordAt block) 32
  | .format .q2_K, block => SafeRanges M shapeQ2_K 25165823 94371845 31457281 (wordAt block)
  | .format .q4_K, block => SafeRanges M shapeQ4_K 125829116 1981808705 132120580 (wordAt block)
  | .format .q5_K, block => SafeRanges M shapeQ5_K 260046840 4095737985 132120580 (wordAt block)
  | _, _ => True

variable {M : Machine}

/-- A format that writes an empty block when nothing has a scale or a minimum. -/
theorem convertible_unless_zero {s : RangeShape} {lo hi low : ℕ} {blk : ℕ → BitVec 32} (hs : Shape s lo hi low)
    (hflush : M.flush = true) :
    (∀ w ∈ (if isZeroRange M s blk then ∅ else planConversions M s blk ∪ levelConversions M s blk),
      Convertible M w) ↔
      SafeRanges M s lo hi low blk := by
  split_ifs with hzero
  · exact iff_of_true (fun w hw => absurd hw (Set.notMem_empty w)) (safeRanges_of_isZeroRange hs hflush hzero)
  · exact convertible_iff hs hflush

theorem convertible_block_iff (hflush : M.flush = true) (C : Codebooks) (e : Encoder) (block : Bytes) :
    (∀ w ∈ e.conversions M C block, Convertible M w) ↔ e.Safe M block := by
  have h15 : Exact 15 1 := by decide
  have h31 : Exact 31 1 := by decide
  match e with
  | .format .q4_1 => exact rangeConversions_iff hflush h15 (by decide)
  | .format .q5_1 => exact rangeConversions_iff hflush h31 (by decide)
  | .format .q2_K => exact convertible_iff shape_Q2_K hflush
  | .format .q4_K =>
    rw [conversions, Safe, conversionsQ4_K]
    exact convertible_unless_zero shape_Q4_K hflush
  | .format .q5_K =>
    rw [conversions, Safe, conversionsQ5_K]
    exact convertible_unless_zero shape_Q5_K hflush
  | .format .q5_0 =>
    simp only [conversions, Safe, iff_true]
    exact convertible_q5_0 hflush block
  | .format .q3_K =>
    simp only [conversions, Safe, iff_true]
    exact convertible_q3_K hflush block
  | .format .q6_K =>
    simp only [conversions, Safe, iff_true]
    exact convertible_q6_K hflush block
  | .format .iq4_NL => exact iff_of_true (fun w hw => absurd hw (Set.notMem_empty w)) trivial
  | .format .iq4_XS =>
    simp only [conversions, Safe, iff_true]
    exact convertible_iq4_XS hflush block
  | .format .iq2_XXS =>
    simp only [conversions, Safe, iff_true]
    exact convertible_conversionsIQ2 hflush finiteGroups_evenSigns
  | .format .iq2_XS =>
    simp only [conversions, Safe, iff_true]
    exact convertible_conversionsIQ2 hflush finiteGroups_evenSigns
  | .format .iq2_S =>
    simp only [conversions, Safe, iff_true]
    exact convertible_conversionsIQ2 hflush finiteGroups_splitSigns
  | .format .iq3_XXS =>
    simp only [conversions, Safe, iff_true]
    exact convertible_iq3_XXS hflush block C
  | .format .iq3_S =>
    simp only [conversions, Safe, iff_true]
    exact convertible_iq3_S hflush block
  | .format .iq1_S =>
    simp only [conversions, Safe, iff_true]
    exact convertible_iq1_S hflush block
  | .format .iq1_M =>
    simp only [conversions, Safe, iff_true]
    exact convertible_iq1_M hflush block
  | .int8 =>
    simp only [conversions, Safe, iff_true]
    exact convertible_int hflush block (by decide) (by decide) (by decide) (by decide)
  | .int4 =>
    simp only [conversions, Safe, iff_true]
    exact convertible_int hflush block (by decide) (by decide) (by decide) (by decide)

/-- Conversions that are defined leave no answer open. -/
theorem agreeOn_of_convertible {g : BitVec 32 → ℤ} {ws : Set (BitVec 32)} (h : ∀ w ∈ ws, Convertible M w) :
    AgreeOn M g ws :=
  fun w hw => (if_pos (h w hw)).trans (if_pos (h w hw)).symm

/-- The bytes of a block are the same for all answers if and only if the block is safe. -/
theorem encode_answering_iff (hflush : M.flush = true) (C : Codebooks) (e : Encoder) (block : Bytes) :
    (∀ g, e.encode (answering M g) C block = e.encode M C block) ↔ e.Safe M block := by
  have hback := fun hsafe : e.Safe M block => fun g =>
    encode_answering C e (agreeOn_of_convertible (g := g) ((convertible_block_iff hflush C e block).mpr hsafe))
  refine ⟨fun h => ?_, hback⟩
  cases e with
  | int8 | int4 => trivial
  | format f =>
    cases f <;> dsimp only [encode, BlockFormat.encode] at h
    case q4_1 => exact (convertible_block_iff hflush C (format .q4_1) block).mp (convertible_of_encodeQ4_1 h)
    case q5_1 => exact (convertible_block_iff hflush C (format .q5_1) block).mp (convertible_of_encodeQ5_1 h)
    case q2_K => exact (convertible_block_iff hflush C (format .q2_K) block).mp (convertible_of_encodeQ2_K h)
    case q4_K => exact (convertible_block_iff hflush C (format .q4_K) block).mp (convertible_of_encodeQ4_K h)
    case q5_K => exact (convertible_block_iff hflush C (format .q5_K) block).mp (convertible_of_encodeQ5_K h)
    all_goals trivial

/-- The conversions that are listed for a stream of `n` blocks are defined if and only if all its blocks are safe.
The bytes of a block depend on no conversion but those that are listed, and on no answer of an undefined one if and
only if the block is safe. -/
theorem convertible_stream_iff (hflush : M.flush = true) (C : Codebooks) (e : Encoder) (src : Bytes) (n : ℕ) :
    ((∀ b < n, ∀ w ∈ e.conversions M C (src.skip (b * (e.elements * 4))), Convertible M w) ↔
      ∀ b < n, e.Safe M (src.skip (b * (e.elements * 4)))) ∧
    (∀ b < n, ∀ g, AgreeOn M g (e.conversions M C (src.skip (b * (e.elements * 4)))) →
      e.encode (answering M g) C (src.skip (b * (e.elements * 4))) =
      e.encode M C (src.skip (b * (e.elements * 4)))) ∧
    ((∀ b < n, ∀ g, e.encode (answering M g) C (src.skip (b * (e.elements * 4))) =
        e.encode M C (src.skip (b * (e.elements * 4)))) ↔
      ∀ b < n, e.Safe M (src.skip (b * (e.elements * 4)))) :=
  ⟨forall₂_congr (fun _ _ => convertible_block_iff hflush C e _), fun _ _ _ h => encode_answering C e h,
    forall₂_congr (fun _ _ => encode_answering_iff hflush C e _)⟩

open BlockFormat (spreadWords wordAt_spreadWords narrow_spreadWords)

/-- A super-block of words of both signs is safe in Q2_K: the largest scale and minimum are far above the words that
have no finite inverse, and no sum comes near an overflow. -/
theorem safe_spreadWords : (format .q2_K).Safe flushMachine (wordBytes spreadWords) := by
  change SafeRanges flushMachine shapeQ2_K 25165823 94371845 31457281 (wordAt (wordBytes spreadWords))
  rw [wordAt_spreadWords]
  have hdeepest : deepest flushMachine shapeQ2_K spreadWords = 2 ^ 149 := by decide +kernel
  have hsmall : flushMachine.value (literal 3 1) + multipleTicks 15 (2 ^ 149) 15 < overflow := by decide
  refine ⟨fun ib _ => narrow_spreadWords _ _, .inr ⟨0, by decide, 2, by decide, .inl (by decide)⟩,
    .inr ⟨0, by decide, 0, by decide, by decide⟩, fun ib _ j _ k _ l _ hl _ => ?_⟩
  have hword : ∀ i, flushMachine.value (sanitiseFinite (spreadWords i)) ≤ flushMachine.value (literal 3 1) := by
    intro i
    unfold spreadWords
    split_ifs <;> decide
  have hmono : multipleTicks 15 (2 ^ 149) l ≤ multipleTicks 15 (2 ^ 149) 15 := multipleTicks_mono hl
  have hle := hword (shapeQ2_K.subSize * ib + j)
  rw [hdeepest, subWords]
  change _ + ((multipleTicks 15 (2 ^ 149) l : ℕ) : ℤ) < _
  generalize multipleTicks 15 (2 ^ 149) l = m at hmono ⊢
  omega

theorem convertible_stream_spread :
    (format .q2_K).Safe flushMachine (wordBytes spreadWords) ∧
    (∀ w ∈ (format .q2_K).conversions flushMachine emptyCodebooks (wordBytes spreadWords),
      Convertible flushMachine w) ∧
    ∀ g, (format .q2_K).encode (answering flushMachine g) emptyCodebooks (wordBytes spreadWords) =
      (format .q2_K).encode flushMachine emptyCodebooks (wordBytes spreadWords) := by
  obtain ⟨hconvertible, -, hbytes⟩ :=
    convertible_stream_iff (M := flushMachine) rfl emptyCodebooks (.format .q2_K) (wordBytes spreadWords) 1
  have hsafe : ∀ b < 1, (format .q2_K).Safe flushMachine
      ((wordBytes spreadWords).skip (b * ((format .q2_K).elements * 4))) := by
    intro b hb
    obtain rfl := Nat.lt_one_iff.mp hb
    rw [Nat.zero_mul, skip_zero]
    exact safe_spreadWords
  have hall := hconvertible.mpr hsafe 0 Nat.one_pos
  have hsame := hbytes.mpr hsafe 0 Nat.one_pos
  rw [Nat.zero_mul, skip_zero] at hall hsame
  exact ⟨safe_spreadWords, hall, hsame⟩

/-- The largest float and its negative in one block: a NaN is converted. -/
theorem nan_converted_of_extremeWords :
    ∃ w ∈ (format .q4_1).conversions flushMachine emptyCodebooks (wordBytes BlockFormat.extremeWords),
      IsNaN w ∧ ¬ Convertible flushMachine w := by
  refine ⟨_, ⟨0, by decide, rfl⟩, ?_⟩
  decide +kernel

end Encoder

end Qtx.IntegerConversions
