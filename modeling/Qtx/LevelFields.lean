import Qtx.BlockFormats

/-!
# The fields of the K-quant and Q5 blocks

What a block of these formats stores: an integer level for every element, an integer scale
and an integer minimum for every sub-block, and one or two half words for the whole block.
A format packs fields into bytes, and its decoder is a function of the fields it reads.
-/
namespace Qtx.LevelFields

open Qtx.ByteStreams Qtx.FloatMachine Qtx.FpeGuard Qtx.QuantizerHelpers Qtx.LegacyBlocks Qtx.KQuants Qtx.IQuants
  Qtx.BlockFormats

inductive LevelFormat
  | q2_K | q3_K | q4_K | q5_K | q6_K | q5_0 | q5_1
  deriving DecidableEq

structure Fields where
  d : BitVec 16
  dmin : BitVec 16
  scale : ℕ → ℤ
  min : ℕ → ℤ
  level : ℕ → ℤ

namespace LevelFormat

def blockFormat : LevelFormat → BlockFormat
  | q2_K => .q2_K
  | q3_K => .q3_K
  | q4_K => .q4_K
  | q5_K => .q5_K
  | q6_K => .q6_K
  | q5_0 => .q5_0
  | q5_1 => .q5_1

/-- The sub-blocks with a scale. -/
def subBlocks : LevelFormat → ℕ
  | q2_K | q3_K | q6_K => 16
  | q4_K | q5_K => 8
  | q5_0 | q5_1 => 0

/-- The sub-blocks with a minimum. -/
def minBlocks : LevelFormat → ℕ
  | q2_K => 16
  | q4_K | q5_K => 8
  | _ => 0

/-- A second half word is stored. -/
def hasMin : LevelFormat → Bool
  | q2_K | q4_K | q5_K | q5_1 => true
  | _ => false

/-- The range of a level is `[-levelOffset, 2 ^ levelBits - levelOffset)`. -/
def levelBits : LevelFormat → ℕ
  | q2_K => 2
  | q3_K => 3
  | q4_K => 4
  | q5_K | q5_0 | q5_1 => 5
  | q6_K => 6

def levelOffset : LevelFormat → ℕ
  | q3_K => 4
  | q6_K => 32
  | _ => 0

/-- The same for the scales. -/
def scaleBits : LevelFormat → ℕ
  | q2_K => 4
  | q6_K => 8
  | _ => 6

def scaleOffset : LevelFormat → ℕ
  | q3_K => 32
  | q6_K => 128
  | _ => 0

/-- An integer with an offset that fits some bits. -/
def Fits (offset bits : ℕ) (v : ℤ) : Prop := 0 ≤ v + offset ∧ v + offset < 2 ^ bits

structure InRange (f : LevelFormat) (x : Fields) : Prop where
  level : ∀ i < f.blockFormat.elements, Fits f.levelOffset f.levelBits (x.level i)
  scale : ∀ j < f.subBlocks, Fits f.scaleOffset f.scaleBits (x.scale j)
  min : ∀ j < f.minBlocks, Fits 0 f.scaleBits (x.min j)

/-- The same fields, as far as the format has them. -/
structure Agree (f : LevelFormat) (y x : Fields) : Prop where
  d : y.d = x.d
  dmin : f.hasMin = true → y.dmin = x.dmin
  level : ∀ i < f.blockFormat.elements, y.level i = x.level i
  scale : ∀ j < f.subBlocks, y.scale j = x.scale j
  min : ∀ j < f.minBlocks, y.min j = x.min j

/-- The bytes of a block, packed as the encoder packs them. -/
def pack (f : LevelFormat) (x : Fields) : Bytes :=
  match f with
  | q2_K => packQ2_K (fun j => (x.scale j).toNat) (fun j => (x.min j).toNat) (fun i => (x.level i).toNat) x.d x.dmin
  | q3_K => packQ3_K (fun j => (x.scale j + 32).toNat) (fun i => (x.level i + 4).toNat) x.d
  | q4_K => packQ4_K x.d x.dmin (fun j => (x.scale j).toNat) (fun j => (x.min j).toNat) (fun i => (x.level i).toNat)
  | q5_K => packQ5_K x.d x.dmin (fun j => (x.scale j).toNat) (fun j => (x.min j).toNat) (fun i => (x.level i).toNat)
  | q6_K => packQ6_K (fun i => (x.level i + 32).toNat) (fun j => BitVec.ofInt 8 (x.scale j)) x.d
  | q5_0 => packQ5_0 x.d (fun i => (x.level i).toNat)
  | q5_1 => packQ5_1 x.d x.dmin (fun i => (x.level i).toNat)

/-- What the decoder of a format reads. -/
def read (f : LevelFormat) (block : Bytes) : Fields :=
  match f with
  | q2_K =>
    { d := loadU16 (block.skip 80)
      dmin := loadU16 (block.skip 82)
      scale := fun j => (unpackScaleMinQ2K block j).1
      min := fun j => (unpackScaleMinQ2K block j).2
      level := fun i => unpackQ2_K block i }
  | q3_K =>
    { d := loadU16 (block.skip 108)
      dmin := 0
      scale := fun j => (unpackScaleQ3K (block.skip 96) j : ℤ) - 32
      min := fun _ => 0
      level := unpackQ3_K block }
  | q4_K =>
    { d := loadU16 block
      dmin := loadU16 (block.skip 2)
      scale := fun j => (unpackScaleMinK4 j (block.skip 4)).1
      min := fun j => (unpackScaleMinK4 j (block.skip 4)).2
      level := fun i => unpackQ4_K block i }
  | q5_K =>
    { d := loadU16 block
      dmin := loadU16 (block.skip 2)
      scale := fun j => (unpackScaleMinK4 j (block.skip 4)).1
      min := fun j => (unpackScaleMinK4 j (block.skip 4)).2
      level := fun i => unpackQ5_K block i }
  | q6_K =>
    { d := loadU16 (block.skip 208)
      dmin := 0
      scale := fun j => unpackScaleQ6K block (16 * j)
      min := fun _ => 0
      level := unpackQ6_K block }
  | q5_0 =>
    { d := loadU16 block
      dmin := 0
      scale := fun _ => 0
      min := fun _ => 0
      level := fun i => unpackQ5_0 block i }
  | q5_1 =>
    { d := loadU16 block
      dmin := loadU16 (block.skip 2)
      scale := fun _ => 0
      min := fun _ => 0
      level := fun i => unpackQ5_1 block i }

variable (M : Machine) (C : Codebooks)

/-- The element of a block under its fields. -/
def element (f : LevelFormat) (d dmin : BitVec 32) (x : Fields) (i : ℕ) : BitVec 32 :=
  match f with
  | q2_K => rangeValue M d dmin ((x.scale (i / 16)).toNat, (x.min (i / 16)).toNat) (x.level i).toNat
  | q4_K | q5_K => rangeValue M d dmin ((x.scale (i / 32)).toNat, (x.min (i / 32)).toNat) (x.level i).toNat
  | q3_K | q6_K => M.mul (M.mul d (M.ofInt (x.scale (i / 16)))) (M.ofInt (x.level i))
  | q5_0 => M.mul (M.ofInt (x.level i - 16)) d
  | q5_1 => M.add (M.mul (QuantizerHelpers.ofNat M (x.level i).toNat) d) dmin

variable {M C}

/-- The scale an element of Q6_K is read with is that of its sub-block. -/
theorem unpackScaleQ6K_eq (block : Bytes) (i : ℕ) :
    unpackScaleQ6K block i = unpackScaleQ6K block (16 * (i / 16)) := by
  have hindex : i / 128 * 8 + i % 32 / 16 + 2 * (i % 128 / 32) =
      16 * (i / 16) / 128 * 8 + 16 * (i / 16) % 32 / 16 + 2 * (16 * (i / 16) % 128 / 32) := by omega
  rw [unpackScaleQ6K, unpackScaleQ6K, hindex]

/-- A decoder is a function of the fields it reads. -/
theorem decode_eq (f : LevelFormat) (block : Bytes) : f.blockFormat.decode M C block =
    let d := fp16ToFP32 (f.read block).d
    let dmin := fp16ToFP32 (f.read block).dmin
    if !isFiniteStrict d || (f.hasMin && !isFiniteStrict dmin) then none
    else some (wordBytes (f.element M d dmin (f.read block))) := by
  cases f
  case q6_K =>
    simp only [blockFormat, BlockFormat.decode, decodeQ6_K, hasMin, Bool.false_and, Bool.or_false]
    refine if_congr Iff.rfl rfl (congrArg (fun v => some (wordBytes v)) (funext fun i => ?_))
    rw [unpackScaleQ6K_eq]
    rfl
  all_goals
    simp only [blockFormat, BlockFormat.decode, decodeQ2_K, decodeQ3_K, decodeQ4_K, decodeQ5_K, decodeQ5_0,
      decodeQ5_1, hasMin, Bool.false_and, Bool.or_false, Bool.true_and]
    rfl

end LevelFormat

end Qtx.LevelFields
