import Qtx.BlockFormats

/-!
# The fields of the I-quant super-blocks

What a super-block of the I-quants stores, apart from the bytes that hold it: a half word
for the super-scale, and for every 32 elements some indices, signs and scales. A format
packs fields into bytes, and its decoder is a function of the fields it reads.
-/
namespace Qtx.GridFields

open Qtx.ByteStreams Qtx.FloatMachine Qtx.FpeGuard Qtx.QuantizerHelpers Qtx.IQuants Qtx.BlockFormats

inductive GridFormat
  | iq2_XXS | iq2_XS | iq2_S | iq3_XXS | iq3_S | iq1_S | iq1_M | iq4_XS
  deriving DecidableEq

/-- The second argument counts within 32 elements. -/
structure Fields where
  d : BitVec 16
  index : ℕ → ℕ → ℕ
  signs : ℕ → ℕ → ℕ
  scale : ℕ → ℕ → ℕ

namespace GridFormat

def blockFormat : GridFormat → BlockFormat
  | iq2_XXS => .iq2_XXS
  | iq2_XS => .iq2_XS
  | iq2_S => .iq2_S
  | iq3_XXS => .iq3_XXS
  | iq3_S => .iq3_S
  | iq1_S => .iq1_S
  | iq1_M => .iq1_M
  | iq4_XS => .iq4_XS

/-- The indices of 32 elements, and the bits of one. -/
def indices : GridFormat → ℕ
  | iq3_XXS | iq3_S => 8
  | iq4_XS => 32
  | _ => 4

def indexBits : GridFormat → ℕ
  | iq2_XXS | iq3_XXS => 8
  | iq2_XS | iq3_S => 9
  | iq2_S => 10
  | iq1_S | iq1_M => 11
  | iq4_XS => 4

/-- The field that holds the sign of the `l`th eight elements. -/
def signIndex : GridFormat → ℕ → ℕ
  | iq1_S, _ => 0
  | iq1_M, l => l / 2
  | _, l => l

def signBits : GridFormat → ℕ
  | iq2_XXS | iq2_XS | iq3_XXS => 7
  | iq2_S | iq3_S => 8
  | iq1_S | iq1_M => 1
  | iq4_XS => 0

/-- The field that holds the scale of one half of 32 elements. -/
def scaleIndex : GridFormat → ℕ → ℕ
  | iq1_M, half => half
  | _, _ => 0

def scaleBits : GridFormat → ℕ
  | iq1_S | iq1_M => 3
  | iq4_XS => 6
  | _ => 4

/-- Every field fits its bits. -/
structure InRange (f : GridFormat) (x : Fields) : Prop where
  index : ∀ ib < 8, ∀ g < f.indices, x.index ib g < 2 ^ f.indexBits
  signs : ∀ ib < 8, ∀ l < 4, x.signs ib (f.signIndex l) < 2 ^ f.signBits
  scale : ∀ ib < 8, ∀ half < 2, x.scale ib (f.scaleIndex half) < 2 ^ f.scaleBits

/-- The bytes of a super-block. -/
def pack (f : GridFormat) (x : Fields) : Bytes :=
  match f with
  | iq2_XXS => packIQ2_XXS x.d x.index x.signs (x.scale · 0)
  | iq2_XS => packIQ2_XS x.d x.index x.signs (x.scale · 0)
  | iq2_S => packIQ2_S x.d x.index x.signs (x.scale · 0)
  | iq3_XXS => packIQ3_XXS x.d x.index x.signs (x.scale · 0)
  | iq3_S => packIQ3_S x.d x.index x.signs (x.scale · 0)
  | iq1_S => packIQ1_S x.d x.index (x.scale · 0) (fun ib => x.signs ib 0 != 0)
  | iq1_M => packIQ1_M x.d x.index (fun sb => x.scale (sb / 2) (sb % 2)) (fun sb => x.signs (sb / 2) (sb % 2) != 0)
  | iq4_XS => packIQ4_XS x.d (x.scale · 0) (fun i => x.index (i / 32) (i % 32))

/-- What the decoder of a format reads: an index for every group, a sign field for every eight
elements and a scale for every half of 32 elements. -/
def read (f : GridFormat) (block : Bytes) : Fields :=
  match f with
  | iq2_XXS =>
    { d := loadU16 block
      index := gridIQ2_XXS block
      signs := fun ib l => unpackSigns (auxIQ2_XXS block ib) l
      scale := fun ib _ => (auxIQ2_XXS block ib).toNat >>> 28 }
  | iq2_XS =>
    { d := loadU16 block
      index := fun ib l => (wordIQ2_XS block ib l).toNat &&& 0x1FF
      signs := fun ib l => (wordIQ2_XS block ib l).toNat >>> 9
      scale := fun ib half => halfScale (block.skip 66 ib) half }
  | iq2_S =>
    { d := loadU16 block
      index := gridIQ2_S block
      signs := fun ib l => (signsIQ2_S block ib l).toNat
      scale := fun ib half => halfScale (block.skip 74 ib) half }
  | iq3_XXS =>
    { d := loadU16 block
      index := gridIQ3_XXS block
      signs := fun ib l => unpackSigns (auxIQ3_XXS block ib) l
      scale := fun ib _ => (auxIQ3_XXS block ib).toNat >>> 28 }
  | iq3_S =>
    { d := loadU16 block
      index := gridIQ3_S block
      signs := fun ib l => (signsIQ3_S block ib l).toNat
      scale := fun ib _ => scaleIQ3_S block ib }
  | iq1_S =>
    { d := loadU16 block
      index := gridIQ1_S block
      signs := fun ib _ => (deltaNegIQ1_S block ib).toNat
      scale := fun ib _ => scaleIQ1_S block ib }
  | iq1_M =>
    { d := superIQ1_M block
      index := gridIQ1_M block
      signs := fun ib l => (deltaNegIQ1_M block ib l).toNat
      scale := scaleIQ1_M block }
  | iq4_XS =>
    { d := loadU16 block
      index := fun ib j => unpackHalvesIQ4 (block.skip 8) (32 * ib + j)
      signs := fun _ _ => 0
      scale := fun ib _ => unpackScaleIQ4 (loadU16 (block.skip 2)) (block.skip 4) ib }

/-- The fields `y` are those of `x`, spread over the groups that share them. -/
structure ReadsBack (f : GridFormat) (y x : Fields) : Prop where
  d : y.d = x.d
  index : ∀ ib < 8, ∀ g < f.indices, y.index ib g = x.index ib g
  signs : ∀ ib < 8, ∀ l < 4, y.signs ib l = x.signs ib (f.signIndex l)
  scale : ∀ ib < 8, ∀ half < 2, y.scale ib half = x.scale ib (f.scaleIndex half)

variable (M : Machine) (C : Codebooks)

/-- The element of a super-block under its fields. -/
def element (f : GridFormat) (d : BitVec 32) (x : Fields) (i : ℕ) : BitVec 32 :=
  let ib := i / 32
  let eighth := i % 32 / 8
  let scale := x.scale ib (i % 32 / 16)
  match f with
  | iq2_XXS => gridValue M C (subDb M d (literal 1 4) scale) (C.iq2xxsGrid (x.index ib eighth)) (i % 8)
      (C.ksignsIq2xs (x.signs ib eighth)) (i % 8)
  | iq2_XS => gridValue M C (subDb M d (literal 1 4) scale) (C.iq2xsGrid (x.index ib eighth)) (i % 8)
      (C.ksignsIq2xs (x.signs ib eighth)) (i % 8)
  | iq2_S => gridValue M C (subDb M d (literal 1 4) scale) (C.iq2sGrid (x.index ib eighth)) (i % 8)
      (BitVec.ofNat 8 (x.signs ib eighth)) (i % 8)
  | iq3_XXS => gridValue M C (subDb M d half scale) (C.iq3xxsGrid (x.index ib (i % 32 / 4))) (i % 4)
      (C.ksignsIq2xs (x.signs ib eighth)) (i % 8)
  | iq3_S => gridValue M C (oddDb M d scale) (C.iq3sGrid (x.index ib (i % 32 / 4))) (i % 4)
      (BitVec.ofNat 8 (x.signs ib eighth)) (i % 8)
  | iq1_S | iq1_M =>
      offsetValue M (oddDl M d scale) (C.iq1sGrid (x.index ib eighth)) (i % 8) (x.signs ib eighth != 0)
  | iq4_XS => M.mul (M.mul d (M.ofInt ((scale : ℤ) - 32))) (M.ofInt (C.kIQ4Codebook (x.index ib (i % 32))).toInt)

variable {M C}

/-- A decoder is a function of the fields it reads. -/
theorem decode_eq (f : GridFormat) (block : Bytes) : f.blockFormat.decode M C block =
    let d := fp16ToFP32 (f.read block).d
    if !isFiniteStrict d then none else some (wordBytes (f.element M C d (f.read block))) := by
  have hword : ∀ b : BitVec 8, BitVec.ofNat 8 b.toNat = b := fun b => BitVec.ofNat_toNat 8 b
  have hsplit : ∀ i, 32 * (i / 32) + i % 32 = i := fun i => Nat.div_add_mod i 32
  have hsign : ∀ b : Bool, (b.toNat != 0) = b := fun b => by cases b <;> rfl
  cases f
  case iq2_XXS | iq2_XS | iq3_XXS => rfl
  all_goals
    refine if_congr Iff.rfl rfl (congrArg (fun v => some (wordBytes v)) (funext fun i => ?_))
    simp only [element, read, hword, hsign, hsplit]

end GridFormat

end Qtx.GridFields
