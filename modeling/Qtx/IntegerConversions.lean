import Qtx.BlockFormats
import Qtx.FloatErrors
import Qtx.ScaledEncoders

/-!
# Conversions to an integer in the block encoders

Every encoder converts a number of words to an integer before it clamps them. A conversion
is defined when the word is finite and its integer part lies in the range of the target.
-/
namespace Qtx.IntegerConversions

open Qtx.ByteStreams Qtx.FloatWords Qtx.FloatMachine Qtx.FpeGuard Qtx.QuantizerHelpers Qtx.FloatErrors
  Qtx.LegacyBlocks Qtx.KQuants Qtx.IQuants Qtx.BlockFormats Qtx.ScaledEncoders

variable (M : Machine)

/-- The same machine with other answers where a conversion is undefined. -/
def answering (g : BitVec 32 → ℤ) : Machine := { M with outOfRange := g }

def Convertible (x : BitVec 32) : Prop :=
  IsFinite x ∧ -2 ^ 31 ≤ (M.value x).tdiv (2 ^ 149) ∧ (M.value x).tdiv (2 ^ 149) < 2 ^ 31

instance (x : BitVec 32) : Decidable (Convertible M x) :=
  inferInstanceAs (Decidable (magnitude x < infinity ∧ _ ∧ _))

/-- The word that `nearestInt` converts. -/
def nearestArgument (x : BitVec 32) : BitVec 32 := if M.le zero x then M.add x half else M.add (fneg x) half

/-- The word that `lroundHalfAwayFast` converts. -/
def roundArgument (v : BitVec 32) : BitVec 32 := M.add v (if v.msb then fneg half else half)

/-- The word that is converted for a level between two extremes. -/
def rangeArgument (vmin id v : BitVec 32) : BitVec 32 := M.add (M.mul (M.sub v vmin) id) half

/-! Blocks with one scale. -/

def rangeConversions (codes : ℕ) (block : Bytes) : Set (BitVec 32) :=
  let blk := wordAt block
  let (vmin, vmax) := subBlockMinMax M blk 32
  let id := reciprocal M (M.div (M.sub vmax vmin) (literal codes 1))
  {w | ∃ j < 32, w = rangeArgument M vmin id (sanitiseFinite (blk j))}

def conversionsQ4_1 : Bytes → Set (BitVec 32) := rangeConversions M 15

def conversionsQ5_1 : Bytes → Set (BitVec 32) := rangeConversions M 31

def conversionsQ5_0 (block : Bytes) : Set (BitVec 32) :=
  let blk := wordAt block
  let id := reciprocal M (M.div (subBlockSignedAbsMax M blk 32) (fneg (literal 16 1)))
  {w | ∃ j < 32, w = M.add (M.mul (sanitiseFinite (blk j)) id) (literal 33 2)}

/-! Sub-blocks between two extremes. -/

/-- The factor that takes the largest scale or minimum of a super-block to the largest level. -/
def inverseMax (s : RangeShape) (largest : BitVec 32) : BitVec 32 :=
  if M.lt zero largest then M.div (literal s.top 1) largest else zero

/-- The scale of a sub-block as the decoder will see it. -/
def localScale (s : RangeShape) (blk : ℕ → BitVec 32) (ib : ℕ) : BitVec 32 :=
  M.mul (rangePlan M s blk).d (ofNat M ((rangePlan M s blk).scale ib))

/-- The minimum of a sub-block as the decoder will see it. -/
def localMin (s : RangeShape) (blk : ℕ → BitVec 32) (ib : ℕ) : BitVec 32 :=
  M.mul (rangePlan M s blk).dmin (ofNat M ((rangePlan M s blk).min ib))

/-- The conversions for the stored scales and minima. -/
def planConversions (s : RangeShape) (blk : ℕ → BitVec 32) : Set (BitVec 32) :=
  {w | ∃ ib < s.subBlocks,
    w = nearestArgument M (M.mul (inverseMax M s (maxRanges M s blk).1) (subRange M s blk ib).1) ∨
    w = nearestArgument M (M.mul (inverseMax M s (maxRanges M s blk).2) (subRange M s blk ib).2)}

/-- The conversions for the levels. -/
def levelConversions (s : RangeShape) (blk : ℕ → BitVec 32) : Set (BitVec 32) :=
  {w | ∃ i < s.subBlocks * s.subSize, M.eq (localScale M s blk (i / s.subSize)) zero = false ∧
    w = nearestArgument M (M.mul (M.add (sanitiseFinite (blk i)) (localMin M s blk (i / s.subSize)))
      (M.div one (localScale M s blk (i / s.subSize))))}

def conversionsQ2_K (block : Bytes) : Set (BitVec 32) :=
  planConversions M shapeQ2_K (wordAt block) ∪ levelConversions M shapeQ2_K (wordAt block)

def conversionsQ4_K (block : Bytes) : Set (BitVec 32) :=
  if isZeroRange M shapeQ4_K (wordAt block) then ∅
  else planConversions M shapeQ4_K (wordAt block) ∪ levelConversions M shapeQ4_K (wordAt block)

def conversionsQ5_K (block : Bytes) : Set (BitVec 32) :=
  if isZeroRange M shapeQ5_K (wordAt block) then ∅
  else planConversions M shapeQ5_K (wordAt block) ∪ levelConversions M shapeQ5_K (wordAt block)

/-! Sub-blocks with a signed scale. -/

/-- The conversions of a super-block whose sub-blocks have signed scales between `lo` and `hi`. -/
def signedConversions (lowest unit : BitVec 32) (lo hi : ℤ) (blk : ℕ → BitVec 32) : Set (BitVec 32) :=
  let scales := subScale M 16 lowest blk
  let (maxAbsScale, maxScale) := extremeScale M scales 16
  if M.lt maxAbsScale tiny then ∅
  else
    let iscale := M.div unit maxScale
    let dSuper := M.div one iscale
    let localD i := M.mul dSuper (M.ofInt (signedScale M lo hi iscale (scales (i / 16))))
    {w | ∃ ib < 16, w = nearestArgument M (M.mul iscale (scales ib))} ∪
      {w | ∃ i < 256, M.eq (localD i) zero = false ∧
        w = nearestArgument M (M.mul (sanitiseFinite (blk i)) (M.div one (localD i)))}

def conversionsQ3_K (block : Bytes) : Set (BitVec 32) :=
  signedConversions M (fneg (literal 4 1)) (fneg (literal 32 1)) (-32) 31 (wordAt block)

def conversionsQ6_K (block : Bytes) : Set (BitVec 32) :=
  signedConversions M (fneg (literal 32 1)) (fneg (literal 128 1)) (-128) 127 (wordAt block)

def conversionsIQ4_XS (block : Bytes) : Set (BitVec 32) :=
  let blk := wordAt block
  let scales ib := M.div (subBlockSignedAbsMax M (fun j => blk (32 * ib + j)) 32) minIQ4
  let (maxAbsScale, maxScale) := extremeScale M scales 8
  if M.lt maxAbsScale tiny then ∅
  else
    let iscale := M.div (fneg (literal 32 1)) maxScale
    {w | ∃ ib < 8, w = nearestArgument M (M.mul iscale (scales ib))}

/-! Grids. -/

/-- The conversions for the four-bit scales of eight plans. -/
def gridConversions (factor : ℕ) (dSuper : BitVec 32) (plan : ℕ → Ib32Plan) : Set (BitVec 32) :=
  {w | ∃ ib32 < 8, M.lt zero (plan ib32).db = true ∧
    w = nearestArgument M (M.sub (M.div (M.mul (plan ib32).db (literal factor 1)) dSuper) half)}

def conversionsIQ2 (plan : ℕ → Ib32Plan) : Set (BitVec 32) :=
  let maxDb := maxPlan M plan
  if M.lt maxDb tiny then ∅
  else gridConversions M 4 (M.div (M.mul maxDb (literal 4 1)) (literal 31 2)) plan

def conversionsIQ2_XXS (C : Codebooks) (block : Bytes) : Set (BitVec 32) :=
  conversionsIQ2 M (plans M (evenSigns M) 25 8 (bestGridIndexU64 M C.iq2xxsGrid 256) (wordAt block))

def conversionsIQ2_XS (C : Codebooks) (block : Bytes) : Set (BitVec 32) :=
  conversionsIQ2 M (plans M (evenSigns M) 25 8 (bestGridIndexU64 M C.iq2xsGrid 512) (wordAt block))

def conversionsIQ2_S (C : Codebooks) (block : Bytes) : Set (BitVec 32) :=
  conversionsIQ2 M (plans M (splitSigns M) 25 8 (bestGridIndexU64 M C.iq2sGrid 1024) (wordAt block))

def conversionsIQ3_XXS (C : Codebooks) (block : Bytes) : Set (BitVec 32) :=
  let plan := plans M (evenSigns M) 14 4 (bestGridIndexU32 M C.iq3xxsGrid 256) (wordAt block)
  let maxDb := maxPlan M plan
  if M.lt maxDb tiny then ∅ else gridConversions M 2 (M.div maxDb (literal 31 4)) plan

/-- The conversions for the odd scales of `n` sub-blocks with the largest values `gmax`. -/
def oddConversions (unit dInit : BitVec 32) (gmax : ℕ → BitVec 32) (n : ℕ) : Set (BitVec 32) :=
  {w | ∃ ib < n, M.le tiny (gmax ib) = true ∧
    w = nearestArgument M (M.mul (M.sub (M.div (gmax ib) (M.mul unit dInit)) one) half)}

def conversionsIQ3_S (block : Bytes) : Set (BitVec 32) :=
  let blk := wordAt block
  let amax := absMax M blk 256
  if M.lt amax tiny then ∅
  else
    let groups ib32 k := splitSigns M (fun j => blk (32 * ib32 + 8 * k + j))
    oddConversions M (literal 14 1) (M.div amax (literal 434 1))
      (fun ib32 => positiveMax M (fun j => fabs (groupValues (groups ib32) j)) 32) 8

def conversionsIQ1_S (block : Bytes) : Set (BitVec 32) :=
  let blk := wordAt block
  let amax := absMax M blk 256
  if M.lt amax tiny then ∅
  else oddConversions M (literal 9 8) (M.div amax (literal 17 1))
    (fun ib32 => absMax M (fun j => blk (32 * ib32 + j)) 32) 8

def conversionsIQ1_M (block : Bytes) : Set (BitVec 32) :=
  let blk := wordAt block
  let amax := absMax M blk 256
  if M.lt amax tiny then ∅
  else oddConversions M (literal 9 8) (M.div amax (literal 17 1))
    (fun sb => absMax M (fun j => blk (16 * sb + j)) 16) 16

/-! Blocks of integers. -/

def intConversions (levels : ℕ) (block : Bytes) : Set (BitVec 32) :=
  let invScale := positiveReciprocal M (intScale M levels block)
  {w | ∃ i < 32, w = roundArgument M (sanitiseFinite (M.mul (sanitiseFinite (wordAt block i)) invScale))}

def conversionsINT8 : Bytes → Set (BitVec 32) := intConversions M 127

def conversionsINT4 : Bytes → Set (BitVec 32) := intConversions M 7

/-- The encoders that convert to an integer, or look a level up. -/
inductive Encoder
  | format (f : BlockFormat)
  | int8
  | int4

def Encoder.elements : Encoder → ℕ
  | .format f => f.elements
  | .int8 | .int4 => 32

/-- The bytes of one block. -/
def Encoder.encode (C : Codebooks) : Encoder → Bytes → Bytes
  | .format f => f.encode M C
  | .int8 => encodeINT8 M
  | .int4 => encodeINT4 M

/-- The words that an encoder converts for one block. -/
def Encoder.conversions (C : Codebooks) : Encoder → Bytes → Set (BitVec 32)
  | .format .q4_1 => conversionsQ4_1 M
  | .format .q5_0 => conversionsQ5_0 M
  | .format .q5_1 => conversionsQ5_1 M
  | .format .q2_K => conversionsQ2_K M
  | .format .q3_K => conversionsQ3_K M
  | .format .q4_K => conversionsQ4_K M
  | .format .q5_K => conversionsQ5_K M
  | .format .q6_K => conversionsQ6_K M
  | .format .iq4_NL => fun _ => ∅
  | .format .iq4_XS => conversionsIQ4_XS M
  | .format .iq2_XXS => conversionsIQ2_XXS M C
  | .format .iq2_XS => conversionsIQ2_XS M C
  | .format .iq2_S => conversionsIQ2_S M C
  | .format .iq3_XXS => conversionsIQ3_XXS M C
  | .format .iq3_S => conversionsIQ3_S M
  | .format .iq1_S => conversionsIQ1_S M
  | .format .iq1_M => conversionsIQ1_M M
  | .int8 => conversionsINT8 M
  | .int4 => conversionsINT4 M

end Qtx.IntegerConversions
