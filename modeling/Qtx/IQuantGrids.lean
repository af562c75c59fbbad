import Qtx.IQuants

/-!
# The grid formats of the I-quants

IQ2_XXS, IQ2_XS, IQ2_S, IQ3_XXS, IQ3_S, IQ1_S and IQ1_M: how the indices, signs and scales
of the 32-element blocks are packed, and the encoders and decoders over the packing.
-/
namespace Qtx.IQuants

open Qtx.ByteStreams Qtx.FloatWords Qtx.FloatMachine Qtx.FpeGuard Qtx.PackedDigits Qtx.QuantizerHelpers

/-! The packed words. -/

/-- Four sign codes of seven bits below a scale of four bits. -/
def packSignsScale (signs : ℕ → ℕ) (scale : ℕ) : BitVec 32 :=
  BitVec.ofNat 32 (packDigits 7 signs 4 ||| (scale &&& 0xF) <<< 28)

def unpackSigns (word : BitVec 32) (l : ℕ) : ℕ := (word.toNat >>> (7 * l)) &&& 0x7F

/-- The first word of 32 elements holds the indices, the second the signs and the scale. -/
def packIQ2_XXS (d : BitVec 16) (gridIdx signs : ℕ → ℕ → ℕ) (scale : ℕ → ℕ) : Bytes :=
  join [(2, bytesOf d), (64, fun a =>
    let ib32 := a / 8
    if a % 8 < 4 then bytesOf (BitVec.ofNat 32 (packDigits 8 (gridIdx ib32) 4)) (a % 8)
    else bytesOf (packSignsScale (signs ib32) (scale ib32)) (a % 8 - 4))]

/-- An index of nine bits below a sign code of seven, and the scale of 32 elements twice in a byte. -/
def packIQ2_XS (d : BitVec 16) (gridIdx signs : ℕ → ℕ → ℕ) (scale : ℕ → ℕ) : Bytes :=
  join [(2, bytesOf d),
    (64, fun a => bytesOf (BitVec.ofNat 16 ((gridIdx (a / 8) (a % 8 / 2) &&& 0x1FF) |||
      signs (a / 8) (a % 8 / 2) <<< 9)) (a % 2)),
    (8, fun ib32 => nibbles (scale ib32 &&& 0x0F) (scale ib32 &&& 0x0F))]

def packIQ2_S (d : BitVec 16) (gridIdx signs : ℕ → ℕ → ℕ) (scale : ℕ → ℕ) : Bytes :=
  join [(2, bytesOf d),
    (32, fun a => BitVec.ofNat 8 (gridIdx (a / 4) (a % 4) &&& 0xFF)),
    (32, fun a => BitVec.ofNat 8 (signs (a / 4) (a % 4))),
    (8, fun ib32 => BitVec.ofNat 8 (packDigits 2 (fun l => (gridIdx ib32 l >>> 8) &&& 0x03) 4)),
    (8, fun ib32 => nibbles (scale ib32 &&& 0x0F) (scale ib32 &&& 0x0F))]

def packIQ3_XXS (d : BitVec 16) (gridIdx signs : ℕ → ℕ → ℕ) (scale : ℕ → ℕ) : Bytes :=
  join [(2, bytesOf d),
    (64, fun a => BitVec.ofNat 8 (gridIdx (a / 8) (a % 8))),
    (32, fun a => bytesOf (packSignsScale (signs (a / 4)) (scale (a / 4))) (a % 4))]

def packIQ3_S (d : BitVec 16) (gridIdx signs : ℕ → ℕ → ℕ) (scale : ℕ → ℕ) : Bytes :=
  join [(2, bytesOf d),
    (64, fun a => BitVec.ofNat 8 (gridIdx (a / 8) (a % 8) &&& 0xFF)),
    (8, fun ib32 => BitVec.ofNat 8 (bitMask (fun g => gridIdx ib32 g &&& 0x100 != 0) 8)),
    (32, fun a => BitVec.ofNat 8 (signs (a / 4) (a % 4))),
    (4, fun k => nibbles (scale (2 * k) &&& 0x0F) (scale (2 * k + 1) &&& 0x0F))]

/-- The high bits of four indices, a scale of three bits and the sign of the offset. -/
def packIQ1_S (d : BitVec 16) (gridIdx : ℕ → ℕ → ℕ) (scale : ℕ → ℕ) (deltaNeg : ℕ → Bool) : Bytes :=
  join [(2, bytesOf d),
    (32, fun a => BitVec.ofNat 8 (gridIdx (a / 4) (a % 4) &&& 0xFF)),
    (16, fun a =>
      let ib32 := a / 2
      let qh := packDigits 3 (fun l => (gridIdx ib32 l >>> 8) &&& 0x07) 4 ||| (scale ib32 &&& 0x07) <<< 12
      bytesOf (BitVec.ofNat 16 (if deltaNeg ib32 then qh ||| 0x8000 else qh)) (a % 2))]

/-- The high bits of the two indices of sixteen elements, each below the sign of the offset. -/
def packHighIQ1_M (gridIdx : ℕ → ℕ → ℕ) (deltaNeg : ℕ → Bool) (k : ℕ) : BitVec 8 :=
  let part l := (gridIdx (k / 2) l >>> 8) &&& 0x07
  let low := if deltaNeg k then part (2 * (k % 2)) ||| 0x08 else part (2 * (k % 2))
  let high := low ||| part (2 * (k % 2) + 1) <<< 4
  BitVec.ofNat 8 (if deltaNeg k then high ||| 0x08 <<< 4 else high)

/-- Four scales of three bits below one nibble of the super-scale. -/
def packScaleIQ1_M (d : BitVec 16) (scale : ℕ → ℕ) (k : ℕ) : BitVec 16 :=
  BitVec.ofNat 16 ((scale (4 * k) &&& 0x07) ||| (scale (4 * k + 1) &&& 0x07) <<< 3 |||
    (scale (4 * k + 2) &&& 0x07) <<< 6 ||| (scale (4 * k + 3) &&& 0x07) <<< 9 |||
    ((d.toNat >>> (4 * k)) &&& 0x0F) <<< 12)

def packIQ1_M (d : BitVec 16) (gridIdx : ℕ → ℕ → ℕ) (scale : ℕ → ℕ) (deltaNeg : ℕ → Bool) : Bytes :=
  join [(32, fun a => BitVec.ofNat 8 (gridIdx (a / 4) (a % 4) &&& 0xFF)),
    (16, packHighIQ1_M gridIdx deltaNeg),
    (8, fun a => bytesOf (packScaleIQ1_M d scale (a / 2)) (a % 2))]

/-! What the decoders read. -/

def gridIQ2_XXS (block : Bytes) (ib32 l : ℕ) : ℕ := ((block.skip 2).skip (8 * ib32) l).toNat

def auxIQ2_XXS (block : Bytes) (ib32 : ℕ) : BitVec 32 := loadU32 ((block.skip 2).skip (8 * ib32 + 4))

def wordIQ2_XS (block : Bytes) (ib32 l : ℕ) : BitVec 16 := loadU16 ((block.skip 2).skip (2 * (4 * ib32 + l)))

def gridIQ2_S (block : Bytes) (ib32 l : ℕ) : ℕ :=
  (block.skip 2 (4 * ib32 + l)).toNat ||| (((block.skip 66 ib32).toNat >>> (2 * l)) &&& 0x03) <<< 8

def signsIQ2_S (block : Bytes) (ib32 l : ℕ) : BitVec 8 := (block.skip 2).skip 32 (4 * ib32 + l)

def gridIQ3_XXS (block : Bytes) (ib32 g : ℕ) : ℕ := (block.skip 2 (8 * ib32 + g)).toNat

def auxIQ3_XXS (block : Bytes) (ib32 : ℕ) : BitVec 32 := loadU32 ((block.skip 66).skip (4 * ib32))

def gridIQ3_S (block : Bytes) (ib32 g : ℕ) : ℕ :=
  (block.skip 2 (8 * ib32 + g)).toNat ||| (((block.skip 66 ib32).toNat >>> g) &&& 0x01) <<< 8

def signsIQ3_S (block : Bytes) (ib32 l : ℕ) : BitVec 8 := block.skip 74 (4 * ib32 + l)

def scaleIQ3_S (block : Bytes) (ib32 : ℕ) : ℕ :=
  let byte := (block.skip 106 (ib32 / 2)).toNat
  if ib32 % 2 = 0 then byte &&& 0x0F else byte >>> 4

def highIQ1_S (block : Bytes) (ib32 : ℕ) : ℕ := (loadU16 ((block.skip 34).skip (2 * ib32))).toNat

def gridIQ1_S (block : Bytes) (ib32 l : ℕ) : ℕ :=
  (block.skip 2 (4 * ib32 + l)).toNat ||| ((highIQ1_S block ib32 >>> (3 * l)) &&& 0x07) <<< 8

def scaleIQ1_S (block : Bytes) (ib32 : ℕ) : ℕ := (highIQ1_S block ib32 >>> 12) &&& 0x07

def deltaNegIQ1_S (block : Bytes) (ib32 : ℕ) : Bool := highIQ1_S block ib32 &&& 0x8000 != 0

def wordIQ1_M (block : Bytes) (k : ℕ) : ℕ := (loadU16 ((block.skip 48).skip (2 * k))).toNat

/-- The super-scale, from the upper nibbles of the four scale words. -/
def superIQ1_M (block : Bytes) : BitVec 16 :=
  BitVec.ofNat 16 (wordIQ1_M block 0 >>> 12 ||| (wordIQ1_M block 1 >>> 8) &&& 0x00F0 |||
    (wordIQ1_M block 2 >>> 4) &&& 0x0F00 ||| wordIQ1_M block 3 &&& 0xF000)

/-- The scale of the first or the second half of 32 elements. -/
def scaleIQ1_M (block : Bytes) (ib half : ℕ) : ℕ :=
  (wordIQ1_M block (ib / 2) >>> (6 * (ib % 2) + 3 * half)) &&& 0x07

def gridIQ1_M (block : Bytes) (ib l : ℕ) : ℕ :=
  let qh := (block.skip 32 (2 * ib + l / 2)).toNat
  (block.skip 0 (4 * ib + l)).toNat ||| (qh <<< (if l % 2 = 0 then 8 else 4)) &&& 0x700

def deltaNegIQ1_M (block : Bytes) (ib l : ℕ) : Bool :=
  (block.skip 32 (2 * ib + l / 2)).toNat &&& (if l % 2 = 0 then 0x08 else 0x80) != 0

variable (M : Machine) (C : Codebooks)

/-! The formats with a sign for every element. -/

/-- The scale of 32 elements: `(0.5 + scale) * factor` times the super-scale. -/
def subDb (d factor : BitVec 32) (scale : ℕ) : BitVec 32 := M.mul (M.mul d (M.add half (ofNat M scale))) factor

/-- An element is a grid byte under its scale and its sign. -/
def gridValue {w : ℕ} (db : BitVec 32) (entry : BitVec w) (j : ℕ) (signs : BitVec 8) (bit : ℕ) : BitVec 32 :=
  M.mul (M.mul db (ofNat M (gridByte entry j).toNat)) (signFactor C signs bit)

/-- The plans of the eight blocks of a super-block. -/
def plans (group : (ℕ → BitVec 32) → SignedGroup) (divisor size : ℕ) (search : (ℕ → BitVec 32) → ℕ)
    (blk : ℕ → BitVec 32) (ib32 : ℕ) : Ib32Plan :=
  ib32Plan M group divisor size search (fun j => blk (32 * ib32 + j))

def encodeIQ2_XXS (block : Bytes) : Bytes :=
  let plan := plans M (evenSigns M) 25 8 (bestGridIndexU64 M C.iq2xxsGrid 256) (wordAt block)
  let maxDb := maxPlan M plan
  if M.lt maxDb tiny then fun _ => 0
  else
    let dSuper := M.div (M.mul maxDb (literal 4 1)) (literal 31 2)
    packIQ2_XXS (fp32ToFP16Safe dSuper) (fun ib32 => (plan ib32).gridIdx)
      (fun ib32 k => (plan ib32).signs k &&& 0x7F)
      (fun ib32 => planScale M 4 dSuper (plan ib32).db)

def decodeIQ2_XXS (block : Bytes) : Option Bytes :=
  let d := fp16ToFP32 (loadU16 block)
  if !isFiniteStrict d then none
  else some (wordBytes (fun i =>
    let aux := auxIQ2_XXS block (i / 32)
    gridValue M C (subDb M d (literal 1 4) (aux.toNat >>> 28))
      (C.iq2xxsGrid (gridIQ2_XXS block (i / 32) (i % 32 / 8)))
      (i % 8) (C.ksignsIq2xs (unpackSigns aux (i % 32 / 8))) (i % 8)))

def encodeIQ2_XS (block : Bytes) : Bytes :=
  let plan := plans M (evenSigns M) 25 8 (bestGridIndexU64 M C.iq2xsGrid 512) (wordAt block)
  let maxDb := maxPlan M plan
  if M.lt maxDb tiny then fun _ => 0
  else
    let dSuper := M.div (M.mul maxDb (literal 4 1)) (literal 31 2)
    packIQ2_XS (fp32ToFP16Safe dSuper) (fun ib32 => (plan ib32).gridIdx)
      (fun ib32 k => (plan ib32).signs k &&& 0x7F)
      (fun ib32 => planScale M 4 dSuper (plan ib32).db)

/-- The scale of sixteen of 32 elements. -/
def halfScale (sc : BitVec 8) (half : ℕ) : ℕ := if half = 0 then sc.toNat &&& 0x0F else sc.toNat >>> 4

def decodeIQ2_XS (block : Bytes) : Option Bytes :=
  let d := fp16ToFP32 (loadU16 block)
  if !isFiniteStrict d then none
  else some (wordBytes (fun i =>
    let packed := wordIQ2_XS block (i / 32) (i % 32 / 8)
    gridValue M C (subDb M d (literal 1 4) (halfScale (block.skip 66 (i / 32)) (i % 32 / 16)))
      (C.iq2xsGrid (packed.toNat &&& 0x1FF)) (i % 8) (C.ksignsIq2xs (packed.toNat >>> 9)) (i % 8)))

def encodeIQ2_S (block : Bytes) : Bytes :=
  let plan := plans M (splitSigns M) 25 8 (bestGridIndexU64 M C.iq2sGrid 1024) (wordAt block)
  let maxDb := maxPlan M plan
  if M.lt maxDb tiny then fun _ => 0
  else
    let dSuper := M.div (M.mul maxDb (literal 4 1)) (literal 31 2)
    packIQ2_S (fp32ToFP16Safe dSuper) (fun ib32 => (plan ib32).gridIdx) (fun ib32 => (plan ib32).signs)
      (fun ib32 => planScale M 4 dSuper (plan ib32).db)

def decodeIQ2_S (block : Bytes) : Option Bytes :=
  let d := fp16ToFP32 (loadU16 block)
  if !isFiniteStrict d then none
  else some (wordBytes (fun i =>
    gridValue M C (subDb M d (literal 1 4) (halfScale (block.skip 74 (i / 32)) (i % 32 / 16)))
      (C.iq2sGrid (gridIQ2_S block (i / 32) (i % 32 / 8))) (i % 8)
        (signsIQ2_S block (i / 32) (i % 32 / 8)) (i % 8)))

def encodeIQ3_XXS (block : Bytes) : Bytes :=
  let plan := plans M (evenSigns M) 14 4 (bestGridIndexU32 M C.iq3xxsGrid 256) (wordAt block)
  let maxDb := maxPlan M plan
  if M.lt maxDb tiny then fun _ => 0
  else
    let dSuper := M.div maxDb (literal 31 4)
    packIQ3_XXS (fp32ToFP16Safe dSuper) (fun ib32 => (plan ib32).gridIdx)
      (fun ib32 k => (plan ib32).signs k &&& 0x7F)
      (fun ib32 => planScale M 2 dSuper (plan ib32).db)

def decodeIQ3_XXS (block : Bytes) : Option Bytes :=
  let d := fp16ToFP32 (loadU16 block)
  if !isFiniteStrict d then none
  else some (wordBytes (fun i =>
    let aux := auxIQ3_XXS block (i / 32)
    gridValue M C (subDb M d half (aux.toNat >>> 28)) (C.iq3xxsGrid (gridIQ3_XXS block (i / 32) (i % 32 / 4)))
      (i % 4) (C.ksignsIq2xs (unpackSigns aux (i % 32 / 8))) (i % 8)))

/-- The small scale of a block whose largest value is `gmax`: `(gmax / (unit * d) - 1) / 2`. -/
def oddScale (unit : BitVec 32) (top : ℤ) (dInit gmax : BitVec 32) : ℕ :=
  if M.le tiny gmax then
    (clampInt 0 top (nearestInt M (M.mul (M.sub (M.div gmax (M.mul unit dInit)) one) half))).toNat
  else 0

/-- The odd multiple `1 + 2 * scale` of the super-scale. -/
def oddDb (d : BitVec 32) (scale : ℕ) : BitVec 32 := M.mul d (M.add one (M.mul (literal 2 1) (ofNat M scale)))

def encodeIQ3_S (block : Bytes) : Bytes :=
  let blk := wordAt block
  let amax := absMax M blk 256
  if M.lt amax tiny then fun _ => 0
  else
    let dInit := M.div amax (literal 434 1)
    let groups ib32 k := splitSigns M (fun j => blk (32 * ib32 + 8 * k + j))
    let xval ib32 := groupValues (groups ib32)
    let scale ib32 := oddScale M (literal 14 1) 15 dInit (positiveMax M (fun j => fabs (xval ib32 j)) 32)
    let id ib32 := positiveReciprocal M (oddDb M dInit (scale ib32))
    packIQ3_S (fp32ToFP16Safe dInit)
      (fun ib32 g => bestGridIndexU32 M C.iq3sGrid 512 (fun j => M.mul (xval ib32 (4 * g + j)) (id ib32)))
      (fun ib32 k => (groups ib32 k).signs) scale

def decodeIQ3_S (block : Bytes) : Option Bytes :=
  let d := fp16ToFP32 (loadU16 block)
  if !isFiniteStrict d then none
  else some (wordBytes (fun i =>
    gridValue M C (oddDb M d (scaleIQ3_S block (i / 32))) (C.iq3sGrid (gridIQ3_S block (i / 32) (i % 32 / 4)))
      (i % 4) (signsIQ3_S block (i / 32) (i % 32 / 8)) (i % 8)))

/-! The formats with a sign of the offset. -/

def kIQ1SDelta : BitVec 32 := literal 1 8

def signedDelta (neg : Bool) : BitVec 32 := if neg then fneg kIQ1SDelta else kIQ1SDelta

def oddDl (d : BitVec 32) (scale : ℕ) : BitVec 32 := M.mul d (M.add (M.mul (literal 2 1) (ofNat M scale)) one)

/-- The sign of the sum of some words. -/
def sumNegative (p : ℕ → BitVec 32) (n : ℕ) : Bool :=
  M.lt (loop (fun j sum => M.add sum (sanitiseFinite (p j))) zero n) zero

/-- An element is a signed grid byte, moved by the offset, under its scale. -/
def offsetValue (dl : BitVec 32) (entry : BitVec 64) (j : ℕ) (neg : Bool) : BitVec 32 :=
  M.mul dl (M.add (M.ofInt (gridByte entry j).toInt) (signedDelta neg))

def encodeIQ1_S (block : Bytes) : Bytes :=
  let blk := wordAt block
  let amax := absMax M blk 256
  if M.lt amax tiny then fun _ => 0
  else
    let dInit := M.div amax (literal 17 1)
    let deltaNeg ib32 := sumNegative M (fun j => blk (32 * ib32 + j)) 32
    let scale ib32 := oddScale M (literal 9 8) 7 dInit (absMax M (fun j => blk (32 * ib32 + j)) 32)
    let id ib32 := positiveReciprocal M (oddDl M dInit (scale ib32))
    packIQ1_S (fp32ToFP16Safe dInit)
      (fun ib32 l => bestGridIQ1S M C.iq1sGrid
        (fun j => M.mul (sanitiseFinite (blk (32 * ib32 + 8 * l + j))) (id ib32))
        (signedDelta (deltaNeg ib32)))
      scale deltaNeg

def decodeIQ1_S (block : Bytes) : Option Bytes :=
  let d := fp16ToFP32 (loadU16 block)
  if !isFiniteStrict d then none
  else some (wordBytes (fun i =>
    offsetValue M (oddDl M d (scaleIQ1_S block (i / 32))) (C.iq1sGrid (gridIQ1_S block (i / 32) (i % 32 / 8)))
      (i % 8) (deltaNegIQ1_S block (i / 32))))

def encodeIQ1_M (block : Bytes) : Bytes :=
  let blk := wordAt block
  let amax := absMax M blk 256
  if M.lt amax tiny then fun _ => 0
  else
    let dInit := M.div amax (literal 17 1)
    let deltaNeg sb := sumNegative M (fun j => blk (16 * sb + j)) 16
    let scale sb := oddScale M (literal 9 8) 7 dInit (absMax M (fun j => blk (16 * sb + j)) 16)
    let id sb := positiveReciprocal M (oddDl M dInit (scale sb))
    packIQ1_M (fp32ToFP16Safe dInit)
      (fun ib l =>
        let sb := 2 * ib + l / 2
        bestGridIQ1S M C.iq1sGrid (fun j => M.mul (sanitiseFinite (blk (32 * ib + 8 * l + j))) (id sb))
          (signedDelta (deltaNeg sb)))
      scale deltaNeg

def decodeIQ1_M (block : Bytes) : Option Bytes :=
  let d := fp16ToFP32 (superIQ1_M block)
  if !isFiniteStrict d then none
  else some (wordBytes (fun i =>
    offsetValue M (oddDl M d (scaleIQ1_M block (i / 32) (i % 32 / 16)))
      (C.iq1sGrid (gridIQ1_M block (i / 32) (i % 32 / 8))) (i % 8) (deltaNegIQ1_M block (i / 32) (i % 32 / 8))))

end Qtx.IQuants
