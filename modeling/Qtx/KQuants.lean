import Qtx.QuantizerHelpers

/-!
# K-quant super-blocks

Super-blocks of 256 elements in sub-blocks with a scale of their own. Q2_K, Q4_K and Q5_K
put every sub-block between its least and its largest word and store a scale and a minimum
for it; Q3_K and Q6_K store a signed scale. A level is split over a byte array for its low
bits and one for its high bits.
-/
namespace Qtx.KQuants

open Qtx.ByteStreams Qtx.FloatMachine Qtx.FpeGuard Qtx.PackedDigits Qtx.QuantizerHelpers

/-! The packed scales. -/

/-- Eight scales and eight minima of six bits in twelve bytes. -/
def packScalesMinsK4 (scale min : ℕ → ℕ) : Bytes := fun k => BitVec.ofNat 8 <|
  if k < 4 then (scale k &&& 0x3F) ||| ((scale (k + 4) >>> 4) &&& 0x03) <<< 6
  else if k < 8 then (min (k - 4) &&& 0x3F) ||| ((min k >>> 4) &&& 0x03) <<< 6
  else (scale (k - 4) &&& 0x0F) ||| (min (k - 4) &&& 0x0F) <<< 4

def unpackScaleMinK4 (j : ℕ) (q : Bytes) : ℕ × ℕ :=
  if j < 4 then ((q j).toNat &&& 0x3F, (q (j + 4)).toNat &&& 0x3F)
  else (((q (j + 4)).toNat &&& 0x0F) ||| ((q (j - 4)).toNat >>> 6) <<< 4,
    ((q (j + 4)).toNat >>> 4) ||| ((q j).toNat >>> 6) <<< 4)

/-- Sixteen scales of six bits: the low nibbles of the scales `j` and `j + 8` in one byte, the high
bits of four scales in another. -/
def packScalesQ3K (scale : ℕ → ℕ) : Bytes := fun k =>
  if k < 8 then nibbles (scale k &&& 0x0F) (scale (k + 8) &&& 0x0F)
  else crumbs (scale (k - 8) >>> 4) (scale (k - 4) >>> 4) (scale k >>> 4) (scale (k + 4) >>> 4)

def unpackScaleQ3K (sc : Bytes) (j : ℕ) : ℕ :=
  let lo := if j < 8 then (sc j).toNat &&& 0x0F else (sc (j - 8)).toNat >>> 4
  let hi := ((sc (8 + j % 4)).toNat >>> (2 * (j / 4))) &&& 0x03
  lo ||| hi <<< 4

/-! The packed levels. -/

/-- Four levels of two bits in one byte, 32 elements apart. -/
def packStripes (level : ℕ → ℕ) : Bytes := fun k =>
  let e := 128 * (k / 32) + k % 32
  crumbs (level e) (level (e + 32)) (level (e + 64)) (level (e + 96))

def unpackStripes (q : Bytes) (i : ℕ) : ℕ := ((q (32 * (i / 128) + i % 32)).toNat >>> (2 * (i % 128 / 32))) &&& 0x03

/-- One bit of each of eight levels in one byte, 32 elements apart. -/
def packHighBits (high : ℕ → Bool) : Bytes := fun k => BitVec.ofNat 8 (bitMask (fun t => high (32 * t + k)) 8)

/-- The bit of an element, tested with a mask. -/
def highBit (h : Bytes) (i : ℕ) : Bool := (h (i % 32)).toNat &&& 1 <<< (i / 32) != 0

/-- Two levels of four bits in one byte, 32 elements apart. -/
def packPairs (level : ℕ → ℕ) : Bytes := fun k =>
  let e := 64 * (k / 32) + k % 32
  nibbles (level e) (level (e + 32))

def unpackPairs (q : Bytes) (i : ℕ) : ℕ :=
  let byte := (q (32 * (i / 64) + i % 32)).toNat
  if i % 64 < 32 then byte &&& 0x0F else byte >>> 4

def packQ2_K (scale min level : ℕ → ℕ) (d dmin : BitVec 16) : Bytes :=
  join [(16, fun j => nibbles (scale j) (min j)), (64, packStripes level), (2, bytesOf d), (2, bytesOf dmin)]

def packQ3_K (scale level : ℕ → ℕ) (d : BitVec 16) : Bytes :=
  join [(32, packHighBits (fun i => 3 < level i)),
    (64, packStripes (fun i => if 3 < level i then level i - 4 else level i)), (12, packScalesQ3K scale),
      (2, bytesOf d)]

def packQ4_K (d dmin : BitVec 16) (scale min level : ℕ → ℕ) : Bytes :=
  join [(2, bytesOf d), (2, bytesOf dmin), (12, packScalesMinsK4 scale min), (128, packPairs level)]

def packQ5_K (d dmin : BitVec 16) (scale min level : ℕ → ℕ) : Bytes :=
  join [(2, bytesOf d), (2, bytesOf dmin), (12, packScalesMinsK4 scale min),
    (32, packHighBits (fun i => 15 < level i)),
    (128, packPairs (fun i => if 15 < level i then level i - 16 else level i))]

/-- The low four bits of a level in a nibble, 64 elements apart. -/
def packLowQ6K (level : ℕ → ℕ) : Bytes := fun k =>
  let e := 128 * (k / 64) + k % 64
  nibbles (level e &&& 0x0F) (level (e + 64) &&& 0x0F)

def packQ6_K (level : ℕ → ℕ) (scale : ℕ → BitVec 8) (d : BitVec 16) : Bytes :=
  join [(128, packLowQ6K level), (64, packStripes (fun i => level i >>> 4)), (16, scale), (2, bytesOf d)]

def unpackQ2_K (block : Bytes) : ℕ → ℕ := unpackStripes (block.skip 16)

/-- The level above its least value. -/
def unpackQ3_K (block : Bytes) (i : ℕ) : ℤ :=
  unpackStripes (block.skip 32) i - if highBit block i then 0 else 4

def unpackQ4_K (block : Bytes) : ℕ → ℕ := unpackPairs (block.skip 16)

def unpackQ5_K (block : Bytes) (i : ℕ) : ℕ :=
  unpackPairs (block.skip 48) i + if highBit (block.skip 16) i then 16 else 0

def unpackLowQ6K (ql : Bytes) (i : ℕ) : ℕ :=
  let byte := (ql (64 * (i / 128) + i % 64)).toNat
  if i % 128 < 64 then byte &&& 0x0F else byte >>> 4

def unpackQ6_K (block : Bytes) (i : ℕ) : ℤ :=
  ((unpackLowQ6K block i ||| unpackStripes (block.skip 128) i <<< 4 : ℕ) : ℤ) - 32

/-! Sub-blocks between their least and their largest word. -/

structure RangeShape where
  subBlocks : ℕ
  subSize : ℕ
  /-- The largest level. -/
  codes : ℕ
  /-- The largest scale and minimum. -/
  top : ℕ

structure RangePlan where
  d : BitVec 32
  dmin : BitVec 32
  scale : ℕ → ℕ
  min : ℕ → ℕ
  level : ℕ → ℕ

variable (M : Machine)

/-- The scale of a sub-block and how far its least word lies below zero. -/
def subRange (s : RangeShape) (blk : ℕ → BitVec 32) (ib : ℕ) : BitVec 32 × BitVec 32 :=
  let (vmin, vmax) := subBlockMinMax M (fun j => blk (s.subSize * ib + j)) s.subSize
  let vmin := if M.lt zero vmin then zero else vmin
  (M.div (M.sub vmax vmin) (literal s.codes 1), fneg vmin)

def maxRanges (s : RangeShape) (blk : ℕ → BitVec 32) : BitVec 32 × BitVec 32 :=
  loop (fun ib (acc : BitVec 32 × BitVec 32) =>
    let (scale, minOffset) := subRange M s blk ib
    (if M.lt acc.1 scale then scale else acc.1, if M.lt acc.2 minOffset then minOffset else acc.2))
    (zero, zero) s.subBlocks

def rangePlan (s : RangeShape) (blk : ℕ → BitVec 32) : RangePlan :=
  let (maxScale, maxMin) := maxRanges M s blk
  let top := literal s.top 1
  let invMaxScale := if M.lt zero maxScale then M.div top maxScale else zero
  let invMaxMin := if M.lt zero maxMin then M.div top maxMin else zero
  let dSuper := M.div maxScale top
  let dminSuper := M.div maxMin top
  let scale ib := (clampInt 0 s.top (nearestInt M (M.mul invMaxScale (subRange M s blk ib).1))).toNat
  let min ib := (clampInt 0 s.top (nearestInt M (M.mul invMaxMin (subRange M s blk ib).2))).toNat
  let level i :=
    let localD := M.mul dSuper (ofNat M (scale (i / s.subSize)))
    let localM := M.mul dminSuper (ofNat M (min (i / s.subSize)))
    if M.eq localD zero then 0
    else (clampInt 0 s.codes (nearestInt M (M.mul (M.add (sanitiseFinite (blk i)) localM)
      (M.div one localD)))).toNat
  { d := dSuper, dmin := dminSuper, scale := scale, min := min, level := level }

/-- No sub-block has a scale or a minimum. -/
def isZeroRange (s : RangeShape) (blk : ℕ → BitVec 32) : Bool :=
  M.eq (maxRanges M s blk).1 zero && M.eq (maxRanges M s blk).2 zero

def shapeQ2_K : RangeShape := { subBlocks := 16, subSize := 16, codes := 3, top := 15 }

def shapeQ4_K : RangeShape := { subBlocks := 8, subSize := 32, codes := 15, top := 63 }

def shapeQ5_K : RangeShape := { subBlocks := 8, subSize := 32, codes := 31, top := 63 }

def encodeQ2_K (block : Bytes) : Bytes :=
  let p := rangePlan M shapeQ2_K (wordAt block)
  packQ2_K p.scale p.min p.level (fp32ToFP16Safe p.d) (fp32ToFP16Safe p.dmin)

def encodeQ4_K (block : Bytes) : Bytes :=
  if isZeroRange M shapeQ4_K (wordAt block) then fun _ => 0
  else
    let p := rangePlan M shapeQ4_K (wordAt block)
    packQ4_K (fp32ToFP16Safe p.d) (fp32ToFP16Safe p.dmin) p.scale p.min p.level

def encodeQ5_K (block : Bytes) : Bytes :=
  if isZeroRange M shapeQ5_K (wordAt block) then fun _ => 0
  else
    let p := rangePlan M shapeQ5_K (wordAt block)
    packQ5_K (fp32ToFP16Safe p.d) (fp32ToFP16Safe p.dmin) p.scale p.min p.level

/-- The element of a level under the scale and the minimum of its sub-block. -/
def rangeValue (d dmin : BitVec 32) (scaleMin : ℕ × ℕ) (level : ℕ) : BitVec 32 :=
  M.sub (M.mul (M.mul d (ofNat M scaleMin.1)) (ofNat M level)) (M.mul dmin (ofNat M scaleMin.2))

def unpackScaleMinQ2K (block : Bytes) (j : ℕ) : ℕ × ℕ := ((block j).toNat &&& 0x0F, (block j).toNat >>> 4)

def decodeQ2_K (block : Bytes) : Option Bytes :=
  let d := fp16ToFP32 (loadU16 (block.skip 80))
  let dmin := fp16ToFP32 (loadU16 (block.skip 82))
  if !isFiniteStrict d || !isFiniteStrict dmin then none
  else some (wordBytes (fun i => rangeValue M d dmin (unpackScaleMinQ2K block (i / 16)) (unpackQ2_K block i)))

def decodeQ4_K (block : Bytes) : Option Bytes :=
  let d := fp16ToFP32 (loadU16 block)
  let dmin := fp16ToFP32 (loadU16 (block.skip 2))
  if !isFiniteStrict d || !isFiniteStrict dmin then none
  else some (wordBytes (fun i => rangeValue M d dmin (unpackScaleMinK4 (i / 32) (block.skip 4))
    (unpackQ4_K block i)))

def decodeQ5_K (block : Bytes) : Option Bytes :=
  let d := fp16ToFP32 (loadU16 block)
  let dmin := fp16ToFP32 (loadU16 (block.skip 2))
  if !isFiniteStrict d || !isFiniteStrict dmin then none
  else some (wordBytes (fun i => rangeValue M d dmin (unpackScaleMinK4 (i / 32) (block.skip 4))
    (unpackQ5_K block i)))

/-! Sub-blocks with a signed scale. -/

/-- The scale that takes the extreme word of a sub-block to the level `lowest`. -/
def subScale (size : ℕ) (lowest : BitVec 32) (blk : ℕ → BitVec 32) (ib : ℕ) : BitVec 32 :=
  M.div (subBlockSignedAbsMax M (fun j => blk (size * ib + j)) size) lowest

/-- The stored scale of a sub-block. -/
def signedScale (lo hi : ℤ) (iscale scale : BitVec 32) : ℤ := clampInt lo hi (nearestInt M (M.mul iscale scale))

/-- The level of a word under the scale of its sub-block. -/
def signedLevel (lo hi : ℤ) (localD v : BitVec 32) : ℤ :=
  if M.eq localD zero then 0 else clampInt lo hi (nearestInt M (M.mul v (M.div one localD)))

def encodeQ3_K (block : Bytes) : Bytes :=
  let blk := wordAt block
  let scales := subScale M 16 (fneg (literal 4 1)) blk
  let (maxAbsScale, maxScale) := extremeScale M scales 16
  if M.lt maxAbsScale tiny then fun _ => 0
  else
    let iscale := M.div (fneg (literal 32 1)) maxScale
    let dSuper := M.div one iscale
    let scale ib := signedScale M (-32) 31 iscale (scales ib)
    let level i := signedLevel M (-4) 3 (M.mul dSuper (M.ofInt (scale (i / 16)))) (sanitiseFinite (blk i))
    packQ3_K (fun ib => (scale ib + 32).toNat) (fun i => (level i + 4).toNat) (fp32ToFP16Safe dSuper)

def decodeQ3_K (block : Bytes) : Option Bytes :=
  let dAll := fp16ToFP32 (loadU16 (block.skip 108))
  if !isFiniteStrict dAll then none
  else some (wordBytes (fun i =>
    M.mul (M.mul dAll (M.ofInt ((unpackScaleQ3K (block.skip 96) (i / 16) : ℤ) - 32)))
      (M.ofInt (unpackQ3_K block i))))

def encodeQ6_K (block : Bytes) : Bytes :=
  let blk := wordAt block
  let scales := subScale M 16 (fneg (literal 32 1)) blk
  let (maxAbsScale, maxScale) := extremeScale M scales 16
  if M.lt maxAbsScale tiny then fun _ => 0
  else
    let iscale := M.div (fneg (literal 128 1)) maxScale
    let dSuper := M.div one iscale
    let scale ib := signedScale M (-128) 127 iscale (scales ib)
    let level i := signedLevel M (-32) 31 (M.mul dSuper (M.ofInt (scale (i / 16)))) (sanitiseFinite (blk i))
    packQ6_K (fun i => (level i + 32).toNat) (fun ib => BitVec.ofInt 8 (scale ib)) (fp32ToFP16Safe dSuper)

/-- The scale of the sub-block of an element. -/
def unpackScaleQ6K (block : Bytes) (i : ℕ) : ℤ :=
  (block.skip 192 (i / 128 * 8 + i % 32 / 16 + 2 * (i % 128 / 32))).toInt

def decodeQ6_K (block : Bytes) : Option Bytes :=
  let d := fp16ToFP32 (loadU16 (block.skip 208))
  if !isFiniteStrict d then none
  else some (wordBytes (fun i =>
    M.mul (M.mul d (M.ofInt (unpackScaleQ6K block i))) (M.ofInt (unpackQ6_K block i))))

end Qtx.KQuants
