import Qtx.QuantizerHelpers

/-!
# I-quant super-blocks

IQ4_NL and IQ4_XS store indices into sixteen values. The other formats store, for every
group of eight or four elements, an index into a grid of points, the signs of the group and
a small scale; IQ1 formats have a sign of a constant offset in place of the signs. The
tables are parameters.
-/
namespace Qtx.IQuants

open Qtx.ByteStreams Qtx.FloatWords Qtx.FloatMachine Qtx.FpeGuard Qtx.PackedDigits Qtx.QuantizerHelpers

/-! The tables. -/

structure Codebooks where
  iq2xxsGrid : ℕ → BitVec 64
  iq2xsGrid : ℕ → BitVec 64
  iq2sGrid : ℕ → BitVec 64
  iq3xxsGrid : ℕ → BitVec 32
  iq3sGrid : ℕ → BitVec 32
  iq1sGrid : ℕ → BitVec 64
  kmaskIq2xs : ℕ → BitVec 8
  ksignsIq2xs : ℕ → BitVec 8
  kIQ4Codebook : ℕ → BitVec 8

def kmaskIq2xs (j : ℕ) : BitVec 8 := [1#8, 2#8, 4#8, 8#8, 16#8, 32#8, 64#8, 128#8].getD j 0#8

def ksignsIq2xs (s : ℕ) : BitVec 8 :=
  BitVec.ofNat 8 ([0, 129, 130, 3, 132, 5, 6, 135, 136, 9, 10, 139, 12, 141, 142, 15,
    144, 17, 18, 147, 20, 149, 150, 23, 24, 153, 154, 27, 156, 29, 30, 159,
    160, 33, 34, 163, 36, 165, 166, 39, 40, 169, 170, 43, 172, 45, 46, 175,
    48, 177, 178, 51, 180, 53, 54, 183, 184, 57, 58, 187, 60, 189, 190, 63,
    192, 65, 66, 195, 68, 197, 198, 71, 72, 201, 202, 75, 204, 77, 78, 207,
    80, 209, 210, 83, 212, 85, 86, 215, 216, 89, 90, 219, 92, 221, 222, 95,
    96, 225, 226, 99, 228, 101, 102, 231, 232, 105, 106, 235, 108, 237, 238, 111,
    240, 113, 114, 243, 116, 245, 246, 119, 120, 249, 250, 123, 252, 125, 126, 255].getD s 0)

def kIQ4Codebook (i : ℕ) : BitVec 8 :=
  BitVec.ofInt 8 ([-127, -104, -83, -65, -49, -35, -22, -10, 1, 13, 25, 38, 53, 69, 89, 113].getD i 0)

/-- The tables of signs and levels beside grids whose points are all zero. -/
def emptyCodebooks : Codebooks where
  iq2xxsGrid _ := 0
  iq2xsGrid _ := 0
  iq2sGrid _ := 0
  iq3xxsGrid _ := 0
  iq3sGrid _ := 0
  iq1sGrid _ := 0
  kmaskIq2xs := kmaskIq2xs
  ksignsIq2xs := ksignsIq2xs
  kIQ4Codebook := kIQ4Codebook

/-! IQ4: sixteen values. -/

/-- The least value of the codebook. -/
def minIQ4 : BitVec 32 := fneg (literal 127 1)

section IQ4

variable (M : Machine) (C : Codebooks)

/-- The index of the value nearest to a word. -/
def bestIndexIQ4 (x : BitVec 32) : ℕ :=
  if M.le x (M.ofInt (C.kIQ4Codebook 0).toInt) then 0
  else if M.le (M.ofInt (C.kIQ4Codebook 15).toInt) x then 15
  else
    (loop (fun k (acc : ℕ × BitVec 32) =>
      let i := k + 1
      let err := fabs (M.sub x (M.ofInt (C.kIQ4Codebook i).toInt))
      if M.lt err acc.2 then (i, err) else acc) (0, fabs (M.sub x (M.ofInt (C.kIQ4Codebook 0).toInt))) 15).1

/-- The nibbles of sub-blocks of 32 elements, the two halves of a sub-block below each other. -/
def packHalvesIQ4 (index : ℕ → ℕ) : Bytes := fun k =>
  let e := 32 * (k / 16) + k % 16
  nibbles (index e &&& 0x0F) (index (e + 16) &&& 0x0F)

def unpackHalvesIQ4 (qs : Bytes) (i : ℕ) : ℕ :=
  let packed := (qs (16 * (i / 32) + i % 16)).toNat
  if i % 32 < 16 then packed &&& 0x0F else (packed >>> 4) &&& 0x0F

def packIQ4_NL (d : BitVec 16) (index : ℕ → ℕ) : Bytes := join [(2, bytesOf d), (16, packHalvesIQ4 index)]

def encodeIQ4_NL (block : Bytes) : Bytes :=
  let blk := wordAt block
  let amax := absMax M blk 32
  let vmax := subBlockSignedAbsMax M blk 32
  let d := if M.lt zero amax then M.div vmax minIQ4 else zero
  let id := reciprocal M d
  packIQ4_NL (fp32ToFP16Safe d) (fun j => bestIndexIQ4 M C (M.mul (sanitiseFinite (blk j)) id))

def decodeIQ4_NL (block : Bytes) : Option Bytes :=
  let d := fp16ToFP32 (loadU16 block)
  if !isFiniteStrict d then none
  else some (wordBytes (fun i => M.mul d (M.ofInt (C.kIQ4Codebook (unpackHalvesIQ4 (block.skip 2) i)).toInt)))

/-- The scales of the eight sub-blocks: low nibbles, and the high bits in a word. -/
def packScalesLow (scale : ℕ → ℕ) : Bytes := fun k => nibbles (scale (2 * k) &&& 0x0F) (scale (2 * k + 1) &&& 0x0F)

def packScalesHigh (scale : ℕ → ℕ) :
    BitVec 16 := BitVec.ofNat 16 (packDigits 2 (fun ib => (scale ib >>> 4) &&& 0x03) 8)

def unpackScaleIQ4 (scalesH : BitVec 16) (scalesL : Bytes) (ib : ℕ) : ℕ :=
  (((scalesL (ib / 2)).toNat >>> (4 * (ib % 2))) &&& 0x0F) ||| ((scalesH.toNat >>> (2 * ib)) &&& 0x03) <<< 4

def packIQ4_XS (d : BitVec 16) (scale index : ℕ → ℕ) : Bytes :=
  join [(2, bytesOf d), (2, bytesOf (packScalesHigh scale)), (4, packScalesLow scale), (128, packHalvesIQ4 index)]

def encodeIQ4_XS (block : Bytes) : Bytes :=
  let blk := wordAt block
  let scales ib := M.div (subBlockSignedAbsMax M (fun j => blk (32 * ib + j)) 32) minIQ4
  let (maxAbsScale, maxScale) := extremeScale M scales 8
  if M.lt maxAbsScale tiny then fun _ => 0
  else
    let iscale := M.div (fneg (literal 32 1)) maxScale
    let dSuper := M.div one iscale
    let scale ib := clampInt (-32) 31 (nearestInt M (M.mul iscale (scales ib)))
    let id ib := reciprocal M (M.mul dSuper (M.ofInt (scale ib)))
    packIQ4_XS (fp32ToFP16Safe dSuper) (fun ib => (scale ib + 32).toNat)
      (fun i => bestIndexIQ4 M C (M.mul (sanitiseFinite (blk i)) (id (i / 32))))

def decodeIQ4_XS (block : Bytes) : Option Bytes :=
  let d := fp16ToFP32 (loadU16 block)
  if !isFiniteStrict d then none
  else
    let scale ib := (unpackScaleIQ4 (loadU16 (block.skip 2)) (block.skip 4) ib : ℤ) - 32
    some (wordBytes (fun i =>
      M.mul (M.mul d (M.ofInt (scale (i / 32))))
        (M.ofInt (C.kIQ4Codebook (unpackHalvesIQ4 (block.skip 8) i)).toInt)))

end IQ4

/-! Grids and signs. -/

/-- The infinite error a search starts with. -/
def infinite : BitVec 32 := 0x7F800000#32

section Grids

variable (M : Machine) (C : Codebooks)

/-- The squared distance of a target to a point. -/
def gridError (target point : ℕ → BitVec 32) (n : ℕ) : BitVec 32 :=
  loop (fun j err =>
    let d := M.sub (target j) (point j)
    M.add err (M.mul d d)) zero n

/-- The first of the points with the least error. -/
def bestPoint (error : ℕ → BitVec 32) (n : ℕ) : ℕ :=
  (loop (fun i (acc : ℕ × BitVec 32) => if M.lt (error i) acc.2 then (i, error i) else acc) (0, infinite) n).1

/-- The bytes of a grid entry. -/
def gridByte {w : ℕ} (entry : BitVec w) (j : ℕ) : BitVec 8 := (entry >>> (8 * j)).setWidth 8

def bestGridIndexU64 (grid : ℕ → BitVec 64) (n : ℕ) (target : ℕ → BitVec 32) : ℕ :=
  bestPoint M (fun i => gridError M target (fun j => ofNat M (gridByte (grid i) j).toNat) 8) n

def bestGridIndexU32 (grid : ℕ → BitVec 32) (n : ℕ) (target : ℕ → BitVec 32) : ℕ :=
  bestPoint M (fun i => gridError M target (fun j => ofNat M (gridByte (grid i) j).toNat) 4) n

/-- The same with signed points that are moved by an offset. -/
def bestGridIQ1S (grid : ℕ → BitVec 64) (target : ℕ → BitVec 32) (delta : BitVec 32) : ℕ :=
  bestPoint M (fun i => gridError M target (fun j => M.add (M.ofInt (gridByte (grid i) j).toInt) delta) 8) 2048

/-- The absolute values and the signs of a group of eight words. -/
structure SignedGroup where
  xval : ℕ → BitVec 32
  signs : ℕ

/-- A word that is not at least zero is negated and its sign is noted. -/
def splitSigns (x : ℕ → BitVec 32) : SignedGroup where
  xval j := if M.le zero (sanitiseFinite (x j)) then sanitiseFinite (x j) else fneg (sanitiseFinite (x j))
  signs := bitMask (fun j => !M.le zero (sanitiseFinite (x j))) 8

/-- How many words of a group were negated. -/
def flips (x : ℕ → BitVec 32) : ℕ := loop (fun j n => if M.le zero (sanitiseFinite (x j)) then n else n + 1) 0 8

/-- The first of the smallest values of a group. -/
def smallest (xval : ℕ → BitVec 32) : ℕ :=
  (loop (fun k (acc : ℕ × BitVec 32) => if M.lt (xval (k + 1)) acc.2 then (k + 1, xval (k + 1)) else acc)
    (0, xval 0) 7).1

/-- An odd number of signs is corrected at the smallest value. -/
def evenSigns (x : ℕ → BitVec 32) : SignedGroup :=
  let g := splitSigns M x
  if flips M x % 2 ≠ 0 then
    let imin := smallest M g.xval
    { xval := fun j => if j = imin then fneg (g.xval j) else g.xval j, signs := g.signs ^^^ 1 <<< imin }
  else g

/-- The values of the four groups of 32 words. -/
def groupValues (group : ℕ → SignedGroup) (j : ℕ) : BitVec 32 := (group (j / 8)).xval (j % 8)

/-- The scale of 32 words from the largest of their values. -/
def groupScale (divisor : ℕ) (xval : ℕ → BitVec 32) : BitVec 32 :=
  let gmax := positiveMax M xval 32
  if M.lt tiny gmax then M.div gmax (literal divisor 1) else zero

/-- What the first phase finds for 32 words. -/
structure Ib32Plan where
  db : BitVec 32
  gridIdx : ℕ → ℕ
  signs : ℕ → ℕ

/-- The plan of 32 words: `search` finds the point of a group of `size` scaled values. -/
def ib32Plan (group : (ℕ → BitVec 32) → SignedGroup) (divisor size : ℕ) (search : (ℕ → BitVec 32) → ℕ)
    (xb : ℕ → BitVec 32) : Ib32Plan :=
  let groups k := group (fun j => xb (8 * k + j))
  let xval := groupValues groups
  let db := groupScale M divisor xval
  let id := positiveReciprocal M db
  { db := db
    gridIdx := fun g => search (fun j => M.mul (xval (size * g + j)) id)
    signs := fun k => (groups k).signs }

/-- The largest scale of the eight plans. -/
def maxPlan (plan : ℕ → Ib32Plan) : BitVec 32 := positiveMax M (fun ib32 => (plan ib32).db) 8

/-- The four-bit scale of a plan: `factor` times the scale over the scale of the super-block. -/
def planScale (factor : ℕ) (dSuper db : BitVec 32) : ℕ :=
  if M.lt zero db then
    (clampInt 0 15 (nearestInt M (M.sub (M.div (M.mul db (literal factor 1)) dSuper) half))).toNat
  else 0

/-- The sign of an element in a mask. -/
def signFactor (signs : BitVec 8) (j : ℕ) : BitVec 32 :=
  if signs &&& C.kmaskIq2xs j ≠ 0#8 then fneg one else one

end Grids

end Qtx.IQuants
