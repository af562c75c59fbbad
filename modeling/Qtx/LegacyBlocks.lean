import Qtx.QuantizerHelpers

/-!
# Q4_1, Q5_0 and Q5_1 blocks

Blocks of 32 elements with one scale. The low four bits of a level lie in a nibble, the
elements of the first half low and those of the second half high; the fifth bit lies in a
word of its own.
-/
namespace Qtx.LegacyBlocks

open Qtx.ByteStreams Qtx.FloatMachine Qtx.FpeGuard Qtx.PackedDigits Qtx.QuantizerHelpers

/-- The nibbles of the 32 levels. -/
def packHalves (level : ℕ → ℕ) : Bytes := fun j => nibbles (level j &&& 0x0F) (level (j + 16) &&& 0x0F)

def unpackHalves (qs : Bytes) (i : ℕ) : ℕ := if i < 16 then (qs i).toNat &&& 0x0F else (qs (i - 16)).toNat >>> 4

/-- The fifth bits of the 32 levels. -/
def packFifth (level : ℕ → ℕ) : BitVec 32 :=
  BitVec.ofNat 32 (loop (fun j qh =>
    qh ||| ((level j &&& 0x10) >>> 4) <<< j ||| ((level (j + 16) &&& 0x10) >>> 4) <<< (j + 16)) 0 16)

def unpackFifth (qh : BitVec 32) (i : ℕ) : ℕ :=
  if i < 16 then ((qh.toNat >>> i) <<< 4) &&& 0x10 else (qh.toNat >>> (i - 16 + 12)) &&& 0x10

def packQ4_1 (d m : BitVec 16) (level : ℕ → ℕ) : Bytes :=
  join [(2, bytesOf d), (2, bytesOf m), (16, fun j => nibbles (level j) (level (j + 16)))]

def packQ5_0 (d : BitVec 16) (level : ℕ → ℕ) : Bytes :=
  join [(2, bytesOf d), (4, bytesOf (packFifth level)), (16, packHalves level)]

def packQ5_1 (d m : BitVec 16) (level : ℕ → ℕ) : Bytes :=
  join [(2, bytesOf d), (2, bytesOf m), (4, bytesOf (packFifth level)), (16, packHalves level)]

def unpackQ4_1 (block : Bytes) : ℕ → ℕ := unpackHalves (block.skip 4)

def unpackQ5_0 (block : Bytes) (i : ℕ) : ℕ :=
  unpackHalves (block.skip 6) i ||| unpackFifth (loadU32 (block.skip 2)) i

def unpackQ5_1 (block : Bytes) (i : ℕ) : ℕ :=
  unpackHalves (block.skip 8) i ||| unpackFifth (loadU32 (block.skip 4)) i

variable (M : Machine)

/-- The levels of a block between its least and its largest word. -/
def rangeLevel (top : ℤ) (vmin id v : BitVec 32) : ℕ :=
  (clampInt 0 top (M.toInt (M.add (M.mul (M.sub v vmin) id) half))).toNat

def encodeQ4_1 (block : Bytes) : Bytes :=
  let blk := wordAt block
  let (vmin, vmax) := subBlockMinMax M blk 32
  let d := M.div (M.sub vmax vmin) (literal 15 1)
  let id := reciprocal M d
  packQ4_1 (fp32ToFP16Safe d) (fp32ToFP16Safe vmin) (fun j => rangeLevel M 15 vmin id (sanitiseFinite (blk j)))

def decodeQ4_1 (block : Bytes) : Option Bytes :=
  let d := fp16ToFP32 (loadU16 block)
  let m := fp16ToFP32 (loadU16 (block.skip 2))
  if !isFiniteStrict d || !isFiniteStrict m then none
  else some (wordBytes (fun i => M.add (M.mul (ofNat M (unpackQ4_1 block i)) d) m))

def encodeQ5_0 (block : Bytes) : Bytes :=
  let blk := wordAt block
  let vmax := subBlockSignedAbsMax M blk 32
  let d := M.div vmax (fneg (literal 16 1))
  let id := reciprocal M d
  packQ5_0 (fp32ToFP16Safe d) (fun j =>
    (clampInt 0 31 (M.toInt (M.add (M.mul (sanitiseFinite (blk j)) id) (literal 33 2)))).toNat)

def decodeQ5_0 (block : Bytes) : Option Bytes :=
  let d := fp16ToFP32 (loadU16 block)
  if !isFiniteStrict d then none
  else some (wordBytes (fun i => M.mul (M.ofInt ((unpackQ5_0 block i : ℤ) - 16)) d))

def encodeQ5_1 (block : Bytes) : Bytes :=
  let blk := wordAt block
  let (vmin, vmax) := subBlockMinMax M blk 32
  let d := M.div (M.sub vmax vmin) (literal 31 1)
  let id := reciprocal M d
  packQ5_1 (fp32ToFP16Safe d) (fp32ToFP16Safe vmin) (fun j => rangeLevel M 31 vmin id (sanitiseFinite (blk j)))

def decodeQ5_1 (block : Bytes) : Option Bytes :=
  let d := fp16ToFP32 (loadU16 block)
  let m := fp16ToFP32 (loadU16 (block.skip 2))
  if !isFiniteStrict d || !isFiniteStrict m then none
  else some (wordBytes (fun i => M.add (M.mul (ofNat M (unpackQ5_1 block i)) d) m))

end Qtx.LegacyBlocks
