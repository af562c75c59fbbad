import Qtx.ByteStreams
import Qtx.FloatMachine
import Qtx.FpeGuard
import Qtx.PackedDigits

/-!
# Helpers of the block encoders

The scans and conversions that the block encoders of `quantizer.hpp` share. A block is the
function from an index to its word, and every encoder reads its words sanitised.
-/
namespace Qtx.QuantizerHelpers

open Qtx.BinaryFormats Qtx.FloatWords Qtx.FloatMachine Qtx.FpeGuard Qtx.PackedDigits

/-- The word of a constant of the source. -/
def literal (a b : ℕ) : BitVec 32 := signed false (roundUnits 23 (a * 2 ^ 149) b)

def maxFloat : BitVec 32 := 0x7F7FFFFF#32

def zero : BitVec 32 := 0#32

def one : BitVec 32 := literal 1 1

def half : BitVec 32 := literal 1 2

/-- The threshold below which a block counts as zero. -/
def tiny : BitVec 32 := literal 1 (10 ^ 30)

variable (M : Machine)

def ofNat (n : ℕ) : BitVec 32 := M.ofInt n

def clampInt (lo hi i : ℤ) : ℤ := if hi < i then hi else if i < lo then lo else i

/-- A reciprocal that is zero for a scale of zero. -/
def reciprocal (d : BitVec 32) : BitVec 32 := if M.eq d zero then zero else M.div one d

/-- The same for a scale that is not positive. -/
def positiveReciprocal (d : BitVec 32) : BitVec 32 := if M.lt zero d then M.div one d else zero

def nearestInt (x : BitVec 32) : ℤ :=
  if M.le zero x then M.toInt (M.add x half) else -M.toInt (M.add (fneg x) half)

/-- The word of the largest absolute value, with its sign. -/
def subBlockSignedAbsMax (p : ℕ → BitVec 32) (n : ℕ) : BitVec 32 :=
  (loop (fun j (acc : BitVec 32 × BitVec 32) =>
    let v := sanitiseFinite (p j)
    let a := fabs v
    if M.lt acc.1 a then (a, v) else acc) (zero, zero) n).2

def subBlockMinMax (p : ℕ → BitVec 32) (n : ℕ) : BitVec 32 × BitVec 32 :=
  loop (fun j (acc : BitVec 32 × BitVec 32) =>
    let v := sanitiseFinite (p j)
    (if M.lt v acc.1 then v else acc.1, if M.lt acc.2 v then v else acc.2)) (maxFloat, fneg maxFloat) n

/-- The largest of some absolute values. -/
def absMax (p : ℕ → BitVec 32) (n : ℕ) : BitVec 32 :=
  loop (fun j amax =>
    let a := fabs (sanitiseFinite (p j))
    if M.lt amax a then a else amax) zero n

/-- The largest of some words that are not negative. -/
def positiveMax (p : ℕ → BitVec 32) (n : ℕ) : BitVec 32 :=
  loop (fun j gmax => if M.lt gmax (p j) then p j else gmax) zero n

/-- The largest absolute value among the scales of the sub-blocks, and the scale that has it. -/
def extremeScale (scale : ℕ → BitVec 32) (n : ℕ) : BitVec 32 × BitVec 32 :=
  loop (fun ib (acc : BitVec 32 × BitVec 32) =>
    if M.lt acc.1 (fabs (scale ib)) then (fabs (scale ib), scale ib) else acc) (zero, zero) n

theorem clampInt_bounds {lo hi : ℤ} (h : lo ≤ hi) (i : ℤ) : lo ≤ clampInt lo hi i ∧ clampInt lo hi i ≤ hi := by
  unfold clampInt
  split_ifs <;> omega

end Qtx.QuantizerHelpers
