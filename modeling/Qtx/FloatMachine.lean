import Qtx.FloatWords

/-!
# Binary32 arithmetic

An operation on finite words is the exact result, rounded to nearest even and infinite when
it is too large. A machine may flush subnormal operands and results to zero. The words it
answers for an invalid operation and for a conversion out of range are left open.
-/
namespace Qtx.FloatMachine

open Qtx.BinaryFormats Qtx.FloatWords

structure Machine where
  flush : Bool
  nan : BitVec 32 → BitVec 32 → BitVec 32
  nan_isNaN : ∀ x y, IsNaN (nan x y)
  /-- What a conversion to an integer answers outside the range of the integers. -/
  outOfRange : BitVec 32 → ℤ

instance (v : BitVec 32) : Decidable (IsNaN v) := inferInstanceAs (Decidable (_ < _))

def signed (neg : Bool) (n : ℕ) : BitVec 32 := BitVec.ofNat 32 (if neg then 2 ^ 31 + n else n)

def fneg (x : BitVec 32) : BitVec 32 := x ^^^ 0x80000000#32

def fabs (x : BitVec 32) : BitVec 32 := x &&& 0x7FFFFFFF#32

namespace Machine

variable (M : Machine)

/-- The absolute value of an operand, in ticks. -/
def size (x : BitVec 32) : ℕ := if M.flush && magnitude x < 2 ^ 23 then 0 else ticks x

def value (x : BitVec 32) : ℤ := if x.msb then -(M.size x : ℤ) else M.size x

/-- The word of `a / b` ticks. -/
def round (neg : Bool) (a b : ℕ) : BitVec 32 :=
  let n := min (roundUnits 23 a b) infinity
  signed neg (if M.flush && n < 2 ^ 23 then 0 else n)

def add (x y : BitVec 32) : BitVec 32 :=
  if IsNaN x ∨ IsNaN y then M.nan x y
  else if magnitude x = infinity then
    if magnitude y = infinity ∧ x.msb ≠ y.msb then M.nan x y else x
  else if magnitude y = infinity then y
  else
    let sum := M.value x + M.value y
    M.round (if sum = 0 then x.msb && y.msb else sum < 0) sum.natAbs 1

def sub (x y : BitVec 32) : BitVec 32 := M.add x (fneg y)

def mul (x y : BitVec 32) : BitVec 32 :=
  let neg := x.msb != y.msb
  if IsNaN x ∨ IsNaN y then M.nan x y
  else if magnitude x = infinity then if M.size y = 0 then M.nan x y else signed neg infinity
  else if magnitude y = infinity then if M.size x = 0 then M.nan x y else signed neg infinity
  else M.round neg (M.size x * M.size y) (2 ^ 149)

def div (x y : BitVec 32) : BitVec 32 :=
  let neg := x.msb != y.msb
  if IsNaN x ∨ IsNaN y then M.nan x y
  else if magnitude x = infinity then if magnitude y = infinity then M.nan x y else signed neg infinity
  else if magnitude y = infinity then signed neg 0
  else if M.size y = 0 then if M.size x = 0 then M.nan x y else signed neg infinity
  else M.round neg (M.size x * 2 ^ 149) (M.size y)

/-- The rank of an operand, as a comparison sees it. -/
def level (x : BitVec 32) : ℤ := if M.flush && magnitude x < 2 ^ 23 then 0 else rank x

def lt (x y : BitVec 32) : Bool := !decide (IsNaN x) && !decide (IsNaN y) && decide (M.level x < M.level y)

def eq (x y : BitVec 32) : Bool := !decide (IsNaN x) && !decide (IsNaN y) && decide (M.level x = M.level y)

def le (x y : BitVec 32) : Bool := M.lt x y || M.eq x y

def ofInt (i : ℤ) : BitVec 32 := M.round (i < 0) (i.natAbs * 2 ^ 149) 1

/-- Truncation towards zero. -/
def toInt (x : BitVec 32) : ℤ :=
  let i := (M.value x).tdiv (2 ^ 149)
  if magnitude x < infinity ∧ -2 ^ 31 ≤ i ∧ i < 2 ^ 31 then i else M.outOfRange x

end Machine

/-- A machine that keeps subnormals and has one NaN. -/
def plainMachine : Machine where
  flush := false
  nan _ _ := 0x7FC00000#32
  nan_isNaN _ _ := by
    unfold IsNaN
    decide
  outOfRange _ := -2 ^ 31

/-- The same machine with subnormals flushed, as the encoders set it up. -/
def flushMachine : Machine := { plainMachine with flush := true }

section Signs

theorem infinity_lt : infinity < 2 ^ 31 := by decide

@[simp] theorem toNat_signed {n : ℕ} (neg : Bool) (hn : n ≤ infinity) :
    (signed neg n).toNat = neg.toNat * 2 ^ 31 + n := by
  have hlt := infinity_lt
  rw [signed, BitVec.toNat_ofNat]
  cases neg
  · rw [if_neg Bool.false_ne_true, Nat.mod_eq_of_lt (by omega), Bool.toNat_false, Nat.zero_mul, Nat.zero_add]
  · rw [if_pos rfl, Nat.mod_eq_of_lt (by omega), Bool.toNat_true, Nat.one_mul]

theorem magnitude_signed {n : ℕ} (neg : Bool) (hn : n ≤ infinity) : magnitude (signed neg n) = n := by
  have hlt := infinity_lt
  rw [magnitude, toNat_signed neg hn]
  exact Nat.mul_add_mod_of_lt (by omega)

theorem msb_signed {n : ℕ} (neg : Bool) (hn : n ≤ infinity) : (signed neg n).msb = neg := by
  have hlt := infinity_lt
  rw [BitVec.msb_eq_decide, toNat_signed neg hn]
  cases neg
  · simp only [Bool.toNat_false, decide_eq_false_iff_not]
    omega
  · simp

@[simp] theorem magnitude_fneg (x : BitVec 32) : magnitude (fneg x) = magnitude x := by
  have htop : (0x80000000#32).toNat % 2 ^ 31 = 0 := by decide
  have hxor : magnitude (fneg x) = (x.toNat ^^^ (0x80000000#32).toNat) % 2 ^ 31 := by
    rw [magnitude, fneg, BitVec.toNat_xor]
  rw [hxor, Nat.xor_mod_two_pow, htop, Nat.xor_zero]
  rfl

@[simp] theorem msb_fneg (x : BitVec 32) : (fneg x).msb = !x.msb := by
  have htop : (0x80000000#32).msb = true := by decide
  rw [fneg, BitVec.msb_xor, htop, Bool.xor_true]

@[simp] theorem magnitude_fabs (x : BitVec 32) : magnitude (fabs x) = magnitude x := by
  have hlt : magnitude x < 2 ^ 31 := magnitude_lt x
  rw [magnitude, fabs, magnitude_eq]
  exact Nat.mod_eq_of_lt hlt

@[simp] theorem msb_fabs (x : BitVec 32) : (fabs x).msb = false := by
  have htop : (0x7FFFFFFF#32).msb = false := by decide
  rw [fabs, BitVec.msb_and, htop, Bool.and_false]

end Signs

end Qtx.FloatMachine
