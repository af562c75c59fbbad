import Mathlib.Data.Nat.Bitwise

/-!
# Bit fields of a machine word

A field is a run of bits of a word. Reading shifts and masks, writing clears the
bits of the field and ors in the masked value. Fields whose runs do not meet do not
influence each other.
-/
namespace Qtx.BitFields

/-- The bits `shift .. shift + width` of a word of `w` bits. -/
structure Field (w : ℕ) where
  shift : ℕ
  width : ℕ
  fits : shift + width ≤ w

namespace Field

variable {w : ℕ} (f g : Field w)

def mask : BitVec w := BitVec.ofNat w (2 ^ f.width - 1)

def get (x : BitVec w) : ℕ := (x >>> f.shift &&& f.mask).toNat

/-- A word that is zero outside the field. -/
def put (value : ℕ) : BitVec w := (BitVec.ofNat w value &&& f.mask) <<< f.shift

def set (x : BitVec w) (value : ℕ) : BitVec w := x &&& ~~~(f.mask <<< f.shift) ||| f.put value

def Disjoint : Prop := f.shift + f.width ≤ g.shift ∨ g.shift + g.width ≤ f.shift

variable {f g}

instance : Decidable (f.Disjoint g) := inferInstanceAs (Decidable (_ ∨ _))

theorem getLsbD_mask (i : ℕ) : f.mask.getLsbD i = decide (i < f.width) := by
  have hf := f.fits
  rw [mask, BitVec.getLsbD_ofNat, Nat.testBit_two_pow_sub_one]
  by_cases hi : i < f.width
  · simp only [hi, decide_true, Bool.and_true, decide_eq_true_eq]
    omega
  · simp [hi]

theorem getLsbD_put (value i : ℕ) : (f.put value).getLsbD i =
    (decide (f.shift ≤ i) && decide (i < f.shift + f.width) && value.testBit (i - f.shift)) := by
  have hf := f.fits
  simp only [put, BitVec.getLsbD_shiftLeft, BitVec.getLsbD_and, BitVec.getLsbD_ofNat, getLsbD_mask]
  by_cases h1 : f.shift ≤ i
  · by_cases h2 : i < f.shift + f.width
    · simp [h1, h2, show i < w by omega, show ¬i < f.shift by omega, show i - f.shift < w by omega,
        show i - f.shift < f.width by omega]
    · simp [h2, show ¬i - f.shift < f.width by omega]
  · simp [h1, show i < f.shift by omega]

theorem testBit_get (x : BitVec w) (i : ℕ) :
    (f.get x).testBit i = (decide (i < f.width) && x.getLsbD (f.shift + i)) := by
  rw [get, BitVec.testBit_toNat, BitVec.getLsbD_and, BitVec.getLsbD_ushiftRight, getLsbD_mask,
    Bool.and_comm]

theorem get_lt (f : Field w) (x : BitVec w) : f.get x < 2 ^ f.width := by
  apply Nat.lt_pow_two_of_testBit
  intro i hi
  rw [testBit_get, decide_eq_false (Nat.not_lt.mpr hi), Bool.false_and]

/-- Reading depends on the bits of the field alone. -/
theorem get_congr {x y : BitVec w}
    (h : ∀ i, f.shift ≤ i → i < f.shift + f.width → x.getLsbD i = y.getLsbD i) : f.get x = f.get y := by
  apply Nat.eq_of_testBit_eq
  intro i
  rw [testBit_get, testBit_get]
  by_cases hi : i < f.width
  · rw [h (f.shift + i) (by omega) (by omega)]
  · simp [hi]

theorem getLsbD_clear (x : BitVec w) (i : ℕ) : (x &&& ~~~(f.mask <<< f.shift)).getLsbD i =
    (x.getLsbD i && !(decide (f.shift ≤ i) && decide (i < f.shift + f.width))) := by
  have hf := f.fits
  by_cases hi : i < w
  · simp only [BitVec.getLsbD_and, BitVec.getLsbD_not, BitVec.getLsbD_shiftLeft, getLsbD_mask, hi,
      decide_true, Bool.true_and]
    by_cases h1 : f.shift ≤ i
    · simp [h1, show ¬i < f.shift by omega, show i - f.shift < f.width ↔ i < f.shift + f.width by omega]
    · simp [h1, show i < f.shift by omega]
  · simp [BitVec.getLsbD_of_ge _ _ (Nat.not_lt.mp hi)]

@[simp] theorem get_put {value : ℕ} (h : value < 2 ^ f.width) : f.get (f.put value) = value := by
  apply Nat.eq_of_testBit_eq
  intro i
  rw [testBit_get, getLsbD_put]
  by_cases hi : i < f.width
  · simp [hi]
  · have hbit : value.testBit i = false :=
      Nat.testBit_lt_two_pow (Nat.lt_of_lt_of_le h (Nat.pow_le_pow_right (by decide) (Nat.not_lt.mp hi)))
    simp [hi, hbit]

theorem get_put_of_disjoint (h : f.Disjoint g) (value : ℕ) : f.get (g.put value) = 0 := by
  have hz : f.get (0#w) = 0 := by simp [get]
  rw [← hz]
  apply get_congr
  intro i h1 h2
  rw [getLsbD_put, BitVec.getLsbD_zero]
  rcases h with h | h
  · simp [show ¬g.shift ≤ i by omega]
  · simp [show ¬i < g.shift + g.width by omega]

theorem get_or (x y : BitVec w) : f.get (x ||| y) = f.get x ||| f.get y := by
  apply Nat.eq_of_testBit_eq
  intro i
  simp only [Nat.testBit_or, testBit_get, BitVec.getLsbD_or, Bool.and_or_distrib_left]

@[simp] theorem get_set_self {value : ℕ} (x : BitVec w) (h : value < 2 ^ f.width) :
    f.get (f.set x value) = value := by
  have hc : f.get (x &&& ~~~(f.mask <<< f.shift)) = f.get (0#w) := by
    apply get_congr
    intro i h1 h2
    rw [getLsbD_clear]
    simp [h1, h2]
  rw [set, get_or, hc, get_put h]
  simp [get]

theorem get_set_of_disjoint (h : f.Disjoint g) (x : BitVec w) (value : ℕ) :
    f.get (g.set x value) = f.get x := by
  have hc : f.get (x &&& ~~~(g.mask <<< g.shift)) = f.get x := by
    apply get_congr
    intro i h1 h2
    rw [getLsbD_clear]
    rcases h with h | h
    · simp [show ¬g.shift ≤ i by omega]
    · simp [show ¬i < g.shift + g.width by omega]
  rw [set, get_or, hc, get_put_of_disjoint h, Nat.or_zero]

end Field

end Qtx.BitFields
