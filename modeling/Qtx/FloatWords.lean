import Mathlib.Data.BitVec
import Qtx.BinaryFormats

/-!
# Floating-point words with a sign

A word is a sign bit above a magnitude. The magnitudes of binary32 stand for multiples of
`2⁻¹⁴⁹`, those from `0x7F800000` on for infinity and the NaNs. A word rounds to a narrower
format when sign, NaN and infinity are kept and a finite value goes to the nearest value
of the format, or to its largest one where rounding would leave the finite range.
-/
namespace Qtx.FloatWords

open Qtx.BinaryFormats

section Words

variable {w : ℕ}

def magnitude (x : BitVec w) : ℕ := x.toNat % 2 ^ (w - 1)

/-- The order of the values of two words that are no NaN is the order of their ranks. -/
def rank (x : BitVec w) : ℤ := if x.msb then -(magnitude x : ℤ) else magnitude x

theorem magnitude_lt (x : BitVec w) : magnitude x < 2 ^ (w - 1) := Nat.mod_lt _ (Nat.two_pow_pos _)

/-- A word is its sign above its magnitude. -/
theorem toNat_eq_magnitude (x : BitVec (w + 1)) : x.toNat = x.msb.toNat * 2 ^ w + magnitude x := by
  have hlt := x.isLt
  have hdouble : 2 ^ (w + 1) = 2 * 2 ^ w := by rw [pow_succ, Nat.mul_comm]
  have hmsb := BitVec.msb_eq_decide x
  rw [Nat.add_sub_cancel] at hmsb
  rw [magnitude, hmsb, Nat.add_sub_cancel]
  by_cases h : 2 ^ w ≤ x.toNat
  · rw [decide_eq_true h, Bool.toNat_true, Nat.one_mul, Nat.mod_eq_sub_mod h, Nat.mod_eq_of_lt (by omega)]
    omega
  · rw [decide_eq_false h, Bool.toNat_false, Nat.mod_eq_of_lt (by omega)]
    omega

theorem eq_of_sign_magnitude {x y : BitVec (w + 1)} (hsign : x.msb = y.msb) (hmag : magnitude x = magnitude y) :
    x = y := by
  apply BitVec.eq_of_toNat_eq
  rw [toNat_eq_magnitude, toNat_eq_magnitude, hsign, hmag]

theorem sign_magnitude_of_toNat {x : BitVec (w + 1)} {b : Bool} {n : ℕ} (hx : x.toNat = b.toNat * 2 ^ w + n)
    (hn : n < 2 ^ w) : x.msb = b ∧ magnitude x = n := by
  constructor
  · rw [BitVec.msb_eq_decide, hx, Nat.add_sub_cancel]
    cases b
    · simp only [Bool.toNat_false, decide_eq_false_iff_not]
      omega
    · simp
  · rw [magnitude, hx, Nat.add_sub_cancel]
    exact Nat.mul_add_mod_of_lt hn

theorem magnitude_eq (x : BitVec 32) : (x &&& 0x7FFFFFFF#32).toNat = magnitude x := by
  have hmask : (0x7FFFFFFF#32).toNat = 2 ^ 31 - 1 := by decide
  rw [BitVec.toNat_and, hmask, Nat.and_two_pow_sub_one_eq_mod]
  rfl

end Words

/-- The magnitude of binary32's infinity. -/
def infinity : ℕ := 0x7F800000

def IsNaN (v : BitVec 32) : Prop := infinity < magnitude v

/-- The absolute value of a finite word, in units of `2⁻¹⁴⁹`. -/
def ticks (v : BitVec 32) : ℕ := units 23 (magnitude v)

/-- A format narrower than binary32. Its least positive value is `2 ^ lift` ticks. -/
structure Format where
  fraction : ℕ
  lift : ℕ
  /-- The magnitude of the largest finite value. -/
  largest : ℕ
  /-- What infinity becomes. -/
  infinite : ℕ
  /-- The first magnitude of a quiet NaN. -/
  quiet : ℕ
  fraction_pos : 0 < fraction
  largest_le : largest ≤ infinite

/-- The word `h` of a format is the rounded value of the binary32 word `v`. -/
structure RoundsTo (f : Format) {w : ℕ} (v : BitVec 32) (h : BitVec w) : Prop where
  sign : h.msb = v.msb
  nan : infinity < magnitude v → f.quiet ≤ magnitude h
  infinite : magnitude v = infinity → magnitude h = f.infinite
  finite : magnitude v < infinity →
    ∃ n, IsNearestEven f.fraction (ticks v / 2 ^ f.lift) n ∧ magnitude h = min n f.largest

namespace RoundsTo

variable {f : Format} {w : ℕ} {v v' : BitVec 32} {h h' : BitVec w}

theorem magnitude_mono (hr : RoundsTo f v h) (hr' : RoundsTo f v' h') (hnan : ¬ IsNaN v')
    (hle : magnitude v ≤ magnitude v') : magnitude h ≤ magnitude h' := by
  rw [IsNaN, Nat.not_lt] at hnan
  rcases Nat.eq_or_lt_of_le hnan with hinf' | hfin'
  · rw [hr'.infinite hinf']
    rcases Nat.eq_or_lt_of_le (hle.trans hnan) with hinf | hfin
    · exact (hr.infinite hinf).le
    · obtain ⟨n, -, hn⟩ := hr.finite hfin
      rw [hn]
      exact (min_le_right _ _).trans f.largest_le
  · obtain ⟨n, hnear, hn⟩ := hr.finite (lt_of_le_of_lt hle hfin')
    obtain ⟨n', hnear', hn'⟩ := hr'.finite hfin'
    have hticks : (ticks v : ℚ) ≤ ticks v' := Nat.cast_le.mpr (units_le_units.mpr hle)
    have hdiv : (ticks v : ℚ) / 2 ^ f.lift ≤ ticks v' / 2 ^ f.lift :=
      div_le_div_of_nonneg_right hticks (by positivity)
    rw [hn, hn']
    exact min_le_min_right _ (hnear.mono hnear' hdiv)

theorem magnitude_zero (hr : RoundsTo f v h) (hz : magnitude v = 0) : magnitude h = 0 := by
  obtain ⟨n, hnear, hn⟩ := hr.finite (by rw [hz]; decide)
  have hzero : (ticks v : ℚ) / 2 ^ f.lift = units f.fraction 0 := by simp [ticks, hz]
  rw [hzero] at hnear
  rw [hn, ← (IsNearestEven.exact f.fraction 0).unique hnear, Nat.zero_min]

/-- Rounding is monotone on the words that are no NaN. -/
theorem rank_mono (hr : RoundsTo f v h) (hr' : RoundsTo f v' h') (hnan : ¬ IsNaN v) (hnan' : ¬ IsNaN v')
    (hle : rank v ≤ rank v') : rank h ≤ rank h' := by
  have hsign := hr.sign
  have hsign' := hr'.sign
  unfold rank at hle ⊢
  rw [hsign, hsign']
  cases hv : v.msb <;> cases hv' : v'.msb <;> simp only [hv, hv', if_true, if_false, Bool.false_eq_true] at hle ⊢
  · exact_mod_cast hr.magnitude_mono hr' hnan' (by exact_mod_cast hle)
  · -- a value that is not negative lies below one that is not positive: both are zero
    have hz : magnitude v = 0 := by omega
    have hz' : magnitude v' = 0 := by omega
    rw [hr.magnitude_zero hz, hr'.magnitude_zero hz']
    rfl
  · omega
  · have hmono := hr'.magnitude_mono hr hnan (by omega)
    omega

end RoundsTo

end Qtx.FloatWords
