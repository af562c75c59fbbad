import Qtx.FloatMachine

/-!
# Bounds of binary32 results

A result is bounded by every word that bounds the exact value, above and below. A sum is
finite if and only if the exact sum stays below the middle between the largest finite
value and the next power of two.
-/
namespace Qtx.FloatMachine

open Qtx.BinaryFormats Qtx.FloatWords

def IsFinite (v : BitVec 32) : Prop := magnitude v < infinity

/-- From here on, in ticks, a value rounds to infinity. -/
def overflow : ℕ := 33554431 * 2 ^ 252

theorem IsFinite.not_nan {x : BitVec 32} (h : IsFinite x) : ¬ IsNaN x := Nat.not_lt.mpr (Nat.le_of_lt h)

theorem IsFinite.ne_infinity {x : BitVec 32} (h : IsFinite x) : magnitude x ≠ infinity := Nat.ne_of_lt h

section Rounding

variable {a b k : ℕ}

theorem roundUnits_le (hb : 0 < b) (h : a ≤ units 23 k * b) : roundUnits 23 a b ≤ k := by
  apply (isNearestEven_roundUnits (m := 23) (by decide) a hb).mono (IsNearestEven.exact 23 k)
  rw [div_le_iff₀ (Nat.cast_pos.mpr hb)]
  exact_mod_cast h

theorem le_roundUnits (hb : 0 < b) (h : units 23 k * b ≤ a) : k ≤ roundUnits 23 a b := by
  apply (IsNearestEven.exact 23 k).mono (isNearestEven_roundUnits (m := 23) (by decide) a hb)
  rw [le_div_iff₀ (Nat.cast_pos.mpr hb)]
  exact_mod_cast h

theorem units_infinity : units 23 infinity = 33554432 * 2 ^ 252 := by decide

theorem units_maxFloat : units 23 (infinity - 1) = 33554430 * 2 ^ 252 := by decide

/-- The largest finite word is odd, so the middle above it rounds up. -/
theorem nearest_overflow : IsNearestEven 23 ((overflow : ℕ) : ℚ) infinity := by
  have hnext : infinity = infinity - 1 + 1 := by decide
  have hupper : (units 23 (infinity - 1 + 1) : ℚ) - overflow = overflow - units 23 (infinity - 1) := by
    rw [← hnext, units_infinity, units_maxFloat, overflow]
    push_cast
    ring
  have hlo : units 23 (infinity - 1) ≤ overflow := by
    rw [units_maxFloat]
    exact Nat.mul_le_mul_right _ (by decide)
  have hhi : overflow ≤ units 23 (infinity - 1 + 1) := by
    rw [← hnext, units_infinity]
    exact Nat.mul_le_mul_right _ (by decide)
  rw [hnext]
  apply IsNearestEven.of_upper
  · exact_mod_cast hlo
  · exact_mod_cast hhi
  · exact .inr ⟨hupper, by decide⟩

/-- Below the middle the result is a finite word. -/
theorem roundUnits_lt_infinity_iff : roundUnits 23 a 1 < infinity ↔ a < overflow := by
  have hround := isNearestEven_roundUnits (m := 23) (by decide) a Nat.one_pos
  rw [Nat.cast_one, div_one] at hround
  constructor
  · intro hlt
    by_contra hge
    have hle : ((overflow : ℕ) : ℚ) ≤ a := Nat.cast_le.mpr (Nat.not_lt.mp hge)
    exact absurd (nearest_overflow.mono hround hle) (Nat.not_le.mpr hlt)
  · intro hlt
    rcases Nat.lt_or_ge a (units 23 (infinity - 1)) with hsmall | hlarge
    · have hle := roundUnits_le (a := a) (k := infinity - 1) Nat.one_pos (by rw [Nat.mul_one]; exact hsmall.le)
      exact lt_of_le_of_lt hle (by decide)
    · -- between the largest finite value and the middle the lower neighbour is nearer
      have hnext : infinity - 1 + 1 = infinity := by decide
      have hnear : IsNearestEven 23 (a : ℚ) (infinity - 1) := by
        have hdist : a - units 23 (infinity - 1) < units 23 (infinity - 1 + 1) - a := by
          have hmid : 2 * overflow = units 23 (infinity - 1) + units 23 (infinity - 1 + 1) := by
            rw [hnext, units_infinity, units_maxFloat, overflow]
            ring
          omega
        have hhi : a ≤ units 23 (infinity - 1 + 1) := by omega
        apply IsNearestEven.of_lower
        · exact_mod_cast hlarge
        · exact_mod_cast hhi
        · left
          rw [← Nat.cast_sub hlarge, ← Nat.cast_sub hhi]
          exact_mod_cast hdist
      rw [hround.unique hnear]
      decide

end Rounding

namespace Machine

variable {M : Machine} {x y : BitVec 32} {neg : Bool} {a b k : ℕ}

theorem magnitude_round : magnitude (M.round neg a b) =
    if M.flush && min (roundUnits 23 a b) infinity < 2 ^ 23 then 0 else min (roundUnits 23 a b) infinity := by
  rw [round]
  apply magnitude_signed
  split_ifs
  · exact Nat.zero_le _
  · exact min_le_right _ _

theorem magnitude_round_le (hb : 0 < b) (h : a ≤ units 23 k * b) : magnitude (M.round neg a b) ≤ k := by
  rw [magnitude_round]
  split_ifs
  · exact Nat.zero_le k
  · exact (min_le_left _ _).trans (roundUnits_le hb h)

theorem le_magnitude_round (hb : 0 < b) (hnormal : 2 ^ 23 ≤ k) (hk : k ≤ infinity) (h : units 23 k * b ≤ a) :
    k ≤ magnitude (M.round neg a b) := by
  have hle : k ≤ min (roundUnits 23 a b) infinity := le_min (le_roundUnits hb h) hk
  have hge : ¬ (M.flush && decide (min (roundUnits 23 a b) infinity < 2 ^ 23)) = true := by
    rw [Bool.and_eq_true, decide_eq_true_eq]
    exact fun hc => absurd hc.2 (Nat.not_lt.mpr (hnormal.trans hle))
  rwa [magnitude_round, if_neg hge]

theorem infinity_not_flushed : ¬ (M.flush && decide (infinity < 2 ^ 23)) = true := by
  rw [Bool.and_eq_true, decide_eq_true_eq]
  exact fun hc => absurd hc.2 (by decide)

/-- A quotient is finite unless it rounds to infinity. -/
theorem finite_round_quotient_iff : IsFinite (M.round neg a b) ↔ roundUnits 23 a b < infinity := by
  rw [IsFinite, magnitude_round]
  constructor
  · intro h
    by_contra hge
    rw [min_eq_right (Nat.not_lt.mp hge), if_neg infinity_not_flushed] at h
    exact absurd h (Nat.lt_irrefl _)
  · intro h
    split_ifs
    · decide
    · exact lt_of_le_of_lt (min_le_left _ _) h

theorem finite_round_iff : IsFinite (M.round neg a 1) ↔ a < overflow := by
  rw [finite_round_quotient_iff, roundUnits_lt_infinity_iff]

theorem size_le_ticks (M : Machine) (x : BitVec 32) : M.size x ≤ ticks x := by
  rw [size]
  split_ifs
  · exact Nat.zero_le _
  · exact le_rfl

theorem size_of_normal (h : 2 ^ 23 ≤ magnitude x) : M.size x = ticks x := by
  have hge : ¬ (M.flush && decide (magnitude x < 2 ^ 23)) = true := by
    rw [Bool.and_eq_true, decide_eq_true_eq]
    exact fun hc => absurd hc.2 (Nat.not_lt.mpr h)
  rw [size, if_neg hge]

theorem size_le (h : magnitude x ≤ k) : M.size x ≤ units 23 k := (M.size_le_ticks x).trans (units_le_units.mpr h)

theorem le_size (hnormal : 2 ^ 23 ≤ k) (h : k ≤ magnitude x) : units 23 k ≤ M.size x := by
  rw [size_of_normal (hnormal.trans h)]
  exact units_le_units.mpr h

@[simp] theorem size_fneg (M : Machine) (x : BitVec 32) : M.size (fneg x) = M.size x := by
  rw [size, size, ticks, ticks, magnitude_fneg]

@[simp] theorem size_fabs (M : Machine) (x : BitVec 32) : M.size (fabs x) = M.size x := by
  rw [size, size, ticks, ticks, magnitude_fabs]

@[simp] theorem value_fneg (M : Machine) (x : BitVec 32) : M.value (fneg x) = -M.value x := by
  rw [value, value, msb_fneg, size_fneg]
  cases x.msb <;> simp

theorem div_of_finite (hx : IsFinite x) (hy : IsFinite y) (hpos : 0 < M.size y) :
    M.div x y = M.round (x.msb != y.msb) (M.size x * 2 ^ 149) (M.size y) := by
  simp only [div, hx.not_nan, hy.not_nan, hx.ne_infinity, hy.ne_infinity, Nat.ne_of_gt hpos, or_self, if_false]

theorem magnitude_div_le (hx : IsFinite x) (hy : IsFinite y) (hpos : 0 < M.size y)
    (h : M.size x * 2 ^ 149 ≤ units 23 k * M.size y) : magnitude (M.div x y) ≤ k := by
  rw [div_of_finite hx hy hpos]
  exact magnitude_round_le hpos h

theorem le_magnitude_div (hx : IsFinite x) (hy : IsFinite y) (hpos : 0 < M.size y) (hnormal : 2 ^ 23 ≤ k)
    (hk : k ≤ infinity) (h : units 23 k * M.size y ≤ M.size x * 2 ^ 149) : k ≤ magnitude (M.div x y) := by
  rw [div_of_finite hx hy hpos]
  exact le_magnitude_round hpos hnormal hk h

/-- The word of one. -/
theorem units_one : units 23 0x3F800000 = 2 ^ 149 := by decide

/-- A quotient by a word that is at least one is no larger than the dividend. -/
theorem magnitude_div_le_self (hx : IsFinite x) (hy : IsFinite y) (hone : 0x3F800000 ≤ magnitude y) :
    magnitude (M.div x y) ≤ magnitude x := by
  have hsize : 2 ^ 149 ≤ M.size y := units_one ▸ le_size (by decide) hone
  apply magnitude_div_le hx hy (lt_of_lt_of_le (Nat.two_pow_pos 149) hsize)
  exact Nat.mul_le_mul (size_le le_rfl) hsize

theorem mul_of_finite (hx : IsFinite x) (hy : IsFinite y) :
    M.mul x y = M.round (x.msb != y.msb) (M.size x * M.size y) (2 ^ 149) := by
  simp only [mul, hx.not_nan, hy.not_nan, hx.ne_infinity, hy.ne_infinity, or_self, if_false]

theorem magnitude_mul_le (hx : IsFinite x) (hy : IsFinite y) (h : M.size x * M.size y ≤ units 23 k * 2 ^ 149) :
    magnitude (M.mul x y) ≤ k := by
  rw [mul_of_finite hx hy]
  exact magnitude_round_le (Nat.two_pow_pos 149) h

theorem add_of_finite (hx : IsFinite x) (hy : IsFinite y) : M.add x y =
    M.round (if M.value x + M.value y = 0 then x.msb && y.msb else M.value x + M.value y < 0)
      (M.value x + M.value y).natAbs 1 := by
  simp only [add, hx.not_nan, hy.not_nan, hx.ne_infinity, hy.ne_infinity, or_self, if_false]

theorem finite_sub_iff (hx : IsFinite x) (hy : IsFinite y) :
    IsFinite (M.sub x y) ↔ (M.value x - M.value y).natAbs < overflow := by
  have hy' : IsFinite (fneg y) := by rwa [IsFinite, magnitude_fneg]
  rw [sub, add_of_finite hx hy', value_fneg, ← sub_eq_add_neg]
  exact finite_round_iff

/-- A rounded value that is not finite is infinity with its sign. -/
theorem round_infinite (h : ¬ IsFinite (M.round neg a b)) : M.round neg a b = signed neg infinity := by
  have hge : infinity ≤ roundUnits 23 a b := Nat.not_lt.mp (mt finite_round_quotient_iff.mpr h)
  simp only [round, Nat.min_eq_right hge]
  rw [if_neg infinity_not_flushed]

/-- The difference to a word that is not larger is finite or positive infinity. -/
theorem sub_finite_or_infinite (hx : IsFinite x) (hy : IsFinite y) (hle : M.value y ≤ M.value x) :
    IsFinite (M.sub x y) ∨ M.sub x y = signed false infinity := by
  by_cases hfin : IsFinite (M.sub x y)
  · exact .inl hfin
  · right
    have hover := mt (finite_sub_iff hx hy).mpr hfin
    have hbig : 0 < overflow := by decide
    have hne : ¬ M.value x - M.value y = 0 := by omega
    have hpos : ¬ M.value x - M.value y < 0 := by omega
    have hy' : IsFinite (fneg y) := by rwa [IsFinite, magnitude_fneg]
    rw [sub, add_of_finite hx hy', value_fneg, ← sub_eq_add_neg, if_neg hne, decide_eq_false hpos] at hfin ⊢
    exact round_infinite hfin

theorem infinite_div (neg : Bool) (hy : IsFinite y) :
    M.div (signed neg infinity) y = signed (neg != y.msb) infinity := by
  have hmag := magnitude_signed neg (Nat.le_refl infinity)
  have hnan : ¬ IsNaN (signed neg infinity) := by rw [IsNaN, hmag]; exact Nat.lt_irrefl _
  simp only [div, hnan, hy.not_nan, hmag, hy.ne_infinity, msb_signed neg (Nat.le_refl infinity), or_self,
    if_false, if_true]

/-- Dividing by a word that is at least one neither leaves nor enters the finite range. -/
theorem finite_div (hx : IsFinite x) (hy : IsFinite y) (hone : 0x3F800000 ≤ magnitude y) : IsFinite (M.div x y) :=
  lt_of_le_of_lt (magnitude_div_le_self hx hy hone) hx

/-- The inverse of a quotient by a finite word is finite: the quotient is infinite or not too small. -/
theorem finite_div_div {c : BitVec 32} (hc : IsFinite c) (hone : magnitude c = 0x3F800000) (hx : IsFinite x)
    (hlarge : 0x42000000 ≤ magnitude x) (hy : IsFinite y) : IsFinite (M.div c (M.div x y)) := by
  have hsizeX : 2 ^ 154 ≤ M.size x := by
    have hunits : units 23 0x42000000 = 2 ^ 154 := by decide
    rw [← hunits]
    exact le_size (by decide) hlarge
  have hzero : ∀ neg : Bool, IsFinite (M.div c (signed neg infinity)) := by
    intro neg
    have hmag := magnitude_signed neg (Nat.le_refl infinity)
    have hnan : ¬ IsNaN (signed neg infinity) := by rw [IsNaN, hmag]; exact Nat.lt_irrefl _
    simp only [div, hc.not_nan, hnan, hc.ne_infinity, hmag, or_self, if_false, if_true, IsFinite]
    rw [magnitude_signed _ (Nat.zero_le _)]
    decide
  by_cases hpos : M.size y = 0
  · have hsize : ¬ M.size x = 0 := by
      have htwo := Nat.two_pow_pos 154
      omega
    have hdiv : M.div x y = signed (x.msb != y.msb) infinity := by
      simp only [div, hx.not_nan, hy.not_nan, hx.ne_infinity, hy.ne_infinity, hpos, hsize, or_self,
        if_false, if_true]
    rw [hdiv]
    exact hzero _
  · have hunits : units 23 (2 ^ 25) = 2 ^ 26 := by decide
    have hsizeY : M.size y ≤ 33554430 * 2 ^ 252 := by
      rw [← units_maxFloat]
      exact size_le (Nat.le_pred_of_lt hy)
    have hle : 2 ^ 25 ≤ magnitude (M.div x y) := by
      apply le_magnitude_div hx hy (Nat.pos_of_ne_zero hpos) (by decide) (by decide)
      rw [hunits]
      have hpow : 2 ^ 26 * (33554430 * 2 ^ 252) ≤ 2 ^ 154 * 2 ^ 149 := by decide
      exact (Nat.mul_le_mul_left _ hsizeY).trans (hpow.trans (Nat.mul_le_mul_right _ hsizeX))
    by_cases hfin : IsFinite (M.div x y)
    · have hsize : 2 ^ 26 ≤ M.size (M.div x y) := by
        rw [← hunits]
        exact le_size (by decide) hle
      have hquot : magnitude (M.div c (M.div x y)) ≤ infinity - 1 := by
        apply magnitude_div_le hc hfin (lt_of_lt_of_le (Nat.two_pow_pos 26) hsize)
        have hsizeC : M.size c ≤ 2 ^ 149 := by
          rw [← units_one]
          exact size_le hone.le
        have hpow : 2 ^ 149 * 2 ^ 149 ≤ 33554430 * 2 ^ 252 * 2 ^ 26 := by decide
        rw [units_maxFloat]
        exact (Nat.mul_le_mul_right _ hsizeC).trans (hpow.trans (Nat.mul_le_mul_left _ hsize))
      exact lt_of_le_of_lt hquot (by decide)
    · rw [div_of_finite hx hy (Nat.pos_of_ne_zero hpos)] at hfin ⊢
      rw [round_infinite hfin]
      exact hzero _

end Machine

end Qtx.FloatMachine
