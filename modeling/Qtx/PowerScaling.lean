import Qtx.FloatScans

/-!
# Scaling by powers of two

A product with a power of two moves the exponent field and keeps the fraction, as long as
the field stays inside the normal range. So such products are exact on every machine, and
undone by the reciprocal power.
-/
namespace Qtx.FloatMachine

open Qtx.BinaryFormats Qtx.FloatWords Qtx.FloatScans Qtx.QuantizerHelpers

variable {M : Machine} {x p : BitVec 32} {neg : Bool} {k q : ℕ}

/-- A value that is a normal word is not rounded. -/
theorem round_exact (hnormal : 2 ^ 23 ≤ k) (hfin : k < infinity) {a b : ℕ} (hb : 0 < b) (ha : a = units 23 k * b) :
    M.round neg a b = signed neg k := by
  have hround : roundUnits 23 a b = k :=
    le_antisymm (roundUnits_le hb ha.le) (le_roundUnits hb ha.ge)
  have hflush : ¬ (M.flush && decide (k < 2 ^ 23)) = true := by
    rw [Bool.and_eq_true, decide_eq_true_eq]
    exact fun hc => absurd hc.2 (Nat.not_lt.mpr hnormal)
  rw [Machine.round, hround, Nat.min_eq_left hfin.le, if_neg hflush]

theorem round_zero {b : ℕ} (hb : 0 < b) : M.round neg 0 b = signed neg 0 := by
  have hround : roundUnits 23 0 b = 0 := Nat.le_zero.mp (roundUnits_le hb (Nat.zero_le _))
  rw [Machine.round, hround, Nat.zero_min, ite_self]

theorem msb_round {a b : ℕ} : (M.round neg a b).msb = neg := by
  rw [Machine.round]
  apply msb_signed
  split_ifs
  · exact Nat.zero_le _
  · exact min_le_right _ _

theorem size_zero (M : Machine) : M.size zero = 0 := by
  have hvalue := natAbs_value M zero
  rwa [value_zero, Int.natAbs_zero, eq_comm] at hvalue

theorem mul_zero_right (hx : IsFinite x) : M.mul x zero = signed x.msb 0 := by
  have hsign : zero.msb = false := rfl
  rw [Machine.mul_of_finite hx finite_zero, hsign, Bool.bne_false, size_zero, Nat.mul_zero]
  exact round_zero (Nat.two_pow_pos 149)

/-- The power of two with the exponent field `q`. -/
structure IsPower (q : ℕ) (p : BitVec 32) : Prop where
  sign : p.msb = false
  magnitude : magnitude p = q * 2 ^ 23
  pos : 0 < q
  lt : q < 255

namespace IsPower

variable (hp : IsPower q p)

include hp

theorem finite : IsFinite p := by
  have hlt := hp.lt
  rw [IsFinite, hp.magnitude, infinity]
  omega

theorem normal : 2 ^ 23 ≤ FloatWords.magnitude p := by
  have hpos := hp.pos
  rw [hp.magnitude]
  omega

theorem size : M.size p = 2 ^ (22 + q) := by
  obtain ⟨e, rfl⟩ : ∃ e, q = e + 1 := Nat.exists_eq_add_one.mpr hp.pos
  rw [Machine.size_of_normal hp.normal, ticks, hp.magnitude, Nat.succ_mul,
    units_add (by decide) (.inr le_rfl), ← pow_add]
  congr 1
  omega

/-- The product moves the exponent field. -/
theorem mul_normal (hx : IsFinite x) (hnormal : 2 ^ 23 ≤ FloatWords.magnitude x)
    (hlo : 127 * 2 ^ 23 + 2 ^ 23 ≤ FloatWords.magnitude x + q * 2 ^ 23)
    (hhi : FloatWords.magnitude x + q * 2 ^ 23 < 127 * 2 ^ 23 + infinity) :
    M.mul x p = signed x.msb (FloatWords.magnitude x + q * 2 ^ 23 - 127 * 2 ^ 23) := by
  rw [Machine.mul_of_finite hx hp.finite, hp.sign, Bool.bne_false, hp.size, Machine.size_of_normal hnormal, ticks]
  generalize FloatWords.magnitude x = N at *
  have hq := hp.pos
  obtain ⟨e, r, hr, rfl⟩ : ∃ e r, r < 2 ^ 23 ∧ N = e * 2 ^ 23 + (2 ^ 23 + r) :=
    ⟨N / 2 ^ 23 - 1, N % 2 ^ 23, Nat.mod_lt _ (by decide), by omega⟩
  have htarget : e * 2 ^ 23 + (2 ^ 23 + r) + q * 2 ^ 23 - 127 * 2 ^ 23 = (e + q - 127) * 2 ^ 23 + (2 ^ 23 + r) := by
    omega
  have hexponent : e + (22 + q) = e + q - 127 + 149 := by omega
  apply round_exact (by omega) (by omega) (Nat.two_pow_pos 149)
  rw [htarget, units_add (by omega) (.inr (Nat.le_add_right _ _)),
    units_add (by omega) (.inr (Nat.le_add_right _ _)), Nat.mul_assoc, Nat.mul_assoc, ← pow_add,
      ← pow_add, hexponent]

/-- A zero, or a word that counts as zero, stays a zero of its sign. -/
theorem mul_zero (hx : IsFinite x) (hzero : M.size x = 0) : M.mul x p = signed x.msb 0 := by
  rw [Machine.mul_of_finite hx hp.finite, hp.sign, Bool.bne_false, hzero, Nat.zero_mul]
  exact round_zero (Nat.two_pow_pos 149)

/-- A product that would leave the normal range below is at most the least normal value. -/
theorem magnitude_mul_le (hx : IsFinite x) (hsmall : FloatWords.magnitude x + q * 2 ^ 23 < 127 * 2 ^ 23 + 2 ^ 23) :
    FloatWords.magnitude (M.mul x p) ≤ 2 ^ 23 := by
  apply Machine.magnitude_mul_le hx hp.finite
  obtain ⟨d, hd⟩ : ∃ d, q + d = 128 := ⟨128 - q, by omega⟩
  have hle : M.size x ≤ units 23 (d * 2 ^ 23) := Machine.size_le (by omega)
  have hpos : 0 < d := Nat.pos_of_ne_zero (by rintro rfl; omega)
  obtain ⟨e, rfl⟩ : ∃ e, d = e + 1 := Nat.exists_eq_add_one.mpr hpos
  rw [Nat.succ_mul, units_add (by decide) (.inr le_rfl)] at hle
  have hone : units 23 (2 ^ 23) = 2 ^ 23 := units_of_le (by decide)
  rw [hp.size, hone]
  refine (Nat.mul_le_mul_right _ hle).trans ?_
  rw [Nat.mul_assoc, ← pow_add]
  exact Nat.mul_le_mul_left _ (Nat.pow_le_pow_right (by decide) (by omega))

/-- A product that stays below infinity is finite and keeps the sign. -/
theorem mul_finite (hx : IsFinite x) (hkind : M.size x = 0 ∨ 2 ^ 23 ≤ FloatWords.magnitude x)
    (hhi : FloatWords.magnitude x + q * 2 ^ 23 < 127 * 2 ^ 23 + infinity) :
    IsFinite (M.mul x p) ∧ (M.mul x p).msb = x.msb := by
  constructor
  · rcases hkind with hzero | hnormal
    · rw [hp.mul_zero hx hzero, IsFinite, magnitude_signed _ (Nat.zero_le _)]
      decide
    · rcases Nat.lt_or_ge (FloatWords.magnitude x + q * 2 ^ 23) (127 * 2 ^ 23 + 2 ^ 23) with hsmall | hlo
      · exact lt_of_le_of_lt (hp.magnitude_mul_le hx hsmall) (by decide)
      · rw [hp.mul_normal hx hnormal hlo hhi, IsFinite, magnitude_signed _ (by omega)]
        omega
  · rw [Machine.mul_of_finite hx hp.finite, msb_round, hp.sign, Bool.bne_false]

/-- The reciprocal is the power with the opposite exponent. -/
theorem reciprocal (hq : q ≤ 253) : M.div one p = signed false ((254 - q) * 2 ^ 23) := by
  have hone : IsPower 127 one := ⟨by decide, by decide, by decide, by decide⟩
  have hpos := hp.pos
  rw [Machine.div_of_finite hone.finite hp.finite (by rw [hp.size]; exact Nat.two_pow_pos _), hp.sign,
    hone.sign, hone.size, hp.size]
  obtain ⟨e, he⟩ : ∃ e, 254 - q = e + 1 := Nat.exists_eq_add_one.mpr (by omega)
  have hexponent : 22 + 127 + 149 = 23 + e + (22 + q) := by omega
  apply round_exact (by omega) (by unfold infinity; omega) (Nat.two_pow_pos _)
  rw [he, Nat.succ_mul, units_add (by decide) (.inr le_rfl), ← pow_add, ← pow_add, ← pow_add, hexponent]

end IsPower

end Qtx.FloatMachine
