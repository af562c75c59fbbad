import Mathlib.Algebra.Order.Field.Basic
import Mathlib.Algebra.Order.Group.Abs
import Mathlib.Data.Nat.Cast.Order.Field
import Mathlib.Tactic.Linarith
import Mathlib.Tactic.Positivity
import Mathlib.Tactic.Ring

/-!
# Rounding to an integer, halves away from zero

The integer nearest to a number, and the larger one in absolute value where two are equally
near. There is exactly one such integer, and for a fraction it is a quotient.
-/
namespace Qtx.AwayRounding

variable {α : Type*} [Field α] [LinearOrder α] [IsStrictOrderedRing α] {x : α} {n k : ℤ}

/-- `n` is the integer nearest to `x`, and of two nearest ones the one away from zero. -/
structure IsNearestAway (x : α) (n : ℤ) : Prop where
  nearest : ∀ k : ℤ, |x - n| ≤ |x - k|
  away : ∀ k : ℤ, |x - k| = |x - n| → |k| ≤ |n|

namespace IsNearestAway

theorem unique (hn : IsNearestAway x n) (hk : IsNearestAway x k) : n = k := by
  have hdist : |x - k| = |x - n| := (hk.nearest n).antisymm (hn.nearest k)
  rcases abs_eq_abs.mp ((hk.away n hdist.symm).antisymm (hn.away k hdist)) with heq | hneg
  · exact heq
  · -- opposite integers are equally near to zero alone, and zero is nearer still
    have hzero : |x - n| ≤ |x - (0 : ℤ)| := hn.nearest 0
    have hcast : (k : α) = -n := by
      rw [hneg, Int.cast_neg, neg_neg]
    rw [hcast, sub_neg_eq_add] at hdist
    rw [Int.cast_zero, sub_zero] at hzero
    have hn0 : (n : α) = 0 := by
      rcases abs_eq_abs.mp hdist with h | h
      · linarith
      · have hx : x = 0 := by linarith
        rw [hx, zero_sub, abs_neg, abs_zero] at hzero
        exact abs_eq_zero.mp (hzero.antisymm (abs_nonneg _))
    have hint : n = 0 := Int.cast_eq_zero.mp hn0
    omega

omit [IsStrictOrderedRing α] in
theorem neg (h : IsNearestAway x n) : IsNearestAway (-x) (-n) := by
  have hdist : ∀ k : ℤ, |-x - k| = |x - (-k : ℤ)| := by
    intro k
    rw [Int.cast_neg, ← abs_neg]
    congr 1
    ring
  constructor
  · intro k
    rw [hdist, hdist, neg_neg]
    exact h.nearest _
  · intro k hk
    rw [hdist, hdist, neg_neg] at hk
    rw [abs_neg, ← abs_neg k]
    exact h.away _ hk

/-- Of a nonnegative number: less than a half above it, or at most a half. -/
theorem of_nonneg (hx : 0 ≤ x) (lo : (n : α) - 1 / 2 ≤ x) (hi : x < n + 1 / 2) : IsNearestAway x n := by
  have hn : |x - n| ≤ 1 / 2 := abs_le.mpr ⟨by linarith, by linarith⟩
  have hnonneg : (0 : ℤ) ≤ n := by
    have hlt : (-1 : ℤ) < n := by
      have hcast : ((-1 : ℤ) : α) < n := by
        push_cast
        linarith
      exact_mod_cast hcast
    omega
  have hbelow : ∀ k : ℤ, k < n → 1 / 2 ≤ x - k := by
    intro k hk
    have hcast : ((k + 1 : ℤ) : α) ≤ n := Int.cast_le.mpr hk
    push_cast at hcast
    linarith
  have habove : ∀ k : ℤ, n < k → 1 / 2 < k - x := by
    intro k hk
    have hcast : ((n + 1 : ℤ) : α) ≤ k := Int.cast_le.mpr hk
    push_cast at hcast
    linarith
  constructor
  · intro k
    rcases lt_trichotomy k n with hk | rfl | hk
    · exact hn.trans ((hbelow k hk).trans (le_abs_self _))
    · exact le_rfl
    · exact hn.trans ((habove k hk).le.trans (by rw [abs_sub_comm]; exact le_abs_self _))
  · intro k hk
    rcases lt_trichotomy k n with hlt | rfl | hlt
    · -- then `x` lies in the middle below `n`, which is positive
      have hhalf : x - k ≤ 1 / 2 := (le_abs_self _).trans (hk.le.trans hn)
      have hpos : (0 : ℤ) < n := by
        by_contra hle
        have hzero : n = 0 := by omega
        have hkneg : ((k : ℤ) : α) ≤ ((-1 : ℤ) : α) := Int.cast_le.mpr (by omega)
        push_cast at hkneg
        linarith
      have hcast : ((n - 1 : ℤ) : α) ≤ k := by
        push_cast
        linarith
      have hge : n - 1 ≤ k := Int.cast_le.mp hcast
      rw [abs_of_nonneg (by omega), abs_of_nonneg hnonneg]
      omega
    · exact le_rfl
    · have hhalf : (k : α) - x ≤ 1 / 2 := by
        rw [← neg_sub]
        exact (neg_le_abs _).trans (hk.le.trans hn)
      exact absurd (habove k hlt) (not_lt.mpr hhalf)

end IsNearestAway

/-- The nearest integer of a fraction. -/
theorem isNearestAway_div (t : ℕ) {b : ℕ} (hb : 0 < b) :
    IsNearestAway ((t : α) / b) (((2 * t + b) / (2 * b) : ℕ) : ℤ) := by
  have hb' : (0 : α) < b := Nat.cast_pos.mpr hb
  have hlo : (2 * t + b) / (2 * b) * (2 * b) ≤ 2 * t + b := Nat.div_mul_le_self _ _
  have hhi : 2 * t + b < 2 * b * ((2 * t + b) / (2 * b) + 1) := Nat.lt_mul_div_succ _ (by omega)
  generalize (2 * t + b) / (2 * b) = q at hlo hhi
  have hlo' : (q : α) * (2 * b) ≤ 2 * t + b := by exact_mod_cast hlo
  have hhi' : (2 * t + b : α) < 2 * b * (q + 1) := by exact_mod_cast hhi
  apply IsNearestAway.of_nonneg
  · positivity
  · rw [Int.cast_natCast, le_div_iff₀ hb']
    linarith
  · rw [Int.cast_natCast, div_lt_iff₀ hb']
    linarith

end Qtx.AwayRounding
