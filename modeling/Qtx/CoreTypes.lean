import Mathlib.Data.Nat.Bitwise
import Mathlib.Data.Nat.Log

/-!
# Compile-time utilities

The helpers of `core/types.hpp` that the containers check their parameters with.
Sizes are natural numbers; every caller passes values below `2 ^ 64`, where the
unsigned operations of the source agree with these.
-/
namespace Qtx

def isPowerOfTwo (n : ℕ) : Bool := n ≠ 0 && n &&& (n - 1) = 0

def log2PowerOfTwo (n : ℕ) : ℕ := if isPowerOfTwo n then n.log2 else 0

theorem isPowerOfTwo_iff {n : ℕ} : isPowerOfTwo n = true ↔ ∃ k, n = 2 ^ k := by
  simp only [isPowerOfTwo, Bool.and_eq_true, decide_eq_true_eq]
  exact Nat.ne_zero_and_sub_one_eq_zero_iff_isPowerOfTwo

theorem pow_log2PowerOfTwo {n : ℕ} (h : isPowerOfTwo n) : 2 ^ log2PowerOfTwo n = n := by
  obtain ⟨k, rfl⟩ := isPowerOfTwo_iff.mp h
  rw [log2PowerOfTwo, if_pos h, Nat.log2_two_pow]

end Qtx
