import Mathlib.Data.BitVec
import Mathlib.Data.Nat.Init

/-!
# Cells with a generation counter

A cell is free or taken and counts the changes between the two, modulo a power of two.
A client that remembers the counter of a taken cell recognises the cell again for as
long as the counter does not come back to the same value.
-/
namespace Qtx.GenerationCounters

variable {w : ℕ}

structure Cell (w : ℕ) where
  taken : Bool
  version : BitVec w

/-- The second cell is what becomes of the first while it is taken `n` more times. -/
inductive Reaches (c : Cell w) : ℕ → Cell w → Prop
  | refl : Reaches c 0 c
  | take {n : ℕ} {d : Cell w} (past : Reaches c n d) (free : d.taken = false) :
      Reaches c (n + 1) ⟨true, d.version + 1#w⟩
  | give {n : ℕ} {d : Cell w} (past : Reaches c n d) (taken : d.taken = true) :
      Reaches c n ⟨false, d.version + 1#w⟩

namespace Reaches

variable {c d e : Cell w} {n k : ℕ}

theorem trans (h : Reaches c n d) (h' : Reaches d k e) : Reaches c (n + k) e := by
  induction h' with
  | refl => exact h
  | take _ free ih => exact .take ih free
  | give _ taken ih => exact .give ih taken

/-- Two changes for every time the cell was taken, and one more while it is free. -/
theorem version_eq (h : Reaches c n d) (hc : c.taken = true) :
    d.version = c.version + BitVec.ofNat w (2 * n + if d.taken then 0 else 1) := by
  induction h with
  | refl => simp [hc]
  | take _ free ih =>
    rw [ih, free, BitVec.add_assoc, ← BitVec.ofNat_add]
    rfl
  | give _ taken ih =>
    rw [ih, taken, BitVec.add_assoc, ← BitVec.ofNat_add]
    rfl

/-- A taken cell shows the remembered counter once in every `2 ^ k` times it is taken. -/
theorem version_eq_iff {c d : Cell (k + 1)} (h : Reaches c n d) (hc : c.taken = true) (hd : d.taken = true) :
    d.version = c.version ↔ 2 ^ k ∣ n := by
  have hv := h.version_eq hc
  rw [hd, if_pos rfl, Nat.add_zero (2 * n)] at hv
  rw [hv, BitVec.add_right_eq_self, ← BitVec.toNat_inj, BitVec.toNat_ofNat, BitVec.toNat_zero,
    ← Nat.dvd_iff_mod_eq_zero, Nat.pow_succ, Nat.mul_comm 2 n]
  exact Nat.mul_dvd_mul_iff_right Nat.two_pos

/-- A free cell shows another counter than the one remembered. -/
theorem version_ne {c d : Cell (k + 1)} (h : Reaches c n d) (hc : c.taken = true) (hd : d.taken = false) :
    d.version ≠ c.version := by
  have hv := h.version_eq hc
  rw [hd, if_neg Bool.false_ne_true] at hv
  rw [hv, Ne, BitVec.add_right_eq_self, ← BitVec.toNat_inj, BitVec.toNat_ofNat, BitVec.toNat_zero,
    ← Nat.dvd_iff_mod_eq_zero]
  intro hdvd
  have heven : 2 ∣ 2 * n + 1 := (Dvd.intro_left (2 ^ k) rfl).trans hdvd
  omega

/-- A cell that was free and is taken has been taken since. -/
theorem pos (h : Reaches c n d) (hc : c.taken = false) (hd : d.taken = true) : 0 < n := by
  cases h with
  | refl =>
    rw [hc] at hd
    cases hd
  | take _ _ => exact Nat.succ_pos _
  | give _ _ => cases hd

theorem testBit_zero_succ (v : BitVec (k + 1)) : (v + 1#(k + 1)).toNat.testBit 0 = !v.toNat.testBit 0 := by
  have hdvd : 2 ∣ 2 ^ (k + 1) := Dvd.intro_left (2 ^ k) rfl
  rw [BitVec.toNat_add, Nat.testBit_zero, Nat.testBit_zero, Nat.mod_mod_of_dvd _ hdvd, BitVec.toNat_ofNat,
    Nat.add_mod, Nat.mod_mod_of_dvd _ hdvd]
  rcases Nat.mod_two_eq_zero_or_one v.toNat with h | h <;> simp [h]

/-- The counter is odd while the cell is taken, if it was so at the start. -/
theorem taken_eq_odd {c d : Cell (k + 1)} (h : Reaches c n d) (hc : c.taken = c.version.toNat.testBit 0) :
    d.taken = d.version.toNat.testBit 0 := by
  induction h with
  | refl => exact hc
  | take _ free ih => rw [testBit_zero_succ, ← ih, free, Bool.not_false]
  | give _ taken ih => rw [testBit_zero_succ, ← ih, taken, Bool.not_true]

end Reaches

end Qtx.GenerationCounters
