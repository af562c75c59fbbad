import Mathlib.Algebra.Order.Field.Rat
import Mathlib.Algebra.Order.Group.Abs
import Mathlib.Data.Nat.Log
import Mathlib.Order.Monotone.Basic
import Mathlib.Tactic.FieldSimp
import Mathlib.Tactic.Linarith
import Mathlib.Tactic.Ring

/-!
# Binary floating-point magnitudes

A magnitude word of a binary format with `m` fraction bits stands for a multiple of the
least positive value, subnormal words included. The exponent has no upper end here: a
format that ends somewhere cuts the words off. Rounding takes an exact value to the
nearest word, and a value in the middle of two words to the even one.
-/
namespace Qtx.BinaryFormats

/-- The multiple of the least positive value that a word stands for. -/
def units (m n : ℕ) : ℕ := if n < 2 ^ m then n else (2 ^ m + n % 2 ^ m) * 2 ^ (n / 2 ^ m - 1)

variable {m : ℕ}

/-- A significand of full length, or any significand in the lowest binade. -/
theorem units_add {e k : ℕ} (hk : k ≤ 2 ^ (m + 1)) (he : e = 0 ∨ 2 ^ m ≤ k) :
    units m (e * 2 ^ m + k) = k * 2 ^ e := by
  have hpos : 0 < 2 ^ m := Nat.two_pow_pos m
  have hdouble : 2 ^ (m + 1) = 2 ^ m + 2 ^ m := by rw [pow_succ, Nat.mul_two]
  unfold units
  by_cases hlow : k < 2 ^ m
  · obtain rfl := he.resolve_right (Nat.not_le.mpr hlow)
    rw [Nat.zero_mul, Nat.zero_add, if_pos hlow, pow_zero, Nat.mul_one]
  · have hge : ¬ e * 2 ^ m + k < 2 ^ m := by omega
    rw [if_neg hge]
    obtain ⟨r, rfl⟩ := Nat.exists_eq_add_of_le (Nat.not_lt.mp hlow)
    have hsum : e * 2 ^ m + (2 ^ m + r) = r + 2 ^ m * (e + 1) := by ring
    rw [hsum, Nat.add_mul_mod_self_left, Nat.add_mul_div_left _ _ hpos]
    rcases Nat.lt_or_ge r (2 ^ m) with hr | hr
    · rw [Nat.mod_eq_of_lt hr, Nat.div_eq_of_lt hr, Nat.zero_add, Nat.add_sub_cancel]
    · obtain rfl : r = 2 ^ m := by omega
      rw [Nat.mod_self, Nat.div_self hpos, Nat.add_zero, Nat.add_comm 1, Nat.add_sub_cancel, pow_succ]
      ring

theorem units_of_le {n : ℕ} (h : n ≤ 2 ^ (m + 1)) : units m n = n := by
  have hu := units_add (e := 0) h (.inl rfl)
  simpa using hu

/-- The distance to the next word. -/
theorem units_succ (m n : ℕ) : units m (n + 1) = units m n + 2 ^ (n / 2 ^ m - 1) := by
  have hpos : 0 < 2 ^ m := Nat.two_pow_pos m
  have hdouble : 2 ^ (m + 1) = 2 ^ m + 2 ^ m := by rw [pow_succ, Nat.mul_two]
  by_cases hlow : n < 2 ^ m
  · rw [units_of_le (by omega), units_of_le (by omega), Nat.div_eq_of_lt hlow]
    rfl
  · obtain ⟨e, he⟩ := Nat.exists_eq_succ_of_ne_zero (Nat.ne_of_gt (Nat.div_pos (Nat.not_lt.mp hlow) hpos))
    have hmod : n % 2 ^ m < 2 ^ m := Nat.mod_lt n hpos
    have hn : n = e * 2 ^ m + (2 ^ m + n % 2 ^ m) := by
      have hdiv := Nat.div_add_mod n (2 ^ m)
      rw [he, Nat.mul_succ, Nat.mul_comm] at hdiv
      omega
    have hu : units m n = (2 ^ m + n % 2 ^ m) * 2 ^ e := by
      conv_lhs => rw [hn]
      exact units_add (by omega) (.inr (by omega))
    have hu' : units m (n + 1) = (2 ^ m + n % 2 ^ m + 1) * 2 ^ e := by
      conv_lhs => rw [hn, Nat.add_assoc]
      exact units_add (by omega) (.inr (by omega))
    rw [hu, hu', he, Nat.succ_sub_one]
    ring

theorem units_strictMono (m : ℕ) : StrictMono (units m) := by
  apply strictMono_nat_of_lt_succ
  intro n
  rw [units_succ]
  exact Nat.lt_add_of_pos_right (Nat.two_pow_pos _)

theorem units_lt_units {n k : ℕ} : units m n < units m k ↔ n < k := (units_strictMono m).lt_iff_lt

theorem units_le_units {n k : ℕ} : units m n ≤ units m k ↔ n ≤ k := (units_strictMono m).le_iff_le

@[simp] theorem units_zero : units m 0 = 0 := if_pos (Nat.two_pow_pos m)

/-- `n` is the word nearest to `x`, and the even one of two nearest words. -/
structure IsNearestEven (m : ℕ) (x : ℚ) (n : ℕ) : Prop where
  nearest : ∀ k, |x - units m n| ≤ |x - units m k|
  even : ∀ k, k ≠ n → |x - units m n| = |x - units m k| → Even n

namespace IsNearestEven

variable {x y : ℚ} {n k w : ℕ}

/-- Only the two neighbours of a value have to be compared. -/
theorem of_lower (lo : (units m w : ℚ) ≤ x) (hi : x ≤ units m (w + 1))
    (closer : x - units m w < units m (w + 1) - x ∨ x - units m w = units m (w + 1) - x ∧ Even w) :
    IsNearestEven m x w := by
  have hw : |x - units m w| = x - units m w := abs_of_nonneg (sub_nonneg.mpr lo)
  have hbelow : ∀ k < w, x - units m w < |x - units m k| := by
    intro k hk
    have hu : (units m k : ℚ) < units m w := Nat.cast_lt.mpr (units_lt_units.mpr hk)
    rw [abs_of_nonneg (by linarith)]
    linarith
  have habove : ∀ k, w < k → units m (w + 1) - x ≤ |x - units m k| := by
    intro k hk
    have hu : (units m (w + 1) : ℚ) ≤ units m k := Nat.cast_le.mpr (units_le_units.mpr hk)
    rw [abs_sub_comm, abs_of_nonneg (by linarith)]
    linarith
  constructor
  · intro k
    rw [hw]
    rcases Nat.lt_trichotomy k w with hk | rfl | hk
    · exact (hbelow k hk).le
    · exact hw.ge
    · rcases closer with hlt | ⟨heq, -⟩
      · exact hlt.le.trans (habove k hk)
      · exact heq.le.trans (habove k hk)
  · intro k hne heq
    rw [hw] at heq
    rcases Nat.lt_or_gt_of_ne hne with hk | hk
    · exact absurd heq (hbelow k hk).ne
    · rcases closer with hlt | ⟨-, heven⟩
      · exact absurd heq (hlt.trans_le (habove k hk)).ne
      · exact heven

theorem of_upper (lo : (units m w : ℚ) ≤ x) (hi : x ≤ units m (w + 1))
    (closer : units m (w + 1) - x < x - units m w ∨ units m (w + 1) - x = x - units m w ∧ Even (w + 1)) :
    IsNearestEven m x (w + 1) := by
  have hw : |x - units m (w + 1)| = units m (w + 1) - x := by
    rw [abs_sub_comm]
    exact abs_of_nonneg (sub_nonneg.mpr hi)
  have hbelow : ∀ k ≤ w, x - units m w ≤ |x - units m k| := by
    intro k hk
    have hu : (units m k : ℚ) ≤ units m w := Nat.cast_le.mpr (units_le_units.mpr hk)
    rw [abs_of_nonneg (by linarith)]
    linarith
  have habove : ∀ k, w + 1 < k → units m (w + 1) - x < |x - units m k| := by
    intro k hk
    have hu : (units m (w + 1) : ℚ) < units m k := Nat.cast_lt.mpr (units_lt_units.mpr hk)
    rw [abs_sub_comm, abs_of_nonneg (by linarith)]
    linarith
  constructor
  · intro k
    rw [hw]
    rcases Nat.lt_trichotomy k (w + 1) with hk | rfl | hk
    · rcases closer with hlt | ⟨heq, -⟩
      · exact hlt.le.trans (hbelow k (Nat.le_of_lt_succ hk))
      · exact heq.le.trans (hbelow k (Nat.le_of_lt_succ hk))
    · exact hw.ge
    · exact (habove k hk).le
  · intro k hne heq
    rw [hw] at heq
    rcases Nat.lt_or_gt_of_ne hne with hk | hk
    · rcases closer with hlt | ⟨-, heven⟩
      · exact absurd heq (hlt.trans_le (hbelow k (Nat.le_of_lt_succ hk))).ne
      · exact heven
    · exact absurd heq (habove k hk).ne

/-- Two words that are nearest to one value are the same. -/
theorem unique (hn : IsNearestEven m x n) (hk : IsNearestEven m x k) : n = k := by
  by_contra hne
  have hdist : |x - units m n| = |x - units m k| := le_antisymm (hn.nearest k) (hk.nearest n)
  have hneven := hn.even k (Ne.symm hne) hdist
  have hkeven := hk.even n hne hdist.symm
  -- the word between them is nearer than both
  wlog hlt : n < k generalizing n k
  · exact this hk hn (Ne.symm hne) hdist.symm hkeven hneven (Nat.lt_of_le_of_ne (Nat.not_lt.mp hlt) (Ne.symm hne))
  have hmid : n + 1 < k := by
    rcases Nat.eq_or_lt_of_le (Nat.succ_le_of_lt hlt) with heq | hmid
    · rw [← heq] at hkeven
      exact absurd hneven (Nat.even_add_one.mp hkeven)
    · exact hmid
  have hu : (units m n : ℚ) < units m (n + 1) := Nat.cast_lt.mpr (units_lt_units.mpr (Nat.lt_succ_self n))
  have hu' : (units m (n + 1) : ℚ) < units m k := Nat.cast_lt.mpr (units_lt_units.mpr hmid)
  have hcloser : |x - units m n| ≤ |x - units m (n + 1)| := hn.nearest (n + 1)
  rcases abs_cases (x - units m n) with ⟨h1, h1'⟩ | ⟨h1, h1'⟩ <;>
    rcases abs_cases (x - units m k) with ⟨h2, h2'⟩ | ⟨h2, h2'⟩ <;>
    rcases abs_cases (x - units m (n + 1)) with ⟨h3, h3'⟩ | ⟨h3, h3'⟩ <;> linarith

theorem mono (hn : IsNearestEven m x n) (hk : IsNearestEven m y k) (h : x ≤ y) : n ≤ k := by
  by_contra hlt
  rw [Nat.not_le] at hlt
  have hu : (units m k : ℚ) < units m n := Nat.cast_lt.mpr (units_lt_units.mpr hlt)
  have hx : (units m k + units m n : ℚ) / 2 ≤ x := by
    have hnear := hn.nearest k
    rcases abs_cases (x - units m n) with ⟨h1, h1'⟩ | ⟨h1, h1'⟩ <;>
      rcases abs_cases (x - units m k) with ⟨h2, h2'⟩ | ⟨h2, h2'⟩ <;> linarith
  have hy : y ≤ (units m k + units m n : ℚ) / 2 := by
    have hnear := hk.nearest n
    rcases abs_cases (y - units m n) with ⟨h1, h1'⟩ | ⟨h1, h1'⟩ <;>
      rcases abs_cases (y - units m k) with ⟨h2, h2'⟩ | ⟨h2, h2'⟩ <;> linarith
  obtain rfl : x = y := le_antisymm h (hy.trans hx)
  exact absurd (hn.unique hk) (Nat.ne_of_gt hlt)

/-- A value of the format is its own nearest word. -/
theorem exact (m n : ℕ) : IsNearestEven m (units m n) n := by
  have hu : (units m n : ℚ) < units m (n + 1) := Nat.cast_lt.mpr (units_lt_units.mpr (Nat.lt_succ_self n))
  exact of_lower le_rfl hu.le (.inl (by linarith))

/-- The middle below a word is rounded up to it if the word is even, and no value below that is. -/
theorem succ_le_iff (h : IsNearestEven m x n) (k : ℕ) :
    k + 1 ≤ n ↔ (units m k + units m (k + 1) : ℚ) / 2 < x ∨ (units m k + units m (k + 1) : ℚ) / 2 = x ∧
    Even (k + 1) := by
  have hstep : (units m k : ℚ) < units m (k + 1) := Nat.cast_lt.mpr (units_lt_units.mpr (Nat.lt_succ_self k))
  have hmid : |(units m k + units m (k + 1) : ℚ) / 2 - units m k| = (units m (k + 1) - units m k) / 2 := by
    rw [abs_of_nonneg (by linarith)]
    ring
  constructor
  · intro hle
    have hword : (units m (k + 1) : ℚ) ≤ units m n := Nat.cast_le.mpr (units_le_units.mpr hle)
    have hnear := h.nearest k
    rcases lt_trichotomy ((units m k + units m (k + 1) : ℚ) / 2) x with hlt | heq | hgt
    · exact .inl hlt
    · refine .inr ⟨heq, ?_⟩
      -- the value is as far from `k` as from `n`, which is then `k + 1`
      rw [← heq, hmid, abs_of_nonpos (by linarith)] at hnear
      have hsame : (units m n : ℚ) = units m (k + 1) := by linarith
      obtain rfl : n = k + 1 := (units_strictMono m).injective (Nat.cast_inj.mp hsame)
      refine h.even k (Nat.ne_of_lt (Nat.lt_succ_self k)) ?_
      rw [← heq, hmid, abs_of_nonpos (by linarith)]
      ring
    · rcases abs_cases (x - units m n) with ⟨h1, h1'⟩ | ⟨h1, h1'⟩ <;>
        rcases abs_cases (x - units m k) with ⟨h2, h2'⟩ | ⟨h2, h2'⟩ <;> linarith
  · rintro (hlt | ⟨rfl, heven⟩)
    · by_contra hge
      have hword : (units m n : ℚ) ≤ units m k :=
        Nat.cast_le.mpr (units_le_units.mpr (Nat.le_of_lt_succ (Nat.not_le.mp hge)))
      have hnear := h.nearest (k + 1)
      rcases abs_cases (x - units m n) with ⟨h1, h1'⟩ | ⟨h1, h1'⟩ <;>
        rcases abs_cases (x - units m (k + 1)) with ⟨h2, h2'⟩ | ⟨h2, h2'⟩ <;> linarith
    · have htie : IsNearestEven m ((units m k + units m (k + 1) : ℚ) / 2) (k + 1) :=
        of_upper (by linarith) (by linarith) (.inr ⟨by ring, heven⟩)
      exact (htie.unique h).le

end IsNearestEven

/-- The quotient, rounded to nearest, ties to even. -/
def roundQuot (a b : ℕ) : ℕ :=
  if 2 * (a % b) < b then a / b else if b < 2 * (a % b) then a / b + 1 else a / b + a / b % 2

/-- The word nearest to `a / b`. -/
def roundUnits (m a b : ℕ) : ℕ :=
  let e := Nat.log2 (a / b) - m
  e * 2 ^ m + roundQuot a (b * 2 ^ e)

theorem roundQuot_mul_right (a b : ℕ) {c : ℕ} (hc : 0 < c) : roundQuot (a * c) (b * c) = roundQuot a b := by
  have hmod : a * c % (b * c) = a % b * c := Nat.mul_mod_mul_right c a b
  have hdiv : a * c / (b * c) = a / b := Nat.mul_div_mul_right a b hc
  have hlt : 2 * (a % b * c) < b * c ↔ 2 * (a % b) < b := by
    rw [← Nat.mul_assoc]
    exact Nat.mul_lt_mul_right hc
  have hgt : b * c < 2 * (a % b * c) ↔ b < 2 * (a % b) := by
    rw [← Nat.mul_assoc]
    exact Nat.mul_lt_mul_right hc
  simp only [roundQuot, hmod, hdiv, hlt, hgt]

/-- An even multiple of the divisor passes through. -/
theorem roundQuot_add_even (a : ℕ) {b c : ℕ} (hb : 0 < b) (hc : Even c) :
    roundQuot (c * b + a) b = c + roundQuot a b := by
  have hmod : (c * b + a) % b = a % b := by rw [Nat.add_comm, Nat.add_mul_mod_self_right]
  have hdiv : (c * b + a) / b = c + a / b := by rw [Nat.add_comm, Nat.add_mul_div_right _ _ hb, Nat.add_comm]
  have hpar : (c + a / b) % 2 = a / b % 2 := by
    rw [Nat.add_mod, Nat.even_iff.mp hc, Nat.zero_add, Nat.mod_mod]
  simp only [roundQuot, hmod, hdiv, hpar]
  split_ifs <;> omega

/-- A value between the words of one binade is rounded by rounding its significand. -/
theorem isNearestEven_quot {a b e : ℕ} (hm : 0 < m) (hb : 0 < b) (hlt : a / (b * 2 ^ e) < 2 ^ (m + 1))
    (he : e = 0 ∨ 2 ^ m ≤ a / (b * 2 ^ e)) :
    IsNearestEven m ((a : ℚ) / b) (e * 2 ^ m + roundQuot a (b * 2 ^ e)) := by
  have hd : 0 < b * 2 ^ e := Nat.mul_pos hb (Nat.two_pow_pos e)
  have hsum : b * 2 ^ e * (a / (b * 2 ^ e)) + a % (b * 2 ^ e) = a := Nat.div_add_mod a (b * 2 ^ e)
  have hr : a % (b * 2 ^ e) < b * 2 ^ e := Nat.mod_lt a hd
  generalize hq : a / (b * 2 ^ e) = q at *
  generalize hrem : a % (b * 2 ^ e) = r at *
  have hround : roundQuot a (b * 2 ^ e) =
      if 2 * r < b * 2 ^ e then q else if b * 2 ^ e < 2 * r then q + 1 else q + q % 2 := by
    rw [roundQuot, hq, hrem]
  have hlo : (units m (e * 2 ^ m + q) : ℚ) = q * 2 ^ e := by
    rw [units_add hlt.le he]
    push_cast
    rfl
  have hhi : (units m (e * 2 ^ m + q + 1) : ℚ) = (q + 1) * 2 ^ e := by
    rw [Nat.add_assoc, units_add hlt (he.imp_right (fun h => h.trans (Nat.le_succ q)))]
    push_cast
    rfl
  have hbq : (0 : ℚ) < b := Nat.cast_pos.mpr hb
  have hx : (a : ℚ) / b = q * 2 ^ e + r / b := by
    have ha : (a : ℚ) = b * 2 ^ e * q + r := by
      rw [← hsum]
      push_cast
      ring
    rw [ha]
    field_simp
  have hgap : (r : ℚ) / b ≤ 2 ^ e := by
    rw [div_le_iff₀ hbq]
    have hle : (r : ℚ) ≤ b * 2 ^ e := by exact_mod_cast hr.le
    linarith
  have hnonneg : (0 : ℚ) ≤ r / b := div_nonneg (Nat.cast_nonneg r) hbq.le
  have hlower : (units m (e * 2 ^ m + q) : ℚ) ≤ a / b := by
    rw [hlo, hx]
    linarith
  have hupper : (a : ℚ) / b ≤ units m (e * 2 ^ m + q + 1) := by
    rw [hhi, hx]
    linarith
  have hleft : (a : ℚ) / b - units m (e * 2 ^ m + q) = r / b := by
    rw [hlo, hx]
    ring
  have hright : (units m (e * 2 ^ m + q + 1) : ℚ) - a / b = 2 ^ e - r / b := by
    rw [hhi, hx]
    ring
  have heven : Even (e * 2 ^ m) := by
    rcases Nat.exists_eq_succ_of_ne_zero (Nat.ne_of_gt hm) with ⟨j, rfl⟩
    exact (Nat.even_pow.mpr ⟨even_two, Nat.succ_ne_zero j⟩).mul_left e
  rw [hround]
  split_ifs with h1 h2
  · apply IsNearestEven.of_lower hlower hupper
    left
    rw [hleft, hright]
    have hlt' : 2 * (r : ℚ) < b * 2 ^ e := by exact_mod_cast h1
    have hdiv : 2 * ((r : ℚ) / b) < 2 ^ e := by
      rw [mul_div_assoc', div_lt_iff₀ hbq]
      linarith
    linarith
  · rw [← Nat.add_assoc]
    apply IsNearestEven.of_upper hlower hupper
    left
    rw [hleft, hright]
    have hlt' : (b * 2 ^ e : ℚ) < 2 * r := by exact_mod_cast h2
    have hdiv : 2 ^ e < 2 * ((r : ℚ) / b) := by
      rw [mul_div_assoc', lt_div_iff₀ hbq]
      linarith
    linarith
  · have htie : 2 * (r : ℚ) = b * 2 ^ e := by exact_mod_cast (by omega : 2 * r = b * 2 ^ e)
    have hdiv : 2 * ((r : ℚ) / b) = 2 ^ e := by
      rw [mul_div_assoc', div_eq_iff hbq.ne']
      linarith
    rcases Nat.mod_two_eq_zero_or_one q with hq0 | hq1
    · rw [hq0, Nat.add_zero]
      apply IsNearestEven.of_lower hlower hupper
      refine .inr ⟨?_, heven.add (Nat.even_iff.mpr hq0)⟩
      rw [hleft, hright]
      linarith
    · rw [hq1, ← Nat.add_assoc]
      apply IsNearestEven.of_upper hlower hupper
      refine .inr ⟨?_, ?_⟩
      · rw [hleft, hright]
        linarith
      · rw [Nat.add_assoc]
        exact heven.add (Nat.even_iff.mpr (by omega))

/-- The same for a value that is a significand with a binary exponent. -/
theorem isNearestEven_shift {M e s : ℕ} (hm : 0 < m) (hlt : M / 2 ^ s < 2 ^ (m + 1))
    (he : e = 0 ∨ 2 ^ m ≤ M / 2 ^ s) :
    IsNearestEven m ((M : ℚ) * 2 ^ e / 2 ^ s) (e * 2 ^ m + roundQuot M (2 ^ s)) := by
  have hdiv : M * 2 ^ e / (2 ^ s * 2 ^ e) = M / 2 ^ s := Nat.mul_div_mul_right _ _ (Nat.two_pow_pos e)
  have h := isNearestEven_quot (a := M * 2 ^ e) (b := 2 ^ s) (e := e) hm (Nat.two_pow_pos s)
    (hdiv ▸ hlt) (hdiv ▸ he)
  rw [roundQuot_mul_right _ _ (Nat.two_pow_pos e)] at h
  push_cast at h
  exact h

/-- The rounding function finds the nearest word of every quotient. -/
theorem isNearestEven_roundUnits (hm : 0 < m) (a : ℕ) {b : ℕ} (hb : 0 < b) :
    IsNearestEven m ((a : ℚ) / b) (roundUnits m a b) := by
  have hdiv : ∀ e, a / (b * 2 ^ e) = a / b / 2 ^ e := fun e => (Nat.div_div_eq_div_mul a b (2 ^ e)).symm
  apply isNearestEven_quot hm hb
  · rw [hdiv, Nat.div_lt_iff_lt_mul (Nat.two_pow_pos _), ← pow_add]
    refine lt_of_lt_of_le Nat.lt_log2_self (Nat.pow_le_pow_right Nat.two_pos ?_)
    omega
  · rcases Nat.lt_or_ge m (Nat.log2 (a / b)) with hlt | hle
    · right
      have hne : a / b ≠ 0 := by
        intro hz
        rw [hz, Nat.log2_zero] at hlt
        exact Nat.not_lt_zero m hlt
      rw [hdiv, Nat.le_div_iff_mul_le (Nat.two_pow_pos _), ← pow_add]
      refine le_trans (Nat.pow_le_pow_right Nat.two_pos ?_) (Nat.log2_self_le hne)
      omega
    · exact .inl (Nat.sub_eq_zero_of_le hle)

theorem roundUnits_mul_right (m a b : ℕ) {c : ℕ} (hc : 0 < c) :
    roundUnits m (a * c) (b * c) = roundUnits m a b := by
  have hsteps : ∀ e, b * c * 2 ^ e = b * 2 ^ e * c := fun e => Nat.mul_right_comm b c (2 ^ e)
  simp only [roundUnits, Nat.mul_div_mul_right a b hc, hsteps, roundQuot_mul_right a _ hc]

/-- Which quotients are rounded to a word or to more. -/
theorem succ_le_roundUnits_iff (hm : 0 < m) {a b : ℕ} (hb : 0 < b) (k : ℕ) : k + 1 ≤ roundUnits m a b ↔
    (units m k + units m (k + 1)) * b + (k + 1) % 2 ≤ 2 * a := by
  have hb' : (0 : ℚ) < b := Nat.cast_pos.mpr hb
  have hcast : ∀ x y : ℕ, ((x : ℚ) / 2 < y / b ↔ x * b < 2 * y) ∧ ((x : ℚ) / 2 = y / b ↔ x * b = 2 * y) := by
    intro x y
    rw [div_lt_div_iff₀ two_pos hb', div_eq_div_iff two_ne_zero hb'.ne', mul_comm (y : ℚ) 2]
    exact ⟨by exact_mod_cast Iff.rfl, by exact_mod_cast Iff.rfl⟩
  rw [(isNearestEven_roundUnits hm a hb).succ_le_iff k, ← Nat.cast_add, (hcast _ _).1, (hcast _ _).2, Nat.even_iff]
  generalize (units m k + units m (k + 1)) * b = x
  omega

end Qtx.BinaryFormats
