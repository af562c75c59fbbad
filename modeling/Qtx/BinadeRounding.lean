import Qtx.BinaryFormats

/-!
# Rounding binade by binade

A binary32 magnitude is a significand of 24 bits with an exponent. Its nearest word in a
narrower format is found by rounding the significand: at a fixed place below the least
normal value of the format, and at the last fraction bit of the format above it.
-/
namespace Qtx.BinaryFormats

variable {m L N : ℕ}

theorem units_normal (h : 2 ^ 23 ≤ N) : units 23 N = (2 ^ 23 + N % 2 ^ 23) * 2 ^ (N / 2 ^ 23 - 1) :=
  if_neg (Nat.not_lt.mpr h)

/-- The exact value of a normal magnitude, in units of the target. -/
theorem value_normal {E e s : ℕ} (h : 2 ^ 23 ≤ N) (hE : N / 2 ^ 23 = E) (hs : e + L = E - 1 + s) :
    ((units 23 N : ℚ) / 2 ^ L) = ((2 ^ 23 + N % 2 ^ 23 : ℕ) : ℚ) * 2 ^ e / 2 ^ s := by
  rw [units_normal h, hE, Nat.cast_mul, Nat.cast_pow, Nat.cast_two, div_eq_div_iff (by positivity) (by positivity),
    mul_assoc, mul_assoc, ← pow_add, ← pow_add, ← hs]

/-- Below half of the least positive value everything rounds to zero. -/
theorem nearest_zero (hL : 23 ≤ L) (h : N < (L - 23) * 2 ^ 23) : IsNearestEven m ((units 23 N : ℚ) / 2 ^ L) 0 := by
  obtain ⟨j, rfl⟩ := Nat.exists_eq_add_of_le hL
  rw [Nat.add_sub_cancel_left] at h
  obtain ⟨i, rfl⟩ : ∃ i, j = i + 1 := Nat.exists_eq_add_one.mpr (Nat.pos_of_ne_zero (by rintro rfl; omega))
  have hlt : units 23 N < 2 ^ (23 + i) := by
    have hend : units 23 ((i + 1) * 2 ^ 23) = 2 ^ (23 + i) := by
      rw [Nat.succ_mul, units_add (by decide) (.inr le_rfl), pow_add]
    rw [← hend]
    exact units_lt_units.mpr h
  have hq : (units 23 N : ℚ) < 2 ^ (23 + i) := by exact_mod_cast hlt
  have hpow : (2 : ℚ) ^ (23 + (i + 1)) = 2 * 2 ^ (23 + i) := by rw [← Nat.add_assoc, pow_succ, mul_comm]
  have hone : units m (0 + 1) = 1 := units_of_le (Nat.one_le_two_pow)
  have hhalf : (units 23 N : ℚ) / 2 ^ (23 + (i + 1)) < 1 / 2 := by
    rw [div_lt_div_iff₀ (by positivity) (by positivity), hpow]
    linarith
  have hnonneg : (0 : ℚ) ≤ (units 23 N : ℚ) / 2 ^ (23 + (i + 1)) := div_nonneg (Nat.cast_nonneg _) (by positivity)
  apply IsNearestEven.of_lower
  · rw [units_zero, Nat.cast_zero]
    exact hnonneg
  · rw [hone, Nat.cast_one]
    linarith
  · left
    rw [hone, units_zero, Nat.cast_zero, Nat.cast_one]
    linarith

/-- The significand in the lowest binade of the target, where the place of rounding is fixed. -/
theorem nearest_subnormal {s : ℕ} (hm : 0 < m) (h : 2 ^ 23 ≤ N) (hs : L = N / 2 ^ 23 - 1 + s)
    (hquot : (2 ^ 23 + N % 2 ^ 23) / 2 ^ s < 2 ^ (m + 1)) :
    IsNearestEven m ((units 23 N : ℚ) / 2 ^ L) (roundQuot (2 ^ 23 + N % 2 ^ 23) (2 ^ s)) := by
  rw [value_normal (e := 0) (s := s) h rfl (by omega)]
  have hnear := isNearestEven_shift (m := m) (e := 0) hm hquot (.inl rfl)
  rwa [Nat.zero_mul, Nat.zero_add] at hnear

/-- Above the least normal value, whose exponent field is `B`, the exponent is rebased and the
fraction rounded. -/
theorem nearest_normal {B d : ℕ} (hm : 0 < m) (hd : m + d = 23) (hL : L + m = B + 22) (hB : 0 < B)
    (hE : B ≤ N / 2 ^ 23) :
    IsNearestEven m ((units 23 N : ℚ) / 2 ^ L)
      ((N / 2 ^ 23 - B + 1) * 2 ^ m + roundQuot (N % 2 ^ 23) (2 ^ d)) := by
  have hf : N % 2 ^ 23 < 2 ^ 23 := Nat.mod_lt _ (by decide)
  have hpow : 2 ^ 23 = 2 ^ m * 2 ^ d := by rw [← pow_add, hd]
  have heven : Even (2 ^ m) := Nat.even_pow.mpr ⟨even_two, Nat.ne_of_gt hm⟩
  have hsum : roundQuot (2 ^ 23 + N % 2 ^ 23) (2 ^ d) = 2 ^ m + roundQuot (N % 2 ^ 23) (2 ^ d) := by
    rw [hpow, roundQuot_add_even _ (Nat.two_pow_pos d) heven]
  have hquot : (2 ^ 23 + N % 2 ^ 23) / 2 ^ d < 2 ^ (m + 1) := by
    have hdouble : 2 ^ (m + 1) * 2 ^ d = 2 * 2 ^ 23 := by rw [hpow, pow_succ, Nat.mul_comm _ 2, Nat.mul_assoc]
    rw [Nat.div_lt_iff_lt_mul (Nat.two_pow_pos d), hdouble]
    omega
  have hfull : 2 ^ m ≤ (2 ^ 23 + N % 2 ^ 23) / 2 ^ d := by
    rw [Nat.le_div_iff_mul_le (Nat.two_pow_pos d), ← hpow]
    exact Nat.le_add_right _ _
  have hnear := isNearestEven_shift (m := m) (e := N / 2 ^ 23 - B) (M := 2 ^ 23 + N % 2 ^ 23) (s := d) hm hquot
    (.inr hfull)
  rw [value_normal (e := N / 2 ^ 23 - B) (s := d) (by omega) rfl (by omega), Nat.succ_mul, Nat.add_assoc, ← hsum]
  exact hnear

/-- A value between two words that round to the same word. -/
theorem nearest_between {lo hi n : ℕ} (hm : 0 < m) (hlo : lo ≤ N) (hhi : N ≤ hi)
    (h : roundUnits m (units 23 lo) (2 ^ L) = n) (h' : roundUnits m (units 23 hi) (2 ^ L) = n) :
    IsNearestEven m ((units 23 N : ℚ) / 2 ^ L) n := by
  have hnear : ∀ k, IsNearestEven m ((units 23 k : ℚ) / 2 ^ L) (roundUnits m (units 23 k) (2 ^ L)) := by
    intro k
    have hk := isNearestEven_roundUnits hm (units 23 k) (Nat.two_pow_pos L)
    rwa [Nat.cast_pow, Nat.cast_two] at hk
  have hdiv : ∀ {j k : ℕ}, j ≤ k → (units 23 j : ℚ) / 2 ^ L ≤ units 23 k / 2 ^ L :=
    fun hle => div_le_div_of_nonneg_right (Nat.cast_le.mpr (units_le_units.mpr hle)) (by positivity)
  have hge := (hnear lo).mono (hnear N) (hdiv hlo)
  have hle := (hnear N).mono (hnear hi) (hdiv hhi)
  rw [h] at hge
  rw [h'] at hle
  exact le_antisymm hle hge ▸ hnear N

/-- Adding just under half and the last kept bit rounds to nearest even. -/
theorem add_half_div (N : ℕ) {s : ℕ} (hs : 0 < s) :
    (N + (2 ^ (s - 1) - 1 + N / 2 ^ s % 2)) / 2 ^ s = roundQuot N (2 ^ s) := by
  have hdouble : 2 ^ s = 2 * 2 ^ (s - 1) := by rw [Nat.mul_comm, ← pow_succ, Nat.sub_add_cancel hs]
  have hpos : 0 < 2 ^ (s - 1) := Nat.two_pow_pos _
  have hsum : 2 ^ s * (N / 2 ^ s) + N % 2 ^ s = N := Nat.div_add_mod N (2 ^ s)
  have hr : N % 2 ^ s < 2 ^ s := Nat.mod_lt N (Nat.two_pow_pos s)
  have hparity : N / 2 ^ s % 2 < 2 := Nat.mod_lt _ Nat.two_pos
  rw [roundQuot]
  generalize N / 2 ^ s = q at *
  generalize N % 2 ^ s = r at *
  have hsplit : N + (2 ^ (s - 1) - 1 + q % 2) = r + (2 ^ (s - 1) - 1 + q % 2) + 2 ^ s * q := by omega
  rw [hsplit, Nat.add_mul_div_left _ _ (Nat.two_pow_pos s)]
  have hlow : ∀ t, t < 2 ^ s → t / 2 ^ s = 0 := fun t ht => Nat.div_eq_of_lt ht
  have hhigh : ∀ t, 2 ^ s ≤ t → t < 2 * 2 ^ s → t / 2 ^ s = 1 := by
    intro t hge hlt
    rw [Nat.div_eq_sub_div (Nat.two_pow_pos s) hge, Nat.div_eq_of_lt (by omega)]
  split_ifs with h1 h2
  · rw [hlow _ (by omega), Nat.zero_add]
  · rw [hhigh _ (by omega) (by omega), Nat.add_comm]
  · rcases Nat.mod_two_eq_zero_or_one q with h | h
    · rw [h, hlow _ (by omega)]
      omega
    · rw [h, hhigh _ (by omega) (by omega)]
      omega

end Qtx.BinaryFormats
