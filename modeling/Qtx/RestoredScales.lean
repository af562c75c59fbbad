import Qtx.FlushedScales
import Qtx.IntRoundTrips

/-!
# Scales that are multiplied out and divided back

A scale is a value over the number of levels, rounded. Multiplied by the number of levels again
and rounded, it need not give the value, but over the levels it gives the scale: the words that
would not come back are those whose product lies in the middle of two words, and no quotient
is rounded to one of these.
-/
namespace Qtx.IntRoundTrips

open Qtx.BinaryFormats Qtx.FloatMachine Qtx.FloatWords Qtx.FlushedScales

section Quotients

variable {a b q : ℕ}

/-- The nearest multiple of the divisor. -/
theorem roundQuot_eq (hlo : 2 * a < 2 * (q * b) + b) (hhi : 2 * (q * b) < 2 * a + b) : roundQuot a b = q := by
  have hb : 0 < b := by omega
  rcases Nat.lt_or_ge a (q * b) with hlt | hge
  · obtain ⟨p, rfl⟩ := Nat.exists_eq_add_of_le' (show 1 ≤ q by rcases q with _ | q <;> omega)
    rw [Nat.add_one_mul p b] at hlo hhi hlt
    obtain ⟨r, rfl⟩ := Nat.exists_eq_add_of_le (show p * b ≤ a by omega)
    have hr : r < b := by omega
    have hdiv : (p * b + r) / b = p := by
      rw [Nat.add_comm, Nat.add_mul_div_right _ _ hb, Nat.div_eq_of_lt hr, Nat.zero_add]
    have hmod : (p * b + r) % b = r := by rw [Nat.add_comm, Nat.add_mul_mod_self_right, Nat.mod_eq_of_lt hr]
    rw [roundQuot, hdiv, hmod, if_neg (by omega), if_pos (by omega)]
  · obtain ⟨r, rfl⟩ := Nat.exists_eq_add_of_le hge
    have hr : r < b := by omega
    have hdiv : (q * b + r) / b = q := by
      rw [Nat.add_comm, Nat.add_mul_div_right _ _ hb, Nat.div_eq_of_lt hr, Nat.zero_add]
    have hmod : (q * b + r) % b = r := by rw [Nat.add_comm, Nat.add_mul_mod_self_right, Nat.mod_eq_of_lt hr]
    rw [roundQuot, hdiv, hmod, if_pos (by omega)]

theorem roundQuot_near (a : ℕ) (hb : 0 < b) :
    2 * (roundQuot a b * b) ≤ 2 * a + b ∧ 2 * a ≤ 2 * (roundQuot a b * b) + b := by
  have hsum := Nat.div_add_mod a b
  have hmod := Nat.mod_lt a hb
  rw [Nat.mul_comm] at hsum
  unfold roundQuot
  generalize a / b = q at *
  generalize a % b = r at *
  split_ifs
  · omega
  · rw [Nat.add_one_mul q b]
    omega
  · rcases Nat.mod_two_eq_zero_or_one q with hq | hq
    · rw [hq, Nat.add_zero]
      omega
    · rw [hq, Nat.add_one_mul q b]
      omega

/-- Only a value in the middle of two multiples is half a divisor away. -/
theorem roundQuot_nearer (hb : 0 < b) (hne : 2 * (a % b) ≠ b) :
    2 * (roundQuot a b * b) < 2 * a + b ∧ 2 * a < 2 * (roundQuot a b * b) + b := by
  have hsum := Nat.div_add_mod a b
  have hmod := Nat.mod_lt a hb
  rw [Nat.mul_comm] at hsum
  unfold roundQuot
  generalize a / b = q at *
  generalize a % b = r at *
  split_ifs
  · omega
  · rw [Nat.add_one_mul q b]
    omega
  · omega

theorem le_roundQuot (hb : 0 < b) (h : q * b ≤ a) : q ≤ roundQuot a b := by
  have hle : q ≤ a / b := (Nat.le_div_iff_mul_le hb).mpr h
  unfold roundQuot
  split_ifs <;> omega

theorem roundQuot_le (hb : 0 < b) (h : a ≤ q * b) : roundQuot a b ≤ q := by
  by_contra hlt
  have hnear := (roundQuot_near a hb).1
  have hstep : (q + 1) * b ≤ roundQuot a b * b := Nat.mul_le_mul_right b (Nat.not_le.mp hlt)
  rw [Nat.add_one_mul q b] at hstep
  omega

end Quotients

section Binades

variable {m a b e k s levels : ℕ}

theorem roundUnits_binade (hm : 0 < m) (hb : 0 < b) (hlo : 2 ^ m * (b * 2 ^ e) ≤ a)
    (hhi : a < 2 ^ (m + 1) * (b * 2 ^ e)) :
    roundUnits m a b = e * 2 ^ m + roundQuot a (b * 2 ^ e) := by
  have hd : 0 < b * 2 ^ e := Nat.mul_pos hb (Nat.two_pow_pos e)
  exact (isNearestEven_roundUnits hm a hb).unique
    (isNearestEven_quot hm hb (Nat.div_lt_of_lt_mul (by rwa [Nat.mul_comm]))
      (.inr ((Nat.le_div_iff_mul_le hd).mpr hlo)))

/-- A quotient of two numbers with a power of two between them and the words. -/
theorem roundUnits_scaled (hm : 0 < m) (hb : 0 < b) (hlo : 2 ^ m * b ≤ a) (hhi : a < 2 ^ (m + 1) * b) (e : ℕ) :
    roundUnits m (a * 2 ^ e) b = e * 2 ^ m + roundQuot a b := by
  have hpos : 0 < 2 ^ e := Nat.two_pow_pos e
  rw [roundUnits_binade hm hb, roundQuot_mul_right _ _ hpos]
  · rw [← Nat.mul_assoc]
    exact Nat.mul_le_mul_right _ hlo
  · rw [← Nat.mul_assoc]
    exact Nat.mul_lt_mul_of_pos_right hhi hpos

/-- The significands decide: the exponent goes up by that of the product and comes down again. -/
theorem roundUnits_mul_div (hm : 0 < m) (hs : s ≤ m) (hlevels : 2 ≤ levels) (hstep : 2 ^ s ≤ levels + 1)
    (hk : 2 ^ m ≤ k) (hk' : k < 2 ^ (m + 1)) (hlo : 2 ^ m * 2 ^ s ≤ levels * k)
    (hhi : levels * k < 2 ^ (m + 1) * 2 ^ s) (e : ℕ) :
    roundUnits m (units m (roundUnits m (levels * (k * 2 ^ e)) 1)) levels =
      e * 2 ^ m + roundQuot (roundQuot (levels * k) (2 ^ s) * 2 ^ s) levels := by
  have hpos : 0 < 2 ^ s := Nat.two_pow_pos s
  have hproduct : roundUnits m (levels * (k * 2 ^ e)) 1 = (e + s) * 2 ^ m + roundQuot (levels * k) (2 ^ s) := by
    have hscaled : levels * (k * 2 ^ e) = levels * k * 2 ^ e := (Nat.mul_assoc _ _ _).symm
    have hexponent : 1 * 2 ^ (e + s) = 2 ^ s * 2 ^ e := by ring
    rw [hscaled, roundUnits_binade hm Nat.one_pos (e := e + s), hexponent,
      roundQuot_mul_right _ _ (Nat.two_pow_pos e)]
    · rw [hexponent, ← Nat.mul_assoc]
      exact Nat.mul_le_mul_right _ hlo
    · rw [hexponent, ← Nat.mul_assoc]
      exact Nat.mul_lt_mul_of_pos_right hhi (Nat.two_pow_pos e)
  have hle : roundQuot (levels * k) (2 ^ s) ≤ 2 ^ (m + 1) := roundQuot_le hpos hhi.le
  have hge : 2 ^ m ≤ roundQuot (levels * k) (2 ^ s) := le_roundQuot hpos hlo
  -- the least product of the binade is a whole number of steps
  have hlo' : 2 ^ m * levels ≤ roundQuot (levels * k) (2 ^ s) * 2 ^ s := by
    have hsteps : levels * 2 ^ (m - s) * 2 ^ s = 2 ^ m * levels := by
      rw [Nat.mul_assoc, Nat.pow_sub_mul_pow 2 hs, Nat.mul_comm]
    rw [← hsteps]
    refine Nat.mul_le_mul_right _ (le_roundQuot hpos ?_)
    rw [hsteps, Nat.mul_comm]
    exact Nat.mul_le_mul_left levels hk
  have hhi' : roundQuot (levels * k) (2 ^ s) * 2 ^ s < 2 ^ (m + 1) * levels := by
    have hnear := (roundQuot_near (levels * k) hpos).1
    have hmax : levels * (k + 1) ≤ levels * 2 ^ (m + 1) := Nat.mul_le_mul_left levels hk'
    rw [Nat.mul_add, Nat.mul_one, Nat.mul_comm levels (2 ^ (m + 1))] at hmax
    omega
  generalize roundQuot (levels * k) (2 ^ s) = p at *
  have hunits : units m ((e + s) * 2 ^ m + p) = p * 2 ^ s * 2 ^ e := by
    rw [units_add hle (.inr hge)]
    ring
  rw [hproduct, hunits, roundUnits_scaled hm (by omega) hlo' hhi']

end Binades

namespace IntFormat

variable {n k e : ℕ}

/-- The largest level times the significand is in the middle of two words. -/
def Skipped (f : IntFormat) (k : ℕ) : Prop :=
  2 ^ 23 * (f.levels + 1) ≤ f.levels * k ∧ 2 * (f.levels * k % (f.levels + 1)) = f.levels + 1

instance (f : IntFormat) (k : ℕ) : Decidable (f.Skipped k) := inferInstanceAs (Decidable (_ ∧ _))

/-- One more than the levels is a power of two. -/
theorem exists_exponent (f : IntFormat) : ∃ t, f.levels + 1 = 2 ^ (t + 1) ∧ t + 1 ≤ 23 := by
  cases f with
  | int8 => exact ⟨6, rfl, by decide⟩
  | int4 => exact ⟨2, rfl, by decide⟩

theorem restores_of_not_skipped (f : IntFormat) (hk : 2 ^ 23 ≤ k) (hk' : k < 2 ^ 24)
    (hnot : ¬ f.Skipped k) (e : ℕ) :
    roundUnits 23 (units 23 (roundUnits 23 (f.levels * (k * 2 ^ e)) 1)) f.levels = e * 2 ^ 23 + k := by
  obtain ⟨t, ht, htle⟩ := f.exists_exponent
  have hlevels : 2 ≤ f.levels := f.levelCount.two_le
  have hdouble : 2 ^ (t + 1) = 2 * 2 ^ t := by rw [pow_succ, Nat.mul_comm]
  have hpos : 0 < 2 ^ t := Nat.two_pow_pos t
  have hcomm : k * f.levels = f.levels * k := Nat.mul_comm _ _
  by_cases hlow : f.levels * k < 2 ^ 24 * 2 ^ t
  · -- the steps of the product are smaller than the levels
    have hlo : 2 ^ 23 * 2 ^ t ≤ f.levels * k := by
      rw [Nat.mul_comm]
      exact Nat.mul_le_mul (by omega) hk
    obtain ⟨hnear, hnear'⟩ := roundQuot_near (f.levels * k) hpos
    rw [roundUnits_mul_div (by decide) (by omega) hlevels (by omega) hk hk' hlo hlow]
    rw [roundQuot_eq (q := k) (by omega) (by omega)]
  · have hlo : 2 ^ 23 * 2 ^ (t + 1) ≤ f.levels * k := by omega
    have hhi : f.levels * k < 2 ^ 24 * 2 ^ (t + 1) := by
      rw [Nat.mul_comm]
      exact Nat.mul_lt_mul'' hk' (by omega)
    have htie : 2 * (f.levels * k % 2 ^ (t + 1)) ≠ 2 ^ (t + 1) := by
      rw [← ht] at hlo ⊢
      exact fun h => hnot ⟨hlo, h⟩
    obtain ⟨hnear, hnear'⟩ := roundQuot_nearer (Nat.two_pow_pos (t + 1)) htie
    rw [roundUnits_mul_div (by decide) htle hlevels (by omega) hk hk' hlo hhi]
    rw [roundQuot_eq (q := k) (by omega) (by omega)]

/-- The words on either side of a skipped product are quotients of the neighbours, and no word lies between them. -/
theorem not_skipped_of_quotient (f : IntFormat) (v : ℕ) (hk : 2 ^ 23 ≤ k) (hk' : k < 2 ^ 24)
    (h : roundUnits 23 (units 23 v) f.levels = e * 2 ^ 23 + k) : ¬ f.Skipped k := by
  rintro ⟨hlarge, htie⟩
  obtain ⟨t, ht, htle⟩ := f.exists_exponent
  have hlevels : 2 ≤ f.levels := f.levelCount.two_le
  have hpos : 0 < f.levels := by omega
  have hsum := Nat.div_add_mod (f.levels * k) (f.levels + 1)
  rw [Nat.mul_comm] at hsum
  generalize f.levels * k % (f.levels + 1) = r at *
  generalize hp : f.levels * k / (f.levels + 1) = p at *
  have hplo : 2 ^ 23 ≤ p := by
    rw [← hp]
    exact (Nat.le_div_iff_mul_le (Nat.succ_pos _)).mpr hlarge
  have hphi : p < 2 ^ 24 := by
    rw [← hp]
    refine Nat.div_lt_of_lt_mul ?_
    exact Nat.mul_lt_mul'' (Nat.lt_succ_self _) hk'
  have hkpos : 2 ^ 23 < k := by
    by_contra hle
    have hmin : f.levels * k ≤ f.levels * 2 ^ 23 := Nat.mul_le_mul_left _ (Nat.not_lt.mp hle)
    omega
  have hmax : f.levels * (k + 1) ≤ f.levels * 2 ^ 24 := Nat.mul_le_mul_left _ hk'
  have hunits : ∀ q, 2 ^ 23 ≤ q → q ≤ 2 ^ 24 →
      units 23 ((e + (t + 1)) * 2 ^ 23 + q) = q * (f.levels + 1) * 2 ^ e := by
    intro q hlo hhi
    rw [units_add hhi (.inr hlo), ht]
    ring
  have hcomm : k * f.levels = f.levels * k := Nat.mul_comm _ _
  rw [Nat.mul_add_one] at hmax
  rcases Nat.lt_or_ge ((e + (t + 1)) * 2 ^ 23 + p) v with hlt | hle
  · have hnext : roundUnits 23 (units 23 ((e + (t + 1)) * 2 ^ 23 + (p + 1))) f.levels = e * 2 ^ 23 + (k + 1) := by
      have hproduct : (p + 1) * (f.levels + 1) = p * (f.levels + 1) + (f.levels + 1) := Nat.add_one_mul p _
      have hword : (k + 1) * f.levels = k * f.levels + f.levels := Nat.add_one_mul k _
      rw [hunits _ (by omega) (by omega), roundUnits_scaled (by decide) hpos (by omega) (by omega),
        roundQuot_eq (q := k + 1)]
      · omega
      · omega
    have hmono := roundUnits_mono hpos (units_le_units (m := 23).mpr hlt)
    rw [h, Nat.succ_eq_add_one, Nat.add_assoc, hnext] at hmono
    omega
  · obtain ⟨j, rfl⟩ := Nat.exists_eq_add_of_le' (show 1 ≤ k by omega)
    have hprev : roundUnits 23 (units 23 ((e + (t + 1)) * 2 ^ 23 + p)) f.levels = e * 2 ^ 23 + j := by
      have hword : (j + 1) * f.levels = j * f.levels + f.levels := Nat.add_one_mul j _
      have hmin : 2 ^ 23 * (f.levels + 1) ≤ p * (f.levels + 1) := Nat.mul_le_mul_right _ hplo
      rw [hunits _ hplo hphi.le, roundUnits_scaled (by decide) hpos (by omega) (by omega), roundQuot_eq (q := j)]
      · omega
      · omega
    have hmono := roundUnits_mono hpos (units_le_units (m := 23).mpr hle)
    rw [h, hprev] at hmono
    omega

/-- A scale comes back. -/
theorem roundUnits_restored (f : IntFormat) (v : ℕ) (hn : 2 ^ 23 ≤ n)
    (h : roundUnits 23 (units 23 v) f.levels = n) :
    roundUnits 23 (units 23 (roundUnits 23 (f.levels * units 23 n) 1)) f.levels = n := by
  obtain ⟨e, he⟩ := Nat.exists_eq_add_of_le' (show 1 ≤ n / 2 ^ 23 by omega)
  have hword : n = e * 2 ^ 23 + (2 ^ 23 + n % 2 ^ 23) := by omega
  have hk : 2 ^ 23 + n % 2 ^ 23 < 2 ^ 24 := by omega
  have hunits : units 23 n = (2 ^ 23 + n % 2 ^ 23) * 2 ^ e := by
    conv_lhs => rw [hword]
    exact units_add hk.le (.inr (by omega))
  have hnot := f.not_skipped_of_quotient v (by omega) hk (h.trans hword)
  rw [hunits, f.restores_of_not_skipped (by omega) hk hnot e, ← hword]

end IntFormat

end Qtx.IntRoundTrips
