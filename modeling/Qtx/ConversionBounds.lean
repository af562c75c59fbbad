import Qtx.EncoderScales
import Qtx.IntegerConversions
import Qtx.ScanBounds

/-!
# Conversions that are always defined

A scale is never small against the words it divides, so the quotients of most encoders
stay close to the levels they are clamped to.
-/
namespace Qtx.ConversionBounds

open Qtx.ByteStreams Qtx.FloatWords Qtx.FloatMachine Qtx.FpeGuard Qtx.QuantizerHelpers Qtx.FloatScans
  Qtx.FloatErrors Qtx.ScanBounds Qtx.EncoderScales Qtx.IntegerConversions Qtx.KQuants Qtx.IQuants Qtx.ScaledEncoders

variable {M : Machine} {x y r : BitVec 32}

section Words

theorem convertible_of_mag (hx : IsFinite x) (h : mag M x < 2 ^ 31) : Convertible M x := by
  have hsize : M.size x < 2 ^ 31 * 2 ^ 149 := by
    rw [mag, div_lt_iff₀ (by positivity)] at h
    exact_mod_cast h
  have habs : ((M.value x).tdiv (2 ^ 149)).natAbs = M.size x / 2 ^ 149 := by
    rw [Int.natAbs_tdiv, natAbs_value]
    rfl
  have hlt : M.size x / 2 ^ 149 < 2 ^ 31 := Nat.div_lt_of_lt_mul (by rwa [Nat.mul_comm])
  refine ⟨hx, ?_, ?_⟩ <;> omega

theorem not_finite_of_nan (hx : IsNaN x) : ¬ IsFinite x := fun hf => hf.not_nan hx

/-- Nothing that is added to a word makes it finite. -/
theorem not_finite_add (hx : ¬ IsFinite x) (hy : IsFinite y) : ¬ IsFinite (M.add x y) := by
  unfold Machine.add
  split_ifs with hnan hinf hboth
  · exact not_finite_of_nan (M.nan_isNaN x y)
  · exact not_finite_of_nan (M.nan_isNaN x y)
  · exact hx
  · exact absurd ‹magnitude y = infinity› hy.ne_infinity
  · rw [not_or, IsNaN, Nat.not_lt] at hnan
    exact absurd (lt_of_le_of_ne hnan.1 hinf) hx

theorem not_finite_signed (neg : Bool) : ¬ IsFinite (signed neg infinity) := by
  rw [IsFinite, magnitude_signed neg (Nat.le_refl _)]
  exact Nat.lt_irrefl _

theorem not_finite_mul_left (hx : ¬ IsFinite x) : ¬ IsFinite (M.mul x y) := by
  unfold Machine.mul
  dsimp only
  split_ifs with hnan hinf
  · exact not_finite_of_nan (M.nan_isNaN x y)
  · exact not_finite_of_nan (M.nan_isNaN x y)
  · exact not_finite_signed _
  · exact not_finite_of_nan (M.nan_isNaN x y)
  · exact not_finite_signed _
  · rw [not_or, IsNaN, Nat.not_lt] at hnan
    exact absurd (lt_of_le_of_ne hnan.1 hinf) hx

theorem not_finite_mul_right (hy : ¬ IsFinite y) : ¬ IsFinite (M.mul x y) := by
  unfold Machine.mul
  dsimp only
  split_ifs with hnan hinf
  · exact not_finite_of_nan (M.nan_isNaN x y)
  · exact not_finite_of_nan (M.nan_isNaN x y)
  · exact not_finite_signed _
  · exact not_finite_of_nan (M.nan_isNaN x y)
  · exact not_finite_signed _
  · rw [not_or, IsNaN, IsNaN, Nat.not_lt, Nat.not_lt] at hnan
    exact absurd (lt_of_le_of_ne hnan.2 ‹_›) hy

theorem not_convertible_nearestArgument (hx : ¬ IsFinite x) : ¬ Convertible M (nearestArgument M x) := by
  have hhalf : IsFinite half := by unfold IsFinite; decide
  rintro ⟨hfin, -⟩
  unfold nearestArgument at hfin
  split_ifs at hfin
  · exact not_finite_add hx hhalf hfin
  · exact not_finite_add (fun hf => hx (by rwa [IsFinite, magnitude_fneg] at hf)) hhalf hfin

/-- The value of a constant of the source. -/
theorem mag_eq {a b : ℕ} (hnormal : 2 ^ 23 ≤ magnitude x) (hb : b ≠ 0) (h : ticks x * b = a * 2 ^ 149) :
    mag M x = a / b := by
  have hcast : (ticks x : ℚ) * b = a * 2 ^ 149 := by exact_mod_cast h
  have hb' : (b : ℚ) ≠ 0 := Nat.cast_ne_zero.mpr hb
  rw [mag, Machine.size_of_normal hnormal, div_eq_div_iff (by positivity) hb', hcast]

theorem mag_half (M : Machine) : mag M half = 1 / 2 := mag_eq (by decide) (by decide) (by decide)

theorem mag_one (M : Machine) : mag M one = 1 / 1 := mag_eq (by decide) (by decide) (by decide)

theorem finite_one : IsFinite one := by unfold IsFinite; decide

theorem finite_half : IsFinite half := by unfold IsFinite; decide

/-- A constant of the source between two and 512. -/
structure Constant (M : Machine) (c : BitVec 32) : Prop where
  finite : IsFinite c
  two_le : 2 ≤ mag M c
  le : mag M c ≤ 2 ^ 9

theorem Constant.fneg {c : BitVec 32} (h : Constant M c) : Constant M (fneg c) :=
  ⟨finite_fneg h.finite, by rw [mag_fneg]; exact h.two_le, by rw [mag_fneg]; exact h.le⟩

/-- A quotient of the source that binary32 represents. -/
structure Exact (a b : ℕ) : Prop where
  normal : 2 ^ 23 ≤ magnitude (literal a b)
  finite : IsFinite (literal a b)
  pos : 0 < b
  ticks : ticks (literal a b) * b = a * 2 ^ 149

instance (a b : ℕ) : Decidable (Exact a b) :=
  decidable_of_iff (_ ∧ _ ∧ _ ∧ _) ⟨fun h => ⟨h.1, h.2.1, h.2.2.1, h.2.2.2⟩, fun h => ⟨h.1, h.2, h.3, h.4⟩⟩

theorem Exact.mag {a b : ℕ} (h : Exact a b) (M : Machine) : mag M (literal a b) = a / b :=
  mag_eq h.normal (Nat.ne_of_gt h.pos) h.ticks

theorem Exact.constant {a b : ℕ} (h : Exact a b) (htwo : 2 * b ≤ a) (hle : a ≤ 2 ^ 9 * b) :
    Constant M (literal a b) := by
  have hb : (0 : ℚ) < b := Nat.cast_pos.mpr h.pos
  have htwo' : 2 * (b : ℚ) ≤ a := by exact_mod_cast htwo
  have hle' : (a : ℚ) ≤ 2 ^ 9 * b := by exact_mod_cast hle
  exact ⟨h.finite, by rwa [h.mag, le_div_iff₀ hb], by rwa [h.mag, div_le_iff₀ hb]⟩

/-- A threshold of the encoders lies far above the least normal word. -/
theorem le_mag_tiny (M : Machine) : 1 / 2 ^ 100 ≤ mag M tiny := by
  have hle : 2 ^ 49 ≤ M.size tiny := by
    rw [Machine.size_of_normal (by decide)]
    decide
  have hcast : (2 : ℚ) ^ 49 ≤ M.size tiny := by exact_mod_cast hle
  rw [mag, div_le_div_iff₀ (by positivity) (by positivity)]
  linarith

end Words

section Results

variable {q : ℚ}

theorem Approx.le_two (h : Approx M r q) (hq : 0 ≤ q) : mag M r ≤ 2 * q := by
  have hle := h.upper
  have hslack : slack = 1001 / 1000 := rfl
  rw [hslack] at hle
  linarith

/-- An exact value that is not tiny is not flushed. -/
theorem Approx.two_ge (h : Approx M r q) (hq : 1 / 2 ^ 126 ≤ q) : mag M r ≠ 0 ∧ q ≤ 2 * mag M r := by
  have hne : mag M r ≠ 0 := fun hz => absurd (h.flushed hz) (not_lt.mpr hq)
  have hle := h.lower hne
  have hslack : slack = 1001 / 1000 := rfl
  have hnonneg := mag_nonneg M r
  rw [hslack] at hle
  exact ⟨hne, by linarith⟩

theorem convertible_add (hflush : M.flush = true) (hx : IsFinite x) (hy : IsFinite y)
    (hle : mag M x + mag M y ≤ 3 * 2 ^ 29 + 2 ^ 5) : Convertible M (M.add x y) := by
  have hfin := finite_add (M := M) hx hy (hle.trans (by norm_num))
  have habs : |real M x + real M y| ≤ mag M x + mag M y := by
    rw [← abs_real, ← abs_real]
    exact abs_add_le _ _
  have hupper := (add_approx hflush hx hy hfin).upper
  have hslack : slack = 1001 / 1000 := rfl
  rw [hslack] at hupper
  exact convertible_of_mag hfin (by linarith)

theorem convertible_nearestArgument (hflush : M.flush = true) (hx : IsFinite x) (hle : mag M x ≤ 3 * 2 ^ 29) :
    Convertible M (nearestArgument M x) := by
  have hhalf := mag_half M
  unfold nearestArgument
  split_ifs
  · exact convertible_add hflush hx finite_half (by rw [hhalf]; linarith)
  · exact convertible_add hflush (finite_fneg hx) finite_half (by rw [mag_fneg, hhalf]; linarith)

theorem convertible_roundArgument (hflush : M.flush = true) (hx : IsFinite x) (hle : mag M x ≤ 3 * 2 ^ 29) :
    Convertible M (roundArgument M x) := by
  have hhalf := mag_half M
  unfold roundArgument
  split_ifs
  · exact convertible_add hflush hx (finite_fneg finite_half) (by rw [mag_fneg, hhalf]; linarith)
  · exact convertible_add hflush hx finite_half (by rw [hhalf]; linarith)

/-! The integers. -/

theorem natAbs_toInt (h : Convertible M x) :
    ((M.toInt x).natAbs : ℚ) ≤ mag M x ∧ mag M x < (M.toInt x).natAbs + 1 := by
  have hcast : M.toInt x = (M.value x).tdiv (2 ^ 149) := if_pos h
  have habs : (M.toInt x).natAbs = M.size x / 2 ^ 149 := by
    rw [hcast, Int.natAbs_tdiv, natAbs_value]
    rfl
  have hdiv := Nat.div_add_mod (M.size x) (2 ^ 149)
  have hmod := Nat.mod_lt (M.size x) (Nat.two_pow_pos 149)
  rw [habs, mag, le_div_iff₀ (by positivity), div_lt_iff₀ (by positivity)]
  constructor
  · exact_mod_cast (by omega : M.size x / 2 ^ 149 * 2 ^ 149 ≤ M.size x)
  · exact_mod_cast (by omega : M.size x < (M.size x / 2 ^ 149 + 1) * 2 ^ 149)

theorem real_half (M : Machine) : real M half = 1 / 2 := by
  rw [← mag_half M, real, Machine.value, if_neg (by decide), mag, Int.cast_natCast]

theorem nearestArgument_approx (hflush : M.flush = true) (hx : IsFinite x) (hle : mag M x ≤ 3 * 2 ^ 29) :
    Approx M (nearestArgument M x) (mag M x + 1 / 2) := by
  have hfin := (convertible_nearestArgument hflush hx hle).1
  have hnonneg := mag_nonneg M x
  unfold nearestArgument at hfin ⊢
  by_cases h : M.le zero x = true
  · rw [if_pos h] at hfin ⊢
    rw [le_iff finite_zero hx, ← real_le_iff, real_zero] at h
    have happrox := add_approx hflush hx finite_half hfin
    rwa [real_half, ← mag_of_real_nonneg h, abs_of_nonneg (by linarith)] at happrox
  · rw [if_neg h] at hfin ⊢
    rw [le_iff finite_zero hx, ← real_le_iff, real_zero, not_le] at h
    have hneg : real M (fneg x) = mag M x := by rw [real_fneg, ← abs_real, abs_of_neg h]
    have happrox := add_approx hflush (finite_fneg hx) finite_half hfin
    rwa [real_half, hneg, abs_of_nonneg (by linarith)] at happrox

/-- The integer nearest to a word. -/
theorem nearestInt_spec (hflush : M.flush = true) (hx : IsFinite x) (hle : mag M x ≤ 3 * 2 ^ 29) :
    ((nearestInt M x).natAbs : ℚ) ≤ slack * (mag M x + 1 / 2) ∧
      mag M x + 1 / 2 ≤ slack * ((nearestInt M x).natAbs + 1) := by
  have hconv := convertible_nearestArgument hflush hx hle
  have happrox := nearestArgument_approx hflush hx hle
  have hnonneg := mag_nonneg M x
  have hslack : slack = 1001 / 1000 := rfl
  have habs : (nearestInt M x).natAbs = (M.toInt (nearestArgument M x)).natAbs := by
    unfold nearestInt nearestArgument
    split_ifs
    · rfl
    · exact Int.natAbs_neg _
  have hne : mag M (nearestArgument M x) ≠ 0 := by
    intro hz
    have hlt := happrox.flushed hz
    norm_num at hlt
    linarith
  have hlower := happrox.lower hne
  have hupper := happrox.upper
  obtain ⟨hlo, hhi⟩ := natAbs_toInt hconv
  rw [habs]
  refine ⟨hlo.trans hupper, hlower.trans ?_⟩
  rw [hslack]
  linarith

theorem nearestInt_eq_zero (hflush : M.flush = true) (hx : IsFinite x) (hz : mag M x = 0) : nearestInt M x = 0 := by
  have hspec := (nearestInt_spec hflush hx (by rw [hz]; norm_num)).1
  have hslack : slack = 1001 / 1000 := rfl
  rw [hz, hslack] at hspec
  have hlt : ((nearestInt M x).natAbs : ℚ) < 1 := by linarith
  rw [← Int.natAbs_eq_zero]
  exact Nat.lt_one_iff.mp (by exact_mod_cast hlt)

theorem nearestInt_nonneg (hflush : M.flush = true) (hx : IsFinite x) (hle : mag M x ≤ 3 * 2 ^ 29)
    (hnonneg : 0 ≤ real M x) : 0 ≤ nearestInt M x := by
  have hconv := convertible_nearestArgument hflush hx hle
  have hvalue := real_le_iff.mp ((real_zero M).trans_le hnonneg)
  have hpos : M.le zero x = true := (le_iff finite_zero hx).mpr hvalue
  have hhalf : M.value zero ≤ M.value half := real_le_iff.mp (by rw [real_zero, real_half]; norm_num)
  rw [nearestArgument, if_pos hpos] at hconv
  have hsign : (if M.value x + M.value half = 0 then x.msb && half.msb
    else decide (M.value x + M.value half < 0)) = false := by
    rw [value_zero] at hvalue hhalf
    split_ifs
    · exact Bool.and_eq_false_iff.mpr (.inr (by decide))
    · exact decide_eq_false (not_lt.mpr (Int.add_nonneg hvalue hhalf))
  have hsum : 0 ≤ M.value (M.add x half) := by
    have hreal : 0 ≤ real M (M.add x half) := by
      rw [Machine.add_of_finite hx finite_half, hsign]
      exact real_nonneg_of_msb (msb_round_false M _ _)
    have hle := real_le_iff.mp ((real_zero M).trans_le hreal)
    rwa [value_zero] at hle
  have hcast : M.toInt (M.add x half) = (M.value (M.add x half)).tdiv (2 ^ 149) := if_pos hconv
  rw [nearestInt, if_pos hpos, hcast]
  exact Int.tdiv_nonneg hsum (by positivity)

/-- A small integer as a word. -/
theorem ofInt_approx (hflush : M.flush = true) {z : ℤ} (hz : z.natAbs ≤ 2 ^ 9) : Approx M (M.ofInt z) z.natAbs := by
  have hexact : ((z.natAbs * 2 ^ 149 : ℕ) : ℚ) / ((1 : ℕ) * 2 ^ 149) = z.natAbs := by
    rw [Nat.cast_mul, Nat.cast_one, one_mul, Nat.cast_pow, Nat.cast_ofNat, mul_div_cancel_right₀ _ (by positivity)]
  have hz' : (z.natAbs : ℚ) ≤ 2 ^ 9 := by exact_mod_cast hz
  rw [← hexact]
  refine round_approx hflush Nat.one_pos (finite_round_of_le Nat.one_pos ?_)
  rw [hexact]
  exact hz'.trans (by norm_num)

/-- A product with a bounded exact value. -/
theorem mul_bound (hflush : M.flush = true) (hx : IsFinite x) (hy : IsFinite y) (hle : mag M x * mag M y ≤ q)
    (hq : q ≤ 2 ^ 127) : IsFinite (M.mul x y) ∧ mag M (M.mul x y) ≤ 2 * q := by
  have happrox := mul_approx hflush hx hy (hle.trans hq)
  have htwo := Approx.le_two happrox (mul_nonneg (mag_nonneg M x) (mag_nonneg M y))
  exact ⟨happrox.finite, htwo.trans (by linarith)⟩

/-- A quotient with a bounded exact value. -/
theorem div_bound (hflush : M.flush = true) (hx : IsFinite x) (hy : IsFinite y) (hne : mag M y ≠ 0)
    (hle : mag M x ≤ q * mag M y) (hq : q ≤ 2 ^ 127) : IsFinite (M.div x y) ∧ mag M (M.div x y) ≤ 2 * q := by
  have hpos : 0 < mag M y := lt_of_le_of_ne (mag_nonneg M y) (Ne.symm hne)
  have hquot : mag M x / mag M y ≤ q := (div_le_iff₀ hpos).mpr hle
  have happrox := div_approx hflush hx hy hne (hquot.trans hq)
  have htwo := Approx.le_two happrox (div_nonneg (mag_nonneg M x) hpos.le)
  exact ⟨happrox.finite, htwo.trans (by linarith)⟩

/-- A sum of words of bounded absolute values. -/
theorem add_bound (hflush : M.flush = true) (hx : IsFinite x) (hy : IsFinite y) (hle : mag M x + mag M y ≤ q)
    (hq : q ≤ 2 ^ 127) : IsFinite (M.add x y) ∧ mag M (M.add x y) ≤ 2 * q := by
  have hfin := finite_add (M := M) hx hy (hle.trans hq)
  have habs : |real M x + real M y| ≤ mag M x + mag M y := by
    rw [← abs_real, ← abs_real]
    exact abs_add_le _ _
  have htwo := Approx.le_two (add_approx hflush hx hy hfin) (abs_nonneg _)
  exact ⟨hfin, by linarith⟩

theorem sub_bound (hflush : M.flush = true) (hx : IsFinite x) (hy : IsFinite y) (hle : mag M x + mag M y ≤ q)
    (hq : q ≤ 2 ^ 127) : IsFinite (M.sub x y) ∧ mag M (M.sub x y) ≤ 2 * q :=
  add_bound hflush hx (finite_fneg hy) (by rwa [mag_fneg]) hq

/-- The quotient by a constant of the source. -/
theorem div_constant (hflush : M.flush = true) {c : BitVec 32} (hc : IsFinite c) (htwo : 2 ≤ mag M c)
    (hx : IsFinite x) : Approx M (M.div x c) (mag M x / mag M c) := by
  refine div_approx hflush hx hc (by linarith) ?_
  have hlt := mag_lt (M := M) hx
  rw [div_le_iff₀ (by linarith)]
  linarith

theorem Approx.dividend_le {c : BitVec 32} (h : Approx M (M.div x c) (mag M x / mag M c)) (hc : mag M c ≠ 0)
    (hne : mag M (M.div x c) ≠ 0) : mag M x ≤ 2 * mag M c * mag M (M.div x c) := by
  have hpos : 0 < mag M c := lt_of_le_of_ne (mag_nonneg M c) (Ne.symm hc)
  have hle := h.lower hne
  have hslack : slack = 1001 / 1000 := rfl
  rw [hslack, div_le_iff₀ hpos] at hle
  have hprod : 0 ≤ mag M (M.div x c) * mag M c := mul_nonneg (mag_nonneg M _) hpos.le
  linarith

end Results

section Inverses

variable {i d v : BitVec 32} {b : ℚ}

/-- A word `i` by which a word is multiplied in order to divide it by `d`. -/
structure Inverse (M : Machine) (i d : BitVec 32) : Prop where
  finite : IsFinite i
  product : mag M i * mag M d ≤ 2
  zero : mag M d = 0 → mag M i = 0

theorem inverse_one_div (hflush : M.flush = true) (hd : IsFinite d) (hne : mag M d ≠ 0) :
    Approx M (M.div one d) (1 / mag M d) := by
  have hle := le_mag hflush hne
  have hpos : 0 < mag M d := lt_of_lt_of_le (by positivity) hle
  have hone : mag M one / mag M d = 1 / mag M d := by rw [mag_one, div_one]
  rw [← hone]
  refine div_approx hflush finite_one hd hne ?_
  rw [hone, div_le_iff₀ hpos]
  rw [div_le_iff₀ (by positivity)] at hle
  linarith

theorem inverse_of_ne (hflush : M.flush = true) (hd : IsFinite d) (hne : mag M d ≠ 0) :
    Inverse M (M.div one d) d := by
  have hpos : 0 < mag M d := lt_of_le_of_ne (mag_nonneg M d) (Ne.symm hne)
  have happrox := inverse_one_div hflush hd hne
  refine ⟨happrox.finite, ?_, fun h => absurd h hne⟩
  have hle := Approx.le_two happrox (by positivity)
  rwa [mul_one_div, le_div_iff₀ hpos] at hle

theorem inverse_zero (d : BitVec 32) : Inverse M zero d :=
  ⟨finite_zero, by rw [mag_zero, zero_mul]; norm_num, fun _ => mag_zero M⟩

theorem inverse_reciprocal (hflush : M.flush = true) (hd : IsFinite d) : Inverse M (reciprocal M d) d := by
  unfold reciprocal
  split_ifs with hz
  · exact inverse_zero d
  · exact inverse_of_ne hflush hd (fun h => hz ((eq_zero_iff hd).mpr h))

theorem inverse_positiveReciprocal (hflush : M.flush = true) (hd : IsFinite d) :
    Inverse M (positiveReciprocal M d) d := by
  unfold positiveReciprocal
  split_ifs with hlt
  · have hpos : 0 < real M d := (lt_zero_iff hd).mp hlt
    exact inverse_of_ne hflush hd (fun h => hpos.ne' (real_eq_zero_iff.mpr h))
  · exact inverse_zero d

/-- The product with an inverse of a word that is not small against the factor. -/
theorem Inverse.mul_bound (h : Inverse M i d) (hflush : M.flush = true) (hv : IsFinite v)
    (hle : mag M d ≠ 0 → mag M v ≤ b * mag M d) (hnonneg : 0 ≤ b) (hb : b ≤ 2 ^ 100) :
    IsFinite (M.mul v i) ∧ mag M (M.mul v i) ≤ 4 * b := by
  have hprod : mag M v * mag M i ≤ 2 * b := by
    rcases eq_or_ne (mag M d) 0 with hz | hne
    · rw [h.zero hz, mul_zero]
      linarith
    · calc mag M v * mag M i ≤ b * mag M d * mag M i := mul_le_mul_of_nonneg_right (hle hne) (mag_nonneg M i)
        _ = b * (mag M i * mag M d) := by ring
        _ ≤ b * 2 := mul_le_mul_of_nonneg_left h.product hnonneg
        _ = 2 * b := by ring
  have hbound := ConversionBounds.mul_bound hflush hv h.finite hprod (by linarith)
  exact ⟨hbound.1, by linarith [hbound.2]⟩

end Inverses

end Qtx.ConversionBounds
