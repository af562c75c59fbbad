import Qtx.AwayRounding
import Qtx.BinadeRounding
import Qtx.ConversionBounds

/-!
# Adding a half and truncating

`lroundHalfAwayFast` adds a half in binary32 and truncates the sum. The sum is rounded. It
reaches the next integer too early for the number just below a half, and for the odd numbers
between 2^23 and 2^24, where a half is half a step and the tie goes to the even neighbour.
-/
namespace Qtx.LroundHalfAway

open Qtx.AwayRounding Qtx.BinaryFormats Qtx.ConversionBounds Qtx.FloatMachine Qtx.FloatScans Qtx.FloatWords
  Qtx.QuantizerHelpers Qtx.ScaledEncoders

/-- The number that a finite word stands for. -/
def number (v : BitVec 32) : ℚ := if v.msb then -(ticks v / 2 ^ 149) else ticks v / 2 ^ 149

/-- The number just below a half, and the odd numbers between 2^23 and 2^24. -/
def Misrounded (v : BitVec 32) : Prop :=
  magnitude v = 0x3EFFFFFF ∨ 0x4B000000 ≤ magnitude v ∧ magnitude v < 0x4B800000 ∧ magnitude v % 2 = 1

instance (v : BitVec 32) : Decidable (Misrounded v) := inferInstanceAs (Decidable (_ ∨ _ ∧ _ ∧ _))

/-- The integer part of `n` ticks and a half, rounded to a word. -/
def roundedHalf (n : ℕ) : ℕ := units 23 (roundUnits 23 (n + 2 ^ 148) 1) / 2 ^ 149

section Magnitudes

variable {N n : ℕ}

/-- Between two words with the same integer part the sum has it as well. -/
theorem roundedHalf_of_bracket (lo hi : ℕ) (hlo : units 23 lo ≤ n + 2 ^ 148) (hhi : n + 2 ^ 148 ≤ units 23 hi)
    (h : units 23 hi / 2 ^ 149 ≤ units 23 lo / 2 ^ 149) : roundedHalf n = (n + 2 ^ 148) / 2 ^ 149 := by
  have hge : lo ≤ roundUnits 23 (n + 2 ^ 148) 1 := le_roundUnits Nat.one_pos (by rwa [Nat.mul_one])
  have hle : roundUnits 23 (n + 2 ^ 148) 1 ≤ hi := roundUnits_le Nat.one_pos (by rwa [Nat.mul_one])
  have h1 := Nat.div_le_div_right (c := 2 ^ 149) (units_le_units (m := 23) |>.mpr hge)
  have h2 := Nat.div_le_div_right (c := 2 ^ 149) (units_le_units (m := 23) |>.mpr hle)
  have h3 := Nat.div_le_div_right (c := 2 ^ 149) hlo
  have h4 := Nat.div_le_div_right (c := 2 ^ 149) hhi
  rw [roundedHalf]
  omega

/-- Below a half, the last number excepted, the sum stays below one. -/
theorem roundedHalf_small (h : N ≤ 0x3EFFFFFE) : roundedHalf (units 23 N) = (units 23 N + 2 ^ 148) / 2 ^ 149 := by
  have hlast : units 23 0x3EFFFFFE + 2 ^ 148 ≤ units 23 0x3F7FFFFF := by decide
  have hle : units 23 N ≤ units 23 0x3EFFFFFE := units_le_units.mpr h
  apply roundedHalf_of_bracket 0 0x3F7FFFFF
  · rw [units_zero]
    exact Nat.zero_le _
  · omega
  · decide

/-- A significand that passes a power of two by no more than a half keeps the integer part. -/
theorem carry_div {p : ℕ} (hp : p ≤ 22) :
    (2 ^ 24 + 2 ^ (p + 1)) / 2 ^ (p + 2) = 2 ^ 24 / 2 ^ (p + 2) := by
  have hpos : 0 < 2 ^ (p + 2) := Nat.two_pow_pos _
  have hmultiple : 2 ^ 24 = 2 ^ (p + 2) * 2 ^ (22 - p) := by
    have hexp : 24 = p + 2 + (22 - p) := by omega
    rw [← pow_add, ← hexp]
  have hhalf : 2 ^ (p + 1) < 2 ^ (p + 2) := Nat.pow_lt_pow_right Nat.one_lt_two (Nat.lt_succ_self _)
  rw [hmultiple, Nat.mul_add_div hpos, Nat.mul_div_cancel_left _ hpos, Nat.div_eq_of_lt hhalf, Nat.add_zero]

/-- A significand `a` of `2 ^ e` ticks, where a half is `2 ^ q` times as much. -/
theorem roundedHalf_significand {e q a : ℕ} (hq : e + q = 148) (hq23 : q ≤ 23) (hnormal : 2 ^ 23 ≤ a)
    (ha : a < 2 ^ 24) :
    roundedHalf (a * 2 ^ e) = (a * 2 ^ e + 2 ^ 148) / 2 ^ 149 := by
  have hsum : a * 2 ^ e + 2 ^ 148 = (a + 2 ^ q) * 2 ^ e := by
    rw [← hq, Nat.pow_add, Nat.add_mul, Nat.mul_comm (2 ^ e)]
  rcases Nat.lt_or_ge (2 ^ 24) (a + 2 ^ q) with hcarry | hle
  · -- the sum passes a power of two and may lose its last bit
    obtain ⟨p, rfl⟩ : ∃ p, q = p + 1 := by
      refine Nat.exists_eq_succ_of_ne_zero (fun hq0 => ?_)
      rw [hq0, pow_zero] at hcarry
      omega
    have hp : p ≤ 22 := Nat.le_of_succ_le_succ hq23
    have hp22 : 2 ^ p ≤ 2 ^ 22 := Nat.pow_le_pow_right Nat.two_pos hp
    have hlo : units 23 (e * 2 ^ 23 + 2 ^ 24) = 2 ^ 24 * 2 ^ e := units_add le_rfl (.inr (by decide))
    have hhi : units 23 ((e + 1) * 2 ^ 23 + (2 ^ 23 + 2 ^ p)) = (2 ^ 24 + 2 ^ (p + 1)) * 2 ^ e := by
      rw [units_add (by omega) (.inr (Nat.le_add_right _ _)), pow_succ, pow_succ]
      ring
    have hexp : 149 = p + 2 + e := by omega
    have hone : 2 ^ 149 = 2 ^ (p + 2) * 2 ^ e := by rw [hexp, pow_add]
    apply roundedHalf_of_bracket (e * 2 ^ 23 + 2 ^ 24) ((e + 1) * 2 ^ 23 + (2 ^ 23 + 2 ^ p))
    · rw [hlo, hsum]
      exact Nat.mul_le_mul_right _ hcarry.le
    · rw [hhi, hsum]
      exact Nat.mul_le_mul_right _ (Nat.add_le_add_right ha.le _)
    · rw [hlo, hhi, hone, Nat.mul_div_mul_right _ _ (Nat.two_pow_pos e),
        Nat.mul_div_mul_right _ _ (Nat.two_pow_pos e)]
      exact (carry_div hp).le
  · -- the sum is a word
    have hexact : units 23 (e * 2 ^ 23 + (a + 2 ^ q)) = a * 2 ^ e + 2 ^ 148 := by
      rw [hsum]
      exact units_add hle (.inr (hnormal.trans (Nat.le_add_right _ _)))
    exact roundedHalf_of_bracket _ _ hexact.le hexact.ge le_rfl

/-- From a half to 2^23 a sum that is rounded keeps its integer part. -/
theorem roundedHalf_medium (hge : 0x3F000000 ≤ N) (hlt : N < 0x4B000000) :
    roundedHalf (units 23 N) = (units 23 N + 2 ^ 148) / 2 ^ 149 := by
  rw [units_normal (by omega)]
  apply roundedHalf_significand (q := 148 - (N / 2 ^ 23 - 1))
  all_goals omega

theorem roundUnits_eq {k : ℕ} (h : IsNearestEven 23 ((n : ℕ) : ℚ) k) : roundUnits 23 n 1 = k := by
  have hround : IsNearestEven 23 ((n : ℚ) / (1 : ℕ)) (roundUnits 23 n 1) :=
    isNearestEven_roundUnits (by decide) n Nat.one_pos
  rw [Nat.cast_one, div_one] at hround
  exact hround.unique h

/-- From 2^24 on a half is less than half a step. -/
theorem roundUnits_large (hge : 0x4B800000 ≤ N) : roundUnits 23 (units 23 N + 2 ^ 148) 1 = N := by
  have hstep : 2 ^ 150 ≤ 2 ^ (N / 2 ^ 23 - 1) := Nat.pow_le_pow_right Nat.two_pos (by omega)
  have hstep' : (2 ^ 150 : ℚ) ≤ ((2 ^ (N / 2 ^ 23 - 1) : ℕ) : ℚ) := by exact_mod_cast hstep
  apply roundUnits_eq
  rw [Nat.cast_add]
  have hhalf : ((2 ^ 148 : ℕ) : ℚ) = 2 ^ 148 := by norm_num
  apply IsNearestEven.of_lower
  · linarith [Nat.cast_nonneg (α := ℚ) (2 ^ 148)]
  · rw [units_succ, Nat.cast_add, hhalf]
    linarith
  · left
    rw [units_succ, Nat.cast_add, hhalf]
    linarith

/-- Between 2^23 and 2^24 a half is half a step, and the even neighbour is taken. -/
theorem roundUnits_tie (hge : 0x4B000000 ≤ N) (hlt : N < 0x4B800000) :
    roundUnits 23 (units 23 N + 2 ^ 148) 1 = if N % 2 = 1 then N + 1 else N := by
  have hexp : N / 2 ^ 23 - 1 = 149 := by omega
  have hhalf : ((2 ^ 148 : ℕ) : ℚ) = 2 ^ 148 := by norm_num
  have hnext : ((units 23 (N + 1) : ℕ) : ℚ) = units 23 N + 2 ^ 149 := by
    rw [units_succ, hexp]
    push_cast
    rfl
  apply roundUnits_eq
  rw [Nat.cast_add, hhalf]
  split_ifs with hodd
  · apply IsNearestEven.of_upper
    · linarith
    · rw [hnext]
      linarith
    · refine .inr ⟨?_, Nat.even_iff.mpr (by omega)⟩
      rw [hnext]
      ring
  · apply IsNearestEven.of_lower
    · linarith
    · rw [hnext]
      linarith
    · refine .inr ⟨?_, Nat.even_iff.mpr (by omega)⟩
      rw [hnext]
      ring

/-- From 2^23 on every word stands for an integer. -/
theorem integer_part (hge : 0x4B000000 ≤ N) : (units 23 N + 2 ^ 148) / 2 ^ 149 = units 23 N / 2 ^ 149 := by
  have hexp : N / 2 ^ 23 - 1 = (N / 2 ^ 23 - 150) + 149 := by omega
  rw [units_normal (by omega), hexp, pow_add, ← Nat.mul_assoc, Nat.mul_comm _ (2 ^ 149),
    Nat.mul_add_div (Nat.two_pow_pos _), Nat.mul_div_cancel_left _ (Nat.two_pow_pos _),
    Nat.div_eq_of_lt (Nat.pow_lt_pow_right Nat.one_lt_two (by decide)), Nat.add_zero]

/-- The integer part is that of the exact sum, the two kinds of exceptions apart. -/
theorem roundedHalf_eq_iff (N : ℕ) : roundedHalf (units 23 N) = (units 23 N + 2 ^ 148) / 2 ^ 149 ↔
    ¬ (N = 0x3EFFFFFF ∨ 0x4B000000 ≤ N ∧ N < 0x4B800000 ∧ N % 2 = 1) := by
  rcases Nat.lt_or_ge N 0x4B000000 with hlt | hge
  · rcases Nat.lt_trichotomy N 0x3EFFFFFF with hsmall | rfl | hmedium
    · exact iff_of_true (roundedHalf_small (Nat.le_of_lt_succ hsmall)) (by omega)
    · exact iff_of_false (by decide) (not_not.mpr (.inl rfl))
    · exact iff_of_true (roundedHalf_medium hmedium hlt) (by omega)
  · rw [integer_part hge, roundedHalf]
    rcases Nat.lt_or_ge N 0x4B800000 with hlt | hlarge
    · rw [roundUnits_tie hge hlt]
      split_ifs with hodd
      · -- the next word stands for the next integer
        have hexp : N / 2 ^ 23 - 1 = 149 := by omega
        rw [units_succ, hexp, Nat.add_div_right _ (Nat.two_pow_pos _)]
        exact iff_of_false (Nat.succ_ne_self _) (by omega)
      · exact iff_of_true rfl (by omega)
    · rw [roundUnits_large hlarge]
      exact iff_of_true rfl (by omega)

end Magnitudes

section Words

variable {M : Machine} {v : BitVec 32} {n : ℕ}

/-- A number with a given sign. -/
def withSign (neg : Bool) (n : ℕ) : ℤ := if neg then -(n : ℤ) else n

theorem withSign_injective (neg : Bool) : Function.Injective (withSign neg) := by
  intro a b h
  cases neg with
  | true => exact Int.ofNat.inj (Int.neg_inj.mp h)
  | false => exact Int.ofNat.inj h

theorem withSign_tdiv (neg : Bool) (n d : ℕ) : (withSign neg n).tdiv d = withSign neg (n / d) := by
  cases neg with
  | true => exact Int.neg_tdiv n d
  | false => rfl

/-- Truncating a rounded sum. -/
theorem toInt_round (neg : Bool) (hge : 0x3F000000 ≤ roundUnits 23 n 1) (hle : roundUnits 23 n 1 ≤ 0x4EFFFFFF) :
    M.toInt (M.round neg n 1) = withSign neg (units 23 (roundUnits 23 n 1) / 2 ^ 149) := by
  have hinf : infinity = 0x7F800000 := rfl
  have hmin : min (roundUnits 23 n 1) infinity = roundUnits 23 n 1 := min_eq_left (by omega)
  have hkeep : ¬ (M.flush && decide (roundUnits 23 n 1 < 2 ^ 23)) = true := by
    rw [Bool.and_eq_true, decide_eq_true_eq]
    omega
  have hword : M.round neg n 1 = signed neg (roundUnits 23 n 1) := by
    simp only [Machine.round, hmin]
    rw [if_neg hkeep]
  have hmag : magnitude (signed neg (roundUnits 23 n 1)) = roundUnits 23 n 1 := magnitude_signed neg (by omega)
  have hvalue : M.value (signed neg (roundUnits 23 n 1)) = withSign neg (units 23 (roundUnits 23 n 1)) := by
    rw [Machine.value, msb_signed neg (by omega), Machine.size_of_normal (by omega), ticks, hmag]
    rfl
  have hticks : units 23 (roundUnits 23 n 1) ≤ units 23 0x4EFFFFFF := units_le_units.mpr hle
  have hdiv : units 23 (roundUnits 23 n 1) / 2 ^ 149 ≤ 2 ^ 31 - 128 :=
    (Nat.div_le_div_right hticks).trans (by decide)
  have hpow : (2 ^ 149 : ℤ) = ((2 ^ 149 : ℕ) : ℤ) := by norm_num
  rw [hword, Machine.toInt]
  simp only [hvalue, hpow, withSign_tdiv]
  apply if_pos
  refine ⟨by omega, ?_⟩
  rw [withSign]
  split_ifs
  all_goals omega

/-- The half gets the sign of the argument. -/
theorem add_half (hfin : IsFinite v) :
    M.add v (if v.msb then fneg half else half) = M.round v.msb (M.size v + 2 ^ 148) 1 := by
  have hsize : M.size half = 2 ^ 148 := (Machine.size_of_normal (by decide)).trans (by decide)
  have hhalf : M.value half = ((2 ^ 148 : ℕ) : ℤ) := by
    rw [Machine.value, hsize]
    exact if_neg (by decide)
  have hpos : 0 < 2 ^ 148 := Nat.two_pow_pos 148
  generalize 2 ^ 148 = h at hhalf hpos ⊢
  rcases hmsb : v.msb with _ | _
  · have hvalue : M.value v = M.size v := by rw [Machine.value, hmsb, if_neg Bool.false_ne_true]
    rw [if_neg Bool.false_ne_true, Machine.add_of_finite hfin finite_half, hhalf, hvalue, if_neg (by omega),
      decide_eq_false (by omega)]
    congr 1
  · have hvalue : M.value v = -M.size v := by rw [Machine.value, hmsb, if_pos rfl]
    rw [if_pos rfl, Machine.add_of_finite hfin (finite_fneg finite_half), Machine.value_fneg, hhalf, hvalue,
      if_neg (by omega), decide_eq_true (by omega)]
    congr 1
    omega

/-- Flushing a subnormal argument makes no difference. -/
theorem roundedHalf_size (M : Machine) (v : BitVec 32) : roundedHalf (M.size v) = roundedHalf (ticks v) := by
  rw [Machine.size]
  split_ifs with hflush
  · rw [Bool.and_eq_true, decide_eq_true_eq] at hflush
    have hlast : units 23 0x3EFFFFFE + 2 ^ 148 < 2 ^ 149 := by decide
    have hticks : ticks v ≤ units 23 0x3EFFFFFE := units_le_units.mpr (by omega)
    have hzero : roundedHalf 0 = 0 := by decide
    rw [hzero, ticks, roundedHalf_small (by omega), ← ticks, Nat.div_eq_of_lt]
    exact Nat.lt_of_le_of_lt (Nat.add_le_add_right hticks _) hlast
  · rfl

/-- Below 2^31 - 128 the conversion is that of the magnitude with the sign of the argument. -/
theorem lroundHalfAwayFast_eq (h : magnitude v < 0x4EFFFFFF) :
    lroundHalfAwayFast M v = withSign v.msb (roundedHalf (ticks v)) := by
  have hfin : IsFinite v := Nat.lt_trans h (by decide)
  have hlast : units 23 0x4EFFFFFE + 2 ^ 148 ≤ units 23 0x4EFFFFFF := by decide
  have hhalf : units 23 0x3F000000 = 2 ^ 148 := by decide
  have hsize : M.size v ≤ units 23 0x4EFFFFFE := Machine.size_le (Nat.le_of_lt_succ h)
  have hge : 0x3F000000 ≤ roundUnits 23 (M.size v + 2 ^ 148) 1 := by
    apply le_roundUnits Nat.one_pos
    rw [Nat.mul_one, hhalf]
    exact Nat.le_add_left _ _
  have hle : roundUnits 23 (M.size v + 2 ^ 148) 1 ≤ 0x4EFFFFFF := by
    apply roundUnits_le Nat.one_pos
    rw [Nat.mul_one]
    exact (Nat.add_le_add_right hsize _).trans hlast
  rw [lroundHalfAwayFast, add_half hfin, toInt_round _ hge hle, ← roundedHalf, roundedHalf_size]

/-- The nearest integer of a word. -/
theorem isNearestAway_number (v : BitVec 32) :
    IsNearestAway (number v) (withSign v.msb ((ticks v + 2 ^ 148) / 2 ^ 149)) := by
  have hdouble : (2 * ticks v + 2 ^ 149) / (2 * 2 ^ 149) = (ticks v + 2 ^ 148) / 2 ^ 149 := by
    have hsum : 2 * ticks v + 2 ^ 149 = 2 * (ticks v + 2 ^ 148) := by ring
    rw [hsum, Nat.mul_div_mul_left _ _ Nat.two_pos]
  have hnearest : IsNearestAway ((ticks v : ℚ) / 2 ^ 149) (((ticks v + 2 ^ 148) / 2 ^ 149 : ℕ) : ℤ) := by
    have hdiv := isNearestAway_div (α := ℚ) (ticks v) (Nat.two_pow_pos 149)
    rw [hdouble] at hdiv
    exact_mod_cast hdiv
  rw [number, withSign]
  split_ifs
  · exact hnearest.neg
  · exact hnearest

theorem magnitude_lt_of_number (h : |number v| < 2 ^ 31 - 128) : magnitude v < 0x4EFFFFFF := by
  have habs : |number v| = ticks v / 2 ^ 149 := by
    rw [number]
    split_ifs
    · rw [abs_neg, abs_of_nonneg (by positivity)]
    · rw [abs_of_nonneg (by positivity)]
  have hlast : units 23 0x4EFFFFFF = (2 ^ 31 - 128) * 2 ^ 149 := by decide
  rw [habs, div_lt_iff₀ (by positivity)] at h
  rw [← units_lt_units (m := 23), hlast]
  have hcast : ((2 : ℚ) ^ 31 - 128) * 2 ^ 149 = (((2 ^ 31 - 128) * 2 ^ 149 : ℕ) : ℚ) := by norm_num
  rw [hcast] at h
  exact Nat.cast_lt.mp h

/-- For every machine and every number below 2^31 - 128 in absolute value: adding a half and truncating
gives the nearest integer, halves away from zero, if and only if the number is not one of the exceptions. -/
theorem isNearestAway_iff (M : Machine) (v : BitVec 32) (h : |number v| < 2 ^ 31 - 128) :
    IsNearestAway (number v) (lroundHalfAwayFast M v) ↔ ¬ Misrounded v := by
  rw [lroundHalfAwayFast_eq (magnitude_lt_of_number h), Misrounded, ← roundedHalf_eq_iff, ← ticks]
  constructor
  · intro hn
    exact withSign_injective _ (hn.unique (isNearestAway_number v))
  · intro heq
    rw [heq]
    exact isNearestAway_number v

end Words

/-- Minus two and a half. -/
theorem isNearestAway_tie : IsNearestAway (number 0xC0200000#32) (-3) := by
  have hbound : |number 0xC0200000#32| < 2 ^ 31 - 128 := by decide +kernel
  have hresult : lroundHalfAwayFast plainMachine 0xC0200000#32 = -3 := by decide
  exact hresult ▸ (isNearestAway_iff plainMachine 0xC0200000#32 hbound).mpr (by decide)

/-- Just below a half the result is one, and 8388609 becomes 8388610. -/
theorem lroundHalfAwayFast_fails :
    (number 0x3EFFFFFF#32 = 1 / 2 - 1 / 2 ^ 25 ∧ lroundHalfAwayFast plainMachine 0x3EFFFFFF#32 = 1 ∧
      ¬ IsNearestAway (number 0x3EFFFFFF#32) 1) ∧
    (number 0x4B000001#32 = 8388609 ∧ lroundHalfAwayFast plainMachine 0x4B000001#32 = 8388610 ∧
      ¬ IsNearestAway (number 0x4B000001#32) 8388610) := by
  have hsmall : number 0x3EFFFFFF#32 = 1 / 2 - 1 / 2 ^ 25 := by decide +kernel
  have hlarge : number 0x4B000001#32 = 8388609 := by decide +kernel
  refine ⟨⟨hsmall, by decide, fun h => ?_⟩, ⟨hlarge, by decide, fun h => ?_⟩⟩
  · have hzero := h.nearest 0
    rw [hsmall] at hzero
    norm_num at hzero
  · have hself := h.nearest 8388609
    rw [hlarge] at hself
    norm_num at hself

end Qtx.LroundHalfAway
