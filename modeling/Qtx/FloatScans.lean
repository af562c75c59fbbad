import Mathlib.Data.Nat.SuccPred
import Qtx.FloatBounds
import Qtx.QuantizerHelpers

/-!
# Scans of the block encoders

A comparison of finite words compares their values. The scans over a block start with a
finite word and keep one of the words they see, so that their results are finite; the
least and the largest word bound all others.
-/
namespace Qtx.FloatScans

open Qtx.BinaryFormats Qtx.FloatWords Qtx.FloatMachine Qtx.FpeGuard Qtx.PackedDigits Qtx.QuantizerHelpers

/-! Comparisons. -/

/-- The value of a rank. -/
def unitsInt (z : ℤ) : ℤ := z.sign * units 23 z.natAbs

theorem unitsInt_natCast (n : ℕ) : unitsInt n = units 23 n := by
  rcases Nat.eq_zero_or_pos n with rfl | hpos
  · rfl
  · rw [unitsInt, Int.sign_natCast_of_ne_zero (Nat.ne_of_gt hpos), Int.natAbs_natCast, one_mul]

theorem unitsInt_neg (z : ℤ) : unitsInt (-z) = -unitsInt z := by
  rw [unitsInt, unitsInt, Int.sign_neg, Int.natAbs_neg, neg_mul]

theorem unitsInt_lt_succ (z : ℤ) : unitsInt z < unitsInt (z + 1) := by
  obtain ⟨n, rfl | rfl⟩ := z.eq_nat_or_neg
  · have hlt : units 23 n < units 23 (n + 1) := units_lt_units.mpr (Nat.lt_succ_self n)
    rw [← Nat.cast_succ, unitsInt_natCast, unitsInt_natCast]
    exact_mod_cast hlt
  · cases n with
    | zero => decide
    | succ n =>
      have hlt : units 23 n < units 23 (n + 1) := units_lt_units.mpr (Nat.lt_succ_self n)
      have hnext : -((n + 1 : ℕ) : ℤ) + 1 = -(n : ℤ) := by push_cast; ring
      rw [hnext, unitsInt_neg, unitsInt_neg, unitsInt_natCast, unitsInt_natCast, neg_lt_neg_iff]
      exact_mod_cast hlt

theorem unitsInt_lt_unitsInt {y z : ℤ} : unitsInt y < unitsInt z ↔ y < z :=
  (strictMono_int_of_lt_succ unitsInt_lt_succ).lt_iff_lt

theorem unitsInt_inj {y z : ℤ} : unitsInt y = unitsInt z ↔ y = z :=
  (strictMono_int_of_lt_succ unitsInt_lt_succ).injective.eq_iff

/-- The exact value of a finite word, in ticks. -/
def exact (x : BitVec 32) : ℤ := if x.msb then -(ticks x : ℤ) else ticks x

theorem natAbs_exact (x : BitVec 32) : (exact x).natAbs = ticks x := by
  rw [exact]
  split_ifs <;> simp

variable {M : Machine} {x y : BitVec 32}

theorem natAbs_value (M : Machine) (x : BitVec 32) : (M.value x).natAbs = M.size x := by
  rw [Machine.value]
  split_ifs <;> simp

theorem value_eq_exact (h : ¬ (M.flush && decide (magnitude x < 2 ^ 23)) = true) : M.value x = exact x := by
  rw [Machine.value, Machine.size, if_neg h, exact]

theorem value_eq_zero (h : (M.flush && decide (magnitude x < 2 ^ 23)) = true) : M.value x = 0 := by
  rw [Machine.value, Machine.size, if_pos h, Nat.cast_zero, neg_zero, ite_self]

theorem exact_eq (x : BitVec 32) : exact x = unitsInt (rank x) := by
  rw [exact, rank]
  split_ifs
  · rw [unitsInt_neg, unitsInt_natCast, ticks]
  · rw [unitsInt_natCast, ticks]

theorem value_eq (M : Machine) (x : BitVec 32) : M.value x = unitsInt (M.level x) := by
  by_cases h : (M.flush && decide (magnitude x < 2 ^ 23)) = true
  · rw [value_eq_zero h, Machine.level, if_pos h]
    rfl
  · rw [value_eq_exact h, Machine.level, if_neg h, exact_eq]

theorem lt_iff (hx : IsFinite x) (hy : IsFinite y) : M.lt x y = true ↔ M.value x < M.value y := by
  rw [value_eq, value_eq, unitsInt_lt_unitsInt, Machine.lt]
  simp [hx.not_nan, hy.not_nan]

theorem eq_iff (hx : IsFinite x) (hy : IsFinite y) : M.eq x y = true ↔ M.value x = M.value y := by
  rw [value_eq, value_eq, unitsInt_inj, Machine.eq]
  simp [hx.not_nan, hy.not_nan]

theorem le_iff (hx : IsFinite x) (hy : IsFinite y) : M.le x y = true ↔ M.value x ≤ M.value y := by
  rw [Machine.le, Bool.or_eq_true, lt_iff hx hy, eq_iff hx hy, le_iff_lt_or_eq]

/-- Whether a difference overflows does not depend on subnormal words that count as zero. -/
theorem natAbs_value_sub_lt_iff (hx : IsFinite x) (hy : IsFinite y) :
    (M.value x - M.value y).natAbs < overflow ↔ (exact x - exact y).natAbs < overflow := by
  have hlargest : ∀ {v : BitVec 32}, IsFinite v → ticks v ≤ 33554430 * 2 ^ 252 := by
    intro v hv
    rw [← units_maxFloat]
    exact units_le_units.mpr (Nat.le_pred_of_lt hv)
  have hsmall : ∀ {v : BitVec 32}, (M.flush && decide (magnitude v < 2 ^ 23)) = true → ticks v < 2 ^ 252 := by
    intro v hv
    rw [Bool.and_eq_true, decide_eq_true_eq] at hv
    have hle : units 23 (magnitude v) ≤ units 23 (2 ^ 23) := units_le_units.mpr hv.2.le
    exact lt_of_le_of_lt hle (by decide)
  have hx' := hlargest hx
  have hy' := hlargest hy
  have habs := natAbs_exact x
  have habs' := natAbs_exact y
  have hsub := Int.natAbs_sub_le (exact x) (exact y)
  have hover : overflow = 33554431 * 2 ^ 252 := rfl
  by_cases hfx : (M.flush && decide (magnitude x < 2 ^ 23)) = true
  · have hlow := hsmall hfx
    refine iff_of_true ?_ (by omega)
    rw [value_eq_zero hfx, zero_sub, Int.natAbs_neg, natAbs_value]
    have hle := M.size_le_ticks y
    omega
  · by_cases hfy : (M.flush && decide (magnitude y < 2 ^ 23)) = true
    · have hlow := hsmall hfy
      refine iff_of_true ?_ (by omega)
      rw [value_eq_zero hfy, sub_zero, natAbs_value]
      have hle := M.size_le_ticks x
      omega
    · rw [value_eq_exact hfx, value_eq_exact hfy]

/-! Finite words. -/

theorem finite_sanitiseFinite (v : BitVec 32) : IsFinite (sanitiseFinite v) := magnitude_sanitiseFinite v

theorem finite_zero : IsFinite zero := by
  unfold IsFinite
  decide

theorem finite_maxFloat : IsFinite maxFloat := by
  unfold IsFinite
  decide

theorem finite_fneg (hx : IsFinite x) : IsFinite (fneg x) := by rwa [IsFinite, magnitude_fneg]

theorem finite_fabs (hx : IsFinite x) : IsFinite (fabs x) := by rwa [IsFinite, magnitude_fabs]

theorem value_zero (M : Machine) : M.value zero = 0 := by
  have hmag : magnitude zero = 0 := by decide
  rw [← Int.natAbs_eq_zero, natAbs_value, ← Nat.le_zero]
  have hle := M.size_le_ticks zero
  rwa [ticks, hmag, units_zero] at hle

/-- No finite value lies above the largest finite word. -/
theorem value_le_maxFloat (hx : IsFinite x) : M.value x ≤ M.value maxFloat := by
  have hmag : magnitude maxFloat = infinity - 1 := by decide
  have hlargest : M.size maxFloat = units 23 (infinity - 1) := by
    rw [Machine.size_of_normal (by rw [hmag]; decide), ticks, hmag]
  have hmax : M.value maxFloat = M.size maxFloat := if_neg (by decide)
  have hle : M.size x ≤ units 23 (infinity - 1) := Machine.size_le (Nat.le_pred_of_lt hx)
  have habs := natAbs_value M x
  omega

theorem neg_maxFloat_le_value (hx : IsFinite x) : M.value (fneg maxFloat) ≤ M.value x := by
  have hle := value_le_maxFloat (M := M) (finite_fneg hx)
  rw [Machine.value_fneg] at hle ⊢
  omega

theorem natAbs_value_lt_overflow (hx : IsFinite x) : (M.value x).natAbs < overflow := by
  have hle : M.size x ≤ units 23 (infinity - 1) := Machine.size_le (Nat.le_pred_of_lt hx)
  rw [natAbs_value]
  exact lt_of_le_of_lt hle (by decide)

/-! Scans. -/

section Scans

variable (M : Machine) (p : ℕ → BitVec 32) (n : ℕ)

theorem subBlockSignedAbsMax_finite : IsFinite (subBlockSignedAbsMax M p n) := by
  apply loop_induction (fun _ (acc : BitVec 32 × BitVec 32) => IsFinite acc.2)
  · exact finite_zero
  · intro k _ acc hacc
    dsimp only
    split_ifs
    · exact finite_sanitiseFinite _
    · exact hacc

theorem absMax_finite : IsFinite (absMax M p n) := by
  apply loop_induction (fun _ acc => IsFinite acc)
  · exact finite_zero
  · intro k _ acc hacc
    dsimp only
    split_ifs
    · exact finite_fabs (finite_sanitiseFinite _)
    · exact hacc

/-- What zero and all words of a scan have, its result has. -/
theorem positiveMax_induction {p n} (P : BitVec 32 → Prop) (hzero : P zero) (hp : ∀ j < n, P (p j)) :
    P (positiveMax M p n) := by
  apply loop_induction (fun _ acc => P acc) hzero
  intro k hk acc hacc
  split_ifs
  · exact hp k hk
  · exact hacc

theorem extremeScale_finite {scale : ℕ → BitVec 32} (h : ∀ ib, IsFinite (scale ib)) :
    IsFinite (extremeScale M scale n).2 := by
  apply loop_induction (fun _ (acc : BitVec 32 × BitVec 32) => IsFinite acc.2)
  · exact finite_zero
  · intro k _ acc hacc
    split_ifs
    · exact h k
    · exact hacc

theorem subBlockMinMax_finite : IsFinite (subBlockMinMax M p n).1 ∧ IsFinite (subBlockMinMax M p n).2 := by
  apply loop_induction (fun _ (acc : BitVec 32 × BitVec 32) => IsFinite acc.1 ∧ IsFinite acc.2)
  · exact ⟨finite_maxFloat, finite_fneg finite_maxFloat⟩
  · rintro k - acc ⟨hlo, hhi⟩
    have hv := finite_sanitiseFinite (p k)
    constructor
    · dsimp only
      split_ifs
      · exact hv
      · exact hlo
    · dsimp only
      split_ifs
      · exact hv
      · exact hhi

/-- The values of the first `n` words. -/
def values : Set ℤ := (fun j => M.value (sanitiseFinite (p j))) '' Set.Iio n

theorem values_succ : values M p (n + 1) = insert (M.value (sanitiseFinite (p n))) (values M p n) := by
  have hbelow : Set.Iio (n + 1) = insert n (Set.Iio n) := Order.Iio_succ_eq_insert n
  rw [values, values, hbelow, Set.image_insert_eq]

variable {M}

theorem value_lesser (hx : IsFinite x) (hy : IsFinite y) :
    M.value (if M.lt x y then x else y) = min (M.value x) (M.value y) := by
  rw [apply_ite M.value, min_def_lt]
  simp only [lt_iff hx hy]

theorem value_larger (hx : IsFinite x) (hy : IsFinite y) :
    M.value (if M.lt y x then x else y) = max (M.value x) (M.value y) := by
  rw [apply_ite M.value, max_comm, max_def_lt]
  simp only [lt_iff hy hx]

theorem subBlockMinMax_extremes :
    IsLeast (insert (M.value maxFloat) (values M p n)) (M.value (subBlockMinMax M p n).1) ∧
      IsGreatest (insert (M.value (fneg maxFloat)) (values M p n)) (M.value (subBlockMinMax M p n).2) := by
  have hscan : ∀ k, (IsFinite (subBlockMinMax M p k).1 ∧ IsFinite (subBlockMinMax M p k).2) :=
    subBlockMinMax_finite M p
  induction n with
  | zero =>
    have hempty : values M p 0 = ∅ := by rw [values, ← Nat.bot_eq_zero, Set.Iio_bot, Set.image_empty]
    rw [hempty, insert_empty_eq, insert_empty_eq]
    exact ⟨isLeast_singleton, isGreatest_singleton⟩
  | succ n ih =>
    have hv := finite_sanitiseFinite (p n)
    obtain ⟨hlo, hhi⟩ := hscan n
    have hstep : subBlockMinMax M p (n + 1) =
        (if M.lt (sanitiseFinite (p n)) (subBlockMinMax M p n).1 then sanitiseFinite (p n)
          else (subBlockMinMax M p n).1,
          if M.lt (subBlockMinMax M p n).2 (sanitiseFinite (p n)) then sanitiseFinite (p n)
          else (subBlockMinMax M p n).2) := rfl
    rw [hstep, values_succ, Set.insert_comm, Set.insert_comm (M.value (fneg maxFloat))]
    dsimp only
    rw [value_lesser hv hlo, value_larger hv hhi]
    exact ⟨ih.1.insert _, ih.2.insert _⟩

/-- The first word is the least value of a block that is not empty. -/
theorem subBlockMinMax_isLeast {n} (hn : 0 < n) : IsLeast (values M p n) (M.value (subBlockMinMax M p n).1) := by
  obtain ⟨hmem, hbound⟩ := (subBlockMinMax_extremes p n).1
  have hbelow : M.value (subBlockMinMax M p n).1 ∈ lowerBounds (values M p n) :=
    fun z hz => hbound (Set.mem_insert_of_mem _ hz)
  refine ⟨?_, hbelow⟩
  rcases hmem with hstart | hmem
  · -- nothing lies below the start, so every word equals it
    have hfirst : M.value (sanitiseFinite (p 0)) ∈ values M p n := ⟨0, hn, rfl⟩
    have hle := hbelow hfirst
    have hge := value_le_maxFloat (M := M) (finite_sanitiseFinite (p 0))
    rw [hstart] at hle ⊢
    rwa [le_antisymm hle hge]
  · exact hmem

theorem subBlockMinMax_isGreatest {n} (hn : 0 < n) :
    IsGreatest (values M p n) (M.value (subBlockMinMax M p n).2) := by
  obtain ⟨hmem, hbound⟩ := (subBlockMinMax_extremes p n).2
  have habove : M.value (subBlockMinMax M p n).2 ∈ upperBounds (values M p n) :=
    fun z hz => hbound (Set.mem_insert_of_mem _ hz)
  refine ⟨?_, habove⟩
  rcases hmem with hstart | hmem
  · have hfirst : M.value (sanitiseFinite (p 0)) ∈ values M p n := ⟨0, hn, rfl⟩
    have hle := habove hfirst
    have hge := neg_maxFloat_le_value (M := M) (finite_sanitiseFinite (p 0))
    rw [hstart] at hle ⊢
    rwa [le_antisymm hge hle]
  · exact hmem

theorem value_min_le_max {n} (hn : 0 < n) :
    M.value (subBlockMinMax M p n).1 ≤ M.value (subBlockMinMax M p n).2 :=
  (subBlockMinMax_isLeast p hn).2 (subBlockMinMax_isGreatest p hn).1

end Scans

/-! Words that may be infinite. -/

/-- A finite word or positive infinity. -/
def Capped (x : BitVec 32) : Prop := IsFinite x ∨ x = signed false infinity

theorem not_finite_infinity : ¬ IsFinite (signed false infinity) := by
  unfold IsFinite
  decide

theorem natAbs_level_le (M : Machine) (x : BitVec 32) : (M.level x).natAbs ≤ magnitude x := by
  rw [Machine.level, rank]
  split_ifs <;> simp

theorem level_infinity (M : Machine) : M.level (signed false infinity) = infinity := by
  have hmag : magnitude (signed false infinity) = infinity := magnitude_signed false (Nat.le_refl _)
  have hnormal : ¬ (M.flush && decide (infinity < 2 ^ 23)) = true := by
    rw [Bool.and_eq_true, decide_eq_true_eq]
    exact fun hc => absurd hc.2 (by decide)
  rw [Machine.level, rank, hmag, if_neg hnormal, if_neg (by decide)]

/-- Every finite word lies below positive infinity, and no other word lies above it. -/
theorem lt_infinity (hx : IsFinite x) : M.lt x (signed false infinity) = true := by
  have hnan : ¬ IsNaN (signed false infinity) := by unfold IsNaN; decide
  have hlevel := natAbs_level_le M x
  have hfin : magnitude x < infinity := hx
  have hlt : M.level x < infinity := by omega
  simp [Machine.lt, hx.not_nan, hnan, level_infinity, hlt]

theorem not_infinity_lt (x : BitVec 32) : M.lt (signed false infinity) x = false := by
  by_cases hnan : IsNaN x
  · simp [Machine.lt, hnan]
  · have hlevel := natAbs_level_le M x
    rw [IsNaN] at hnan
    have hle : ¬ (infinity : ℤ) < M.level x := by omega
    simp [Machine.lt, level_infinity, hle]

theorem finite_of_eq_zero (h : M.eq x zero = true) : IsFinite x := by
  have hzero : M.level zero = 0 := by
    have hle := natAbs_level_le M zero
    have hmag : magnitude zero = 0 := by decide
    omega
  have hlevel : M.level x = 0 := by
    simp only [Machine.eq, Bool.and_eq_true, decide_eq_true_eq] at h
    exact h.2.trans hzero
  rw [Machine.level] at hlevel
  split_ifs at hlevel with hflush
  · rw [Bool.and_eq_true, decide_eq_true_eq] at hflush
    exact hflush.2.trans (by decide)
  · have hmag : magnitude x = 0 := by
      rw [rank] at hlevel
      split_ifs at hlevel <;> omega
    rw [IsFinite, hmag]
    decide

/-- The largest of some words is finite if and only if all of them are. -/
theorem positiveMax_finite_iff {p : ℕ → BitVec 32} {n : ℕ} (hp : ∀ j < n, Capped (p j)) :
    Capped (positiveMax M p n) ∧ (IsFinite (positiveMax M p n) ↔ ∀ j < n, IsFinite (p j)) := by
  induction n with
  | zero => exact ⟨.inl finite_zero, iff_of_true finite_zero (fun j hj => absurd hj (Nat.not_lt_zero j))⟩
  | succ n ih =>
    obtain ⟨hcap, hiff⟩ := ih (fun j hj => hp j (Nat.lt_succ_of_lt hj))
    have hstep : positiveMax M p (n + 1) = if M.lt (positiveMax M p n) (p n) then p n else positiveMax M p n := rfl
    rw [Nat.forall_lt_succ_right, ← hiff, hstep]
    rcases hcap with hfin | htop
    · rcases hp n (Nat.lt_succ_self n) with hfin' | htop'
      · refine ⟨.inl ?_, iff_of_true ?_ ⟨hfin, hfin'⟩⟩ <;> split_ifs <;> assumption
      · rw [htop', lt_infinity hfin, if_pos rfl]
        exact ⟨.inr rfl, iff_of_false not_finite_infinity (fun h => not_finite_infinity h.2)⟩
    · rw [htop, not_infinity_lt, if_neg Bool.false_ne_true]
      exact ⟨.inr rfl, iff_of_false not_finite_infinity (fun h => not_finite_infinity h.1)⟩

/-! Narrow blocks. -/

/-- No two of the first `n` words are so far apart that their difference overflows. -/
def Narrow (p : ℕ → BitVec 32) (n : ℕ) : Prop :=
  ∀ i < n, ∀ j < n, (exact (sanitiseFinite (p i)) - exact (sanitiseFinite (p j))).natAbs < overflow

theorem narrow_iff (M : Machine) {p : ℕ → BitVec 32} {n : ℕ} (hn : 0 < n) :
    Narrow p n ↔ IsFinite (M.sub (subBlockMinMax M p n).2 (subBlockMinMax M p n).1) := by
  obtain ⟨hlo, hhi⟩ := subBlockMinMax_finite M p n
  obtain ⟨hmin, hbelow⟩ := subBlockMinMax_isLeast (M := M) p hn
  obtain ⟨hmax, habove⟩ := subBlockMinMax_isGreatest (M := M) p hn
  rw [Machine.finite_sub_iff hhi hlo]
  constructor
  · intro h
    obtain ⟨i, hi, hmin⟩ := hmin
    obtain ⟨j, hj, hmax⟩ := hmax
    rw [← hmin, ← hmax]
    exact (natAbs_value_sub_lt_iff (finite_sanitiseFinite _) (finite_sanitiseFinite _)).mpr (h j hj i hi)
  · intro h i hi j hj
    have hmem : ∀ k < n, M.value (sanitiseFinite (p k)) ∈ values M p n := fun k hk => ⟨k, hk, rfl⟩
    have hi' := hbelow (hmem i hi)
    have hi'' := habove (hmem i hi)
    have hj' := hbelow (hmem j hj)
    have hj'' := habove (hmem j hj)
    rw [← natAbs_value_sub_lt_iff (M := M) (finite_sanitiseFinite _) (finite_sanitiseFinite _)]
    omega

end Qtx.FloatScans
