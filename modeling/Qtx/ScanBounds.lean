import Qtx.FloatErrors

/-!
# What the scans bound

The largest of some words is one of them, or zero, and bounds them all. The scans for
absolute values return a word whose absolute value bounds those of the block.
-/
namespace Qtx.ScanBounds

open Qtx.FloatWords Qtx.FloatMachine Qtx.FpeGuard Qtx.PackedDigits Qtx.QuantizerHelpers Qtx.FloatScans
  Qtx.FloatErrors

variable {M : Machine} {p scale : ℕ → BitVec 32} {n j : ℕ}

theorem real_fabs (M : Machine) (x : BitVec 32) : real M (fabs x) = mag M x := by
  rw [real, Machine.value, msb_fabs, if_neg Bool.false_ne_true, Machine.size_fabs, Int.cast_natCast, mag]

theorem positiveMax_mem (M : Machine) (p : ℕ → BitVec 32) (n : ℕ) :
    positiveMax M p n = zero ∨ ∃ j < n, positiveMax M p n = p j :=
  positiveMax_induction M (fun v => v = zero ∨ ∃ j < n, v = p j) (.inl rfl) (fun j hj => .inr ⟨j, hj, rfl⟩)

theorem finite_positiveMax (hp : ∀ j < n, IsFinite (p j)) : IsFinite (positiveMax M p n) :=
  positiveMax_induction M IsFinite finite_zero hp

theorem real_le_positiveMax (hp : ∀ j < n, IsFinite (p j)) :
    0 ≤ real M (positiveMax M p n) ∧ ∀ j < n, real M (p j) ≤ real M (positiveMax M p n) := by
  induction n with
  | zero => exact ⟨(real_zero M).ge, fun j hj => absurd hj (Nat.not_lt_zero j)⟩
  | succ n ih =>
    have hp' : ∀ j < n, IsFinite (p j) := fun j hj => hp j (Nat.lt_succ_of_lt hj)
    obtain ⟨hnonneg, hbound⟩ := ih hp'
    have hstep : positiveMax M p (n + 1) = if M.lt (positiveMax M p n) (p n) then p n else positiveMax M p n := rfl
    have hmax : real M (positiveMax M p (n + 1)) = max (real M (positiveMax M p n)) (real M (p n)) := by
      rw [hstep, real, value_larger (hp n (Nat.lt_succ_self n)) (finite_positiveMax hp'), real, real, Int.cast_max,
        max_div_div_right (by positivity), max_comm]
    rw [hmax]
    refine ⟨le_max_of_le_left hnonneg, fun j hj => ?_⟩
    rcases Nat.lt_succ_iff_lt_or_eq.mp hj with hlt | rfl
    · exact le_max_of_le_left (hbound j hlt)
    · exact le_max_right _ _

theorem mag_positiveMax (hp : ∀ j < n, IsFinite (p j)) : mag M (positiveMax M p n) = real M (positiveMax M p n) :=
  mag_of_real_nonneg (real_le_positiveMax hp).1

theorem mag_le_iff {x y : BitVec 32} : mag M x ≤ mag M y ↔ M.size x ≤ M.size y := by
  rw [mag, mag, div_le_div_iff_of_pos_right (by positivity), Nat.cast_le]

/-- The size of the largest of some words that are not negative. -/
theorem size_positiveMax (hp : ∀ j < n, IsFinite (p j) ∧ 0 ≤ real M (p j)) :
    (∀ j < n, M.size (p j) ≤ M.size (positiveMax M p n)) ∧
      (M.size (positiveMax M p n) = 0 ∨ ∃ j < n, M.size (positiveMax M p n) = M.size (p j)) := by
  have hfin : ∀ j < n, IsFinite (p j) := fun j hj => (hp j hj).1
  constructor
  · intro j hj
    rw [← mag_le_iff, mag_positiveMax hfin, mag_of_real_nonneg (hp j hj).2]
    exact (real_le_positiveMax hfin).2 j hj
  · rcases positiveMax_mem M p n with hz | ⟨j, hj, heq⟩
    · left
      rw [hz, ← natAbs_value, value_zero, Int.natAbs_zero]
    · exact .inr ⟨j, hj, congrArg M.size heq⟩

/-! Absolute values. -/

theorem absMax_eq (M : Machine) (p : ℕ → BitVec 32) (n : ℕ) :
    absMax M p n = positiveMax M (fun j => fabs (sanitiseFinite (p j))) n := rfl

theorem subBlockSignedAbsMax_eq (M : Machine) (p : ℕ → BitVec 32) (n : ℕ) :
    subBlockSignedAbsMax M p n = (extremeScale M (fun j => sanitiseFinite (p j)) n).2 := rfl

theorem extremeScale_eq (M : Machine) (scale : ℕ → BitVec 32) (n : ℕ) :
    (extremeScale M scale n).1 = positiveMax M (fun ib => fabs (scale ib)) n ∧
      mag M (extremeScale M scale n).2 = mag M (extremeScale M scale n).1 := by
  unfold extremeScale positiveMax
  induction n with
  | zero => exact ⟨rfl, rfl⟩
  | succ n ih =>
    obtain ⟨hfst, hsnd⟩ := ih
    rw [loop, loop, ← hfst]
    dsimp only
    split_ifs
    · exact ⟨rfl, (mag_fabs M _).symm⟩
    · exact ⟨rfl, hsnd⟩

/-- The word that the scan returns has the largest absolute value. -/
theorem mag_le_extremeScale (h : ∀ j < n, IsFinite (scale j)) (hj : j < n) :
    mag M (scale j) ≤ mag M (extremeScale M scale n).2 := by
  have hfin : ∀ j < n, IsFinite (fabs (scale j)) := fun j hj => finite_fabs (h j hj)
  obtain ⟨hfst, hsnd⟩ := extremeScale_eq M scale n
  rw [hsnd, hfst, mag_positiveMax hfin, ← real_fabs]
  exact (real_le_positiveMax hfin).2 j hj

theorem mag_le_subBlockSignedAbsMax (hj : j < n) :
    mag M (sanitiseFinite (p j)) ≤ mag M (subBlockSignedAbsMax M p n) := by
  have hle := mag_le_extremeScale (M := M) (fun i (_ : i < n) => finite_sanitiseFinite (p i)) hj
  rwa [← subBlockSignedAbsMax_eq] at hle

theorem mag_le_absMax (hj : j < n) : mag M (sanitiseFinite (p j)) ≤ mag M (absMax M p n) := by
  have hfin : ∀ j < n, IsFinite (fabs (sanitiseFinite (p j))) := fun j _ => finite_fabs (finite_sanitiseFinite _)
  rw [absMax_eq, mag_positiveMax hfin, ← real_fabs]
  exact (real_le_positiveMax hfin).2 j hj

/-- The largest absolute value of a part is no larger than that of the whole. -/
theorem mag_absMax_le {q : ℕ → BitVec 32} {m : ℕ}
    (hpart : ∀ j < m, mag M (sanitiseFinite (q j)) ≤ mag M (absMax M p n)) :
    mag M (absMax M q m) ≤ mag M (absMax M p n) := by
  rcases positiveMax_mem M (fun j => fabs (sanitiseFinite (q j))) m with hz | ⟨j, hj, heq⟩
  · rw [absMax_eq M q, hz, mag_zero]
    exact mag_nonneg M _
  · rw [absMax_eq M q, heq, mag_fabs]
    exact hpart j hj

end Qtx.ScanBounds
