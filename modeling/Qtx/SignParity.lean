import Qtx.FloatScans
import Qtx.IQuants

/-!
# Sign parity of the I-quants

Seven sign bits stand for eight signs whose number is even. A group with an odd number of
negative values gets the sign of its smallest value changed. A machine that flushes subnormal
words takes them for zeros, which have no sign and are the smallest.
-/
namespace Qtx.SignParity

open Qtx.BinaryFormats Qtx.FloatWords Qtx.FloatMachine Qtx.FpeGuard Qtx.PackedDigits Qtx.QuantizerHelpers
  Qtx.FloatScans Qtx.IQuants

/-- The number of set bits of a byte. -/
def setBits (m : ℕ) : ℕ := (List.range 8).countP m.testBit

variable (M : Machine) (x : ℕ → BitVec 32)

/-- The mask of the negative values of a group. A flushed word counts as zero. -/
def flushedSigns : ℕ := bitMask (fun j => decide (M.value (sanitiseFinite (x j)) < 0)) 8

/-- The code of seven bits stands for the mask of a group, which is even and the mask of the negative values up
to the sign of a smallest one. -/
structure ParityCorrected (g : SignedGroup) : Prop where
  byte : g.signs < 2 ^ 8
  decoded : ksignsIq2xs (g.signs &&& 0x7F) = BitVec.ofNat 8 g.signs
  even : Even (setBits g.signs)
  quantised : ∀ j < 8, g.xval j =
    if g.signs.testBit j then fneg (sanitiseFinite (x j)) else sanitiseFinite (x j)
  nearest : ∃ k < 8, (∀ j < 8, M.size (sanitiseFinite (x k)) ≤ M.size (sanitiseFinite (x j))) ∧
    (g.signs = flushedSigns M x ∨ g.signs = flushedSigns M x ^^^ 1 <<< k)

/-- The mask of the values below zero of a group, whatever a machine makes of them. -/
def trueSigns : ℕ := bitMask (fun j => (sanitiseFinite (x j)).msb && decide (0 < ticks (sanitiseFinite (x j)))) 8

/-- A mask is the true one up to the bit of an element of smallest magnitude. -/
def WithinOneBit (mask : ℕ) : Prop :=
  ∃ k < 8, (∀ j < 8, ticks (sanitiseFinite (x k)) ≤ ticks (sanitiseFinite (x j))) ∧
    (mask = trueSigns x ∨ mask = trueSigns x ^^^ 1 <<< k)

/-- No word of a group is flushed. -/
def Unflushed : Prop :=
  M.flush = true → ∀ j < 8, magnitude (sanitiseFinite (x j)) = 0 ∨ 2 ^ 23 ≤ magnitude (sanitiseFinite (x j))

/-! Bytes. -/

/-- The table completes a code to the mask with an even number of bits. -/
theorem ksignsIq2xs_of_even : ∀ s < 2 ^ 8, setBits s % 2 = 0 → ksignsIq2xs (s &&& 0x7F) = BitVec.ofNat 8 s := by
  decide +kernel

theorem setBits_xor : ∀ s < 2 ^ 8, ∀ k < 8, setBits (s ^^^ 1 <<< k) % 2 = (setBits s + 1) % 2 := by
  decide +kernel

/-! Signs of a group. -/

variable {M x}

theorem fneg_fneg (v : BitVec 32) : fneg (fneg v) = v := by
  rw [fneg, fneg, BitVec.xor_assoc, BitVec.xor_self, BitVec.xor_zero]

theorem not_le_zero_iff {v : BitVec 32} (hv : IsFinite v) : M.le zero v = false ↔ M.value v < 0 := by
  rw [← not_iff_not, Bool.not_eq_false, le_iff finite_zero hv, value_zero, Int.not_lt]

/-- The noted signs are those of the negative values. -/
theorem splitSigns_signs : (splitSigns M x).signs = flushedSigns M x := by
  have hsign : ∀ j, (!M.le zero (sanitiseFinite (x j))) = decide (M.value (sanitiseFinite (x j)) < 0) := by
    intro j
    rw [Bool.eq_iff_iff, Bool.not_eq_true', not_le_zero_iff (finite_sanitiseFinite _), decide_eq_true_eq]
  rw [splitSigns, flushedSigns]
  simp only [hsign]

theorem splitSigns_quantised {j : ℕ} (hj : j < 8) : (splitSigns M x).xval j =
    if (splitSigns M x).signs.testBit j then fneg (sanitiseFinite (x j)) else sanitiseFinite (x j) := by
  simp only [splitSigns, testBit_bitMask _ hj]
  cases M.le zero (sanitiseFinite (x j)) <;> simp

/-- The values of a split group are the sizes of its words. -/
theorem value_splitSigns (j : ℕ) : M.value ((splitSigns M x).xval j) = M.size (sanitiseFinite (x j)) := by
  have hfin := finite_sanitiseFinite (x j)
  have habs := natAbs_value M (sanitiseFinite (x j))
  have hneg := not_le_zero_iff (M := M) hfin
  simp only [splitSigns]
  cases hle : M.le zero (sanitiseFinite (x j))
  · have hlt := hneg.mp hle
    rw [if_neg Bool.false_ne_true, Machine.value_fneg]
    omega
  · have hge := mt hneg.mpr (by rw [hle]; decide)
    rw [if_pos rfl]
    omega

theorem finite_splitSigns (j : ℕ) : IsFinite ((splitSigns M x).xval j) := by
  simp only [splitSigns]
  split_ifs
  · exact finite_sanitiseFinite _
  · exact finite_fneg (finite_sanitiseFinite _)

theorem flips_eq : flips M x = setBits (splitSigns M x).signs := by
  have hloop : ∀ n, loop (fun j n => if M.le zero (sanitiseFinite (x j)) then n else n + 1) 0 n =
      (List.range n).countP (fun j => !M.le zero (sanitiseFinite (x j))) := by
    intro n
    induction n with
    | zero => rfl
    | succ n ih =>
      rw [loop, ih, List.range_succ, List.countP_append, List.countP_singleton]
      cases M.le zero (sanitiseFinite (x n)) <;> rfl
  rw [flips, hloop, setBits]
  apply List.countP_congr
  intro j hj
  simp only [splitSigns, testBit_bitMask _ (List.mem_range.mp hj)]

/-! The smallest value. -/

theorem smallest_spec {xval : ℕ → BitVec 32} (hfin : ∀ j, IsFinite (xval j)) :
    smallest M xval < 8 ∧ ∀ j < 8, M.value (xval (smallest M xval)) ≤ M.value (xval j) := by
  have hscan : ∀ n, let acc := loop (fun k (acc : ℕ × BitVec 32) =>
        if M.lt (xval (k + 1)) acc.2 then (k + 1, xval (k + 1)) else acc) (0, xval 0) n
      acc.2 = xval acc.1 ∧ acc.1 < n + 1 ∧ ∀ j < n + 1, M.value (xval acc.1) ≤ M.value (xval j) := by
    intro n
    induction n with
    | zero =>
      refine ⟨rfl, Nat.one_pos, fun j hj => ?_⟩
      obtain rfl := Nat.lt_one_iff.mp hj
      exact le_rfl
    | succ n ih =>
      obtain ⟨hvalue, hlt, hmin⟩ := ih
      simp only [loop]
      generalize loop _ (0, xval 0) n = acc at hvalue hlt hmin ⊢
      rw [Nat.forall_lt_succ_right]
      split_ifs with h
      · rw [hvalue, lt_iff (hfin _) (hfin _)] at h
        exact ⟨rfl, Nat.lt_succ_self _, fun j hj => h.le.trans (hmin j hj), le_rfl⟩
      · rw [hvalue, lt_iff (hfin _) (hfin _), Int.not_lt] at h
        exact ⟨hvalue, Nat.lt_succ_of_lt hlt, hmin, h⟩
  exact (hscan 7).2

/-! The corrected group. -/

theorem parityCorrected (M : Machine) (x : ℕ → BitVec 32) : ParityCorrected M x (evenSigns M x) := by
  have hbyte : (splitSigns M x).signs < 2 ^ 8 := by
    rw [splitSigns_signs]
    exact bitMask_lt _ 8
  obtain ⟨hsmall, hmin⟩ := smallest_spec (M := M) (finite_splitSigns (M := M) (x := x))
  have hsize : ∀ j < 8, M.size (sanitiseFinite (x (smallest M (splitSigns M x).xval))) ≤
    M.size (sanitiseFinite (x j)) := by
    intro j hj
    have hle := hmin j hj
    rw [value_splitSigns, value_splitSigns] at hle
    exact_mod_cast hle
  have hparity := setBits_xor _ hbyte _ hsmall
  have hflips := flips_eq (M := M) (x := x)
  generalize hk : smallest M (splitSigns M x).xval = k at *
  unfold evenSigns
  dsimp only
  rw [hflips, hk]
  split_ifs with hodd
  · have hxor : (splitSigns M x).signs ^^^ 1 <<< k < 2 ^ 8 := by
      apply Nat.xor_lt_two_pow hbyte
      rw [Nat.shiftLeft_eq, Nat.one_mul]
      exact Nat.pow_lt_pow_right (by decide) hsmall
    have heven : setBits ((splitSigns M x).signs ^^^ 1 <<< k) % 2 = 0 := by omega
    constructor
    · exact hxor
    · exact ksignsIq2xs_of_even _ hxor heven
    · exact Nat.even_iff.mpr heven
    · intro j hj
      have hbit : (1 <<< k).testBit j = decide (j = k) := by
        rw [Nat.shiftLeft_eq, Nat.one_mul, Nat.testBit_two_pow]
        simp only [eq_comm]
      dsimp only
      rw [splitSigns_quantised hj, Nat.testBit_xor, hbit]
      by_cases hjk : j = k
      · cases (splitSigns M x).signs.testBit j <;> simp [hjk, fneg_fneg]
      · cases (splitSigns M x).signs.testBit j <;> simp [hjk]
    · exact ⟨k, hsmall, hsize, .inr (by rw [splitSigns_signs])⟩
  · have heven : setBits (splitSigns M x).signs % 2 = 0 := by omega
    constructor
    · exact hbyte
    · exact ksignsIq2xs_of_even _ hbyte heven
    · exact Nat.even_iff.mpr heven
    · exact fun j hj => splitSigns_quantised hj
    · exact ⟨k, hsmall, hsize, .inl splitSigns_signs⟩

/-! Groups without flushed words. -/

theorem Unflushed.size_eq (h : Unflushed M x) {j : ℕ} (hj : j < 8) :
    M.size (sanitiseFinite (x j)) = ticks (sanitiseFinite (x j)) := by
  cases hflush : M.flush with
  | false => rw [Machine.size, hflush, Bool.false_and, if_neg Bool.false_ne_true]
  | true =>
    rcases h hflush j hj with hzero | hnormal
    · have hticks : ticks (sanitiseFinite (x j)) = 0 := by rw [ticks, hzero, units_zero]
      exact Nat.le_antisymm (M.size_le_ticks _) (hticks ▸ Nat.zero_le _)
    · exact Machine.size_of_normal hnormal

theorem Unflushed.signs_eq (h : Unflushed M x) : flushedSigns M x = trueSigns x := by
  rw [flushedSigns, trueSigns]
  refine bitMask_congr fun j hj => ?_
  rw [Machine.value, h.size_eq hj, Bool.eq_iff_iff]
  cases (sanitiseFinite (x j)).msb <;> simp

/-- The mask of a group without flushed words is the true one up to one bit. -/
theorem ParityCorrected.withinOneBit {g : SignedGroup} (h : ParityCorrected M x g) (hx : Unflushed M x) :
    WithinOneBit x g.signs := by
  obtain ⟨k, hk, hmin, hsigns⟩ := h.nearest
  refine ⟨k, hk, fun j hj => ?_, ?_⟩
  · rw [← hx.size_eq hk, ← hx.size_eq hj]
    exact hmin j hj
  · rwa [hx.signs_eq] at hsigns

end Qtx.SignParity
