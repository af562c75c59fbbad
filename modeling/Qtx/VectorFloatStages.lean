import Mathlib.Tactic.IntervalCases
import Qtx.IntRoundTrips
import Qtx.Mxfp4Blocks
import Qtx.VectorBackends

/-!
# The float stages of the vector kernels

The float instructions of the AVX2 and AVX-512 kernels, lane by lane, and what the kernels
compute with them. A vector kernel finds the scale of the scalar loop, whatever the order of
its maxima, and its quotients are those of the scalar loop. It rounds them to the nearest
integer with ties to even, where the scalar loop adds a half and truncates.
-/
namespace Qtx.VectorFloatStages

open Qtx.BinaryFormats Qtx.ByteStreams Qtx.FloatMachine Qtx.FloatScans Qtx.FloatWords Qtx.FpeGuard
  Qtx.IntBlockErrors Qtx.IntKernels Qtx.LroundHalfAway Qtx.Mxfp4Blocks Qtx.QuantizerHelpers Qtx.ScaledEncoders
  Qtx.VectorBackends Qtx.VectorLanes

section Instructions

variable (M : Machine) {n : ℕ}

/-- Whether a word is in one of the classes that the immediate names. A subnormal word is a zero
where the machine flushes it. -/
def fpclass (imm8 : BitVec 8) (x : BitVec 32) : Bool :=
  let nan := decide (IsNaN x)
  let infinite := decide (magnitude x = infinity)
  let isZero := M.size x == 0
  let quiet := x.getLsbD 22
  (imm8.getLsbD 0 && (nan && quiet)) || (imm8.getLsbD 1 && (isZero && !x.msb)) ||
    (imm8.getLsbD 2 && (isZero && x.msb)) ||
    (imm8.getLsbD 3 && (infinite && !x.msb)) || (imm8.getLsbD 4 && (infinite && x.msb)) ||
    (imm8.getLsbD 5 && (decide (magnitude x < 2 ^ 23) && !isZero)) ||
    (imm8.getLsbD 6 && (x.msb && !nan && !infinite && !isZero)) || (imm8.getLsbD 7 && (nan && !quiet))

def fpclassMask (imm8 : BitVec 8) (a : Vec n 32) : Mask n := fun l => fpclass M imm8 (a l)

/-- The lanes of a mask as words of ones and of zeros. -/
def maskWords (k : Mask n) : Vec n 32 := fun l => if k l then BitVec.allOnes 32 else 0#32

/-- The second operand where the first one is not larger, as `vmaxps` has it. -/
def maxPs (a b : Vec n 32) : Vec n 32 := fun l => if M.lt (b l) (a l) then a l else b l

def mulPs (a b : Vec n 32) : Vec n 32 := fun l => M.mul (a l) (b l)

def absPs (a : Vec n 32) : Vec n 32 := and a (set1 0x7FFFFFFF#32)

/-- The two halves of a register against each other until one lane is left. -/
def reduceMax : (k : ℕ) → Vec (2 ^ k) 32 → BitVec 32
  | 0, a => a ⟨0, Nat.one_pos⟩
  | k + 1, a => reduceMax k (maxPs M (fun l => a ⟨l, by omega⟩) (fun l => a ⟨l + 2 ^ k, by omega⟩))

/-- The nearest integer, ties to even, and the least integer for a word out of range. -/
def cvtEpi32 (x : BitVec 32) : BitVec 32 :=
  let i := withSign x.msb (roundQuot (M.size x) (2 ^ 149))
  if magnitude x < infinity ∧ -2 ^ 31 ≤ i ∧ i < 2 ^ 31 then BitVec.ofInt 32 i else 0x80000000#32

def cvtPsEpi32 (a : Vec n 32) : Vec n 32 := fun l => cvtEpi32 M (a l)

end Instructions

section Stages

variable (M : Machine)

/-- Quiet and signalling NaNs and both infinities. -/
def kBadMask : BitVec 8 := 0x01#8 ||| 0x08#8 ||| 0x10#8 ||| 0x80#8

/-- The scale under the largest absolute value of a block. -/
def blockScale (levels : ℕ) (absMaxRaw : BitVec 32) : BitVec 32 :=
  let absMax := clampAbsMax M levels absMaxRaw
  if M.lt zero absMax then M.div absMax (literal levels 1) else zero

local instance twoRegisters : NeZero 2 := ⟨Nat.succ_ne_zero 1⟩
local instance fourRegisters : NeZero 4 := ⟨Nat.succ_ne_zero 3⟩

/-- The float stage of `compressOneBlockINT8_AVX512` and of `compressOneBlockINT4_AVX512`. -/
def floatStage512 (levels : ℕ) : FloatStage 2 16 := fun v =>
  let v := fun r => maskBlend (fpclassMask M kBadMask (v r)) (v r) (set1 0#32)
  let amax := maxPs M (absPs (v 0)) (absPs (v 1))
  let scale := blockScale M levels (reduceMax M 4 amax)
  let invs := set1 (positiveReciprocal M scale)
  let q := fun r => mulPs M (v r) invs
  let q := fun r => maskBlend (fpclassMask M kBadMask (q r)) (q r) (set1 0#32)
  (scale, fun r => cvtPsEpi32 M (q r))

def finiteMask {n : ℕ} (v : Vec n 32) : Vec n 32 :=
  let expMask := set1 0x7F800000#32
  let exp := and v expMask
  let eq := maskWords (cmpeq exp expMask)
  xor eq (set1 (-1#32))

/-- The float stage of `compressOneBlockINT8_AVX2`, which does not look at the quotients again. -/
def floatStage256 (levels : ℕ) : FloatStage 4 8 := fun v =>
  let v := fun r => and (v r) (finiteMask (v r))
  let m := maxPs M (maxPs M (absPs (v 0)) (absPs (v 1))) (maxPs M (absPs (v 2)) (absPs (v 3)))
  let scale := blockScale M levels (reduceMax M 3 m)
  let invs := set1 (positiveReciprocal M scale)
  (scale, fun r => cvtPsEpi32 M (mulPs M (v r) invs))

end Stages

section Masks

variable (M : Machine) {n : ℕ}

theorem fpclass_kBadMask (x : BitVec 32) : fpclass M kBadMask x = !isFiniteStrict x := by
  have hbits : ∀ k < 8, kBadMask.getLsbD k = decide (k = 0 ∨ k = 3 ∨ k = 4 ∨ k = 7) := by decide
  have hstrict : isFiniteStrict x = decide (magnitude x < infinity) := by
    rw [Bool.eq_iff_iff, isFiniteStrict_iff, decide_eq_true_eq]
  simp only [fpclass, hbits 0 (by decide), hbits 1 (by decide), hbits 2 (by decide), hbits 3 (by decide),
    hbits 4 (by decide), hbits 5 (by decide), hbits 6 (by decide), hbits 7 (by decide), hstrict, IsNaN]
  rcases Nat.lt_trichotomy (magnitude x) infinity with h | h | h
  · have hne : ¬ magnitude x = infinity := Nat.ne_of_lt h
    simp [h, hne, Nat.not_lt.mpr h.le]
  · cases x.msb <;> simp [h]
  · have hne : ¬ magnitude x = infinity := Nat.ne_of_gt h
    cases x.getLsbD 22 <;> simp [h, hne, Nat.not_lt.mpr h.le]

/-- Both masks do what the scalar loop does to a word. -/
theorem maskBlend_kBadMask (v : Vec n 32) (l : Fin n) :
    maskBlend (fpclassMask M kBadMask v) v (set1 0#32) l = sanitiseFinite (v l) := by
  simp only [maskBlend, fpclassMask, fpclass_kBadMask, set1, Bool.not_eq_true']
  split_ifs with h
  · exact (sanitiseFinite_nonfinite (Nat.not_lt.mp fun hlt => absurd ((isFiniteStrict_iff _).mpr hlt)
      (by simp [h]))).symm
  · exact (sanitiseFinite_finite ((isFiniteStrict_iff _).mp (by simpa using h))).symm

theorem and_finiteMask (v : Vec n 32) (l : Fin n) : VectorLanes.and v (finiteMask v) l = sanitiseFinite (v l) := by
  have hones : (BitVec.allOnes 32) ^^^ (-1#32) = 0#32 := by decide
  have hzeros : (0#32) ^^^ (-1#32) = BitVec.allOnes 32 := by decide
  simp only [finiteMask, VectorLanes.and, VectorLanes.xor, maskWords, cmpeq, set1, beq_iff_eq, fullExponent_iff]
  split_ifs with h
  · rw [hones, BitVec.and_zero, sanitiseFinite_nonfinite h]
  · rw [hzeros, BitVec.and_allOnes, sanitiseFinite_finite (Nat.not_le.mp h)]

end Masks

section Maxima

variable {M : Machine} {n : ℕ} {x y : BitVec 32}

/-- A finite word without a sign. -/
def Absolute (x : BitVec 32) : Prop := IsFinite x ∧ x.msb = false

theorem Absolute.value (h : Absolute x) (M : Machine) : M.value x = M.size x := by
  rw [Machine.value, h.2, if_neg Bool.false_ne_true]

theorem absolute_fabs (h : IsFinite x) : Absolute (fabs x) := ⟨finite_fabs h, msb_fabs x⟩

theorem absolute_zero : Absolute zero := ⟨finite_zero, rfl⟩

theorem absPs_apply (a : Vec n 32) (l : Fin n) : absPs a l = fabs (a l) := rfl

theorem maxPs_spec {a b : Vec n 32} {l : Fin n} (ha : Absolute (a l)) (hb : Absolute (b l)) :
    Absolute (maxPs M a b l) ∧ M.size (maxPs M a b l) = max (M.size (a l)) (M.size (b l)) := by
  have hlt := lt_iff (M := M) hb.1 ha.1
  rw [ha.value, hb.value, Nat.cast_lt] at hlt
  unfold maxPs
  split_ifs with h
  · exact ⟨ha, (max_eq_left (hlt.mp h).le).symm⟩
  · exact ⟨hb, (max_eq_right (Nat.not_lt.mp fun hc => h (hlt.mpr hc))).symm⟩

/-- The last lane has the largest size. -/
theorem reduceMax_spec : ∀ (k : ℕ) (a : Vec (2 ^ k) 32), (∀ l, Absolute (a l)) → Absolute (reduceMax M k a) ∧
    (∀ l, M.size (a l) ≤ M.size (reduceMax M k a)) ∧ ∃ l, M.size (reduceMax M k a) = M.size (a l)
  | 0, a, h => by
    refine ⟨h _, fun l => le_of_eq ?_, ⟨0, Nat.one_pos⟩, rfl⟩
    have hl : l = ⟨0, Nat.one_pos⟩ := Fin.ext (Nat.lt_one_iff.mp l.isLt)
    rw [hl, reduceMax]
  | k + 1, a, h => by
    have hpair := fun l : Fin (2 ^ k) => maxPs_spec (M := M) (a := fun l : Fin (2 ^ k) => a ⟨l, by omega⟩)
      (b := fun l : Fin (2 ^ k) => a ⟨l + 2 ^ k, by omega⟩) (l := l) (h _) (h _)
    obtain ⟨habs, hle, l, hl⟩ := reduceMax_spec k _ fun l => (hpair l).1
    rw [reduceMax]
    refine ⟨habs, fun j => ?_, ?_⟩
    · rcases Nat.lt_or_ge j (2 ^ k) with hlow | hhigh
      · refine le_trans ?_ (hle ⟨j, hlow⟩)
        rw [(hpair ⟨j, hlow⟩).2]
        exact le_max_left _ _
      · refine le_trans ?_ (hle ⟨j - 2 ^ k, by omega⟩)
        rw [(hpair ⟨j - 2 ^ k, by omega⟩).2]
        have hj : (⟨j - 2 ^ k + 2 ^ k, by omega⟩ : Fin (2 ^ (k + 1))) = j := Fin.ext (Nat.sub_add_cancel hhigh)
        simp only [hj]
        exact le_max_right _ _
    · rw [hl, (hpair l).2]
      rcases max_choice (M.size (a ⟨l, by omega⟩)) (M.size (a ⟨l + 2 ^ k, by omega⟩)) with hmax | hmax
      · exact ⟨_, hmax⟩
      · exact ⟨_, hmax⟩

/-- The scale does not depend on which of the words with the largest absolute value was found. -/
theorem blockScale_congr {levels : ℕ} (hlevels : LevelCount levels) (hx : Absolute x) (hy : Absolute y)
    (h : M.size x = M.size y) : blockScale M levels x = blockScale M levels y := by
  have hfx : isFiniteStrict x = true := (isFiniteStrict_iff x).mpr hx.1
  have hfy : isFiniteStrict y = true := (isFiniteStrict_iff y).mpr hy.1
  have hvalue : M.value x = M.value y := by rw [hx.value, hy.value, h]
  have hmax : M.lt (kMax levels) x = M.lt (kMax levels) y := by
    rw [Bool.eq_iff_iff, lt_iff hlevels.max_finite hx.1, lt_iff hlevels.max_finite hy.1, hvalue]
  have hpos : M.lt zero x = M.lt zero y := by
    rw [Bool.eq_iff_iff, lt_iff finite_zero hx.1, lt_iff finite_zero hy.1, hvalue]
  have hdiv : M.div x (literal levels 1) = M.div y (literal levels 1) := by
    have hsize : 0 < M.size (literal levels 1) := by
      have hmag := hlevels.mag_literal M
      have htwo := hlevels.two_le
      refine FloatErrors.size_pos_of_mag ?_
      rw [hmag]
      exact_mod_cast Nat.ne_of_gt (Nat.lt_of_lt_of_le Nat.two_pos htwo)
    rw [Machine.div_of_finite hx.1 hlevels.exact.finite hsize,
      Machine.div_of_finite hy.1 hlevels.exact.finite hsize, h, hx.2, hy.2]
  simp only [blockScale, clampAbsMax, hfx, hfy, hmax, Bool.not_true, Bool.false_eq_true, if_false]
  by_cases hcut : M.lt (kMax levels) y = true
  · simp only [hcut, if_true]
  · rw [if_neg hcut, if_neg hcut, hpos, hdiv]

end Maxima

section Blocks

variable {M : Machine} {levels : ℕ} {block : Bytes} {x : BitVec 32}

theorem loadBlock_apply {k n : ℕ} (block : Bytes) (r : Fin k) (l : Fin n) :
    loadBlock k n block r l = wordAt block (r * n + l) := by
  rw [loadBlock, loadWords, ← Nat.mul_assoc, Nat.mul_comm _ 4, Bf16Kernel.wordAt_skip]

/-- A scan in any order finds the scale of the scalar scan. -/
theorem blockScale_eq (hlevels : LevelCount levels) (hx : Absolute x)
    (hle : ∀ j < 32, M.size (sanitiseFinite (wordAt block j)) ≤ M.size x)
    (hmem : ∃ j < 32, M.size x = M.size (sanitiseFinite (wordAt block j))) :
    blockScale M levels x = intScale M levels block := by
  obtain ⟨hscan, hfound⟩ := absMax_spec M (wordAt block) 32
  have hscale : intScale M levels block = blockScale M levels (absMax M (wordAt block) 32) := rfl
  rw [hscale]
  generalize absMax M (wordAt block) 32 = a at hscan hfound ⊢
  have habs : Absolute a := by
    rcases hfound with rfl | ⟨j, -, rfl, -⟩
    · exact absolute_zero
    · exact absolute_fabs (finite_sanitiseFinite _)
  refine blockScale_congr hlevels hx habs (le_antisymm ?_ ?_)
  · obtain ⟨j, hj, heq⟩ := hmem
    exact heq ▸ hscan j hj
  · rcases hfound with rfl | ⟨j, hj, rfl, -⟩
    · rw [size_zero]
      exact Nat.zero_le _
    · rw [Machine.size_fabs]
      exact hle j hj

/-- The registers of a block against each other first, and then the lanes of what is left. -/
theorem blockScale_reduceMax (hlevels : LevelCount levels) (block : Bytes) {rows k : ℕ} (hrows : rows * 2 ^ k = 32)
    {m : Vec (2 ^ k) 32} (habs : ∀ l, Absolute (m l))
    (hle : ∀ l : Fin (2 ^ k), ∀ r < rows, M.size (sanitiseFinite (wordAt block (r * 2 ^ k + l))) ≤ M.size (m l))
    (hmem : ∀ l : Fin (2 ^ k), ∃ r < rows, M.size (m l) = M.size (sanitiseFinite (wordAt block (r * 2 ^ k + l)))) :
    blockScale M levels (reduceMax M k m) = intScale M levels block := by
  obtain ⟨hfound, hlanes, l, hl⟩ := reduceMax_spec (M := M) k m habs
  refine blockScale_eq hlevels hfound (fun j hj => ?_) ?_
  · have hlane : j % 2 ^ k < 2 ^ k := Nat.mod_lt j (Nat.two_pow_pos k)
    have hrow : j / 2 ^ k < rows := Nat.div_lt_of_lt_mul (by rw [Nat.mul_comm, hrows]; exact hj)
    have hj' : j / 2 ^ k * 2 ^ k + j % 2 ^ k = j := Nat.div_add_mod' j (2 ^ k)
    have h := (hle ⟨j % 2 ^ k, hlane⟩ _ hrow).trans (hlanes ⟨j % 2 ^ k, hlane⟩)
    rwa [hj'] at h
  · obtain ⟨r, hr, heq⟩ := hmem l
    have hend := block_end (2 ^ k) hr
    exact ⟨_, by have := l.isLt; omega, hl.trans heq⟩

/-- The integer that the vector kernels convert a word of a block to. -/
def converted (M : Machine) (levels : ℕ) (block : Bytes) (j : ℕ) : BitVec 32 :=
  cvtEpi32 M (quotient M (positiveReciprocal M (intScale M levels block)) (wordAt block j))

/-- The registers of the words that the scalar loop works with. -/
def sanitised (k n : ℕ) (block : Bytes) : Fin k → Vec n 32 := fun r l => sanitiseFinite (wordAt block (r * n + l))

theorem absolute_sanitised {k n : ℕ} (block : Bytes) (r : Fin k) (l : Fin n) :
    Absolute (absPs (sanitised k n block r) l) :=
  absolute_fabs (finite_sanitiseFinite _)

theorem size_sanitised {k n : ℕ} (r : Fin k) (l : Fin n) :
    M.size (absPs (sanitised k n block r) l) = M.size (sanitiseFinite (wordAt block (r * n + l))) :=
  Machine.size_fabs M _

theorem floatStage512_eq (hlevels : LevelCount levels) (block : Bytes) :
    floatStage512 M levels (loadBlock 2 16 block) =
      (intScale M levels block, fun r : Fin 2 => lanes 16 (r * 16) (converted M levels block)) := by
  have hv : ∀ r, maskBlend (fpclassMask M kBadMask (loadBlock 2 16 block r)) (loadBlock 2 16 block r) (set1 0#32) =
      sanitised 2 16 block r := by
    intro r
    funext l
    rw [maskBlend_kBadMask, loadBlock_apply]
    rfl
  have habs := absolute_sanitised (k := 2) (n := 16) block
  have hpair := fun l => maxPs_spec (M := M) (habs 0 l) (habs 1 l)
  have hscale := blockScale_reduceMax (M := M) (k := 4) hlevels block (show 2 * 2 ^ 4 = 32 by decide)
    (fun l => (hpair l).1) (fun l r hr => ?_) (fun l => ?_)
  · simp only [floatStage512, hv]
    rw [hscale]
    refine Prod.ext rfl (funext fun r => funext fun l => ?_)
    simp only [cvtPsEpi32, maskBlend_kBadMask]
    rfl
  · rw [(hpair l).2, size_sanitised, size_sanitised, le_max_iff]
    interval_cases r
    · exact .inl le_rfl
    · exact .inr le_rfl
  · rw [(hpair l).2, size_sanitised, size_sanitised]
    rcases max_choice (M.size (sanitiseFinite (wordAt block (((0 : Fin 2) : ℕ) * 16 + l))))
        (M.size (sanitiseFinite (wordAt block (((1 : Fin 2) : ℕ) * 16 + l)))) with hmax | hmax
    · exact ⟨0, by decide, hmax⟩
    · exact ⟨1, by decide, hmax⟩

/-- Without the second mask the quotients have to be finite. -/
theorem floatStage256_eq (hlevels : LevelCount levels) (block : Bytes) (hfin : ∀ j < 32,
    IsFinite (M.mul (sanitiseFinite (wordAt block j)) (positiveReciprocal M (intScale M levels block)))) :
    floatStage256 M levels (loadBlock 4 8 block) =
      (intScale M levels block, fun r : Fin 4 => lanes 8 (r * 8) (converted M levels block)) := by
  have hv : ∀ r, VectorLanes.and (loadBlock 4 8 block r) (finiteMask (loadBlock 4 8 block r)) =
    sanitised 4 8 block r := by
    intro r
    funext l
    rw [and_finiteMask, loadBlock_apply]
    rfl
  have habs := absolute_sanitised (k := 4) (n := 8) block
  have hlow := fun l => maxPs_spec (M := M) (habs 0 l) (habs 1 l)
  have hhigh := fun l => maxPs_spec (M := M) (habs 2 l) (habs 3 l)
  have hall := fun l => maxPs_spec (M := M) (hlow l).1 (hhigh l).1
  have hsize : ∀ l, M.size (maxPs M (maxPs M (absPs (sanitised 4 8 block 0)) (absPs (sanitised 4 8 block 1)))
      (maxPs M (absPs (sanitised 4 8 block 2)) (absPs (sanitised 4 8 block 3))) l) =
      max (max (M.size (sanitiseFinite (wordAt block (0 * 8 + l))))
        (M.size (sanitiseFinite (wordAt block (1 * 8 + l)))))
        (max (M.size (sanitiseFinite (wordAt block (2 * 8 + l))))
          (M.size (sanitiseFinite (wordAt block (3 * 8 + l))))) := by
    intro l
    rw [(hall l).2, (hlow l).2, (hhigh l).2, size_sanitised, size_sanitised, size_sanitised, size_sanitised]
    rfl
  have hscale := blockScale_reduceMax (M := M) (k := 3) hlevels block (show 4 * 2 ^ 3 = 32 by decide)
    (fun l => (hall l).1) (fun l r hr => ?_) (fun l => ?_)
  · simp only [floatStage256, hv]
    rw [hscale]
    refine Prod.ext rfl (funext fun r => funext fun l => ?_)
    have hj : (r : ℕ) * 8 + l < 32 := by omega
    simp only [lanes, converted, quotient, sanitiseFinite_finite (hfin _ hj)]
    rfl
  · refine le_of_le_of_eq ?_ (hsize l).symm
    rw [le_max_iff, le_max_iff, le_max_iff]
    interval_cases r
    · exact .inl (.inl le_rfl)
    · exact .inl (.inr le_rfl)
    · exact .inr (.inl le_rfl)
    · exact .inr (.inr le_rfl)
  · have hmax : ∀ a b c d : ℕ, max (max a b) (max c d) = a ∨ max (max a b) (max c d) = b ∨
      max (max a b) (max c d) = c ∨
        max (max a b) (max c d) = d := by
      intro a b c d
      omega
    have hl := hsize l
    rcases hmax _ _ _ _ with heq | heq | heq | heq
    · exact ⟨0, by decide, hl.trans heq⟩
    · exact ⟨1, by decide, hl.trans heq⟩
    · exact ⟨2, by decide, hl.trans heq⟩
    · exact ⟨3, by decide, hl.trans heq⟩

end Blocks

end Qtx.VectorFloatStages
