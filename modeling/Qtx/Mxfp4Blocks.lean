import Qtx.E2m1Rounding
import Qtx.PowerScaling

/-!
# MXFP4 blocks

A stored block is an exponent byte and 32 signed levels. The encoder takes the exponent
from the largest element, so that element lands in the upper binade of the levels, and no
element of a block with the least exponent lands on the level below one. Such a block
decodes without rounding, and its values lead the encoder back to the same block.
-/
namespace Qtx.Mxfp4Blocks

open Qtx.BinaryFormats Qtx.ByteStreams Qtx.FloatWords Qtx.FloatMachine Qtx.FloatScans Qtx.FpeGuard Qtx.PackedDigits
open Qtx.QuantizerHelpers Qtx.ScaledBlocks Qtx.ScaledEncoders

section Scans

variable {M : Machine} {x y : BitVec 32}

/-- With flushed subnormals a word is normal or counts as zero. -/
theorem normal_of_size_pos (hM : M.flush = true) (hpos : 0 < M.size x) : 2 ^ 23 ≤ magnitude x := by
  by_contra hlow
  rw [Machine.size, hM, if_pos (by simpa using hlow)] at hpos
  exact Nat.lt_irrefl _ hpos

theorem magnitude_le_of_size_le (hM : M.flush = true) (hpos : 0 < M.size x) (hle : M.size x ≤ M.size y) :
    magnitude x ≤ magnitude y := by
  have hnormal := normal_of_size_pos hM hpos
  have hnormal' := normal_of_size_pos hM (lt_of_lt_of_le hpos hle)
  rw [Machine.size_of_normal hnormal, Machine.size_of_normal hnormal'] at hle
  exact units_le_units.mp hle

theorem value_fabs (M : Machine) (x : BitVec 32) : M.value (fabs x) = M.size x := by
  rw [Machine.value, msb_fabs, if_neg Bool.false_ne_true, Machine.size_fabs]

/-- The scan finds the largest absolute value, or zero where every word counts as zero. -/
theorem absMax_spec (M : Machine) (p : ℕ → BitVec 32) (n : ℕ) :
    (∀ j < n, M.size (sanitiseFinite (p j)) ≤ M.size (absMax M p n)) ∧
      (absMax M p n = zero ∨
        ∃ j < n, absMax M p n = fabs (sanitiseFinite (p j)) ∧ 0 < M.size (sanitiseFinite (p j))) := by
  have hzero : M.size zero = 0 := size_zero M
  apply loop_induction (fun k acc => (∀ j < k, M.size (sanitiseFinite (p j)) ≤ M.size acc) ∧
    (acc = zero ∨ ∃ j < k, acc = fabs (sanitiseFinite (p j)) ∧ 0 < M.size (sanitiseFinite (p j))))
  · exact ⟨fun j hj => absurd hj (Nat.not_lt_zero j), .inl rfl⟩
  · rintro k - acc ⟨hle, hacc⟩
    have hfin : IsFinite acc := by
      rcases hacc with rfl | ⟨j, -, rfl, -⟩
      · exact finite_zero
      · exact finite_fabs (finite_sanitiseFinite _)
    have hvalue : M.value acc = M.size acc := by
      rcases hacc with rfl | ⟨j, -, rfl, -⟩
      · rw [value_zero, hzero, Nat.cast_zero]
      · rw [value_fabs, Machine.size_fabs]
    have hlt := lt_iff (M := M) hfin (finite_fabs (finite_sanitiseFinite (p k)))
    rw [value_fabs, hvalue, Nat.cast_lt] at hlt
    dsimp only
    by_cases h : M.size acc < M.size (sanitiseFinite (p k))
    · rw [if_pos (hlt.mpr h), Machine.size_fabs]
      refine ⟨fun j hj => ?_, .inr ⟨k, Nat.lt_succ_self k, rfl, lt_of_le_of_lt (Nat.zero_le _) h⟩⟩
      rcases Nat.lt_succ_iff_lt_or_eq.mp hj with hj | rfl
      · exact (hle j hj).trans h.le
      · exact le_rfl
    · rw [if_neg (fun hc => h (hlt.mp hc))]
      refine ⟨fun j hj => ?_, hacc.imp_right fun ⟨j, hj, hj'⟩ => ⟨j, Nat.lt_succ_of_lt hj, hj'⟩⟩
      rcases Nat.lt_succ_iff_lt_or_eq.mp hj with hj | rfl
      · exact hle j hj
      · exact Nat.not_lt.mp h

end Scans

/-- The magnitudes of the levels. -/
def levelWord : ℕ → ℕ
  | 0 => 0
  | 1 => 0x3F000000
  | 2 => 0x3F800000
  | 3 => 0x3FC00000
  | 4 => 0x40000000
  | 5 => 0x40400000
  | 6 => 0x40800000
  | _ => 0x40C00000

/-- A block as it is stored: its exponent byte, its signs and its levels. -/
structure Stored where
  exponent : BitVec 8
  sign : ℕ → Bool
  level : ℕ → ℕ

namespace Stored

def nibble (s : Stored) (i : ℕ) : BitVec 8 := BitVec.ofNat 8 ((s.sign i).toNat * 8 + s.level i)

def pack (s : Stored) : Bytes := join [(1, fun _ => s.exponent), (16, packNibbles s.nibble)]

/-- The value of an element: zero, or its level with the exponent moved. -/
def value (s : Stored) (i : ℕ) : BitVec 32 :=
  signed (s.sign i)
    (if s.level i = 0 ∨ s.exponent = 0#8 then 0
      else levelWord (s.level i) + s.exponent.toNat * 2 ^ 23 - 127 * 2 ^ 23)

/-- What the encoder leaves: a block of zeros, or a block whose largest element fixes its exponent. -/
structure Canonical (s : Stored) : Prop where
  level_le : ∀ i < 32, s.level i ≤ 7
  exponent_le : s.exponent.toNat ≤ 252
  zero : s.exponent = 0#8 → ∀ i < 32, s.level i = 0
  /-- At the least exponent nothing lies below the normal range. -/
  normal : s.exponent = 1#8 → ∀ i < 32, s.level i ≠ 1
  top : s.exponent ≠ 0#8 → ∃ i < 32, 2 ≤ s.level i ∧ (s.exponent ≠ 1#8 → 6 ≤ s.level i)

variable {s : Stored}

theorem nibble_lt (hs : s.Canonical) {i : ℕ} (hi : i < 32) : s.nibble i &&& 0x0F#8 = s.nibble i := by
  have hall : ∀ (b : Bool), ∀ k ≤ 7, BitVec.ofNat 8 (b.toNat * 8 + k) &&& 0x0F#8 =
    BitVec.ofNat 8 (b.toNat * 8 + k) := by
    decide
  exact hall _ _ (hs.level_le i hi)

/-- Reading the nibbles back. -/
theorem nibbleAt_pack (hs : s.Canonical) {p : Bytes} (hp : ∀ j < 17, p j = s.pack j) {i : ℕ} (hi : i < 32) :
    nibbleAt (p.skip 1) i = s.nibble i := by
  have hbyte : (p.skip 1) (i / 2) = packNibbles s.nibble (i / 2) := by
    have hskip : s.pack (1 + i / 2) = (s.pack.skip 1) (i / 2) := rfl
    rw [skip_apply, hp _ (by omega), hskip, pack, join_skip_self, join_apply _ _ (by omega)]
  have hsame : nibbleAt (p.skip 1) i = nibbleAt (packNibbles s.nibble) i := by rw [nibbleAt, nibbleAt, hbyte]
  rw [hsame, nibbleAt_packNibbles, nibble_lt hs hi]

theorem levelWord_value {b : Bool} {k : ℕ} (hk : k ≤ 7) :
    nvfp4ElementToFP32 e2m1Tables (BitVec.ofNat 8 (b.toNat * 8 + k)) = signed b (levelWord k) := by
  have hall : ∀ b : Bool, ∀ k ≤ 7, nvfp4ElementToFP32 e2m1Tables (BitVec.ofNat 8 (b.toNat * 8 + k)) =
    signed b (levelWord k) := by
    decide
  exact hall b k hk

theorem levelWord_bounds {k : ℕ} (hk : k ≤ 7) (hpos : k ≠ 0) :
    126 * 2 ^ 23 ≤ levelWord k ∧ levelWord k < 130 * 2 ^ 23 ∧ (k ≠ 1 → 127 * 2 ^ 23 ≤ levelWord k) ∧
      (6 ≤ k → 129 * 2 ^ 23 ≤ levelWord k) := by
  have hall : ∀ k ≤ 7, k ≠ 0 → 126 * 2 ^ 23 ≤ levelWord k ∧ levelWord k < 130 * 2 ^ 23 ∧
      (k ≠ 1 → 127 * 2 ^ 23 ≤ levelWord k) ∧ (6 ≤ k → 129 * 2 ^ 23 ≤ levelWord k) := by decide
  exact hall k hk hpos

theorem isPower_e8m0Scale {e : BitVec 8} (hpos : e ≠ 0#8) (hle : e.toNat ≤ 252) :
    IsPower e.toNat (e8m0Scale e) := by
  have hne : 0 < e.toNat := Nat.pos_of_ne_zero fun hc => hpos (BitVec.eq_of_toNat_eq hc)
  have hnat : (e8m0Scale e).toNat = false.toNat * 2 ^ 31 + e.toNat * 2 ^ 23 := by
    rw [e8m0Scale, if_neg hpos, BitVec.toNat_shiftLeft, BitVec.toNat_setWidth, Nat.shiftLeft_eq, Bool.toNat_false]
    omega
  have hword := sign_magnitude_of_toNat (w := 31) hnat (by omega)
  exact ⟨hword.1, hword.2, hne, by omega⟩

/-- The decoder multiplies without rounding. -/
theorem mul_e8m0Scale (D : Machine) (hs : s.Canonical) {i : ℕ} (hi : i < 32) :
    D.mul (nvfp4ElementToFP32 e2m1Tables (s.nibble i)) (e8m0Scale s.exponent) = s.value i := by
  have hk := hs.level_le i hi
  have hbound : levelWord (s.level i) ≤ infinity := by
    have hall : ∀ k ≤ 7, levelWord k ≤ infinity := by decide
    exact hall _ hk
  have hfin : IsFinite (signed (s.sign i) (levelWord (s.level i))) := by
    have hall : ∀ k ≤ 7, levelWord k < infinity := by decide
    rw [IsFinite, magnitude_signed _ hbound]
    exact hall _ hk
  rw [nibble, levelWord_value hk, value]
  by_cases he : s.exponent = 0#8
  · have hscale : e8m0Scale s.exponent = zero := if_pos he
    rw [hscale, if_pos (.inr he), mul_zero_right hfin, msb_signed _ hbound]
  · have hp := isPower_e8m0Scale he hs.exponent_le
    by_cases hzero : s.level i = 0
    · have hsize : D.size (signed (s.sign i) 0) = 0 := by
        have hle := D.size_le_ticks (signed (s.sign i) 0)
        rw [ticks, magnitude_signed _ (Nat.zero_le _), units_zero] at hle
        exact Nat.le_zero.mp hle
      rw [if_pos (.inl hzero), hzero]
      exact (hp.mul_zero (by rwa [hzero] at hfin) hsize).trans (by rw [msb_signed _ (Nat.zero_le _)])
    · obtain ⟨hlo, hhi, hone, -⟩ := levelWord_bounds hk hzero
      have hpos := hp.pos
      have hexp := hs.exponent_le
      -- only the level below one could leave the normal range, and not above the least exponent
      have hnormal : 127 * 2 ^ 23 + 2 ^ 23 ≤ levelWord (s.level i) + s.exponent.toNat * 2 ^ 23 := by
        by_cases h1 : s.exponent = 1#8
        · have hlevel := hone (hs.normal h1 i hi)
          omega
        · have h1' : s.exponent.toNat ≠ 1 := fun hc => h1 (BitVec.eq_of_toNat_eq hc)
          omega
      rw [if_neg (not_or.mpr ⟨hzero, he⟩), hp.mul_normal hfin (by rw [magnitude_signed _ hbound]; omega)
        (by rw [magnitude_signed _ hbound]; exact hnormal) (by rw [magnitude_signed _ hbound, infinity]; omega),
        msb_signed _ hbound, magnitude_signed _ hbound]

end Stored

section Encoder

variable {M : Machine} {A v : BitVec 32}

/-- The exponent byte of a block that is not all zeros. -/
theorem toNat_sharedExponent (hA : IsFinite A) (hnormal : 2 ^ 23 ≤ magnitude A) (hsign : A.msb = false) :
    (sharedExponent M A).toNat = max 1 (magnitude A / 2 ^ 23 - 2) ∧ magnitude A / 2 ^ 23 ≤ 254 := by
  have hword := toNat_eq_magnitude (w := 31) A
  rw [hsign, Bool.toNat_false, Nat.zero_mul, Nat.zero_add] at hword
  have hlt : magnitude A < infinity := hA
  have hbyte : ((A >>> 23) &&& 0xFF#32).toNat = magnitude A / 2 ^ 23 := by
    have hmask : A.toNat >>> 23 &&& (0xFF#32).toNat = (A.toNat >>> 23) % 2 ^ 8 :=
      Nat.and_two_pow_sub_one_eq_mod (A.toNat >>> 23) 8
    rw [BitVec.toNat_and, BitVec.toNat_ushiftRight, hmask, Nat.shiftRight_eq_div_pow, hword]
    unfold infinity at hlt
    omega
  have hne : M.eq A zero = false := by
    have hpos : 0 < M.size A := lt_of_lt_of_le (by decide) (Machine.le_size (M := M) le_rfl hnormal)
    have hiff := eq_iff (M := M) hA finite_zero
    rw [value_zero, Machine.value, hsign, if_neg Bool.false_ne_true] at hiff
    rw [Bool.eq_false_iff, ne_eq, hiff]
    omega
  have hfield : 1 ≤ magnitude A / 2 ^ 23 ∧ magnitude A / 2 ^ 23 ≤ 254 := by
    unfold infinity at hlt
    omega
  refine ⟨?_, hfield.2⟩
  rw [sharedExponent, hne, if_neg Bool.false_ne_true, hbyte]
  generalize magnitude A / 2 ^ 23 = F at hfield
  have hclamp : clampInt 1 254 ((F : ℤ) - 127 - 2 + 127) = ((max 1 (F - 2) : ℕ) : ℤ) := by
    unfold clampInt
    split_ifs <;> omega
  dsimp only
  rw [hclamp, BitVec.ofInt_natCast, BitVec.toNat_ofNat]
  omega

theorem sharedExponent_zero : sharedExponent M zero = 0#8 := by
  have heq : M.eq zero zero = true := (eq_iff finite_zero finite_zero).mpr rfl
  rw [sharedExponent, heq, if_pos rfl]

/-- The encoder multiplies by the opposite power. -/
theorem isPower_inverseScale {e : BitVec 8} (hpos : e ≠ 0#8) (hle : e.toNat ≤ 252) :
    IsPower (254 - e.toNat) (inverseScale M e) := by
  have hp := Stored.isPower_e8m0Scale hpos hle
  have hlt : M.lt zero (e8m0Scale e) = true := by
    rw [lt_iff finite_zero hp.finite, value_zero, Machine.value, hp.sign, if_neg Bool.false_ne_true, hp.size]
    exact_mod_cast Nat.two_pow_pos _
  have hq := hp.pos
  have hbound : (254 - e.toNat) * 2 ^ 23 ≤ infinity := by
    unfold infinity
    omega
  rw [inverseScale, positiveReciprocal, hlt, if_pos rfl, hp.reciprocal (by omega)]
  exact ⟨msb_signed _ hbound, magnitude_signed _ hbound, by omega, by omega⟩

theorem inverseScale_zero : inverseScale M 0#8 = zero := by
  have hscale : e8m0Scale 0#8 = zero := if_pos rfl
  have hlt : M.lt zero zero = false := by
    rw [Bool.eq_false_iff, ne_eq, lt_iff finite_zero finite_zero]
    exact lt_irrefl _
  rw [inverseScale, hscale, positiveReciprocal, hlt, if_neg Bool.false_ne_true]

/-- The block that the encoder stores. -/
def storedOf (M : Machine) (blk : ℕ → BitVec 32) : Stored where
  exponent := sharedExponent M (absMax M blk 32)
  sign i := (sanitiseFinite (blk i)).msb
  level i :=
    binOf (magnitude (M.mul (sanitiseFinite (blk i)) (inverseScale M (sharedExponent M (absMax M blk 32)))))

theorem storedOf_exponent (M : Machine) (blk : ℕ → BitVec 32) :
    (storedOf M blk).exponent = sharedExponent M (absMax M blk 32) := by rw [storedOf]

theorem storedOf_level (M : Machine) (blk : ℕ → BitVec 32) (i : ℕ) : (storedOf M blk).level i =
    binOf (magnitude (M.mul (sanitiseFinite (blk i)) (inverseScale M (storedOf M blk).exponent))) := by
  rw [storedOf_exponent, storedOf]

/-- A block is all zeros, or its largest element is normal and bounds the others. -/
theorem block_cases (hM : M.flush = true) (blk : ℕ → BitVec 32) :
    (absMax M blk 32 = zero ∧ ∀ i < 32, M.size (sanitiseFinite (blk i)) = 0) ∨
      (2 ^ 23 ≤ magnitude (absMax M blk 32) ∧ (absMax M blk 32).msb = false ∧
        (∃ j < 32, magnitude (sanitiseFinite (blk j)) = magnitude (absMax M blk 32)) ∧
        ∀ i < 32, M.size (sanitiseFinite (blk i)) = 0 ∨
          (2 ^ 23 ≤ magnitude (sanitiseFinite (blk i)) ∧
            magnitude (sanitiseFinite (blk i)) ≤ magnitude (absMax M blk 32))) := by
  obtain ⟨hle, hacc⟩ := absMax_spec M blk 32
  rcases hacc with hzero | ⟨j, hj, hmax, hpos⟩
  · left
    refine ⟨hzero, fun i hi => ?_⟩
    have hsize := hle i hi
    rw [hzero, size_zero] at hsize
    exact Nat.le_zero.mp hsize
  · right
    have hnormal := normal_of_size_pos hM hpos
    refine ⟨by rw [hmax, magnitude_fabs]; exact hnormal, by rw [hmax, msb_fabs],
      ⟨j, hj, by rw [hmax, magnitude_fabs]⟩,
      fun i hi => ?_⟩
    rcases Nat.eq_zero_or_pos (M.size (sanitiseFinite (blk i))) with h0 | hpos'
    · exact .inl h0
    · exact .inr ⟨normal_of_size_pos hM hpos', magnitude_le_of_size_le hM hpos' (hle i hi)⟩

/-- Every product of the encoder is finite and keeps its sign. -/
theorem scaled_finite (hM : M.flush = true) (blk : ℕ → BitVec 32) {i : ℕ} (hi : i < 32) :
    IsFinite (M.mul (sanitiseFinite (blk i)) (inverseScale M (sharedExponent M (absMax M blk 32)))) ∧
      (M.mul (sanitiseFinite (blk i)) (inverseScale M (sharedExponent M (absMax M blk 32)))).msb =
        (sanitiseFinite (blk i)).msb := by
  have hfin := finite_sanitiseFinite (blk i)
  rcases block_cases hM blk with ⟨hzero, -⟩ | ⟨hnormal, hsign, -, hbound⟩
  · rw [hzero, sharedExponent_zero, inverseScale_zero, mul_zero_right hfin, IsFinite,
      magnitude_signed _ (Nat.zero_le _), msb_signed _ (Nat.zero_le _)]
    exact ⟨by decide, rfl⟩
  · obtain ⟨hexp, hfield⟩ := toNat_sharedExponent (M := M) (absMax_finite M blk 32) hnormal hsign
    have hne : sharedExponent M (absMax M blk 32) ≠ 0#8 := by
      intro hc
      rw [hc] at hexp
      have hexp : 0 = max 1 (magnitude (absMax M blk 32) / 2 ^ 23 - 2) := hexp
      omega
    have hp := isPower_inverseScale (M := M) hne (by omega)
    apply hp.mul_finite hfin ((hbound i hi).imp_right And.left)
    rcases hbound i hi with hzero | ⟨-, hle⟩
    · have hlow : magnitude (sanitiseFinite (blk i)) < 2 ^ 23 := by
        by_contra hge
        have hone : 0 < units 23 (2 ^ 23) := by decide
        have hpos := lt_of_lt_of_le hone (Machine.le_size (M := M) le_rfl (Nat.not_lt.mp hge))
        exact absurd hzero (Nat.ne_of_gt hpos)
      unfold infinity
      omega
    · unfold infinity
      omega

theorem encodeMXFP4_eq (hM : M.flush = true) (block : Bytes) {j : ℕ} (hj : j < 17) :
    encodeMXFP4 M e2m1Tables block j = (storedOf M (wordAt block)).pack j := by
  have hnibble : ∀ i < 32, fp32ElementToNVFP4Safe M e2m1Tables (M.mul (sanitiseFinite (wordAt block i))
      (inverseScale M (sharedExponent M (absMax M (wordAt block) 32)))) = (storedOf M (wordAt block)).nibble i := by
    intro i hi
    obtain ⟨hfin, hsign⟩ := scaled_finite hM (wordAt block) hi
    rw [fp32ElementToNVFP4Safe_eq hfin, hsign]
    rfl
  rcases Nat.eq_zero_or_pos j with rfl | hpos
  · rw [encodeMXFP4, Stored.pack, join_apply _ _ Nat.one_pos, join_apply _ _ Nat.one_pos, storedOf]
  · obtain ⟨k, rfl⟩ : ∃ k, j = 1 + k := ⟨j - 1, by omega⟩
    have hskip : ∀ p : Bytes, p (1 + k) = p.skip 1 k := fun _ => rfl
    rw [hskip (encodeMXFP4 M e2m1Tables block), hskip (Stored.pack _), encodeMXFP4, Stored.pack, join_skip_self,
      join_skip_self, join_apply _ _ (by omega), join_apply _ _ (by omega), packNibbles, packNibbles,
        hnibble _ (by omega), hnibble _ (by omega)]

/-- The largest element lands in the upper binade of the levels, unless the exponent is the least. -/
theorem binOf_largest {e : BitVec 8} {m : ℕ} (hnormal : 2 ^ 23 ≤ m)
    (hexp : e.toNat = max 1 (m / 2 ^ 23 - 2) ∧ m / 2 ^ 23 ≤ 254) :
    2 ≤ binOf (m + (254 - e.toNat) * 2 ^ 23 - 127 * 2 ^ 23) ∧
      (e ≠ 1#8 → 6 ≤ binOf (m + (254 - e.toNat) * 2 ^ 23 - 127 * 2 ^ 23)) := by
  refine ⟨two_le_binOf (by omega), fun h1 => six_le_binOf ?_⟩
  have h1' : e.toNat ≠ 1 := fun hc => h1 (BitVec.eq_of_toNat_eq hc)
  omega

/-- What the encoder stores is canonical. -/
theorem canonical_storedOf (hM : M.flush = true) (blk : ℕ → BitVec 32) : (storedOf M blk).Canonical := by
  rcases block_cases hM blk with ⟨hzero, -⟩ | ⟨hnormal, hsign, ⟨top, htop, hmax⟩, hbound⟩
  · have hexp : (storedOf M blk).exponent = 0#8 := by rw [storedOf, hzero, sharedExponent_zero]
    have hlevel : ∀ i < 32, (storedOf M blk).level i = 0 := by
      intro i _
      have hmul := mul_zero_right (M := M) (finite_sanitiseFinite (blk i))
      simp only [storedOf, hzero, sharedExponent_zero, inverseScale_zero, hmul, magnitude_signed _ (Nat.zero_le _)]
      rfl
    have hone : ¬ (0#8 : BitVec 8) = 1#8 := by decide
    refine ⟨fun i _ => binOf_le _, ?_, fun _ => hlevel, fun hc => absurd (hexp.symm.trans hc) hone,
      fun hc => absurd hexp hc⟩
    rw [hexp]
    exact Nat.zero_le _
  · obtain ⟨hexp, hfield⟩ : (storedOf M blk).exponent.toNat = max 1 (magnitude (absMax M blk 32) / 2 ^ 23 - 2) ∧
        magnitude (absMax M blk 32) / 2 ^ 23 ≤ 254 := by
      rw [storedOf_exponent]
      exact toNat_sharedExponent (absMax_finite M blk 32) hnormal hsign
    have hne : (storedOf M blk).exponent ≠ 0#8 := by
      intro hc
      rw [hc] at hexp
      have hexp : 0 = max 1 (magnitude (absMax M blk 32) / 2 ^ 23 - 2) := hexp
      omega
    have hp : IsPower (254 - (storedOf M blk).exponent.toNat) (inverseScale M (storedOf M blk).exponent) :=
      isPower_inverseScale hne (by omega)
    have hlevel := storedOf_level M blk
    have hscaled : ∀ i < 32, 2 ^ 23 ≤ magnitude (sanitiseFinite (blk i)) →
        magnitude (sanitiseFinite (blk i)) ≤ magnitude (absMax M blk 32) →
        127 * 2 ^ 23 + 2 ^ 23 ≤ magnitude (sanitiseFinite (blk i)) +
          (254 - (storedOf M blk).exponent.toNat) * 2 ^ 23 →
        (storedOf M blk).level i = binOf (magnitude (sanitiseFinite (blk i)) +
          (254 - (storedOf M blk).exponent.toNat) * 2 ^ 23 - 127 * 2 ^ 23) := by
      intro i _ hnorm hle hlo
      have hhi : magnitude (sanitiseFinite (blk i)) + (254 - (storedOf M blk).exponent.toNat) * 2 ^ 23 <
          127 * 2 ^ 23 + infinity := by
        unfold infinity
        omega
      rw [hlevel, hp.mul_normal (finite_sanitiseFinite _) hnorm hlo hhi, magnitude_signed _ (by omega)]
    refine ⟨fun i _ => binOf_le _, by omega, fun hc => absurd hc hne, fun h1 i hi => ?_, fun _ => ⟨top, htop, ?_⟩⟩
    · have h1' : (storedOf M blk).exponent.toNat = 1 := by rw [h1]; rfl
      rcases hbound i hi with hzero | ⟨hnorm, hle⟩
      · rw [hlevel, hp.mul_zero (finite_sanitiseFinite _) hzero, magnitude_signed _ (Nat.zero_le _)]
        decide
      · have htwo : 2 ≤ (storedOf M blk).level i := by
          rw [hscaled i hi hnorm hle (by omega)]
          exact two_le_binOf (by omega)
        omega
    · have hnorm : 2 ^ 23 ≤ magnitude (sanitiseFinite (blk top)) := hnormal.trans hmax.ge
      have hlo : 127 * 2 ^ 23 + 2 ^ 23 ≤
          magnitude (sanitiseFinite (blk top)) + (254 - (storedOf M blk).exponent.toNat) * 2 ^ 23 := by
        omega
      rw [hscaled top htop hnorm hmax.le hlo]
      exact binOf_largest (by omega) (by omega)

/-- The levels lie in their own bins. -/
theorem binOf_levelWord {k : ℕ} (hk : k ≤ 7) : binOf (levelWord k) = k := by
  have hall : ∀ k ≤ 7, binOf (levelWord k) = k := by decide
  exact hall k hk

namespace Stored

variable {s : Stored}

/-- A value is a zero, or a normal word whose exponent field is that of its level, moved. -/
theorem value_cases (hs : s.Canonical) {i : ℕ} (hi : i < 32) :
    (s.level i = 0 ∧ s.value i = signed (s.sign i) 0) ∨
      (s.exponent ≠ 0#8 ∧ s.level i ≠ 0 ∧ (s.value i).msb = s.sign i ∧
        magnitude (s.value i) = levelWord (s.level i) + s.exponent.toNat * 2 ^ 23 - 127 * 2 ^ 23 ∧
        128 * 2 ^ 23 ≤ levelWord (s.level i) + s.exponent.toNat * 2 ^ 23 ∧
        levelWord (s.level i) < 130 * 2 ^ 23) := by
  have hk := hs.level_le i hi
  by_cases hzero : s.level i = 0
  · exact .inl ⟨hzero, by rw [value, if_pos (.inl hzero)]⟩
  · have he : s.exponent ≠ 0#8 := fun hc => hzero (hs.zero hc i hi)
    obtain ⟨hlo, hhi, hone, -⟩ := levelWord_bounds hk hzero
    have hpos : 0 < s.exponent.toNat := Nat.pos_of_ne_zero fun hc => he (BitVec.eq_of_toNat_eq hc)
    have hexp := hs.exponent_le
    have hnormal : 128 * 2 ^ 23 ≤ levelWord (s.level i) + s.exponent.toNat * 2 ^ 23 := by
      by_cases h1 : s.exponent = 1#8
      · have hlevel := hone (hs.normal h1 i hi)
        omega
      · have h1' : s.exponent.toNat ≠ 1 := fun hc => h1 (BitVec.eq_of_toNat_eq hc)
        omega
    have hbound : levelWord (s.level i) + s.exponent.toNat * 2 ^ 23 - 127 * 2 ^ 23 ≤ infinity := by
      unfold infinity
      omega
    right
    rw [value, if_neg (not_or.mpr ⟨hzero, he⟩), msb_signed _ hbound, magnitude_signed _ hbound]
    exact ⟨he, hzero, rfl, rfl, hnormal, hhi⟩

theorem value_finite (hs : s.Canonical) {i : ℕ} (hi : i < 32) : IsFinite (s.value i) := by
  have hexp := hs.exponent_le
  rcases value_cases hs hi with ⟨-, hvalue⟩ | ⟨-, -, -, hmag, -, hhi⟩
  · rw [hvalue, IsFinite, magnitude_signed _ (Nat.zero_le _)]
    decide
  · rw [IsFinite, hmag, infinity]
    omega

/-- The value of an element in ticks: its level in halves, times the power of the exponent byte. -/
theorem ticks_value (hs : s.Canonical) {i : ℕ} (hi : i < 32) :
    ticks (s.value i) = if s.exponent = 0#8 then 0 else units 1 (s.level i) * 2 ^ (s.exponent.toNat + 21) := by
  have hk := hs.level_le i hi
  rcases value_cases hs hi with ⟨hzero, hvalue⟩ | ⟨he, hne, -, hmag, hnormal, -⟩
  · rw [hvalue, ticks, magnitude_signed _ (Nat.zero_le _), hzero, units_zero, units_zero, Nat.zero_mul, ite_self]
  · rw [if_neg he, ticks, hmag]
    -- the level is a significand with an exponent field between 126 and 129
    obtain ⟨d, r, hd, hr, hword, hunits⟩ : ∃ d r, d ≤ 3 ∧ r < 2 ^ 23 ∧
      levelWord (s.level i) = (126 + d) * 2 ^ 23 + r ∧
        units 1 (s.level i) * 2 ^ 23 = (2 ^ 23 + r) * 2 ^ d := by
      have hall : ∀ k ≤ 7, k ≠ 0 → levelWord k / 2 ^ 23 - 126 ≤ 3 ∧ levelWord k % 2 ^ 23 < 2 ^ 23 ∧
          levelWord k = (126 + (levelWord k / 2 ^ 23 - 126)) * 2 ^ 23 + levelWord k % 2 ^ 23 ∧
          units 1 k * 2 ^ 23 = (2 ^ 23 + levelWord k % 2 ^ 23) * 2 ^ (levelWord k / 2 ^ 23 - 126) := by decide
      exact ⟨_, _, hall _ hk hne⟩
    have hpos : 0 < s.exponent.toNat := Nat.pos_of_ne_zero fun hc => he (BitVec.eq_of_toNat_eq hc)
    obtain ⟨e, hexp⟩ : ∃ e, d + s.exponent.toNat = e + 2 := ⟨d + s.exponent.toNat - 2, by omega⟩
    have hsum : levelWord (s.level i) + s.exponent.toNat * 2 ^ 23 - 127 * 2 ^ 23 = e * 2 ^ 23 + (2 ^ 23 + r) := by
      omega
    rw [hsum, units_add (by omega) (.inr (Nat.le_add_right _ _))]
    apply Nat.eq_of_mul_eq_mul_right (Nat.two_pow_pos 23)
    have hexponent : e + 23 = d + (s.exponent.toNat + 21) := by omega
    rw [Nat.mul_right_comm (units 1 (s.level i)), hunits, Nat.mul_assoc, Nat.mul_assoc, ← pow_add,
      ← pow_add, hexponent]

end Stored

/-- The values of a canonical block lead the encoder back to it. -/
theorem storedOf_value (hM : M.flush = true) {s : Stored} (hs : s.Canonical) {blk : ℕ → BitVec 32}
    (hblk : ∀ i < 32, blk i = s.value i) : (storedOf M blk).exponent = s.exponent ∧
      ∀ i < 32, (storedOf M blk).sign i = s.sign i ∧ (storedOf M blk).level i = s.level i := by
  have hword : ∀ i < 32, sanitiseFinite (blk i) = s.value i := by
    intro i hi
    rw [hblk i hi]
    exact sanitiseFinite_finite (s.value_finite hs hi)
  have hexp_le := hs.exponent_le
  -- the exponent byte comes back
  have hexponent : (storedOf M blk).exponent = s.exponent := by
    rw [storedOf_exponent]
    by_cases he : s.exponent = 0#8
    · rcases block_cases hM blk with ⟨hzero, -⟩ | ⟨hnormal, -, ⟨j, hj, hmax⟩, -⟩
      · rw [hzero, sharedExponent_zero, he]
      · rcases s.value_cases hs hj with ⟨-, hvalue⟩ | ⟨hne, -⟩
        · rw [hword j hj, hvalue, magnitude_signed _ (Nat.zero_le _)] at hmax
          omega
        · exact absurd he hne
    · obtain ⟨top, htop, htwo, hsix⟩ := hs.top he
      have hk := hs.level_le top htop
      have hlow : ∀ {k}, k ≤ 7 → 6 ≤ k → 129 * 2 ^ 23 ≤ levelWord k := fun hk h6 =>
        (Stored.levelWord_bounds hk (by omega)).2.2.2 h6
      have hne : s.level top ≠ 0 := Nat.ne_of_gt (lt_of_lt_of_le Nat.two_pos htwo)
      obtain ⟨-, hmag⟩ : s.exponent ≠ 0#8 ∧ magnitude (s.value top) =
          levelWord (s.level top) + s.exponent.toNat * 2 ^ 23 - 127 * 2 ^ 23 := by
        rcases s.value_cases hs htop with ⟨hzero, -⟩ | ⟨he, -, -, hmag, -⟩
        · exact absurd hzero hne
        · exact ⟨he, hmag⟩
      have hnormaltop : 2 ^ 23 ≤ magnitude (s.value top) := by
        rcases s.value_cases hs htop with ⟨hzero, -⟩ | ⟨-, -, -, -, hnormal, -⟩
        · exact absurd hzero hne
        · omega
      rcases block_cases hM blk with ⟨-, hsizes⟩ | ⟨hnormal, hsign, ⟨j, hj, hmax⟩, hbound⟩
      · have hpos := lt_of_lt_of_le (by decide : 0 < units 23 (2 ^ 23)) (Machine.le_size (M := M) le_rfl hnormaltop)
        rw [← hword top htop, hsizes top htop] at hpos
        exact absurd hpos (Nat.lt_irrefl _)
      · obtain ⟨hexp, -⟩ := toNat_sharedExponent (M := M) (absMax_finite M blk 32) hnormal hsign
        have hupper : magnitude (absMax M blk 32) < (s.exponent.toNat + 3) * 2 ^ 23 := by
          rw [← hmax, hword j hj]
          rcases s.value_cases hs hj with ⟨-, hvalue⟩ | ⟨-, -, -, hmagj, -, hhi⟩
          · rw [hvalue, magnitude_signed _ (Nat.zero_le _)]
            omega
          · omega
        have hge : magnitude (s.value top) ≤ magnitude (absMax M blk 32) := by
          rcases hbound top htop with hzero | ⟨-, hle⟩
          · have hpos :=
              lt_of_lt_of_le (by decide : 0 < units 23 (2 ^ 23)) (Machine.le_size (M := M) le_rfl hnormaltop)
            rw [hword top htop] at hzero
            exact absurd hzero (Nat.ne_of_gt hpos)
          · rwa [hword top htop] at hle
        apply BitVec.eq_of_toNat_eq
        rw [hexp]
        by_cases h1 : s.exponent = 1#8
        · have h1' : s.exponent.toNat = 1 := by rw [h1]; rfl
          omega
        · have h1' : s.exponent.toNat ≠ 1 := fun hc => h1 (BitVec.eq_of_toNat_eq hc)
          have hpos : s.exponent.toNat ≠ 0 := fun hc => he (BitVec.eq_of_toNat_eq hc)
          have h129 := hlow hk (hsix h1)
          omega
  refine ⟨hexponent, fun i hi => ?_⟩
  have hfin := s.value_finite hs hi
  have hsign : (s.value i).msb = s.sign i := by
    rcases s.value_cases hs hi with ⟨-, hvalue⟩ | ⟨-, -, hsign, -⟩
    · rw [hvalue, msb_signed _ (Nat.zero_le _)]
    · exact hsign
  constructor
  · have hstored : (storedOf M blk).sign i = (sanitiseFinite (blk i)).msb := by rw [storedOf]
    rw [hstored, hword i hi, hsign]
  · rw [storedOf_level, hexponent, hword i hi]
    rcases s.value_cases hs hi with ⟨hzero, hvalue⟩ | ⟨he, hne, -, hmag, hnormal, hhi⟩
    · have hsize : M.size (s.value i) = 0 := by
        have hle := M.size_le_ticks (s.value i)
        rw [hvalue, ticks, magnitude_signed _ (Nat.zero_le _), units_zero] at hle
        rw [hvalue]
        exact Nat.le_zero.mp hle
      have hmul : magnitude (M.mul (s.value i) (inverseScale M s.exponent)) = 0 := by
        by_cases he : s.exponent = 0#8
        · rw [he, inverseScale_zero, mul_zero_right hfin, magnitude_signed _ (Nat.zero_le _)]
        · rw [(isPower_inverseScale he hexp_le).mul_zero hfin hsize, magnitude_signed _ (Nat.zero_le _)]
      rw [hmul, hzero]
      rfl
    · have hp := isPower_inverseScale (M := M) he hexp_le
      have hback : levelWord (s.level i) + s.exponent.toNat * 2 ^ 23 - 127 * 2 ^ 23 +
          (254 - s.exponent.toNat) * 2 ^ 23 - 127 * 2 ^ 23 = levelWord (s.level i) := by omega
      have hlo := (Stored.levelWord_bounds (hs.level_le i hi) hne).1
      have hbound : levelWord (s.level i) ≤ infinity := by
        unfold infinity
        omega
      rw [hp.mul_normal hfin (by omega) (by omega) (by unfold infinity; omega), hmag, hback,
        magnitude_signed _ hbound, binOf_levelWord (hs.level_le i hi)]

end Encoder

end Qtx.Mxfp4Blocks
