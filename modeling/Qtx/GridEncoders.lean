import Qtx.EncoderScales
import Qtx.GridLayouts
import Qtx.ScanBounds
import Mathlib.Data.Bool.Basic

/-!
# Encoders of the I-quants

An encoder whose largest scale is below a guard writes a block of zeros. Otherwise it packs
fields that are in range, so its decoder reads them back. In the formats with seven sign
bits the code that is read stands for the signs the values were quantised with.
-/
namespace Qtx.GridFields

open Qtx.ByteStreams Qtx.FloatWords Qtx.FloatMachine Qtx.FpeGuard Qtx.PackedDigits Qtx.QuantizerHelpers Qtx.IQuants
  Qtx.SignParity Qtx.FloatScans Qtx.FloatErrors Qtx.ScanBounds Qtx.EncoderScales

variable {M : Machine} {C : Codebooks}

/-! Ranges. -/

theorem bestPoint_lt (error : ℕ → BitVec 32) {n : ℕ} (hn : 0 < n) : bestPoint M error n < n := by
  apply loop_induction (fun _ (acc : ℕ × BitVec 32) => acc.1 < n) hn
  intro k hk acc hacc
  split_ifs
  · exact hk
  · exact hacc

theorem bestGridIndexU64_lt (grid : ℕ → BitVec 64) {n : ℕ} (hn : 0 < n) (target : ℕ → BitVec 32) :
    bestGridIndexU64 M grid n target < n := bestPoint_lt _ hn

theorem bestGridIndexU32_lt (grid : ℕ → BitVec 32) {n : ℕ} (hn : 0 < n) (target : ℕ → BitVec 32) :
    bestGridIndexU32 M grid n target < n := bestPoint_lt _ hn

theorem bestGridIQ1S_lt (grid : ℕ → BitVec 64) (target : ℕ → BitVec 32) (delta : BitVec 32) :
    bestGridIQ1S M grid target delta < 2 ^ 11 := bestPoint_lt _ (by decide)

theorem bestIndexIQ4_lt (v : BitVec 32) : bestIndexIQ4 M C v < 2 ^ 4 := by
  unfold bestIndexIQ4
  split_ifs
  · decide
  · decide
  · apply loop_induction (fun _ (acc : ℕ × BitVec 32) => acc.1 < 2 ^ 4) (by decide : 0 < 2 ^ 4)
    intro k hk acc hacc
    dsimp only
    split_ifs
    · exact Nat.succ_lt_succ hk
    · exact hacc

/-- A signed scale of six bits above its least value. -/
theorem offsetClamp_lt (i : ℤ) : (clampInt (-32) 31 i + 32).toNat < 2 ^ 6 := by
  have hclamp := clampInt_bounds (by decide : (-32 : ℤ) ≤ 31) i
  omega

theorem planScale_lt (factor : ℕ) (dSuper db : BitVec 32) : planScale M factor dSuper db < 2 ^ 4 := by
  unfold planScale
  split_ifs
  · have hclamp := clampInt_bounds (by decide : (0 : ℤ) ≤ 15)
      (nearestInt M (M.sub (M.div (M.mul db (literal factor 1)) dSuper) half))
    omega
  · decide

theorem oddScale_lt (unit dInit gmax : BitVec 32) {top : ℤ} {w : ℕ} (hpos : 0 ≤ top) (htop : top < 2 ^ w) :
    oddScale M unit top dInit gmax < 2 ^ w := by
  have hw : ((2 ^ w : ℕ) : ℤ) = 2 ^ w := by push_cast; rfl
  unfold oddScale
  split_ifs
  · have hclamp := clampInt_bounds hpos (nearestInt M (M.mul (M.sub (M.div gmax (M.mul unit dInit)) one) half))
    omega
  · exact Nat.two_pow_pos w

section Plans

variable {group : (ℕ → BitVec 32) → SignedGroup} {divisor size n : ℕ} {search : (ℕ → BitVec 32) → ℕ}
  {blk : ℕ → BitVec 32}

theorem gridIdx_plans (h : ∀ target, search target < n) (ib g : ℕ) :
    (plans M group divisor size search blk ib).gridIdx g < n := h _

theorem signs_plans (ib k : ℕ) : (plans M group divisor size search blk ib).signs k =
    (group (fun j => blk (32 * ib + (8 * k + j)))).signs := rfl

end Plans

/-- The largest scale of the eight plans, which does not depend on what they search. -/
def maxDb (M : Machine) (group : (ℕ → BitVec 32) → SignedGroup) (divisor : ℕ) (blk : ℕ → BitVec 32) : BitVec 32 :=
  maxPlan M (plans M group divisor 8 (fun _ => 0) blk)

theorem maxPlan_plans (group : (ℕ → BitVec 32) → SignedGroup) (divisor size : ℕ) (search : (ℕ → BitVec 32) → ℕ)
    (blk : ℕ → BitVec 32) : maxPlan M (plans M group divisor size search blk) = maxDb M group divisor blk := rfl

/-- One of the plans is enough to pass the guard. -/
theorem not_lt_maxDb {group : (ℕ → BitVec 32) → SignedGroup} {divisor : ℕ} {blk : ℕ → BitVec 32}
    (hgroup : FiniteGroups group) (hc : AtLeastOne (literal divisor 1)) (ib : ℕ) (hib : ib < 8)
    (h : M.lt (groupScale M divisor (groupValues (fun k => group (fun j => blk (32 * ib + (8 * k + j))))))
      tiny = false) :
    M.lt (maxDb M group divisor blk) tiny = false := by
  have htiny : IsFinite tiny := by decide
  have hdb : ∀ ib < 8, IsFinite (plans M group divisor 8 (fun _ => 0) blk ib).db := by
    intro ib _
    rw [db_plans]
    unfold groupScale
    dsimp only
    split_ifs
    · exact hc.div (finite_positiveMax fun _ _ => finite_groupValues (fun _ _ => hgroup _ _) _)
    · exact finite_zero
  have hle := (real_le_positiveMax (M := M) hdb).2 ib hib
  rw [db_plans] at hle
  rw [← Bool.not_eq_true, lt_iff (db_plans divisor ib ▸ hdb ib hib) htiny, ← real_lt_iff, not_lt] at h
  rw [← Bool.not_eq_true, maxDb, maxPlan, lt_iff (finite_positiveMax hdb) htiny, ← real_lt_iff, not_lt]
  exact h.trans hle

theorem splitSigns_lt (x : ℕ → BitVec 32) : (splitSigns M x).signs < 2 ^ 8 := by
  rw [splitSigns_signs]
  exact bitMask_lt _ 8

/-- The group of eight words whose signs lie in one field. -/
def signGroup (block : Bytes) (ib l j : ℕ) : BitVec 32 := wordAt block (32 * ib + (8 * l + j))

namespace GridFormat

/-- The fields of an encoder are in range, the scale was finite before it was stored, and the sign codes
of seven bits are those of the corrected masks. -/
structure Encodes (f : GridFormat) (M : Machine) (block : Bytes) (x : Fields) : Prop where
  inRange : f.InRange x
  scale : ∃ v, IsFinite v ∧ x.d = fp32ToFP16Safe v
  signs : f.signBits = 7 → ∀ ib l, x.signs ib l = (evenSigns M (signGroup block ib l)).signs &&& 0x7F

section Fields

variable {f : GridFormat} {block : Bytes} {v : BitVec 32} {index signs : ℕ → ℕ → ℕ} {scale : ℕ → ℕ}

/-- A format with one scale for 32 elements packs fields that are in range. -/
theorem exists_encodes (packed : BitVec 16 → (ℕ → ℕ → ℕ) → (ℕ → ℕ → ℕ) → (ℕ → ℕ) → Bytes)
    (hpack : ∀ d index signs scale, packed d index signs scale = f.pack ⟨d, index, signs, fun ib _ => scale ib⟩)
    (hindex : ∀ ib g, index ib g < 2 ^ f.indexBits) (hsigns : ∀ ib l, signs ib l < 2 ^ f.signBits)
    (hscale : ∀ ib, scale ib < 2 ^ f.scaleBits)
    (hcode : f.signBits = 7 → ∀ ib l, signs ib l = (evenSigns M (signGroup block ib l)).signs &&& 0x7F)
    (hv : IsFinite v) : ∃ x, f.Encodes M block x ∧ packed (fp32ToFP16Safe v) index signs scale = f.pack x :=
  ⟨_, ⟨⟨fun ib _ g _ => hindex ib g, fun ib _ _ _ => hsigns ib _, fun ib _ _ _ => hscale ib⟩, ⟨v, hv, rfl⟩, hcode⟩,
    hpack _ _ _ _⟩

theorem exists_packIQ1_S {deltaNeg : ℕ → Bool} (hindex : ∀ ib g, index ib g < 2 ^ 11)
    (hscale : ∀ ib, scale ib < 2 ^ 3) (hv : IsFinite v) :
    ∃ x, iq1_S.Encodes M block x ∧ packIQ1_S (fp32ToFP16Safe v) index scale deltaNeg = iq1_S.pack x := by
  refine ⟨⟨fp32ToFP16Safe v, index, fun ib _ => (deltaNeg ib).toNat, fun ib _ => scale ib⟩,
    ⟨⟨?_, ?_, ?_⟩, ⟨v, hv, rfl⟩, ?_⟩, ?_⟩
  · exact fun ib _ g _ => hindex ib g
  · exact fun ib _ _ _ => Bool.toNat_lt _
  · exact fun ib _ _ _ => hscale ib
  · exact fun h => absurd h (by decide)
  · simp only [pack, Bool.toNat_bne_zero]

theorem exists_packIQ1_M {deltaNeg : ℕ → Bool} (hindex : ∀ ib g, index ib g < 2 ^ 11)
    (hscale : ∀ sb, scale sb < 2 ^ 3) (hv : IsFinite v) :
    ∃ x, iq1_M.Encodes M block x ∧ packIQ1_M (fp32ToFP16Safe v) index scale deltaNeg = iq1_M.pack x := by
  have hpair : ∀ sb, 2 * (sb / 2) + sb % 2 = sb := fun sb => Nat.div_add_mod sb 2
  refine ⟨⟨fp32ToFP16Safe v, index, fun ib half => (deltaNeg (2 * ib + half)).toNat,
    fun ib half => scale (2 * ib + half)⟩, ⟨⟨?_, ?_, ?_⟩, ⟨v, hv, rfl⟩, ?_⟩, ?_⟩
  · exact fun ib _ g _ => hindex ib g
  · exact fun ib _ _ _ => Bool.toNat_lt _
  · exact fun ib _ _ _ => hscale _
  · exact fun h => absurd h (by decide)
  · simp only [pack, Bool.toNat_bne_zero, hpair]

theorem exists_packIQ4_XS {level : ℕ → ℕ} (hlevel : ∀ i, level i < 2 ^ 4) (hscale : ∀ ib, scale ib < 2 ^ 6)
    (hv : IsFinite v) :
    ∃ x, iq4_XS.Encodes M block x ∧ packIQ4_XS (fp32ToFP16Safe v) scale level = iq4_XS.pack x := by
  have hsplit : ∀ i, 32 * (i / 32) + i % 32 = i := fun i => Nat.div_add_mod i 32
  refine ⟨⟨fp32ToFP16Safe v, fun ib j => level (32 * ib + j), fun _ _ => 0, fun ib _ => scale ib⟩,
    ⟨⟨?_, ?_, ?_⟩, ⟨v, hv, rfl⟩, ?_⟩, ?_⟩
  · exact fun ib _ g _ => hlevel _
  · exact fun _ _ _ _ => Nat.one_pos
  · exact fun ib _ _ _ => hscale ib
  · exact fun h => absurd h (by decide)
  · simp only [pack, hsplit]

end Fields

/-- What an encoder compares with `tiny` before it divides by it. -/
def guardScale (f : GridFormat) (M : Machine) (block : Bytes) : BitVec 32 :=
  let blk := wordAt block
  match f with
  | iq2_XXS | iq2_XS => maxDb M (evenSigns M) 25 blk
  | iq2_S => maxDb M (splitSigns M) 25 blk
  | iq3_XXS => maxDb M (evenSigns M) 14 blk
  | iq3_S | iq1_S | iq1_M => absMax M blk 256
  | iq4_XS => (extremeScale M (fun ib => M.div (subBlockSignedAbsMax M (fun j => blk (32 * ib + j)) 32) minIQ4) 8).1

/-- An encoder writes zeros under its guard and packs its fields otherwise. -/
theorem encode_eq (f : GridFormat) (block : Bytes) :
    (M.lt (f.guardScale M block) tiny = true ∧ f.blockFormat.encode M C block = fun _ => 0) ∨
      (M.lt (f.guardScale M block) tiny = false ∧
        ∃ x, f.Encodes M block x ∧ f.blockFormat.encode M C block = f.pack x) := by
  have hmask : ∀ n, n &&& 0x7F < 2 ^ 7 := fun n => Nat.and_lt_two_pow n (by decide)
  have h434 : AtLeastOne (literal 434 1) := by decide
  have h17 : AtLeastOne (literal 17 1) := by decide
  have h127 : AtLeastOne minIQ4 := by decide
  cases f with
  | iq2_XXS =>
    change (_ ∧ encodeIQ2_XXS M C block = _) ∨ (_ ∧ ∃ x, _ ∧ encodeIQ2_XXS M C block = _)
    unfold encodeIQ2_XXS
    dsimp only
    split_ifs with hguard
    all_goals rw [maxPlan_plans] at hguard
    · exact .inl ⟨hguard, rfl⟩
    · refine .inr ⟨Bool.eq_false_iff.mpr hguard, ?_⟩
      apply exists_encodes packIQ2_XXS (fun _ _ _ _ => rfl)
      · exact gridIdx_plans (bestGridIndexU64_lt C.iq2xxsGrid (by decide))
      · exact fun _ _ => hmask _
      · exact fun _ => planScale_lt _ _ _
      · intro _ ib l
        rw [signs_plans]
        rfl
      · exact finite_superIQ2 finiteGroups_evenSigns
  | iq2_XS =>
    change (_ ∧ encodeIQ2_XS M C block = _) ∨ (_ ∧ ∃ x, _ ∧ encodeIQ2_XS M C block = _)
    unfold encodeIQ2_XS
    dsimp only
    split_ifs with hguard
    all_goals rw [maxPlan_plans] at hguard
    · exact .inl ⟨hguard, rfl⟩
    · refine .inr ⟨Bool.eq_false_iff.mpr hguard, ?_⟩
      apply exists_encodes packIQ2_XS (fun _ _ _ _ => rfl)
      · exact gridIdx_plans (bestGridIndexU64_lt C.iq2xsGrid (by decide))
      · exact fun _ _ => hmask _
      · exact fun _ => planScale_lt _ _ _
      · intro _ ib l
        rw [signs_plans]
        rfl
      · exact finite_superIQ2 finiteGroups_evenSigns
  | iq2_S =>
    change (_ ∧ encodeIQ2_S M C block = _) ∨ (_ ∧ ∃ x, _ ∧ encodeIQ2_S M C block = _)
    unfold encodeIQ2_S
    dsimp only
    split_ifs with hguard
    all_goals rw [maxPlan_plans] at hguard
    · exact .inl ⟨hguard, rfl⟩
    · refine .inr ⟨Bool.eq_false_iff.mpr hguard, ?_⟩
      apply exists_encodes packIQ2_S (fun _ _ _ _ => rfl)
      · exact gridIdx_plans (bestGridIndexU64_lt C.iq2sGrid (by decide))
      · intro ib l
        rw [signs_plans]
        exact splitSigns_lt _
      · exact fun _ => planScale_lt _ _ _
      · exact fun h => absurd h (by decide)
      · exact finite_superIQ2 finiteGroups_splitSigns
  | iq3_XXS =>
    change (_ ∧ encodeIQ3_XXS M C block = _) ∨ (_ ∧ ∃ x, _ ∧ encodeIQ3_XXS M C block = _)
    unfold encodeIQ3_XXS
    dsimp only
    split_ifs with hguard
    all_goals rw [maxPlan_plans] at hguard
    · exact .inl ⟨hguard, rfl⟩
    · refine .inr ⟨Bool.eq_false_iff.mpr hguard, ?_⟩
      apply exists_encodes packIQ3_XXS (fun _ _ _ _ => rfl)
      · exact gridIdx_plans (bestGridIndexU32_lt C.iq3xxsGrid (by decide))
      · exact fun _ _ => hmask _
      · exact fun _ => planScale_lt _ _ _
      · intro _ ib l
        rw [signs_plans]
        rfl
      · exact finite_superIQ3 finiteGroups_evenSigns
  | iq3_S =>
    change (_ ∧ encodeIQ3_S M C block = _) ∨ (_ ∧ ∃ x, _ ∧ encodeIQ3_S M C block = _)
    unfold encodeIQ3_S
    dsimp only
    split_ifs with hguard
    · exact .inl ⟨hguard, rfl⟩
    · refine .inr ⟨Bool.eq_false_iff.mpr hguard, ?_⟩
      apply exists_encodes packIQ3_S (fun _ _ _ _ => rfl)
      · exact fun _ _ => bestGridIndexU32_lt C.iq3sGrid (by decide) _
      · exact fun _ _ => splitSigns_lt _
      · exact fun _ => oddScale_lt _ _ _ (by decide) (by decide)
      · exact fun h => absurd h (by decide)
      · exact h434.div (absMax_finite M _ _)
  | iq1_S =>
    change (_ ∧ encodeIQ1_S M C block = _) ∨ (_ ∧ ∃ x, _ ∧ encodeIQ1_S M C block = _)
    unfold encodeIQ1_S
    dsimp only
    split_ifs with hguard
    · exact .inl ⟨hguard, rfl⟩
    · refine .inr ⟨Bool.eq_false_iff.mpr hguard, ?_⟩
      apply exists_packIQ1_S
      · exact fun _ _ => bestGridIQ1S_lt _ _ _
      · exact fun _ => oddScale_lt _ _ _ (by decide) (by decide)
      · exact h17.div (absMax_finite M _ _)
  | iq1_M =>
    change (_ ∧ encodeIQ1_M M C block = _) ∨ (_ ∧ ∃ x, _ ∧ encodeIQ1_M M C block = _)
    unfold encodeIQ1_M
    dsimp only
    split_ifs with hguard
    · exact .inl ⟨hguard, rfl⟩
    · refine .inr ⟨Bool.eq_false_iff.mpr hguard, ?_⟩
      apply exists_packIQ1_M
      · exact fun _ _ => bestGridIQ1S_lt _ _ _
      · exact fun _ => oddScale_lt _ _ _ (by decide) (by decide)
      · exact h17.div (absMax_finite M _ _)
  | iq4_XS =>
    change (_ ∧ encodeIQ4_XS M C block = _) ∨ (_ ∧ ∃ x, _ ∧ encodeIQ4_XS M C block = _)
    unfold encodeIQ4_XS
    dsimp only
    split_ifs with hguard
    · exact .inl ⟨hguard, rfl⟩
    · refine .inr ⟨Bool.eq_false_iff.mpr hguard, ?_⟩
      apply exists_packIQ4_XS
      · exact fun _ => bestIndexIQ4_lt _
      · exact fun _ => offsetClamp_lt _
      · exact finite_inverse (by decide) (by decide) (fun _ => h127.div (subBlockSignedAbsMax_finite M _ _)) 8

/-- What a decoder reads from the bytes of an encoder. -/
structure ReadsEncoded (f : GridFormat) (M : Machine) (block encoded : Bytes) (x : Fields) : Prop where
  inRange : f.InRange x
  packed : encoded = f.pack x
  readsBack : f.ReadsBack (f.read encoded) x
  signs : f.signBits = 7 → ∀ ib < 8, ∀ l < 4,
    ksignsIq2xs ((f.read encoded).signs ib l) = BitVec.ofNat 8 (evenSigns M (signGroup block ib l)).signs

theorem readsEncoded_of_packed {f : GridFormat} {block encoded : Bytes}
    (h : ∃ x, f.Encodes M block x ∧ encoded = f.pack x) : ∃ x, f.ReadsEncoded M block encoded x := by
  obtain ⟨x, hx, hpack⟩ := h
  have hread := GridLayouts.readsBack f hx.inRange
  refine ⟨x, hx.inRange, hpack, hpack ▸ hread, ?_⟩
  intro hbits ib hib l hl
  have hindex : f.signIndex l = l := by
    cases f <;> first | rfl | exact absurd hbits (by decide)
  rw [hpack, hread.signs ib hib l hl, hindex, hx.signs hbits]
  exact (parityCorrected M (signGroup block ib l)).decoded

/-- Fields in range are read back. An odd sign mask is corrected at a smallest value, so it stays within one bit of
the true signs unless a word of the group is flushed. An encoder writes zeros under its guard, and what it writes
otherwise is read back with the corrected masks. -/
theorem layouts_roundTrip (M : Machine) (C : Codebooks) :
    (∀ (f : GridFormat) (x : Fields), f.InRange x → f.ReadsBack (f.read (f.pack x)) x) ∧
    (∀ x : ℕ → BitVec 32, ParityCorrected M x (evenSigns M x)) ∧
    (∀ x : ℕ → BitVec 32, Unflushed M x → WithinOneBit x (evenSigns M x).signs) ∧
    ∀ (f : GridFormat) (block : Bytes),
      (M.lt (f.guardScale M block) tiny = true → f.blockFormat.encode M C block = fun _ => 0) ∧
      (M.lt (f.guardScale M block) tiny = false →
        ∃ x, f.ReadsEncoded M block (f.blockFormat.encode M C block) x) := by
  refine ⟨fun f x => GridLayouts.readsBack f, parityCorrected M, fun x => (parityCorrected M x).withinOneBit, ?_⟩
  intro f block
  rcases f.encode_eq (M := M) (C := C) block with ⟨hguard, hzero⟩ | ⟨hguard, hpacked⟩
  · refine ⟨fun _ => hzero, fun hfalse => ?_⟩
    rw [hguard] at hfalse
    exact absurd hfalse (by decide)
  · refine ⟨fun htrue => ?_, fun _ => readsEncoded_of_packed hpacked⟩
    rw [hguard] at htrue
    exact absurd htrue (by decide)

/-- Every field holds its own number. -/
def countingFields : Fields where
  d := 0x3C00#16
  index _ g := g
  signs _ l := l
  scale ib _ := ib

/-- A group with one negative word, whose smallest word is the fourth. -/
def oddGroup (j : ℕ) : BitVec 32 :=
  [0xBF800000#32, 0x40000000#32, 0x40400000#32, 0x3F000000#32, 0x40800000#32, 0x40A00000#32, 0x40C00000#32,
    0x40E00000#32].getD j 0#32

def oddBlock : Bytes := wordBytes (fun i => oddGroup (i % 8))

theorem layouts_roundTrip_odd :
    iq2_XXS.ReadsBack (iq2_XXS.read (iq2_XXS.pack countingFields)) countingFields ∧
    ParityCorrected flushMachine oddGroup (evenSigns flushMachine oddGroup) ∧
    WithinOneBit oddGroup (evenSigns flushMachine oddGroup).signs ∧
    trueSigns oddGroup = 1 ∧ (evenSigns flushMachine oddGroup).signs = 9 ∧
    ∃ x, iq2_XXS.ReadsEncoded flushMachine oddBlock
      (iq2_XXS.blockFormat.encode flushMachine emptyCodebooks oddBlock) x := by
  obtain ⟨hread, hparity, hbit, hencode⟩ := layouts_roundTrip flushMachine emptyCodebooks
  have hguard : flushMachine.lt (iq2_XXS.guardScale flushMachine oddBlock) tiny = false :=
    not_lt_maxDb finiteGroups_evenSigns (by decide) 0 (by decide) (by decide +kernel)
  refine ⟨hread iq2_XXS _ ⟨?_, ?_, ?_⟩, hparity oddGroup, hbit oddGroup ?_, ?_, ?_,
    (hencode iq2_XXS oddBlock).2 hguard⟩
  · exact fun _ _ g hg => lt_trans hg (by decide)
  · exact fun _ _ l hl => lt_trans hl (by decide)
  · exact fun ib hib _ _ => lt_trans hib (by decide)
  · intro _
    decide
  · decide
  · decide

/-- Three words that are negative and subnormal in every group, beside five ones. -/
def subnormalBlock : Bytes := wordBytes (fun i => if i % 8 < 3 then 0x80000001#32 else 0x3F800000#32)

/-- Where words are flushed the mask that is read back can be three bits from the true signs. -/
theorem not_withinOneBit_subnormals : ¬ WithinOneBit (signGroup subnormalBlock 0 0) (ksignsIq2xs
    ((iq2_XXS.read (iq2_XXS.blockFormat.encode flushMachine emptyCodebooks subnormalBlock)).signs 0 0)).toNat := by
  have hguard : flushMachine.lt (iq2_XXS.guardScale flushMachine subnormalBlock) tiny = false :=
    not_lt_maxDb finiteGroups_evenSigns (by decide) 0 (by decide) (by decide +kernel)
  have hpacked := (encode_eq (C := emptyCodebooks) iq2_XXS subnormalBlock).resolve_left fun h =>
    Bool.eq_false_iff.mp hguard h.1
  obtain ⟨x, hx⟩ := readsEncoded_of_packed hpacked.2
  have hmask : (evenSigns flushMachine (signGroup subnormalBlock 0 0)).signs = 0 := by decide +kernel
  have htrue : trueSigns (signGroup subnormalBlock 0 0) = 7 := by decide +kernel
  have hfar : ∀ k < 8, ¬ (0 = 7 ∨ 0 = 7 ^^^ 1 <<< k) := by decide
  rw [hx.signs rfl 0 (by decide) 0 (by decide), hmask]
  rintro ⟨k, hk, -, hbits⟩
  rw [htrue] at hbits
  exact hfar k hk hbits

end GridFormat

end Qtx.GridFields
