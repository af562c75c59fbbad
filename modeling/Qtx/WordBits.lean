import Mathlib.Algebra.BigOperators.Group.Finset.Basic
import Mathlib.Algebra.BigOperators.Intervals
import Mathlib.Data.Nat.ModEq
import Mathlib.Tactic.Ring

/-!
# Words as sets of bit positions

A machine word is read as the finite set of its one-bits, and an array of words
as the set of its global bit indices. The masking idioms `x & ~(1 << i)`,
`x | (1 << i)` and `x & (1 << i)` become erase, insert and membership, a population
count becomes a cardinality, and the lowest set bit is a member.
-/
namespace Qtx.WordBits

variable {w : ℕ}

def ones (x : BitVec w) : Finset ℕ := (Finset.range w).filter (fun i => x.getLsbD i = true)

@[simp] theorem mem_ones {x : BitVec w} {i : ℕ} : i ∈ ones x ↔ x.getLsbD i = true := by
  simp only [ones, Finset.mem_filter, Finset.mem_range, and_iff_right_iff_imp]
  exact BitVec.lt_of_getLsbD

theorem lt_of_mem_ones {x : BitVec w} {i : ℕ} (h : i ∈ ones x) : i < w :=
  BitVec.lt_of_getLsbD (mem_ones.mp h)

theorem ones_eq_empty {x : BitVec w} : ones x = ∅ ↔ x = 0#w := by
  constructor
  · intro h
    apply BitVec.eq_of_getLsbD_eq
    intro i _
    have hi : i ∉ ones x := by simp [h]
    simpa using hi
  · rintro rfl
    simp [ones]

@[simp] theorem ones_allOnes : ones (BitVec.allOnes w) = Finset.range w := by
  ext i
  simp

theorem ones_and_not_twoPow (x : BitVec w) (i : ℕ) :
    ones (x &&& ~~~(BitVec.twoPow w i)) = (ones x).erase i := by
  ext j
  simp only [mem_ones, Finset.mem_erase, BitVec.getLsbD_and, BitVec.getLsbD_not, BitVec.getLsbD_twoPow]
  by_cases hj : j < w
  · by_cases hij : i = j
    · subst hij; simp [hj]
    · simp [hj, hij, Ne.symm hij]
  · simp [BitVec.getLsbD_of_ge x j (Nat.le_of_not_lt hj)]

theorem ones_or_twoPow (x : BitVec w) {i : ℕ} (hi : i < w) :
    ones (x ||| BitVec.twoPow w i) = insert i (ones x) := by
  ext j
  simp only [mem_ones, Finset.mem_insert, BitVec.getLsbD_or, BitVec.getLsbD_twoPow, hi, decide_true,
    Bool.true_and, Bool.or_eq_true, decide_eq_true_eq]
  constructor
  · rintro (h | rfl)
    · exact Or.inr h
    · exact Or.inl rfl
  · rintro (rfl | h)
    · exact Or.inr rfl
    · exact Or.inl h

theorem and_twoPow_eq_zero {x : BitVec w} {i : ℕ} (hi : i < w) :
    x &&& BitVec.twoPow w i = 0#w ↔ i ∉ ones x := by
  rw [BitVec.and_twoPow, mem_ones]
  cases h : x.getLsbD i with
  | false => simp
  | true =>
    simp only [↓reduceIte, not_true_eq_false, iff_false]
    intro hz
    have ht := congrArg BitVec.toNat hz
    simp [BitVec.toNat_twoPow_of_lt hi] at ht

/-- Counting trailing zeros finds a set bit. -/
theorem ctz_mem_ones {x : BitVec w} (h : x ≠ 0#w) : x.ctz.toNat ∈ ones x :=
  mem_ones.mpr (BitVec.getLsbD_true_ctz_of_ne_zero h)

private theorem cpopNatRec_eq_card (x : BitVec w) (n acc : ℕ) :
    x.cpopNatRec n acc = acc + ((Finset.range n).filter (fun i => x.getLsbD i = true)).card := by
  induction n generalizing acc with
  | zero => simp
  | succ n ih =>
    rw [BitVec.cpopNatRec_succ, ih, Finset.range_add_one, Finset.filter_insert]
    cases h : x.getLsbD n with
    | false => simp
    | true => simp; omega

theorem toNat_cpop_eq_card (x : BitVec w) : x.cpop.toNat = (ones x).card := by
  rw [BitVec.toNat_cpop, cpopNatRec_eq_card, Nat.zero_add, ones]

/-! An array of words addresses bit `i` as word `i / w`, position `i % w`. -/

/-- The global indices of the one-bits of the first `n` words. -/
def members (words : ℕ → BitVec w) (n : ℕ) : Finset ℕ :=
  (Finset.range (n * w)).filter (fun i => i % w ∈ ones (words (i / w)))

theorem mem_members {words : ℕ → BitVec w} {n i : ℕ} :
    i ∈ members words n ↔ i < n * w ∧ i % w ∈ ones (words (i / w)) := by
  simp only [members, Finset.mem_filter, Finset.mem_range]

theorem index_div {k b : ℕ} (hb : b < w) : (k * w + b) / w = k := by
  have hw : 0 < w := by omega
  rw [Nat.add_comm, Nat.add_mul_div_right _ _ hw, Nat.div_eq_of_lt hb, Nat.zero_add]

theorem index_mod {k b : ℕ} (hb : b < w) : (k * w + b) % w = b := by
  rw [Nat.add_comm, Nat.add_mul_mod_self_right, Nat.mod_eq_of_lt hb]

theorem index_lt {k b n : ℕ} (hk : k < n) (hb : b < w) : k * w + b < n * w := by
  have h := Nat.mul_le_mul_right w (Nat.succ_le_of_lt hk)
  rw [Nat.succ_mul] at h
  omega

theorem index_mem_members {words : ℕ → BitVec w} {n k b : ℕ} (hk : k < n) (hb : b ∈ ones (words k)) :
    k * w + b ∈ members words n := by
  have hw := lt_of_mem_ones hb
  exact mem_members.mpr ⟨index_lt hk hw, by rwa [index_mod hw, index_div hw]⟩

theorem div_lt_of_lt {n i : ℕ} (h : i < n * w) : i / w < n :=
  Nat.div_lt_of_lt_mul (Nat.mul_comm n w ▸ h)

theorem mod_lt_of_lt {n i : ℕ} (h : i < n * w) : i % w < w := by
  rcases Nat.eq_zero_or_pos w with hw | hw
  · simp [hw] at h
  · exact Nat.mod_lt _ hw

/-- Only the addressed index is affected by rewriting one word. -/
theorem members_update {words : ℕ → BitVec w} {n i : ℕ} (x : BitVec w) (j : ℕ) :
    j ∈ members (Function.update words (i / w) x) n ↔
      if j / w = i / w then j < n * w ∧ j % w ∈ ones x else j ∈ members words n := by
  by_cases h : j / w = i / w
  · simp [mem_members, h]
  · simp [mem_members, h, Function.update_of_ne]

private theorem index_ext {i j : ℕ} (hd : j / w = i / w) (hm : j % w = i % w) : j = i := by
  rw [← Nat.div_add_mod j w, ← Nat.div_add_mod i w, hd, hm]

theorem members_clear (words : ℕ → BitVec w) (n i : ℕ) :
    members (Function.update words (i / w) (words (i / w) &&& ~~~(BitVec.twoPow w (i % w)))) n =
      (members words n).erase i := by
  ext j
  rw [members_update, Finset.mem_erase, ones_and_not_twoPow, Finset.mem_erase]
  by_cases hd : j / w = i / w
  · have hne : j % w ≠ i % w ↔ j ≠ i := not_congr ⟨index_ext hd, fun h => h ▸ rfl⟩
    rw [if_pos hd, mem_members, hd, hne]
    tauto
  · rw [if_neg hd]
    exact ⟨fun h => ⟨fun he => hd (he ▸ rfl), h⟩, fun h => h.2⟩

theorem members_set {words : ℕ → BitVec w} {n i : ℕ} (hi : i < n * w) :
    members (Function.update words (i / w) (words (i / w) ||| BitVec.twoPow w (i % w))) n =
      insert i (members words n) := by
  ext j
  rw [members_update, Finset.mem_insert, ones_or_twoPow _ (mod_lt_of_lt hi), Finset.mem_insert]
  by_cases hd : j / w = i / w
  · have heq : j % w = i % w ↔ j = i := ⟨index_ext hd, fun h => h ▸ rfl⟩
    rw [if_pos hd, mem_members, hd, heq]
    constructor
    · rintro ⟨hj, h | h⟩
      · exact Or.inl h
      · exact Or.inr ⟨hj, h⟩
    · rintro (rfl | ⟨hj, h⟩)
      · exact ⟨hi, Or.inl rfl⟩
      · exact ⟨hj, Or.inr h⟩
  · rw [if_neg hd]
    exact ⟨Or.inr, fun h => h.resolve_left (fun he => hd (he ▸ rfl))⟩

/-- The population counts of the words add up to the number of set indices. -/
theorem sum_cpop_eq_card (words : ℕ → BitVec w) (n : ℕ) :
    (∑ k ∈ Finset.range n, (words k).cpop.toNat) = (members words n).card := by
  induction n with
  | zero => simp [members]
  | succ n ih =>
    rw [Finset.sum_range_succ, ih, toNat_cpop_eq_card]
    have hsplit : members words (n + 1) = members words n ∪ (ones (words n)).map (addLeftEmbedding (n * w)) := by
      ext i
      simp only [Finset.mem_union, Finset.mem_map, addLeftEmbedding_apply, mem_members]
      constructor
      · rintro ⟨hi, hb⟩
        by_cases h : i < n * w
        · exact Or.inl ⟨h, hb⟩
        · have hd : i / w = n := Nat.le_antisymm (Nat.lt_succ_iff.mp (div_lt_of_lt hi))
            ((Nat.le_div_iff_mul_le (Nat.zero_lt_of_lt (mod_lt_of_lt hi))).mpr (Nat.le_of_not_lt h))
          refine Or.inr ⟨i % w, hd ▸ hb, ?_⟩
          have he := Nat.div_add_mod i w
          rwa [hd, Nat.mul_comm] at he
      · rintro (⟨hi, hb⟩ | ⟨b, hb, rfl⟩)
        · exact ⟨by rw [Nat.succ_mul]; omega, hb⟩
        · exact mem_members.mp (index_mem_members (Nat.lt_succ_self n) hb)
    rw [hsplit, Finset.card_union_of_disjoint, Finset.card_map]
    rw [Finset.disjoint_left]
    intro i hi hm
    obtain ⟨b, _, rfl⟩ := Finset.mem_map.mp hm
    have hlt := (mem_members.mp hi).1
    simp only [addLeftEmbedding_apply] at hlt
    omega

theorem members_allOnes (n : ℕ) : members (fun _ => BitVec.allOnes w) n = Finset.range (n * w) := by
  ext i
  simp only [mem_members, ones_allOnes, Finset.mem_range, and_iff_left_iff_imp]
  exact mod_lt_of_lt

theorem members_eq_empty {words : ℕ → BitVec w} {n : ℕ} :
    members words n = ∅ ↔ ∀ k < n, words k = 0#w := by
  constructor
  · intro h k hk
    rw [← ones_eq_empty, Finset.eq_empty_iff_forall_notMem]
    intro b hb
    have hm := index_mem_members hk hb
    simp [h] at hm
  · intro h
    rw [Finset.eq_empty_iff_forall_notMem]
    intro i hi
    obtain ⟨hlt, hb⟩ := mem_members.mp hi
    rw [h _ (div_lt_of_lt hlt)] at hb
    simp at hb

end Qtx.WordBits
