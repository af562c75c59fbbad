import Mathlib.Data.Set.Card
import Mathlib.Data.Set.Insert

/-!
# Tables of owners

A table says for every index which resource it owns, if any. It accounts for a set of
resources when every resource of the set has exactly one owner and nothing else is
owned. Taking and giving back one resource at one index preserves this.
-/
namespace Qtx.OwnershipTables

variable {ι κ : Type*}

structure Owned (owns : ι → Option κ) (t : Set κ) : Prop where
  mem : ∀ i k, owns i = some k → k ∈ t
  unique : ∀ i j k, owns i = some k → owns j = some k → i = j
  exists_owner : ∀ k ∈ t, ∃ i, owns i = some k

theorem owned_empty : Owned (fun _ : ι => (none : Option κ)) ∅ := by
  refine ⟨?_, ?_, ?_⟩
  · intro i k h
    cases h
  · intro i j k h
    cases h
  · intro k h
    cases h

variable {owns : ι → Option κ} {t : Set κ} [DecidableEq ι] {i j : ι} {k l : κ}

theorem update_some_eq_some : Function.update owns i (some k) j = some l ↔
    j = i ∧ k = l ∨ j ≠ i ∧ owns j = some l := by
  by_cases hji : j = i
  · subst hji
    simp
  · simp [hji]

theorem update_none_eq_some : Function.update owns i none j = some l ↔ j ≠ i ∧ owns j = some l := by
  by_cases hji : j = i
  · subst hji
    simp
  · simp [hji]

namespace Owned

theorem take (h : Owned owns t) (hi : owns i = none) (hk : k ∉ t) :
    Owned (Function.update owns i (some k)) (insert k t) := by
  refine ⟨?_, ?_, ?_⟩
  · intro j l hj
    rcases update_some_eq_some.mp hj with ⟨-, rfl⟩ | ⟨-, hj⟩
    · exact Set.mem_insert _ _
    · exact Set.mem_insert_of_mem _ (h.mem j l hj)
  · intro j j' l hj hj'
    rcases update_some_eq_some.mp hj with ⟨rfl, rfl⟩ | ⟨-, hj⟩
    · rcases update_some_eq_some.mp hj' with ⟨rfl, -⟩ | ⟨-, hj'⟩
      · rfl
      · exact absurd (h.mem j' _ hj') hk
    · rcases update_some_eq_some.mp hj' with ⟨-, rfl⟩ | ⟨-, hj'⟩
      · exact absurd (h.mem j _ hj) hk
      · exact h.unique j j' l hj hj'
  · intro l hl
    rcases Set.mem_insert_iff.mp hl with rfl | hl
    · exact ⟨i, update_some_eq_some.mpr (.inl ⟨rfl, rfl⟩)⟩
    · obtain ⟨j, hj⟩ := h.exists_owner l hl
      have hji : j ≠ i := by
        rintro rfl
        rw [hi] at hj
        cases hj
      exact ⟨j, update_some_eq_some.mpr (.inr ⟨hji, hj⟩)⟩

theorem give (h : Owned owns t) (hi : owns i = some k) : Owned (Function.update owns i none) (t \ {k}) := by
  refine ⟨?_, ?_, ?_⟩
  · intro j l hj
    obtain ⟨hji, hj⟩ := update_none_eq_some.mp hj
    refine ⟨h.mem j l hj, ?_⟩
    rintro rfl
    exact hji (h.unique j i l hj hi)
  · intro j j' l hj hj'
    exact h.unique j j' l (update_none_eq_some.mp hj).2 (update_none_eq_some.mp hj').2
  · rintro l ⟨hl, hne⟩
    obtain ⟨j, hj⟩ := h.exists_owner l hl
    refine ⟨j, update_none_eq_some.mpr ⟨?_, hj⟩⟩
    rintro rfl
    rw [hi, Option.some.injEq] at hj
    exact hne hj.symm

theorem keep (h : Owned owns t) {x : Option κ} (hx : x = owns i) : Owned (Function.update owns i x) t := by
  rw [hx, Function.update_eq_self]
  exact h

omit [DecidableEq ι] in
theorem existsUnique (h : Owned owns t) (hk : k ∈ t) : ∃! i, owns i = some k := by
  obtain ⟨i, hi⟩ := h.exists_owner k hk
  exact ⟨i, hi, fun j hj => h.unique j i k hj hi⟩

omit [DecidableEq ι] in
/-- There are as many owners as resources. -/
theorem ncard_eq (h : Owned owns t) : {i | (owns i).isSome = true}.ncard = t.ncard := by
  have hget : ∀ i, ∀ hi : (owns i).isSome = true, owns i = some ((owns i).get hi) :=
    fun _ hi => (Option.some_get hi).symm
  refine Set.ncard_congr (fun i hi => (owns i).get hi) ?_ ?_ ?_
  · intro i hi
    exact h.mem i _ (hget i hi)
  · intro i j hi hj heq
    exact h.unique i j _ (hget i hi) ((hget j hj).trans (congrArg some heq.symm))
  · intro k hk
    obtain ⟨i, hi⟩ := h.exists_owner k hk
    have hs : (owns i).isSome = true := by rw [hi]; rfl
    exact ⟨i, hs, Option.some.inj ((hget i hs).symm.trans hi)⟩

end Owned

end Qtx.OwnershipTables
