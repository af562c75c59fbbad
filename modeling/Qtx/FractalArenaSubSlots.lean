import Qtx.FractalArenaHorizon

/-!
# Which sub-slots a handle can name

The number of sub-slots comes from the sizes of the slot and of the sub-slot, and their
index is a field of five bits, whose setter ignores what does not fit. From the
thirty-third sub-slot on an index stands for the sub-slot that the handle named before.
-/
namespace Qtx.FractalArenaSubSlots
open SpanMemory FractalArena FractalArenaRuns FractalArenaHorizon GenerationCounters

variable {g : Geometry} {subSlotSize : ℕ}

/-- Every index below the number of sub-slots names a sub-slot of its own inside the slot. -/
def Addressable (s : FractalArena g) (id : GenID) (subSlotSize : ℕ) : Prop :=
  ∀ i < g.subSlotCount subSlotSize, ∀ j < g.subSlotCount subSlotSize,
    let v := s.viewSubSlot (id.withSubSlot i) subSlotSize
    let v' := s.viewSubSlot (id.withSubSlot j) subSlotSize
    v.isEmpty = false ∧ v.length = subSlotSize ∧ v.Within (g.slotSpan id.id) ∧ (i ≠ j → v.Disjoint v')

/-- A slot that is taken has an odd generation. -/
theorem odd_version (before : List Op) {slot : ℕ}
    (ho : slot ∈ (before.foldl apply ⟨.new g, []⟩).arena.occupied) :
    ((before.foldl apply ⟨.new g, []⟩).arena.versions slot).toNat.testBit 0 = true := by
  have hstart : (cell ⟨.new g, []⟩ slot : Cell 16) = ⟨false, 0#16⟩ :=
    cell_eq_of_free (by simp [occupied_new])
  have hodd := (reaches_run ⟨.new g, []⟩ slot before).taken_eq_odd (by rw [hstart]; rfl)
  rw [cell_eq ho] at hodd
  exact hodd.symm

/-- A live handle with another sub-slot is live. -/
theorem validate_withSubSlot {before : List Op} {id : GenID}
    (hv : (before.foldl apply ⟨.new g, []⟩).arena.validate id = true) (idx : ℕ) :
    (before.foldl apply ⟨.new g, []⟩).arena.validate (id.withSubSlot idx) = true := by
  obtain ⟨-, hocc, hversion⟩ := validate_iff.mp hv
  have hodd := odd_version before hocc
  rw [hversion] at hodd
  rw [validate_iff, GenID.id_withSubSlot, GenID.version_withSubSlot]
  refine ⟨?_, hocc, hversion⟩
  rw [← Bool.not_eq_true, GenID.isNull_iff]
  intro hnull
  have hzero : id.version = 0 := by rw [← GenID.version_withSubSlot id idx, hnull]; decide
  rw [hzero] at hodd
  exact absurd hodd (by decide)

/-- The sub-slot that a live handle shows once its index is set. -/
theorem viewSubSlot_withSubSlot {before : List Op} {id : GenID}
    (hv : (before.foldl apply ⟨.new g, []⟩).arena.validate id = true) {idx : ℕ} (hidx : idx ≤ GenID.kMaxSubSlot)
    (hcount : idx < g.subSlotCount subSlotSize) :
    (before.foldl apply ⟨.new g, []⟩).arena.viewSubSlot (id.withSubSlot idx) subSlotSize =
      g.subSlotSpan id.id idx subSlotSize := by
  have hsub : (id.withSubSlot idx).subSlotIndex = idx := GenID.subSlotIndex_withSubSlot hidx
  rw [viewSubSlot_of_validate (validate_withSubSlot hv idx) (hsub.symm ▸ hcount), hsub, GenID.id_withSubSlot]

theorem isEmpty_subSlotSpan (hcount : 0 < g.subSlotCount subSlotSize) (slot idx : ℕ) :
    (g.subSlotSpan slot idx subSlotSize).isEmpty = false :=
  decide_eq_false (Geometry.subSlotCount_pos hcount).1.ne'

/-- In every run, and for every handle that is live then: the sub-slots can be told apart if and only if
there are at most 32 of them. -/
theorem addressable_iff (before : List Op) (id : GenID)
    (hv : (before.foldl apply ⟨.new g, []⟩).arena.validate id = true) (hcount : 0 < g.subSlotCount subSlotSize) :
    Addressable (before.foldl apply ⟨.new g, []⟩).arena id subSlotSize ↔ g.subSlotCount subSlotSize ≤ 32 := by
  have hmax : GenID.kMaxSubSlot = 31 := rfl
  constructor
  · intro h
    by_contra hlarge
    have hold : id.subSlotIndex ≤ GenID.kMaxSubSlot := Nat.le_pred_of_lt (BitFields.Field.get_lt _ _)
    -- the index 32 is ignored, so the view is that of the sub-slot that the handle names already
    have hignored : id.withSubSlot 32 = id := if_pos (by decide)
    have hsame : (before.foldl apply ⟨.new g, []⟩).arena.viewSubSlot (id.withSubSlot 32) subSlotSize =
        (before.foldl apply ⟨.new g, []⟩).arena.viewSubSlot (id.withSubSlot id.subSlotIndex) subSlotSize := by
      rw [hignored, viewSubSlot_withSubSlot hv hold (by omega), viewSubSlot_of_validate hv (by omega)]
    obtain ⟨hnonempty, -, -, hdisjoint⟩ := h 32 (by omega) id.subSlotIndex (by omega)
    have hmem := Span.base_mem hnonempty
    exact hdisjoint (by omega) _ hmem (hsame ▸ hmem)
  · intro hle i hi j hj
    rw [viewSubSlot_withSubSlot hv (by omega) hi, viewSubSlot_withSubSlot hv (by omega) hj]
    exact ⟨isEmpty_subSlotSpan hcount _ _, rfl, Geometry.subSlotSpan_within hi, Geometry.subSlotSpan_disjoint⟩

/-- 64 slots of 4224 bytes, which hold 33 sub-slots of 128 bytes. -/
def oddGeometry : Geometry := ⟨oneWord, 4224, smallGeometry.count_le, by decide, by decide, by decide⟩

theorem addressable_smallGeometry :
    Addressable (apply ⟨.new smallGeometry, []⟩ (.allocate 256 128 0)).arena (.make 0 1 7 .kFP32 .kActive) 128 := by
  apply (addressable_iff [.allocate 256 128 0] (.make 0 1 7 .kFP32 .kActive) ?_ ?_).mpr
  · decide
  · decide +kernel
  · decide

/-- The sub-slots 32 and 0 of a fresh slot are the same. -/
theorem subSlots_aliased :
    let id : GenID := .make 0 1 7 .kFP32 .kActive
    let s := (apply ⟨.new oddGeometry, []⟩ (.allocate 4224 128 0)).arena
    s.validate id = true ∧ oddGeometry.subSlotCount 128 = 33 ∧
      s.viewSubSlot (id.withSubSlot 32) 128 = s.viewSubSlot (id.withSubSlot 0) 128 ∧ ¬ Addressable s id 128 := by
  have hsame : (apply ⟨.new oddGeometry, []⟩ (.allocate 4224 128 0)).arena.viewSubSlot
      ((GenID.make 0 1 7 .kFP32 .kActive).withSubSlot 32) 128 = ⟨0, 128⟩ := by decide +kernel
  have hfirst : (apply ⟨.new oddGeometry, []⟩ (.allocate 4224 128 0)).arena.viewSubSlot
      ((GenID.make 0 1 7 .kFP32 .kActive).withSubSlot 0) 128 = ⟨0, 128⟩ := by decide +kernel
  refine ⟨by decide +kernel, by decide, hsame.trans hfirst.symm, fun h => ?_⟩
  obtain ⟨-, -, -, hdisjoint⟩ := h 32 (by decide) 0 (by decide)
  rw [hsame, hfirst] at hdisjoint
  exact hdisjoint (by decide) 0 (by decide) (by decide)

end Qtx.FractalArenaSubSlots
