import Qtx.TieredMicroBranches

/-!
# Where a micro tenant is placed

`createMicroTenant` packs a tenant into a shared entry, or opens an entry for a fresh hot
slot. The table of entries has room for a record more than there are, so an entry is left
for every fresh slot, and a slot is only opened once all others are full.
-/
namespace Qtx.TieredArenaBridge
open SpanMemory OwnershipTables FractalArena TransitionSystems

variable {c : TieredConfig} {caller : Caller} {b b' : TieredArenaBridge c}

section Cells

/-- Every sub-slot of an entry in use belongs to a tenant. -/
theorem exists_owner_of_full (h : Invariant b) (hfull : ¬ b.SubSlotFree) {e j : ℕ} (he : b.EntryInUse e)
    (hj : j < c.kSubSlotsPerSlot) : ∃ k, b.cellOwners k = some (e, j) := by
  have hbit : (b.sharedSlots e).occupancyBitmap.getLsbD j = true := by
    by_contra hclear
    exact hfull ⟨e, he, j, hj, Bool.eq_false_iff.mpr hclear⟩
  exact h.cellsOwned.exists_owner (e, j) hbit

/-- Entries in use share no hot slot. -/
theorem entry_unique (h : Invariant b) {e e' : ℕ} (he : b.EntryInUse e) (he' : b.EntryInUse e')
    (hid : (b.sharedSlots e).hotId.id = (b.sharedSlots e').hotId.id) : e = e' := by
  have howns : ∀ {x}, b.EntryInUse x → b.hotOwners (.inr x) = some (b.sharedSlots x).hotId.id := by
    intro x hx
    exact if_neg (by simp [show (b.sharedSlots x).hotId.isNull = false from hx])
  exact Sum.inr.inj (h.hotOwned.unique _ _ _ (howns he) (hid ▸ howns he'))

theorem id_of_microRecord {r : TenantRecord} (hm : MicroRecord b r) :
    r.hotId.id = (b.sharedSlots r.sharedSlotIdx).hotId.id := by
  have hid := congrArg GenID.id hm.hotId
  rwa [GenID.id_withSubSlot] at hid

/-- The sub-slot that a call binds, `(slot, j)`, is none of a live micro tenant. -/
def Unoccupied (b : TieredArenaBridge c) (slot j : ℕ) : Prop := ∀ k, (b.tenants k).inUse = true →
  (b.tenants k).kind = .kMicro → ((b.tenants k).hotId.id, (b.tenants k).hotId.subSlotIndex) ≠ (slot, j)

theorem unoccupied_of_bit (h : Invariant b) {e j : ℕ} (he : b.EntryInUse e)
    (hbit : (b.sharedSlots e).occupancyBitmap.getLsbD j = false) : b.Unoccupied (b.sharedSlots e).hotId.id j := by
  intro k hu hkind heq
  obtain ⟨hid, hsub⟩ := Prod.mk.inj heq
  have hm := h.microRecord hu hkind
  have hsame : (b.tenants k).sharedSlotIdx = e := entry_unique h hm.entry he ((id_of_microRecord hm).symm.trans hid)
  have hset := hm.bit
  rw [hsame, hsub, hbit] at hset
  cases hset

theorem unoccupied_of_fresh (h : Invariant b) {b₁ : TieredArenaBridge c} {hot : FractalArena c.hot} {fresh : GenID}
    (upkeep : Upkeep caller b b₁) (taken : Allocated b₁.hot fresh hot) (j : ℕ) : b.Unoccupied fresh.id j := by
  intro k hu hkind heq
  have hm := h.microRecord hu hkind
  have hentry : (b₁.sharedSlots (b.tenants k).sharedSlotIdx).hotId.isNull = false := upkeep.sharedSlots ▸ hm.entry
  have hvalid := ((upkeep.invariant h).entries _ hentry).1
  have hocc := (validate_iff.mp hvalid).2.1
  rw [upkeep.sharedSlots, ← id_of_microRecord hm, (Prod.mk.inj heq).1] at hocc
  exact taken.fresh hocc

end Cells

section Calls

/-- In every state reached and for every call: the fallback is not taken, since a free record and full entries
leave an entry unused; a fresh slot is taken only when every sub-slot of every entry in use belongs to a live
micro tenant; and a tenant that is made gets a sub-slot in range that no live micro tenant had. -/
theorem tight_packing (hr : (system c).Reachable b) (caller : Caller) :
    (∀ i fresh after, b.microBranch caller ≠ .noEntry i fresh after) ∧
    (b.RecordFree → (∀ e, b.EntryInUse e → ∀ j < c.kSubSlotsPerSlot,
      (b.sharedSlots e).occupancyBitmap.getLsbD j = true) →
      ∃ e < c.kMaxSharedSlots, (b.sharedSlots e).hotId.isNull = true) ∧
    (∀ i e fresh after, b.microBranch caller = .opened i e fresh after →
      ∀ e', b.EntryInUse e' → ∀ j < c.kSubSlotsPerSlot, ∃ k, b.cellOwners k = some (e', j)) ∧
    ((b.createMicroTenant caller).1.isValid = (b.microBranch caller).binds.isSome) ∧
    ∀ i e j, (b.microBranch caller).binds = some (i, e, j) →
      let r := (b.createMicroTenant caller).2.tenants i
      r.sharedSlotIdx = e ∧ r.hotId.subSlotIndex = j ∧ j < c.kSubSlotsPerSlot ∧ b.Unoccupied r.hotId.id j := by
  obtain ⟨h, hs⟩ := reachable_invariant hr
  have hcase := microBranch_case h hs (reachable_orderly hr) caller
  have hpos : 0 < c.kSubSlotsPerSlot := Nat.div_pos (kMicroSlotSize_le c) (by decide)
  refine ⟨?_, ?_, ?_, ?_, ?_⟩
  · intro i fresh after hb
    rw [hb] at hcase
    cases hcase
  · intro hfree hall
    apply exists_unused_entry h hfree
    rintro ⟨e, he, j, hj, hbit⟩
    exact absurd ((hall e he j hj).symm.trans hbit) (by decide)
  · intro i e fresh after hb e' he' j hj
    rw [hb] at hcase
    cases hcase with
    | opened _ hfull => exact exists_owner_of_full h hfull he' hj
  · rw [createMicroTenant_eq]
    generalize b.microBranch caller = branch at hcase ⊢
    cases hcase with
    | noRecord => rfl
    | packed _ _ hlt => exact (bindMicro_record _ hlt).1
    | noSlot => rfl
    | opened => exact (bindMicro_record _ hpos).1
  · intro i e j hbinds
    rw [createMicroTenant_eq]
    generalize b.microBranch caller = branch at hcase hbinds ⊢
    cases hcase with
    | noRecord => cases hbinds
    | packed _ hentry hlt hbit =>
      cases hbinds
      obtain ⟨-, hidx, hid, hsub⟩ := bindMicro_record (b := b.advanceScan) (i := i) (e := e) _ hlt
      exact ⟨hidx, hsub, hlt, hid ▸ unoccupied_of_bit h hentry hbit⟩
    | noSlot => cases hbinds
    | @opened _ _ fresh b₁ hot _ _ upkeep taken =>
      cases hbinds
      obtain ⟨-, hidx, hid, hsub⟩ := bindMicro_record (b := { b₁ with hot := hot }) (i := i) (e := e)
        ⟨1#32, fresh⟩ hpos
      exact ⟨hidx, hsub, hpos, hid ▸ unoccupied_of_fresh h upkeep taken 0⟩

/-- The sub-slot of the destroyed tenant is the first one free. -/
theorem mixedCalls_packed :
    let b := (new smallConfig).calls mixedCalls
    (b.microBranch halvingCaller).binds = some (1, 0, 0) ∧ (b.createMicroTenant halvingCaller).1.isValid = true ∧
      b.Unoccupied ((b.createMicroTenant halvingCaller).2.tenants 1).hotId.id 0 := by
  have hr : (system smallConfig).Reachable ((new smallConfig).calls mixedCalls) :=
    reachable_calls (b := new smallConfig) .refl mixedCalls
  have hbinds : (((new smallConfig).calls mixedCalls).microBranch halvingCaller).binds = some (1, 0, 0) := by
    decide +kernel
  obtain ⟨-, -, -, hvalid, hcell⟩ := tight_packing hr halvingCaller
  exact ⟨hbinds, hvalid.trans (by rw [hbinds]; rfl), (hcell 1 0 0 hbinds).2.2.2⟩

end Calls

end Qtx.TieredArenaBridge
