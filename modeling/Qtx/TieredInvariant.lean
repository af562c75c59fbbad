import Qtx.OwnershipTables
import Qtx.TieredBridge

/-!
# Who owns which slot

Three ownership tables tie the records, the shared entries and the two arenas
together: hot slots belong to full-slot records and to shared entries, cold slots to
full-slot records, and sub-slots to micro records.
-/
namespace Qtx.TieredArenaBridge
open SpanMemory OwnershipTables FractalArena

variable {c : TieredConfig}

section Owners

/-- The hot slot that a full-slot record owns. -/
def hotSlot (r : TenantRecord) : Option ℕ :=
  if r.inUse ∧ r.kind = .kFullSlot ∧ r.state = .kInHot then some r.hotId.id else none

/-- The cold slot that a full-slot record owns. -/
def coldSlot (r : TenantRecord) : Option ℕ :=
  if r.inUse ∧ r.kind = .kFullSlot ∧ r.state = .kInCold then some r.coldId.id else none

/-- The shared entry and sub-slot that a micro record owns. -/
def cell (r : TenantRecord) : Option (ℕ × ℕ) :=
  if r.inUse ∧ r.kind = .kMicro then some (r.sharedSlotIdx, r.hotId.subSlotIndex) else none

def entrySlot (entry : SharedSlotEntry) : Option ℕ :=
  if entry.hotId.isNull then none else some entry.hotId.id

variable (b : TieredArenaBridge c)

def hotOwners : ℕ ⊕ ℕ → Option ℕ :=
  Sum.elim (fun i => hotSlot (b.tenants i)) (fun e => entrySlot (b.sharedSlots e))

def coldOwners (i : ℕ) : Option ℕ := coldSlot (b.tenants i)

def cellOwners (i : ℕ) : Option (ℕ × ℕ) := cell (b.tenants i)

def takenCells : Set (ℕ × ℕ) := {p | (b.sharedSlots p.1).occupancyBitmap.getLsbD p.2 = true}

end Owners

structure HotRecord (b : TieredArenaBridge c) (r : TenantRecord) : Prop where
  kind : r.kind = .kFullSlot
  state : r.state = .kInHot
  valid : b.hot.validate r.hotId = true
  cold : r.coldId = .null

structure ColdRecord (b : TieredArenaBridge c) (r : TenantRecord) : Prop where
  kind : r.kind = .kFullSlot
  state : r.state = .kInCold
  valid : b.cold.validate r.coldId = true
  hot : r.hotId = .null
  unpinned : r.pinCount = 0#32

structure MicroRecord (b : TieredArenaBridge c) (r : TenantRecord) : Prop where
  kind : r.kind = .kMicro
  state : r.state = .kInHot
  cold : r.coldId = .null
  entry : (b.sharedSlots r.sharedSlotIdx).hotId.isNull = false
  hotId : r.hotId = (b.sharedSlots r.sharedSlotIdx).hotId.withSubSlot r.hotId.subSlotIndex
  bit : (b.sharedSlots r.sharedSlotIdx).occupancyBitmap.getLsbD r.hotId.subSlotIndex = true

inductive LiveRecord (b : TieredArenaBridge c) (r : TenantRecord) : Prop
  | hot (h : HotRecord b r)
  | cold (h : ColdRecord b r)
  | micro (h : MicroRecord b r)

structure Invariant (b : TieredArenaBridge c) : Prop where
  tenants_lt : ∀ i, (b.tenants i).inUse = true → i < c.maxTenants
  records : ∀ i, (b.tenants i).inUse = true → LiveRecord b (b.tenants i)
  shared_lt : ∀ e, (b.sharedSlots e).hotId.isNull = false → e < c.kMaxSharedSlots
  entries : ∀ e, (b.sharedSlots e).hotId.isNull = false →
    b.hot.validate (b.sharedSlots e).hotId = true ∧ (b.sharedSlots e).hotId.state = .kActive
  bits_lt : ∀ e j, (b.sharedSlots e).occupancyBitmap.getLsbD j = true → j < c.kSubSlotsPerSlot
  bits_null : ∀ e, (b.sharedSlots e).hotId.isNull = true → (b.sharedSlots e).occupancyBitmap = 0#32
  hotOwned : Owned b.hotOwners (b.hot.occupied : Set ℕ)
  coldOwned : Owned b.coldOwners (b.cold.occupied : Set ℕ)
  cellsOwned : Owned b.cellOwners b.takenCells
  hotClean : b.hot.Clean
  coldClean : b.cold.Clean

section Tables

variable {b : TieredArenaBridge c} {i e : ℕ} {r : TenantRecord} {entry : SharedSlotEntry}

@[simp] theorem tenants_setTenant_self (b : TieredArenaBridge c) (i : ℕ) (r : TenantRecord) :
    (b.setTenant i r).tenants i = r := Function.update_self ..

theorem tenants_setTenant_of_ne {k : ℕ} (h : k ≠ i) : (b.setTenant i r).tenants k = b.tenants k :=
  Function.update_of_ne h ..

@[simp] theorem sharedSlots_setShared_self (b : TieredArenaBridge c) (e : ℕ) (entry : SharedSlotEntry) :
    (b.setShared e entry).sharedSlots e = entry := Function.update_self ..

theorem sharedSlots_setShared_of_ne {k : ℕ} (h : k ≠ e) :
    (b.setShared e entry).sharedSlots k = b.sharedSlots k :=
  Function.update_of_ne h ..

theorem forall_tenants_setTenant {P : ℕ → TenantRecord → Prop} (hi : P i r)
    (hother : ∀ k, k ≠ i → P k (b.tenants k)) (k : ℕ) : P k ((b.setTenant i r).tenants k) := by
  by_cases hk : k = i
  · subst hk
    rwa [tenants_setTenant_self]
  · rw [tenants_setTenant_of_ne hk]
    exact hother k hk

theorem forall_sharedSlots_setShared {P : ℕ → SharedSlotEntry → Prop} (he : P e entry)
    (hother : ∀ k, k ≠ e → P k (b.sharedSlots k)) (k : ℕ) : P k ((b.setShared e entry).sharedSlots k) := by
  by_cases hk : k = e
  · subst hk
    rwa [sharedSlots_setShared_self]
  · rw [sharedSlots_setShared_of_ne hk]
    exact hother k hk

theorem hotOwners_setTenant (b : TieredArenaBridge c) (i : ℕ) (r : TenantRecord) :
    (b.setTenant i r).hotOwners = Function.update b.hotOwners (.inl i) (hotSlot r) := by
  funext x
  rcases x with k | k
  · by_cases hk : k = i
    · subst hk
      simp [hotOwners]
    · rw [Function.update_of_ne (fun h => hk (Sum.inl.inj h))]
      simp [hotOwners, tenants_setTenant_of_ne hk]
  · rw [Function.update_of_ne Sum.inr_ne_inl]
    rfl

theorem hotOwners_setShared (b : TieredArenaBridge c) (e : ℕ) (entry : SharedSlotEntry) :
    (b.setShared e entry).hotOwners = Function.update b.hotOwners (.inr e) (entrySlot entry) := by
  funext x
  rcases x with k | k
  · rw [Function.update_of_ne Sum.inl_ne_inr]
    rfl
  · by_cases hk : k = e
    · subst hk
      simp [hotOwners]
    · rw [Function.update_of_ne (fun h => hk (Sum.inr.inj h))]
      simp [hotOwners, sharedSlots_setShared_of_ne hk]

theorem coldOwners_setTenant (b : TieredArenaBridge c) (i : ℕ) (r : TenantRecord) :
    (b.setTenant i r).coldOwners = Function.update b.coldOwners i (coldSlot r) := by
  funext k
  by_cases hk : k = i
  · subst hk
    simp [coldOwners]
  · simp [coldOwners, tenants_setTenant_of_ne hk, hk]

theorem cellOwners_setTenant (b : TieredArenaBridge c) (i : ℕ) (r : TenantRecord) :
    (b.setTenant i r).cellOwners = Function.update b.cellOwners i (cell r) := by
  funext k
  by_cases hk : k = i
  · subst hk
    simp [cellOwners]
  · simp [cellOwners, tenants_setTenant_of_ne hk, hk]

end Tables

section Records

variable {b b' : TieredArenaBridge c} {r : TenantRecord}

theorem hotSlot_free (h : r.inUse = false) : hotSlot r = none := by simp [hotSlot, h]

theorem coldSlot_free (h : r.inUse = false) : coldSlot r = none := by simp [coldSlot, h]

theorem cell_free (h : r.inUse = false) : cell r = none := by simp [cell, h]

theorem HotRecord.hotSlot (h : HotRecord b r) (hu : r.inUse = true) : hotSlot r = some r.hotId.id := by
  simp [TieredArenaBridge.hotSlot, hu, h.kind, h.state]

theorem HotRecord.coldSlot (h : HotRecord b r) : coldSlot r = none := by
  simp [TieredArenaBridge.coldSlot, h.state]

theorem HotRecord.cell (h : HotRecord b r) : cell r = none := by simp [TieredArenaBridge.cell, h.kind]

theorem ColdRecord.hotSlot (h : ColdRecord b r) : hotSlot r = none := by
  simp [TieredArenaBridge.hotSlot, h.state]

theorem ColdRecord.coldSlot (h : ColdRecord b r) (hu : r.inUse = true) : coldSlot r = some r.coldId.id := by
  simp [TieredArenaBridge.coldSlot, hu, h.kind, h.state]

theorem ColdRecord.cell (h : ColdRecord b r) : cell r = none := by simp [TieredArenaBridge.cell, h.kind]

theorem MicroRecord.hotSlot (h : MicroRecord b r) : hotSlot r = none := by
  simp [TieredArenaBridge.hotSlot, h.kind]

theorem MicroRecord.coldSlot (h : MicroRecord b r) : coldSlot r = none := by
  simp [TieredArenaBridge.coldSlot, h.kind]

theorem MicroRecord.cell (h : MicroRecord b r) (hu : r.inUse = true) :
    cell r = some (r.sharedSlotIdx, r.hotId.subSlotIndex) := by
  simp [TieredArenaBridge.cell, hu, h.kind]

/-- A live record stays live when what it rests on stays. -/
theorem LiveRecord.frame (h : LiveRecord b r)
    (hhot : HotRecord b r → b'.hot.validate r.hotId = true)
    (hcold : ColdRecord b r → b'.cold.validate r.coldId = true)
    (hmicro : MicroRecord b r → MicroRecord b' r) : LiveRecord b' r := by
  cases h with
  | hot h => exact .hot ⟨h.kind, h.state, hhot h, h.cold⟩
  | cold h => exact .cold ⟨h.kind, h.state, hcold h, h.hot, h.unpinned⟩
  | micro h => exact .micro (hmicro h)

/-- A micro record depends on its shared entry alone. -/
theorem MicroRecord.frame (h : MicroRecord b r)
    (hid : (b'.sharedSlots r.sharedSlotIdx).hotId = (b.sharedSlots r.sharedSlotIdx).hotId)
    (hbit : (b'.sharedSlots r.sharedSlotIdx).occupancyBitmap.getLsbD r.hotId.subSlotIndex = true) :
    MicroRecord b' r :=
  ⟨h.kind, h.state, h.cold, by rw [hid, h.entry], by rw [hid, ← h.hotId], hbit⟩

end Records

theorem hotOwners_tenant {b : TieredArenaBridge c} {i : ℕ} (hu : (b.tenants i).inUse = true)
    (hr : HotRecord b (b.tenants i)) : b.hotOwners (.inl i) = some (b.tenants i).hotId.id := hr.hotSlot hu

theorem hotOwners_shared {b : TieredArenaBridge c} {e : ℕ} (he : (b.sharedSlots e).hotId.isNull = false) :
    b.hotOwners (.inr e) = some (b.sharedSlots e).hotId.id := by
  simp [hotOwners, entrySlot, he]

namespace Invariant

variable {b : TieredArenaBridge c} (h : Invariant b) {i k e : ℕ}
include h

/-- Hot slots of different records are different. -/
theorem hotId_ne (hki : k ≠ i) (hui : (b.tenants i).inUse = true) (hi : HotRecord b (b.tenants i))
    (huk : (b.tenants k).inUse = true) (hk : HotRecord b (b.tenants k)) :
    (b.tenants k).hotId.id ≠ (b.tenants i).hotId.id := by
  intro heq
  have ho := hotOwners_tenant huk hk
  rw [heq] at ho
  exact hki (Sum.inl.inj (h.hotOwned.unique _ _ _ ho (hotOwners_tenant hui hi)))

/-- Hot slots of records and of shared entries are different. -/
theorem sharedId_ne (hui : (b.tenants i).inUse = true) (hi : HotRecord b (b.tenants i))
    (he : (b.sharedSlots e).hotId.isNull = false) : (b.sharedSlots e).hotId.id ≠ (b.tenants i).hotId.id := by
  intro heq
  have ho := hotOwners_shared he
  rw [heq] at ho
  exact Sum.inr_ne_inl (h.hotOwned.unique _ _ _ ho (hotOwners_tenant hui hi))

theorem sharedId_ne_shared (hke : k ≠ e) (he : (b.sharedSlots e).hotId.isNull = false)
    (hk : (b.sharedSlots k).hotId.isNull = false) : (b.sharedSlots k).hotId.id ≠ (b.sharedSlots e).hotId.id := by
  intro heq
  have ho := hotOwners_shared hk
  rw [heq] at ho
  exact hke (Sum.inr.inj (h.hotOwned.unique _ _ _ ho (hotOwners_shared he)))

theorem coldId_ne (hki : k ≠ i) (hui : (b.tenants i).inUse = true) (hi : ColdRecord b (b.tenants i))
    (huk : (b.tenants k).inUse = true) (hk : ColdRecord b (b.tenants k)) :
    (b.tenants k).coldId.id ≠ (b.tenants i).coldId.id := by
  intro heq
  have ho : b.coldOwners k = some (b.tenants k).coldId.id := hk.coldSlot huk
  rw [heq] at ho
  exact hki (h.coldOwned.unique _ _ _ ho (hi.coldSlot hui))

/-- Micro records in one entry have different sub-slots. -/
theorem cell_ne (hki : k ≠ i) (hui : (b.tenants i).inUse = true) (hi : MicroRecord b (b.tenants i))
    (huk : (b.tenants k).inUse = true) (hk : MicroRecord b (b.tenants k)) :
    ((b.tenants k).sharedSlotIdx, (b.tenants k).hotId.subSlotIndex) ≠
      ((b.tenants i).sharedSlotIdx, (b.tenants i).hotId.subSlotIndex) := by
  intro heq
  have ho : b.cellOwners k = some ((b.tenants k).sharedSlotIdx, (b.tenants k).hotId.subSlotIndex) :=
    hk.cell huk
  rw [heq] at ho
  exact hki (h.cellsOwned.unique _ _ _ ho (hi.cell hui))

theorem shared_valid (he : (b.sharedSlots e).hotId.isNull = false) (j : ℕ) :
    b.hot.validate ((b.sharedSlots e).hotId.withSubSlot j) = true := by
  obtain ⟨hv, hactive⟩ := h.entries e he
  obtain ⟨-, hocc, hver⟩ := validate_iff.mp hv
  rw [validate_iff, GenID.id_withSubSlot, GenID.version_withSubSlot]
  refine ⟨GenID.isNull_of_state_ne ?_, hocc, hver⟩
  rw [GenID.state_withSubSlot, hactive]
  decide

theorem micro_valid (hr : MicroRecord b (b.tenants i)) : b.hot.validate (b.tenants i).hotId = true := by
  rw [hr.hotId]
  exact h.shared_valid hr.entry _

end Invariant

theorem invariant_new (c : TieredConfig) : Invariant (new c) := by
  have hh : (new c).hotOwners = fun _ => none := by
    funext x
    rcases x with i | e
    · rfl
    · rfl
  refine ⟨?_, ?_, ?_, ?_, ?_, ?_, ?_, ?_, ?_, clean_new _, clean_new _⟩
  · intro i h
    cases h
  · intro i h
    cases h
  · intro e h
    cases h
  · intro e h
    cases h
  · intro e j h
    simp [new] at h
  · intro e _
    rfl
  · rw [hh, new, occupied_new, Finset.coe_empty]
    exact owned_empty
  · rw [new, occupied_new, Finset.coe_empty]
    exact owned_empty
  · have hempty : (new c).takenCells = ∅ := by simp [takenCells, new]
    rw [hempty]
    exact owned_empty

end Qtx.TieredArenaBridge
