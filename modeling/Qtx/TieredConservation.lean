import Qtx.TieredRuns
import Mathlib.Data.Finset.Card

/-!
# Conservation of slots

Every state reached accounts for all slots of both arenas and all sub-slots.
-/
namespace Qtx.TieredArenaBridge
open OwnershipTables FractalArena

variable {c : TieredConfig} {b : TieredArenaBridge c}

def IsFullHot (b : TieredArenaBridge c) (i : ℕ) : Prop :=
  (b.tenants i).kind = .kFullSlot ∧ b.hot.validate (b.tenants i).hotId = true ∧ (b.tenants i).coldId.isNull = true

def IsFullCold (b : TieredArenaBridge c) (i : ℕ) : Prop :=
  (b.tenants i).kind = .kFullSlot ∧ b.cold.validate (b.tenants i).coldId = true ∧
    (b.tenants i).hotId.isNull = true ∧ (b.tenants i).pinCount = 0#32

def EntryInUse (b : TieredArenaBridge c) (e : ℕ) : Prop := (b.sharedSlots e).hotId.isNull = false

/-- The handle is the one of a sub-slot in exactly one shared entry in use, and the bit
of that sub-slot is set. -/
def IsMicro (b : TieredArenaBridge c) (i : ℕ) : Prop :=
  (b.tenants i).kind = .kMicro ∧
    (∃! e, b.EntryInUse e ∧ (b.tenants i).hotId.id = (b.sharedSlots e).hotId.id) ∧
    ∃ e, b.EntryInUse e ∧ (b.tenants i).sharedSlotIdx = e ∧
      (b.tenants i).hotId = (b.sharedSlots e).hotId.withSubSlot (b.tenants i).hotId.subSlotIndex ∧
      (b.sharedSlots e).occupancyBitmap.getLsbD (b.tenants i).hotId.subSlotIndex = true

/-- A tenant in the hot tier with a slot of its own. -/
def hotTenants (b : TieredArenaBridge c) : Set ℕ := {i | (b.tenants i).inUse = true ∧ b.IsFullHot i}

def coldTenants (b : TieredArenaBridge c) : Set ℕ := {i | (b.tenants i).inUse = true ∧ b.IsFullCold i}

def microTenants (b : TieredArenaBridge c) : Set ℕ := {i | (b.tenants i).inUse = true ∧ b.IsMicro i}

theorem mem_hotTenants (h : Invariant b) {i : ℕ} :
    i ∈ b.hotTenants ↔ (b.tenants i).inUse = true ∧ HotRecord b (b.tenants i) := by
  refine and_congr_right (fun used => ⟨?_, ?_⟩)
  · rintro ⟨hkind, hvalid, -⟩
    cases h.records i used with
    | hot hr => exact hr
    | cold hr =>
      rw [hr.hot] at hvalid
      cases (validate_iff.mp hvalid).1
    | micro hr => exact absurd (hkind.symm.trans hr.kind) (by decide)
  · intro hr
    exact ⟨hr.kind, hr.valid, by rw [hr.cold]; rfl⟩

theorem mem_coldTenants (h : Invariant b) {i : ℕ} :
    i ∈ b.coldTenants ↔ (b.tenants i).inUse = true ∧ ColdRecord b (b.tenants i) := by
  refine and_congr_right (fun used => ⟨?_, ?_⟩)
  · rintro ⟨hkind, hvalid, -, -⟩
    cases h.records i used with
    | hot hr =>
      rw [hr.cold] at hvalid
      cases (validate_iff.mp hvalid).1
    | cold hr => exact hr
    | micro hr => exact absurd (hkind.symm.trans hr.kind) (by decide)
  · intro hr
    exact ⟨hr.kind, hr.valid, by rw [hr.hot]; rfl, hr.unpinned⟩

theorem mem_microTenants (h : Invariant b) {i : ℕ} :
    i ∈ b.microTenants ↔ (b.tenants i).inUse = true ∧ MicroRecord b (b.tenants i) := by
  refine and_congr_right (fun used => ⟨fun hm => h.microRecord used hm.1, fun hr => ⟨hr.kind, ?_, ?_⟩⟩)
  · have hid : (b.tenants i).hotId.id = (b.sharedSlots (b.tenants i).sharedSlotIdx).hotId.id := by
      rw [hr.hotId, GenID.id_withSubSlot]
    refine ⟨(b.tenants i).sharedSlotIdx, ⟨hr.entry, hid⟩, ?_⟩
    rintro e ⟨he, heq⟩
    by_contra hne
    exact h.sharedId_ne_shared hne hr.entry he (heq.symm.trans hid)
  · exact ⟨(b.tenants i).sharedSlotIdx, hr.entry, rfl, hr.hotId, hr.bit⟩

theorem hotOwners_inl (h : Invariant b) {i slot : ℕ} :
    b.hotOwners (.inl i) = some slot ↔ i ∈ b.hotTenants ∧ (b.tenants i).hotId.id = slot := by
  rw [mem_hotTenants h]
  constructor
  · intro ho
    simp only [hotOwners, Sum.elim_inl, hotSlot] at ho
    split_ifs at ho with hc
    refine ⟨⟨hc.1, ?_⟩, Option.some.inj ho⟩
    cases h.records i hc.1 with
    | hot hr => exact hr
    | cold hr => exact absurd (hc.2.2.symm.trans hr.state) (by decide)
    | micro hr => exact absurd (hc.2.1.symm.trans hr.kind) (by decide)
  · rintro ⟨⟨used, hr⟩, rfl⟩
    exact hotOwners_tenant used hr

theorem hotOwners_inr {e slot : ℕ} :
    b.hotOwners (.inr e) = some slot ↔ b.EntryInUse e ∧ (b.sharedSlots e).hotId.id = slot := by
  simp only [hotOwners, Sum.elim_inr, entrySlot, EntryInUse]
  cases (b.sharedSlots e).hotId.isNull with
  | true => simp
  | false => simp

theorem coldOwners_eq_some (h : Invariant b) {i slot : ℕ} :
    b.coldOwners i = some slot ↔ i ∈ b.coldTenants ∧ (b.tenants i).coldId.id = slot := by
  rw [mem_coldTenants h]
  constructor
  · intro ho
    simp only [coldOwners, coldSlot] at ho
    split_ifs at ho with hc
    refine ⟨⟨hc.1, ?_⟩, Option.some.inj ho⟩
    cases h.records i hc.1 with
    | hot hr => exact absurd (hc.2.2.symm.trans hr.state) (by decide)
    | cold hr => exact hr
    | micro hr => exact absurd (hc.2.1.symm.trans hr.kind) (by decide)
  · rintro ⟨⟨used, hr⟩, rfl⟩
    exact hr.coldSlot used

theorem cellOwners_eq_some (h : Invariant b) {i e j : ℕ} : b.cellOwners i = some (e, j) ↔
    i ∈ b.microTenants ∧ (b.tenants i).sharedSlotIdx = e ∧ (b.tenants i).hotId.subSlotIndex = j := by
  rw [mem_microTenants h]
  constructor
  · intro ho
    simp only [cellOwners, cell] at ho
    split_ifs at ho with hc
    obtain ⟨rfl, rfl⟩ := Prod.mk.inj (Option.some.inj ho)
    exact ⟨⟨hc.1, h.microRecord hc.1 hc.2⟩, rfl, rfl⟩
  · rintro ⟨⟨used, hr⟩, rfl, rfl⟩
    exact hr.cell used

theorem hot_usedSlots_eq (h : Invariant b) :
    b.hot.usedSlots = b.hotTenants.ncard + {e | b.EntryInUse e}.ncard := by
  have hsplit : {x | (b.hotOwners x).isSome = true} =
      Sum.inl '' b.hotTenants ∪ Sum.inr '' {e | b.EntryInUse e} := by
    ext x
    rcases x with i | e
    · simp [Option.isSome_iff_exists, hotOwners_inl h]
    · simp [Option.isSome_iff_exists, hotOwners_inr]
  have hleft : b.hotTenants.Finite := (Set.finite_lt_nat c.maxTenants).subset (fun i hi => h.tenants_lt i hi.1)
  have hright : {e | b.EntryInUse e}.Finite :=
    (Set.finite_lt_nat c.kMaxSharedSlots).subset (fun e he => h.shared_lt e he)
  have hdisjoint : Disjoint (Sum.inl '' b.hotTenants) (Sum.inr '' {e | b.EntryInUse e} : Set (ℕ ⊕ ℕ)) := by
    rw [Set.disjoint_left]
    rintro x ⟨i, -, rfl⟩ ⟨e, -, he⟩
    exact Sum.inr_ne_inl he
  rw [usedSlots_eq_card, ← Set.ncard_coe_finset, ← h.hotOwned.ncard_eq, hsplit,
    Set.ncard_union_eq hdisjoint (hleft.image _) (hright.image _),
    Set.ncard_image_of_injective _ Sum.inl_injective, Set.ncard_image_of_injective _ Sum.inr_injective]

theorem cold_usedSlots_eq (h : Invariant b) : b.cold.usedSlots = b.coldTenants.ncard := by
  have hset : {i | (b.coldOwners i).isSome = true} = b.coldTenants := by
    ext i
    simp [Option.isSome_iff_exists, coldOwners_eq_some h]
  rw [usedSlots_eq_card, ← Set.ncard_coe_finset, ← h.coldOwned.ncard_eq, hset]

theorem record_shapes (h : Invariant b) {i : ℕ} (used : (b.tenants i).inUse = true) :
    b.IsFullHot i ∧ ¬b.IsFullCold i ∧ ¬b.IsMicro i ∨ ¬b.IsFullHot i ∧ b.IsFullCold i ∧ ¬b.IsMicro i ∨
      ¬b.IsFullHot i ∧ ¬b.IsFullCold i ∧ b.IsMicro i := by
  have hhot : b.IsFullHot i → ¬b.IsFullCold i := by
    intro hh hc
    cases (validate_iff.mp hh.2.1).1.symm.trans hc.2.2.1
  have hmicro : b.IsMicro i → (b.tenants i).kind ≠ .kFullSlot := by
    intro hm hk
    cases hm.1.symm.trans hk
  cases h.records i used with
  | hot hr =>
    have hi := ((mem_hotTenants h).mpr ⟨used, hr⟩).2
    exact .inl ⟨hi, hhot hi, fun hm => hmicro hm hr.kind⟩
  | cold hr =>
    have hi := ((mem_coldTenants h).mpr ⟨used, hr⟩).2
    exact .inr (.inl ⟨fun hh => hhot hh hi, hi, fun hm => hmicro hm hr.kind⟩)
  | micro hr =>
    have hi := ((mem_microTenants h).mpr ⟨used, hr⟩).2
    exact .inr (.inr ⟨fun hh => hmicro hi hh.1, fun hc => hmicro hi hc.1, hi⟩)

/-- In every state reached the records, the shared entries and both arenas agree on who
owns what. -/
theorem conservation (hr : (system c).Reachable b) :
    (∀ i, (b.tenants i).inUse = true →
      b.IsFullHot i ∧ ¬b.IsFullCold i ∧ ¬b.IsMicro i ∨ ¬b.IsFullHot i ∧ b.IsFullCold i ∧ ¬b.IsMicro i ∨
        ¬b.IsFullHot i ∧ ¬b.IsFullCold i ∧ b.IsMicro i) ∧
    (∀ slot ∈ b.hot.occupied,
      (∃! i, i ∈ b.hotTenants ∧ (b.tenants i).hotId.id = slot) ∧
          (∀ e, b.EntryInUse e → (b.sharedSlots e).hotId.id ≠ slot) ∨
        (∀ i ∈ b.hotTenants, (b.tenants i).hotId.id ≠ slot) ∧
          ∃! e, (b.EntryInUse e ∧ (b.sharedSlots e).occupancyBitmap ≠ 0#32) ∧ (b.sharedSlots e).hotId.id = slot) ∧
    (∀ slot ∈ b.cold.occupied, ∃! i, i ∈ b.coldTenants ∧ (b.tenants i).coldId.id = slot) ∧
    (∀ e j, (b.sharedSlots e).occupancyBitmap.getLsbD j = true →
      ∃! i, i ∈ b.microTenants ∧ (b.tenants i).sharedSlotIdx = e ∧ (b.tenants i).hotId.subSlotIndex = j) ∧
    (∀ i ∈ b.microTenants, (b.sharedSlots (b.tenants i).sharedSlotIdx).occupancyBitmap.getLsbD
      (b.tenants i).hotId.subSlotIndex = true) ∧
    b.hot.usedSlots = b.hotTenants.ncard + {e | b.EntryInUse e}.ncard ∧
    b.cold.usedSlots = b.coldTenants.ncard := by
  obtain ⟨h, hsettled⟩ := reachable_invariant hr
  refine ⟨fun i used => record_shapes h used, ?_, ?_, ?_, ?_, hot_usedSlots_eq h, cold_usedSlots_eq h⟩
  · intro slot hslot
    obtain ⟨x, hx, hunique⟩ := h.hotOwned.existsUnique hslot
    rcases x with i | e
    · refine .inl ⟨⟨i, (hotOwners_inl h).mp hx, ?_⟩, ?_⟩
      · intro k hk
        exact Sum.inl.inj (hunique _ ((hotOwners_inl h).mpr hk))
      · intro e he heq
        exact Sum.inr_ne_inl (hunique _ (hotOwners_inr.mpr ⟨he, heq⟩))
    · obtain ⟨he, hid⟩ := hotOwners_inr.mp hx
      refine .inr ⟨?_, ⟨e, ⟨⟨he, hsettled e he⟩, hid⟩, ?_⟩⟩
      · intro i hi heq
        exact Sum.inl_ne_inr (hunique _ ((hotOwners_inl h).mpr ⟨hi, heq⟩))
      · rintro k ⟨⟨hk, -⟩, heq⟩
        exact Sum.inr.inj (hunique _ (hotOwners_inr.mpr ⟨hk, heq⟩))
  · intro slot hslot
    simpa only [coldOwners_eq_some h] using h.coldOwned.existsUnique hslot
  · intro e j hbit
    simpa only [cellOwners_eq_some h] using h.cellsOwned.existsUnique (k := (e, j)) hbit
  · intro i hi
    exact ((mem_microTenants h).mp hi).2.bit

/-- A tenant of each kind, a second micro tenant, and a destroyed one. -/
def mixedCalls : List (Caller × Op) :=
  [.createTenant, .createMicroTenant, .createMicroTenant, .acquire .acquireFP32 ⟨1#64, true⟩,
    .destroyTenant ⟨2#64, true⟩, .release ⟨2#64, true⟩].map (halvingCaller, ·)

theorem mixedCalls_conserved :
    ((new smallConfig).calls mixedCalls).hotTenants.ncard +
      {e | ((new smallConfig).calls mixedCalls).EntryInUse e}.ncard = 2 := by
  have hused : ((new smallConfig).calls mixedCalls).hot.usedSlots = 2 := by decide +kernel
  have hcons := conservation (reachable_calls (b := new smallConfig) .refl mixedCalls)
  exact hcons.2.2.2.2.2.1.symm.trans hused

end Qtx.TieredArenaBridge
