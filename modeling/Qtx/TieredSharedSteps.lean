import Qtx.TieredSteps

/-!
# The changes of the shared entries

A micro tenant changes its record and the bitmap of one entry together, and an entry is
bound to a hot slot while it has sub-slots. With these changes every step keeps the invariant.
-/
namespace Qtx.TieredArenaBridge
open SpanMemory OwnershipTables FractalArena

variable {c : TieredConfig}

namespace Step

variable {caller : Caller} {b : TieredArenaBridge c}

theorem takenCells_setShared_or (b : TieredArenaBridge c) (e : ℕ) {j : ℕ} (hj : j < 32) (id : GenID) :
    (b.setShared e ⟨(b.sharedSlots e).occupancyBitmap ||| BitVec.twoPow 32 j, id⟩).takenCells =
      insert (e, j) b.takenCells := by
  ext ⟨e', j'⟩
  simp only [takenCells, Set.mem_ofPred_eq, Set.mem_insert_iff, Prod.mk.injEq]
  by_cases he : e' = e
  · subst he
    simp only [sharedSlots_setShared_self, BitVec.getLsbD_or, BitVec.getLsbD_twoPow, Bool.or_eq_true,
      Bool.and_eq_true, decide_eq_true_eq, hj, true_and]
    rw [or_comm, eq_comm]
  · simp [sharedSlots_setShared_of_ne he, he]

theorem takenCells_setShared_clear (b : TieredArenaBridge c) (e j : ℕ) (id : GenID) :
    (b.setShared e ⟨(b.sharedSlots e).occupancyBitmap &&& ~~~(BitVec.twoPow 32 j), id⟩).takenCells =
      b.takenCells \ {(e, j)} := by
  ext ⟨e', j'⟩
  simp only [takenCells, Set.mem_ofPred_eq, Set.mem_sdiff, Set.mem_singleton_iff, Prod.mk.injEq]
  by_cases he : e' = e
  · subst he
    have hbit := WordBits.ones_and_not_twoPow (b.sharedSlots e').occupancyBitmap j
    have hmem := congrArg (j' ∈ ·) hbit
    simp only [WordBits.mem_ones, Finset.mem_erase, eq_iff_iff] at hmem
    rw [sharedSlots_setShared_self, hmem, and_comm]
    simp
  · simp [sharedSlots_setShared_of_ne he, he]

/-- One record and the bitmap of one entry change together, and so may the bytes of
taken hot slots. -/
theorem invariant_rebuildCell (h : Invariant b) {hot : FractalArena c.hot} {i e : ℕ} {r : TenantRecord}
    {bitmap : BitVec 32} (hv : ∀ id, hot.validate id = b.hot.validate id) (ho : hot.occupied = b.hot.occupied)
    (hc : hot.Clean) (entry : (b.sharedSlots e).hotId.isNull = false)
    (hbits : ∀ j, bitmap.getLsbD j = true → j < c.kSubSlotsPerSlot)
    (hlt : r.inUse = true → i < c.maxTenants)
    (hlive : r.inUse = true →
      MicroRecord ({ b with hot := hot }.setShared e ⟨bitmap, (b.sharedSlots e).hotId⟩) r)
    (hkeep : ∀ k, k ≠ i → (b.tenants k).inUse = true → MicroRecord b (b.tenants k) →
      (b.tenants k).sharedSlotIdx = e → bitmap.getLsbD (b.tenants k).hotId.subSlotIndex = true)
    (hhot : hotSlot r = hotSlot (b.tenants i)) (hcold : coldSlot r = coldSlot (b.tenants i))
    (hcell : Owned (Function.update b.cellOwners i (cell r))
      (b.setShared e ⟨bitmap, (b.sharedSlots e).hotId⟩).takenCells) :
    Invariant (({ b with hot := hot }.setShared e ⟨bitmap, (b.sharedSlots e).hotId⟩).setTenant i r) := by
  refine ⟨?_, ?_, ?_, ?_, ?_, ?_, ?_, ?_, ?_, hc, h.coldClean⟩
  · exact forall_tenants_setTenant (P := fun k r => r.inUse = true → k < c.maxTenants) hlt
      (fun k _ => h.tenants_lt k)
  · refine forall_tenants_setTenant (P := fun _ r' => r'.inUse = true → LiveRecord
      (({ b with hot := hot }.setShared e ⟨bitmap, (b.sharedSlots e).hotId⟩).setTenant i r) r') ?_ ?_
    · intro hu
      exact .micro ((hlive hu).frame rfl (hlive hu).bit)
    · intro k hk hu
      refine (h.records k hu).frame (fun hr => (hv _).trans hr.valid) (fun hr => hr.valid) ?_
      intro hr
      by_cases he : (b.tenants k).sharedSlotIdx = e
      · have hs : (({ b with hot := hot }.setShared e ⟨bitmap, (b.sharedSlots e).hotId⟩).setTenant i r).sharedSlots
            (b.tenants k).sharedSlotIdx = ⟨bitmap, (b.sharedSlots e).hotId⟩ := by
          rw [he]
          exact sharedSlots_setShared_self { b with hot := hot } e _
        exact hr.frame (by rw [hs, he]) (by rw [hs]; exact hkeep k hk hu hr he)
      · have hs : (({ b with hot := hot }.setShared e ⟨bitmap, (b.sharedSlots e).hotId⟩).setTenant i r).sharedSlots
            (b.tenants k).sharedSlotIdx = b.sharedSlots (b.tenants k).sharedSlotIdx :=
          sharedSlots_setShared_of_ne (b := { b with hot := hot }) he
        exact hr.frame (by rw [hs]) (by rw [hs]; exact hr.bit)
  · exact forall_sharedSlots_setShared (b := { b with hot := hot })
      (P := fun k x => x.hotId.isNull = false → k < c.kMaxSharedSlots) (h.shared_lt e)
      (fun k _ => h.shared_lt k)
  · refine forall_sharedSlots_setShared (b := { b with hot := hot })
      (P := fun _ x => x.hotId.isNull = false → hot.validate x.hotId = true ∧ x.hotId.state = .kActive) ?_ ?_
    · intro he
      exact ⟨(hv _).trans (h.entries e he).1, (h.entries e he).2⟩
    · intro k _ he
      exact ⟨(hv _).trans (h.entries k he).1, (h.entries k he).2⟩
  · exact forall_sharedSlots_setShared (b := { b with hot := hot })
      (P := fun _ x => ∀ j, x.occupancyBitmap.getLsbD j = true → j < c.kSubSlotsPerSlot) hbits
      (fun k _ => h.bits_lt k)
  · refine forall_sharedSlots_setShared (b := { b with hot := hot })
      (P := fun _ x => x.hotId.isNull = true → x.occupancyBitmap = 0#32) ?_ (fun k _ => h.bits_null k)
    intro he
    rw [entry] at he
    cases he
  · rw [hotOwners_setTenant, hotOwners_setShared]
    change Owned _ (hot.occupied : Set ℕ)
    rw [ho]
    refine (h.hotOwned.keep ?_).keep ?_
    · rfl
    · rw [hhot, Function.update_of_ne Sum.inl_ne_inr]
      rfl
  · rw [coldOwners_setTenant]
    exact h.coldOwned.keep hcold
  · rw [cellOwners_setTenant]
    exact hcell

theorem invariant_createMicro (h : Invariant b) {i e j : ℕ} (tenantId accessTime : BitVec 64)
    (free : (b.tenants i).inUse = false) (lt : i < c.maxTenants)
    (entry : (b.sharedSlots e).hotId.isNull = false) (subIdx : j < c.kSubSlotsPerSlot)
    (bit : (b.sharedSlots e).occupancyBitmap.getLsbD j = false) :
    Invariant (({ b with
      hot := (b.hot.zeroizeSubSlot ((b.sharedSlots e).hotId.withSubSlot j) kMicroSlotSize).2 }.setShared e
        ⟨(b.sharedSlots e).occupancyBitmap ||| BitVec.twoPow 32 j, (b.sharedSlots e).hotId⟩).setTenant i
      { tenantId := tenantId, pinCount := 0#32, state := .kInHot, accessTime := accessTime, inUse := true,
        sealed := false, hotId := (b.sharedSlots e).hotId.withSubSlot j, coldId := .null, kind := .kMicro,
        sharedSlotIdx := e }) := by
  have hj : j < 32 := Nat.lt_of_lt_of_le subIdx c.subSlots_le
  have hsub : ((b.sharedSlots e).hotId.withSubSlot j).subSlotIndex = j :=
    GenID.subSlotIndex_withSubSlot (Nat.le_of_lt_succ hj)
  have hbit : ∀ k, ((b.sharedSlots e).occupancyBitmap ||| BitVec.twoPow 32 j).getLsbD k = true ↔
      (b.sharedSlots e).occupancyBitmap.getLsbD k = true ∨ j = k := by
    intro k
    simp [BitVec.getLsbD_twoPow, hj]
  refine invariant_rebuildCell h (validate_zeroizeSubSlot _ _ _) (occupied_zeroizeSubSlot _ _ _)
    (h.hotClean.zeroizeSubSlot _ _) entry ?_ (fun _ => lt) ?_ ?_ ?_ ?_ ?_
  · intro k hk
    rcases (hbit k).mp hk with hk | rfl
    · exact h.bits_lt e k hk
    · exact subIdx
  · intro _
    refine ⟨rfl, rfl, rfl, ?_, ?_, ?_⟩
    · rw [sharedSlots_setShared_self]
      exact entry
    · rw [sharedSlots_setShared_self, hsub]
    · rw [sharedSlots_setShared_self, hsub]
      exact (hbit j).mpr (.inr rfl)
  · intro k _ _ hr he
    rw [hbit]
    exact .inl (he ▸ hr.bit)
  · rw [hotSlot_free free]
    simp [hotSlot]
  · rw [coldSlot_free free]
    simp [coldSlot]
  · rw [takenCells_setShared_or b e hj]
    simp only [cell, hsub, and_self, if_true]
    refine h.cellsOwned.take (cell_free free) ?_
    simp [takenCells, bit]

theorem invariant_destroyMicro (h : Invariant b) {i : ℕ} (used : (b.tenants i).inUse = true)
    (live : MicroRecord b (b.tenants i)) :
    Invariant (({ b with
      hot := (b.hot.zeroizeSubSlot (b.tenants i).hotId kMicroSlotSize).2 }.setShared (b.tenants i).sharedSlotIdx
        ⟨(b.sharedSlots (b.tenants i).sharedSlotIdx).occupancyBitmap &&&
          ~~~(BitVec.twoPow 32 (b.tenants i).hotId.subSlotIndex),
          (b.sharedSlots (b.tenants i).sharedSlotIdx).hotId⟩).setTenant i (deadRecord (b.tenants i))) := by
  have hbit : ∀ k, ((b.sharedSlots (b.tenants i).sharedSlotIdx).occupancyBitmap &&&
      ~~~(BitVec.twoPow 32 (b.tenants i).hotId.subSlotIndex)).getLsbD k = true ↔
      k ≠ (b.tenants i).hotId.subSlotIndex ∧
        (b.sharedSlots (b.tenants i).sharedSlotIdx).occupancyBitmap.getLsbD k = true := by
    intro k
    rw [← WordBits.mem_ones, WordBits.ones_and_not_twoPow, Finset.mem_erase, WordBits.mem_ones]
  refine invariant_rebuildCell h (validate_zeroizeSubSlot _ _ _) (occupied_zeroizeSubSlot _ _ _)
    (h.hotClean.zeroizeSubSlot _ _) live.entry ?_ (fun hu => nomatch hu) (fun hu => nomatch hu) ?_ ?_ ?_ ?_
  · intro k hk
    exact h.bits_lt _ k ((hbit k).mp hk).2
  · intro k hk hu hr he
    rw [hbit]
    refine ⟨?_, he ▸ hr.bit⟩
    intro heq
    exact h.cell_ne hk used live hu hr (by rw [he, heq])
  · rw [live.hotSlot, hotSlot_free rfl]
  · rw [live.coldSlot, coldSlot_free rfl]
  · rw [cell_free rfl, takenCells_setShared_clear]
    exact h.cellsOwned.give (live.cell used)

/-- One shared entry without sub-slots is bound to a hot slot, or unbound from it. -/
theorem invariant_rebind (h : Invariant b) {hot : FractalArena c.hot} {e : ℕ} {id : GenID}
    (empty : (b.sharedSlots e).occupancyBitmap = 0#32) (hlt : id.isNull = false → e < c.kMaxSharedSlots)
    (hid : id.isNull = false → hot.validate id = true ∧ id.state = .kActive)
    (hvhot : ∀ k, (b.tenants k).inUse = true → HotRecord b (b.tenants k) →
      hot.validate (b.tenants k).hotId = true)
    (hventry : ∀ k, k ≠ e → (b.sharedSlots k).hotId.isNull = false →
      hot.validate (b.sharedSlots k).hotId = true)
    (hhot : Owned (Function.update b.hotOwners (.inr e) (entrySlot ⟨0#32, id⟩)) (hot.occupied : Set ℕ))
    (hc : hot.Clean) : Invariant ({ b with hot := hot }.setShared e ⟨0#32, id⟩) := by
  have hcells : ({ b with hot := hot }.setShared e ⟨0#32, id⟩).takenCells = b.takenCells := by
    ext ⟨e', j⟩
    simp only [takenCells, Set.mem_ofPred_eq]
    by_cases he : e' = e
    · subst he
      simp [empty]
    · rw [sharedSlots_setShared_of_ne he]
  refine ⟨h.tenants_lt, ?_, ?_, ?_, ?_, ?_, ?_, h.coldOwned, ?_, hc, h.coldClean⟩
  · intro k hu
    refine (h.records k hu).frame (hvhot k hu) (fun hr => hr.valid) ?_
    intro hr
    have hne : (b.tenants k).sharedSlotIdx ≠ e := by
      intro heq
      have hbit := hr.bit
      rw [heq, empty] at hbit
      simp at hbit
    have hs : (({ b with hot := hot } : TieredArenaBridge c).setShared e ⟨0#32, id⟩).sharedSlots
        (b.tenants k).sharedSlotIdx = b.sharedSlots (b.tenants k).sharedSlotIdx := sharedSlots_setShared_of_ne hne
    exact hr.frame (by rw [hs]) (by rw [hs]; exact hr.bit)
  · exact forall_sharedSlots_setShared (b := { b with hot := hot })
      (P := fun k x => x.hotId.isNull = false → k < c.kMaxSharedSlots) hlt (fun k _ => h.shared_lt k)
  · exact forall_sharedSlots_setShared (b := { b with hot := hot })
      (P := fun _ x => x.hotId.isNull = false → hot.validate x.hotId = true ∧ x.hotId.state = .kActive) hid
      (fun k hk he => ⟨hventry k hk he, (h.entries k he).2⟩)
  · refine forall_sharedSlots_setShared (b := { b with hot := hot })
      (P := fun _ x => ∀ j, x.occupancyBitmap.getLsbD j = true → j < c.kSubSlotsPerSlot) ?_
      (fun k _ => h.bits_lt k)
    intro j hj
    simp at hj
  · exact forall_sharedSlots_setShared (b := { b with hot := hot })
      (P := fun _ x => x.hotId.isNull = true → x.occupancyBitmap = 0#32) (fun _ => rfl)
      (fun k _ => h.bits_null k)
  · rw [hotOwners_setShared]
    exact hhot
  · rw [hcells]
    exact h.cellsOwned

theorem invariant_openShared (h : Invariant b) {e : ℕ} {fresh : GenID} {hot}
    (lt : e < c.kMaxSharedSlots) (entry : (b.sharedSlots e).hotId.isNull = true)
    (taken : Allocated b.hot fresh hot) : Invariant ({ b with hot := hot }.setShared e ⟨0#32, fresh⟩) := by
  refine invariant_rebind h (h.bits_null e entry) (fun _ => lt) ?_ ?_ ?_ ?_ (taken.clean h.hotClean)
  · intro _
    exact ⟨taken.validate, taken.active⟩
  · intro k _ hr
    exact taken.validate_of_valid hr.valid
  · intro k _ hk
    exact taken.validate_of_valid (h.entries k hk).1
  · rw [coe_allocated taken, show entrySlot ⟨0#32, fresh⟩ = some fresh.id by simp [entrySlot, taken.notNull]]
    refine h.hotOwned.take ?_ (by simpa using taken.fresh)
    simp [hotOwners, entrySlot, entry]

theorem invariant_closeShared (h : Invariant b) {e : ℕ}
    (entry : (b.sharedSlots e).hotId.isNull = false) (empty : (b.sharedSlots e).occupancyBitmap = 0#32) :
    Invariant ({ b with
      hot := (b.hot.release ((b.sharedSlots e).hotId.withSubSlot 0)).2 }.setShared e ⟨0#32, .null⟩) := by
  have hrel := (release_of_validate (h.shared_valid entry 0)).2
  have hid := GenID.id_withSubSlot (b.sharedSlots e).hotId 0
  refine invariant_rebind h empty ?_ ?_ ?_ ?_ ?_ (hrel.clean h.hotClean)
  · intro hn
    cases hn
  · intro hn
    cases hn
  · intro k hu hr
    rw [hrel.validate_of_ne (by rw [hid]; exact (h.sharedId_ne hu hr entry).symm)]
    exact hr.valid
  · intro k hk hn
    rw [hrel.validate_of_ne (by rw [hid]; exact h.sharedId_ne_shared hk entry hn)]
    exact (h.entries k hn).1
  · rw [coe_released hrel, hid, show entrySlot ⟨0#32, .null⟩ = none by simp [entrySlot]]
    exact h.hotOwned.give (hotOwners_shared entry)

theorem invariant {ev : Event} {b' : TieredArenaBridge c} (hs : Step caller b ev b') (h : Invariant b) :
    Invariant b' := by
  cases hs with
  | counters => exact invariant_same h rfl rfl rfl rfl
  | hotQuiet quiet => exact invariant_hotQuiet h quiet
  | coldQuiet quiet => exact invariant_coldQuiet h quiet
  | idle free still _ => exact invariant_idle h free still
  | evict used live unpinned _ taken _ =>
    exact invariant_same (invariant_evict h used live unpinned taken) rfl rfl rfl rfl
  | promote used live taken _ => exact invariant_same (invariant_promote h used live taken) rfl rfl rfl rfl
  | create tenantId accessTime free lt taken => exact invariant_create h tenantId accessTime free lt taken
  | createMicro tenantId accessTime free lt entry subIdx bit =>
    exact invariant_createMicro h tenantId accessTime free lt entry subIdx bit
  | openShared lt entry taken => exact invariant_openShared h lt entry taken
  | closeShared entry empty => exact invariant_closeShared h entry empty
  | destroyHot used live => exact invariant_destroyHot h used live
  | destroyCold used live => exact invariant_destroyCold h used live
  | destroyMicro used live => exact invariant_destroyMicro h used live
  | touch _ pinCount accessTime sealed used cold _ =>
    exact invariant_same (invariant_touch h pinCount accessTime sealed used cold) rfl rfl rfl rfl

end Step

end Qtx.TieredArenaBridge
