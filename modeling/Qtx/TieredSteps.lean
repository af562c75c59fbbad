import Qtx.TieredInvariant

/-!
# The elementary changes

`Step` lists the changes that the operations are composed of, each with its exact
result. The event says which record it is about. The steps of one record keep the
invariant.
-/
namespace Qtx.TieredArenaBridge
open SpanMemory OwnershipTables FractalArena

variable {c : TieredConfig}

inductive Event
  | scratch
  | shared
  | evicted (i : ℕ)
  | promoted (i : ℕ)
  | created (i : ℕ)
  | destroyed (i : ℕ)
  | touched (i : ℕ)

def deadRecord (r : TenantRecord) : TenantRecord :=
  { r with state := .kDead, hotId := .null, coldId := .null, inUse := false }

inductive Step (caller : Caller) (b : TieredArenaBridge c) : Event → TieredArenaBridge c → Prop
  | counters (monotonicClock nextTenantId : BitVec 64) (nextSharedScanStart : ℕ)
      (evictions promotions : BitVec 64) :
      Step caller b .scratch { b with
        monotonicClock := monotonicClock
        nextTenantId := nextTenantId
        nextSharedScanStart := nextSharedScanStart
        evictions := evictions
        promotions := promotions }
  | hotQuiet {hot} (quiet : Quiet b.hot hot) : Step caller b .scratch { b with hot := hot }
  | coldQuiet {cold} (quiet : Quiet b.cold cold) : Step caller b .scratch { b with cold := cold }
  | idle {i r}
      (free : (b.tenants i).inUse = false)
      (still : r.inUse = false)
      (sameId : r.tenantId = (b.tenants i).tenantId) :
      Step caller b .scratch (b.setTenant i r)
  | evict {i coldId cold bytes}
      (used : (b.tenants i).inUse = true)
      (live : HotRecord b (b.tenants i))
      (unpinned : (b.tenants i).pinCount = 0#32)
      (unsealed : (b.tenants i).sealed = false)
      (taken : Allocated b.cold coldId cold)
      (compressed : caller.codec.compress (load b.hot.die (c.hot.slotSpan (b.tenants i).hotId.id))
        (load cold.die (c.cold.slotSpan coldId.id)) = (c.kCompressedBytes, bytes)) :
      Step caller b (.evicted i) ({ b with
        hot := (b.hot.release (b.tenants i).hotId).2
        cold := { cold with die := store cold.die (c.cold.slotSpan coldId.id) bytes }
        evictions := b.evictions + 1#64 }.setTenant i
          { b.tenants i with hotId := .null, coldId := coldId, state := .kInCold })
  | promote {i hotId hot bytes}
      (used : (b.tenants i).inUse = true)
      (live : ColdRecord b (b.tenants i))
      (taken : Allocated b.hot hotId hot)
      (decompressed : caller.codec.decompress
        (load b.cold.die ((c.cold.slotSpan (b.tenants i).coldId.id).first c.kCompressedBytes))
        (load hot.die (c.hot.slotSpan hotId.id)) = (c.kPayloadBytes, bytes)) :
      Step caller b (.promoted i) ({ b with
        hot := { hot with die := store hot.die (c.hot.slotSpan hotId.id) bytes }
        cold := (b.cold.release (b.tenants i).coldId).2
        promotions := b.promotions + 1#64 }.setTenant i
          { b.tenants i with coldId := .null, hotId := hotId, state := .kInHot })
  | create {i hotId hot} (tenantId accessTime : BitVec 64)
      (free : (b.tenants i).inUse = false)
      (lt : i < c.maxTenants)
      (taken : Allocated b.hot hotId hot) :
      Step caller b (.created i) ({ b with hot := hot }.setTenant i
        { tenantId := tenantId, pinCount := 0#32, state := .kInHot, accessTime := accessTime, inUse := true,
          sealed := false, hotId := hotId, coldId := .null, kind := .kFullSlot, sharedSlotIdx := 0 })
  | createMicro {i e j} (tenantId accessTime : BitVec 64)
      (free : (b.tenants i).inUse = false)
      (lt : i < c.maxTenants)
      (entry : (b.sharedSlots e).hotId.isNull = false)
      (subIdx : j < c.kSubSlotsPerSlot)
      (bit : (b.sharedSlots e).occupancyBitmap.getLsbD j = false) :
      Step caller b (.created i) (({ b with
        hot := (b.hot.zeroizeSubSlot ((b.sharedSlots e).hotId.withSubSlot j) kMicroSlotSize).2 }.setShared e
          ⟨(b.sharedSlots e).occupancyBitmap ||| BitVec.twoPow 32 j, (b.sharedSlots e).hotId⟩).setTenant i
        { tenantId := tenantId, pinCount := 0#32, state := .kInHot, accessTime := accessTime, inUse := true,
          sealed := false, hotId := (b.sharedSlots e).hotId.withSubSlot j, coldId := .null, kind := .kMicro,
          sharedSlotIdx := e })
  | openShared {e fresh hot}
      (lt : e < c.kMaxSharedSlots)
      (entry : (b.sharedSlots e).hotId.isNull = true)
      (taken : Allocated b.hot fresh hot) :
      Step caller b .shared ({ b with hot := hot }.setShared e ⟨0#32, fresh⟩)
  | closeShared {e}
      (entry : (b.sharedSlots e).hotId.isNull = false)
      (empty : (b.sharedSlots e).occupancyBitmap = 0#32) :
      Step caller b .shared ({ b with
        hot := (b.hot.release ((b.sharedSlots e).hotId.withSubSlot 0)).2 }.setShared e ⟨0#32, .null⟩)
  | destroyHot {i}
      (used : (b.tenants i).inUse = true)
      (live : HotRecord b (b.tenants i)) :
      Step caller b (.destroyed i)
        ({ b with hot := (b.hot.release (b.tenants i).hotId).2 }.setTenant i (deadRecord (b.tenants i)))
  | destroyCold {i}
      (used : (b.tenants i).inUse = true)
      (live : ColdRecord b (b.tenants i)) :
      Step caller b (.destroyed i)
        ({ b with cold := (b.cold.release (b.tenants i).coldId).2 }.setTenant i (deadRecord (b.tenants i)))
  | destroyMicro {i}
      (used : (b.tenants i).inUse = true)
      (live : MicroRecord b (b.tenants i)) :
      Step caller b (.destroyed i) (({ b with
        hot := (b.hot.zeroizeSubSlot (b.tenants i).hotId kMicroSlotSize).2 }.setShared (b.tenants i).sharedSlotIdx
          ⟨(b.sharedSlots (b.tenants i).sharedSlotIdx).occupancyBitmap &&&
            ~~~(BitVec.twoPow 32 (b.tenants i).hotId.subSlotIndex),
            (b.sharedSlots (b.tenants i).sharedSlotIdx).hotId⟩).setTenant i (deadRecord (b.tenants i)))
  | touch {i} (monotonicClock : BitVec 64) (pinCount : BitVec 32) (accessTime : BitVec 64) (sealed : Bool)
      (used : (b.tenants i).inUse = true)
      (cold : (b.tenants i).state = .kInCold → pinCount = 0#32)
      (keeps : (b.tenants i).sealed = true → sealed = true) :
      Step caller b (.touched i) ({ b with monotonicClock := monotonicClock }.setTenant i
        { b.tenants i with pinCount := pinCount, accessTime := accessTime, sealed := sealed })

namespace Step

variable {caller : Caller} {b : TieredArenaBridge c}

/-- Nothing but the bookkeeping fields changes. -/
theorem invariant_same {b' : TieredArenaBridge c} (h : Invariant b)
    (hhot : b'.hot = b.hot) (hcold : b'.cold = b.cold) (ht : b'.tenants = b.tenants)
    (hs : b'.sharedSlots = b.sharedSlots) : Invariant b' := by
  obtain ⟨h1, h2, h3, h4, h5, h6, h7, h8, h9, h10, h11⟩ := h
  cases b
  cases b'
  cases hhot
  cases hcold
  cases ht
  cases hs
  refine ⟨h1, ?_, h3, h4, h5, h6, h7, h8, h9, h10, h11⟩
  intro i hi
  exact (h2 i hi).frame (fun h => h.valid) (fun h => h.valid) (fun h => h.frame rfl h.bit)

theorem invariant_hotQuiet (h : Invariant b) {hot} (quiet : Quiet b.hot hot) :
    Invariant { b with hot := hot } := by
  refine ⟨h.tenants_lt, ?_, h.shared_lt, ?_, h.bits_lt, h.bits_null, ?_, h.coldOwned, h.cellsOwned,
    quiet.clean h.hotClean, h.coldClean⟩
  · intro i hi
    exact (h.records i hi).frame (fun h => (quiet.validate _).trans h.valid) (fun h => h.valid)
      (fun h => h.frame rfl h.bit)
  · intro e he
    exact ⟨(quiet.validate _).trans (h.entries e he).1, (h.entries e he).2⟩
  · change Owned b.hotOwners (hot.occupied : Set ℕ)
    rw [quiet.occupied]
    exact h.hotOwned

theorem invariant_coldQuiet (h : Invariant b) {cold} (quiet : Quiet b.cold cold) :
    Invariant { b with cold := cold } := by
  refine ⟨h.tenants_lt, ?_, h.shared_lt, h.entries, h.bits_lt, h.bits_null, h.hotOwned, ?_, h.cellsOwned,
    h.hotClean, quiet.clean h.coldClean⟩
  · intro i hi
    exact (h.records i hi).frame (fun h => h.valid) (fun h => (quiet.validate _).trans h.valid)
      (fun h => h.frame rfl h.bit)
  · change Owned b.coldOwners (cold.occupied : Set ℕ)
    rw [quiet.occupied]
    exact h.coldOwned

/-- New arenas and a new record, provided that both ownership tables follow. -/
theorem invariant_rebuild (h : Invariant b) (hot : FractalArena c.hot) (cold : FractalArena c.cold)
    {i : ℕ} {r : TenantRecord}
    (hlt : r.inUse = true → i < c.maxTenants)
    (hlive : r.inUse = true → LiveRecord { b with hot := hot, cold := cold } r)
    (hvhot : ∀ k, k ≠ i → (b.tenants k).inUse = true → HotRecord b (b.tenants k) →
      hot.validate (b.tenants k).hotId = true)
    (hvcold : ∀ k, k ≠ i → (b.tenants k).inUse = true → ColdRecord b (b.tenants k) →
      cold.validate (b.tenants k).coldId = true)
    (hventry : ∀ e, (b.sharedSlots e).hotId.isNull = false → hot.validate (b.sharedSlots e).hotId = true)
    (hhot : Owned (Function.update b.hotOwners (.inl i) (hotSlot r)) (hot.occupied : Set ℕ))
    (hcold : Owned (Function.update b.coldOwners i (coldSlot r)) (cold.occupied : Set ℕ))
    (hcell : cell r = cell (b.tenants i)) (hotClean : hot.Clean) (coldClean : cold.Clean) :
    Invariant ({ b with hot := hot, cold := cold }.setTenant i r) := by
  refine ⟨?_, ?_, h.shared_lt, ?_, h.bits_lt, h.bits_null, ?_, ?_, ?_, hotClean, coldClean⟩
  · exact forall_tenants_setTenant (P := fun k r => r.inUse = true → k < c.maxTenants) hlt
      (fun k _ => h.tenants_lt k)
  · refine forall_tenants_setTenant (P := fun _ r' =>
      r'.inUse = true → LiveRecord ({ b with hot := hot, cold := cold }.setTenant i r) r') ?_ ?_
    · intro hu
      exact (hlive hu).frame (fun h => h.valid) (fun h => h.valid) (fun h => h.frame rfl h.bit)
    · intro k hk hu
      exact (h.records k hu).frame (hvhot k hk hu) (hvcold k hk hu) (fun h => h.frame rfl h.bit)
  · intro e he
    exact ⟨hventry e he, (h.entries e he).2⟩
  · rw [hotOwners_setTenant]
    exact hhot
  · rw [coldOwners_setTenant]
    exact hcold
  · rw [cellOwners_setTenant]
    exact h.cellsOwned.keep hcell

/-- A record that keeps its slots may change its other fields. -/
theorem invariant_setTenant (h : Invariant b) {i : ℕ} {r : TenantRecord}
    (hlt : r.inUse = true → i < c.maxTenants) (hlive : r.inUse = true → LiveRecord b r)
    (hhot : hotSlot r = hotSlot (b.tenants i)) (hcold : coldSlot r = coldSlot (b.tenants i))
    (hcell : cell r = cell (b.tenants i)) : Invariant (b.setTenant i r) := by
  refine invariant_rebuild h b.hot b.cold hlt hlive (fun _ _ _ hr => hr.valid)
    (fun _ _ _ hr => hr.valid) (fun e he => (h.entries e he).1) (h.hotOwned.keep hhot) (h.coldOwned.keep hcold)
    hcell h.hotClean h.coldClean

theorem invariant_idle (h : Invariant b) {i : ℕ} {r : TenantRecord}
    (free : (b.tenants i).inUse = false) (still : r.inUse = false) : Invariant (b.setTenant i r) := by
  refine invariant_setTenant h ?_ ?_ ?_ ?_ ?_
  · intro hu
    exact absurd (hu.symm.trans still) (by decide)
  · intro hu
    exact absurd (hu.symm.trans still) (by decide)
  · rw [hotSlot_free free, hotSlot_free still]
  · rw [coldSlot_free free, coldSlot_free still]
  · rw [cell_free free, cell_free still]

theorem invariant_touch (h : Invariant b) {i : ℕ} (pinCount : BitVec 32) (accessTime : BitVec 64)
    (sealed : Bool) (used : (b.tenants i).inUse = true)
    (cold : (b.tenants i).state = .kInCold → pinCount = 0#32) :
    Invariant (b.setTenant i
      { b.tenants i with pinCount := pinCount, accessTime := accessTime, sealed := sealed }) := by
  refine invariant_setTenant h (fun _ => h.tenants_lt i used) ?_ rfl rfl rfl
  intro _
  cases h.records i used with
  | hot hr => exact .hot ⟨hr.kind, hr.state, hr.valid, hr.cold⟩
  | cold hr => exact .cold ⟨hr.kind, hr.state, hr.valid, hr.hot, cold hr.state⟩
  | micro hr => exact .micro ⟨hr.kind, hr.state, hr.cold, hr.entry, hr.hotId, hr.bit⟩

theorem coe_released {g : Geometry} {s s' : FractalArena g} {id : GenID} (h : Released s id s') :
    (s'.occupied : Set ℕ) = (s.occupied : Set ℕ) \ {id.id} := by
  rw [h.occupied, Finset.coe_erase]

theorem coe_allocated {g : Geometry} {s s' : FractalArena g} {id : GenID} (h : Allocated s id s') :
    (s'.occupied : Set ℕ) = insert id.id (s.occupied : Set ℕ) := by
  rw [h.occupied, Finset.coe_insert]

/-- Writing into a slot that has just been taken keeps the free slots clean. -/
theorem clean_store {g : Geometry} {s s' : FractalArena g} {id : GenID} (h : Allocated s id s')
    (hc : s.Clean) (bytes : List Byte) :
    ({ s' with die := store s'.die (g.slotSpan id.id) bytes } : FractalArena g).Clean := by
  apply (h.clean hc).of_die
  intro a ha
  refine ⟨id.id, h.occupied ▸ Finset.mem_insert_self _ _, ?_⟩
  by_contra hne
  exact ha (store_of_notMem _ hne)

theorem invariant_evict (h : Invariant b) {i : ℕ} {coldId : GenID} {cold} {bytes : List Byte}
    (used : (b.tenants i).inUse = true) (live : HotRecord b (b.tenants i))
    (unpinned : (b.tenants i).pinCount = 0#32) (taken : Allocated b.cold coldId cold) :
    Invariant ({ b with
      hot := (b.hot.release (b.tenants i).hotId).2
      cold := { cold with die := store cold.die (c.cold.slotSpan coldId.id) bytes } }.setTenant i
        { b.tenants i with hotId := .null, coldId := coldId, state := .kInCold }) := by
  have hrel := (release_of_validate live.valid).2
  refine invariant_rebuild h _ _ (fun _ => h.tenants_lt i used) ?_ ?_ ?_ ?_ ?_ ?_ ?_ (hrel.clean h.hotClean)
    (clean_store taken h.coldClean bytes)
  · intro _
    exact .cold ⟨live.kind, rfl, taken.validate, rfl, unpinned⟩
  · intro k hk huk hr
    rw [hrel.validate_of_ne (h.hotId_ne hk used live huk hr)]
    exact hr.valid
  · intro k hk huk hr
    exact taken.validate_of_valid hr.valid
  · intro e he
    rw [hrel.validate_of_ne (h.sharedId_ne used live he)]
    exact (h.entries e he).1
  · rw [coe_released hrel, show hotSlot _ = none by simp [hotSlot]]
    exact h.hotOwned.give (hotOwners_tenant used live)
  · have hslot : coldSlot { b.tenants i with hotId := .null, coldId := coldId, state := .kInCold } =
        some coldId.id := by simp [coldSlot, used, live.kind]
    rw [hslot]
    change Owned _ (cold.occupied : Set ℕ)
    rw [coe_allocated taken]
    exact h.coldOwned.take live.coldSlot (by simpa using taken.fresh)
  · rw [live.cell]
    simp [cell, live.kind]

theorem invariant_promote (h : Invariant b) {i : ℕ} {hotId : GenID} {hot} {bytes : List Byte}
    (used : (b.tenants i).inUse = true) (live : ColdRecord b (b.tenants i))
    (taken : Allocated b.hot hotId hot) :
    Invariant ({ b with
      hot := { hot with die := store hot.die (c.hot.slotSpan hotId.id) bytes }
      cold := (b.cold.release (b.tenants i).coldId).2 }.setTenant i
        { b.tenants i with coldId := .null, hotId := hotId, state := .kInHot }) := by
  have hrel := (release_of_validate live.valid).2
  refine invariant_rebuild h _ _ (fun _ => h.tenants_lt i used) ?_ ?_ ?_ ?_ ?_ ?_ ?_
    (clean_store taken h.hotClean bytes) (hrel.clean h.coldClean)
  · intro _
    exact .hot ⟨live.kind, rfl, taken.validate, rfl⟩
  · intro k _ _ hr
    exact taken.validate_of_valid hr.valid
  · intro k hk huk hr
    rw [hrel.validate_of_ne (h.coldId_ne hk used live huk hr)]
    exact hr.valid
  · intro e he
    exact taken.validate_of_valid (h.entries e he).1
  · have hslot : hotSlot { b.tenants i with coldId := .null, hotId := hotId, state := .kInHot } =
        some hotId.id := by simp [hotSlot, used, live.kind]
    rw [hslot]
    change Owned _ (hot.occupied : Set ℕ)
    rw [coe_allocated taken]
    exact h.hotOwned.take live.hotSlot (by simpa using taken.fresh)
  · rw [coe_released hrel, show coldSlot _ = none by simp [coldSlot]]
    exact h.coldOwned.give (live.coldSlot used)
  · rw [live.cell]
    simp [cell, live.kind]

theorem invariant_create (h : Invariant b) {i : ℕ} {hotId : GenID} {hot}
    (tenantId accessTime : BitVec 64) (free : (b.tenants i).inUse = false) (lt : i < c.maxTenants)
    (taken : Allocated b.hot hotId hot) :
    Invariant ({ b with hot := hot }.setTenant i
      { tenantId := tenantId, pinCount := 0#32, state := .kInHot, accessTime := accessTime, inUse := true,
        sealed := false, hotId := hotId, coldId := .null, kind := .kFullSlot, sharedSlotIdx := 0 }) := by
  refine invariant_rebuild h _ b.cold (fun _ => lt) ?_ ?_ ?_ ?_ ?_ ?_ ?_ (taken.clean h.hotClean)
    h.coldClean
  · intro _
    exact .hot ⟨rfl, rfl, taken.validate, rfl⟩
  · intro k _ _ hr
    exact taken.validate_of_valid hr.valid
  · intro k _ _ hr
    exact hr.valid
  · intro e he
    exact taken.validate_of_valid (h.entries e he).1
  · rw [coe_allocated taken]
    exact h.hotOwned.take (hotSlot_free free) (by simpa using taken.fresh)
  · exact h.coldOwned.keep (coldSlot_free free).symm
  · rw [cell_free free]
    rfl

theorem invariant_destroyHot (h : Invariant b) {i : ℕ} (used : (b.tenants i).inUse = true)
    (live : HotRecord b (b.tenants i)) :
    Invariant ({ b with hot := (b.hot.release (b.tenants i).hotId).2 }.setTenant i
      (deadRecord (b.tenants i))) := by
  have hrel := (release_of_validate live.valid).2
  refine invariant_rebuild h _ b.cold (fun hu => nomatch hu) (fun hu => nomatch hu) ?_ ?_ ?_ ?_ ?_ ?_
    (hrel.clean h.hotClean) h.coldClean
  · intro k hk huk hr
    rw [hrel.validate_of_ne (h.hotId_ne hk used live huk hr)]
    exact hr.valid
  · intro k _ _ hr
    exact hr.valid
  · intro e he
    rw [hrel.validate_of_ne (h.sharedId_ne used live he)]
    exact (h.entries e he).1
  · rw [coe_released hrel, hotSlot_free rfl]
    exact h.hotOwned.give (hotOwners_tenant used live)
  · exact h.coldOwned.keep live.coldSlot.symm
  · rw [live.cell, cell_free rfl]

theorem invariant_destroyCold (h : Invariant b) {i : ℕ} (used : (b.tenants i).inUse = true)
    (live : ColdRecord b (b.tenants i)) :
    Invariant ({ b with cold := (b.cold.release (b.tenants i).coldId).2 }.setTenant i
      (deadRecord (b.tenants i))) := by
  have hrel := (release_of_validate live.valid).2
  refine invariant_rebuild h b.hot _ (fun hu => nomatch hu) (fun hu => nomatch hu) ?_ ?_ ?_ ?_ ?_ ?_
    h.hotClean (hrel.clean h.coldClean)
  · intro k _ _ hr
    exact hr.valid
  · intro k hk huk hr
    rw [hrel.validate_of_ne (h.coldId_ne hk used live huk hr)]
    exact hr.valid
  · intro e he
    exact (h.entries e he).1
  · exact h.hotOwned.keep live.hotSlot.symm
  · rw [coe_released hrel, coldSlot_free rfl]
    exact h.coldOwned.give (live.coldSlot used)
  · rw [live.cell, cell_free rfl]

end Step

end Qtx.TieredArenaBridge
