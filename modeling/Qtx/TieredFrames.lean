import Qtx.TieredSharedSteps

/-!
# What a change leaves alone

A live tenant has a region of the hot tier or a slot of the cold tier. Regions of
different tenants are disjoint, and an elementary change keeps the record and the
bytes of every tenant that it is not about.
-/
namespace Qtx.TieredArenaBridge
open SpanMemory OwnershipTables FractalArena

variable {c : TieredConfig} {caller : Caller} {b b' : TieredArenaBridge c}

/-- The bytes of a tenant in the hot tier. -/
def hotRegion (c : TieredConfig) (r : TenantRecord) : Span :=
  match r.kind with
  | .kFullSlot => c.hot.slotSpan r.hotId.id
  | .kMicro => c.hot.subSlotSpan r.hotId.id r.hotId.subSlotIndex kMicroSlotSize

theorem kMicroSlotSize_le (c : TieredConfig) : kMicroSlotSize ≤ c.hot.slotSize :=
  Nat.le_of_dvd c.hot.slotSize_pos (Nat.dvd_of_mod_eq_zero c.hot.slotSize_mod)

theorem subSlotCount_kMicroSlotSize (c : TieredConfig) :
    c.hot.subSlotCount kMicroSlotSize = c.kSubSlotsPerSlot := by
  unfold Geometry.subSlotCount
  rw [if_neg (by decide), if_neg (Nat.not_lt.mpr (kMicroSlotSize_le c)),
    if_neg (not_not.mpr (show c.hot.slotSize % kMicroSlotSize = 0 from c.hot.slotSize_mod)), if_neg (by decide),
    if_neg (by decide)]
  rfl

theorem HotRecord.region {r : TenantRecord} (h : HotRecord b r) : hotRegion c r = c.hot.slotSpan r.hotId.id := by
  simp only [hotRegion, h.kind]

theorem MicroRecord.region {r : TenantRecord} (h : MicroRecord b r) :
    hotRegion c r = c.hot.subSlotSpan r.hotId.id r.hotId.subSlotIndex kMicroSlotSize := by
  simp only [hotRegion, h.kind]

theorem MicroRecord.slot_eq {r : TenantRecord} (h : MicroRecord b r) :
    r.hotId.id = (b.sharedSlots r.sharedSlotIdx).hotId.id := by
  rw [h.hotId, GenID.id_withSubSlot]

namespace Invariant

variable (h : Invariant b) {i k e : ℕ}
include h

theorem micro_subSlot_lt (hr : MicroRecord b (b.tenants i)) :
    (b.tenants i).hotId.subSlotIndex < c.hot.subSlotCount kMicroSlotSize := by
  rw [subSlotCount_kMicroSlotSize]
  exact h.bits_lt _ _ hr.bit

/-- Shapes of a record that is in the hot tier. -/
theorem hot_cases (used : (b.tenants i).inUse = true) (hot : (b.tenants i).state = .kInHot) :
    HotRecord b (b.tenants i) ∨ MicroRecord b (b.tenants i) := by
  cases h.records i used with
  | hot hr => exact .inl hr
  | cold hr => exact absurd (hot.symm.trans hr.state) (by decide)
  | micro hr => exact .inr hr

theorem validate_of_hot (used : (b.tenants i).inUse = true) (hot : (b.tenants i).state = .kInHot) :
    b.hot.validate (b.tenants i).hotId = true := by
  rcases h.hot_cases used hot with hr | hr
  · exact hr.valid
  · exact h.micro_valid hr

theorem hotRegion_within (used : (b.tenants i).inUse = true) (hot : (b.tenants i).state = .kInHot) :
    (hotRegion c (b.tenants i)).Within (c.hot.slotSpan (b.tenants i).hotId.id) := by
  rcases h.hot_cases used hot with hr | hr
  · rw [hr.region]
    exact Span.Within.refl _
  · rw [hr.region]
    exact Geometry.subSlotSpan_within (h.micro_subSlot_lt hr)

theorem coldRecord (used : (b.tenants i).inUse = true) (cold : (b.tenants i).state = .kInCold) :
    ColdRecord b (b.tenants i) := by
  cases h.records i used with
  | hot hr => exact absurd (hr.state.symm.trans cold) (by decide)
  | cold hr => exact hr
  | micro hr => exact absurd (hr.state.symm.trans cold) (by decide)

theorem microRecord (used : (b.tenants i).inUse = true) (kind : (b.tenants i).kind = .kMicro) :
    MicroRecord b (b.tenants i) := by
  cases h.records i used with
  | hot hr => exact absurd (kind.symm.trans hr.kind) (by decide)
  | cold hr => exact absurd (kind.symm.trans hr.kind) (by decide)
  | micro hr => exact hr

/-- Nobody else has bytes in the slot of a full-slot tenant. -/
theorem slot_ne_of_hot (hki : k ≠ i) (used : (b.tenants i).inUse = true) (live : HotRecord b (b.tenants i))
    (usedK : (b.tenants k).inUse = true) (hotK : (b.tenants k).state = .kInHot) :
    (b.tenants k).hotId.id ≠ (b.tenants i).hotId.id := by
  rcases h.hot_cases usedK hotK with hr | hr
  · exact h.hotId_ne hki used live usedK hr
  · rw [hr.slot_eq]
    exact h.sharedId_ne used live hr.entry

/-- Nobody else has bytes in a shared slot than its own micro tenants. -/
theorem slot_ne_of_shared (he : (b.sharedSlots e).hotId.isNull = false) (used : (b.tenants k).inUse = true)
    (hot : (b.tenants k).state = .kInHot)
    (other : (b.tenants k).kind = .kMicro → (b.tenants k).sharedSlotIdx ≠ e) :
    (b.tenants k).hotId.id ≠ (b.sharedSlots e).hotId.id := by
  rcases h.hot_cases used hot with hr | hr
  · exact (h.sharedId_ne used hr he).symm
  · rw [hr.slot_eq]
    exact h.sharedId_ne_shared (other hr.kind) he hr.entry

/-- The region of a tenant keeps clear of the other sub-slots of a shared slot. -/
theorem hotRegion_disjoint_subSlot {j : ℕ} (he : (b.sharedSlots e).hotId.isNull = false)
    (hj : j < c.kSubSlotsPerSlot) (used : (b.tenants k).inUse = true) (hot : (b.tenants k).state = .kInHot)
    (other : (b.tenants k).kind = .kMicro → (b.tenants k).sharedSlotIdx = e →
      (b.tenants k).hotId.subSlotIndex ≠ j) :
    (hotRegion c (b.tenants k)).Disjoint (c.hot.subSlotSpan (b.sharedSlots e).hotId.id j kMicroSlotSize) := by
  by_cases hin : (b.tenants k).kind = .kMicro ∧ (b.tenants k).sharedSlotIdx = e
  · have hr := h.microRecord used hin.1
    rw [hr.region, hr.slot_eq, hin.2]
    exact Geometry.subSlotSpan_disjoint (other hin.1 hin.2)
  · have hne := h.slot_ne_of_shared he used hot (fun hk heq => hin ⟨hk, heq⟩)
    refine (Geometry.slotSpan_disjoint hne).mono (h.hotRegion_within used hot) ?_
    exact Geometry.subSlotSpan_within (by rwa [subSlotCount_kMicroSlotSize])

theorem hotRegion_disjoint (hki : k ≠ i) (used : (b.tenants i).inUse = true) (hot : (b.tenants i).state = .kInHot)
    (usedK : (b.tenants k).inUse = true) (hotK : (b.tenants k).state = .kInHot) :
    (hotRegion c (b.tenants k)).Disjoint (hotRegion c (b.tenants i)) := by
  rcases h.hot_cases used hot with hr | hr
  · exact (Geometry.slotSpan_disjoint (h.slot_ne_of_hot hki used hr usedK hotK)).mono
      (h.hotRegion_within usedK hotK) (h.hotRegion_within used hot)
  · rw [hr.region, hr.slot_eq]
    refine h.hotRegion_disjoint_subSlot hr.entry (h.bits_lt _ _ hr.bit) usedK hotK ?_
    intro hkind hidx hsub
    exact h.cell_ne hki used hr usedK (h.microRecord usedK hkind) (by rw [hidx, hsub])

end Invariant

/-- The record that an event is about. -/
def Event.subject : Event → Option ℕ
  | .scratch | .shared => none
  | .evicted i | .promoted i | .created i | .destroyed i | .touched i => some i

/-- The same tenants as before, each in its record. -/
def SameTenants (b b' : TieredArenaBridge c) : Prop :=
  ∀ k, (b'.tenants k).inUse = (b.tenants k).inUse ∧ ((b.tenants k).inUse = true →
    (b'.tenants k).tenantId = (b.tenants k).tenantId ∧ (b'.tenants k).kind = (b.tenants k).kind ∧
      (b'.tenants k).sharedSlotIdx = (b.tenants k).sharedSlotIdx)

theorem SameTenants.refl (b : TieredArenaBridge c) : SameTenants b b := fun _ => ⟨rfl, fun _ => ⟨rfl, rfl, rfl⟩⟩

theorem SameTenants.trans {b'' : TieredArenaBridge c} (h : SameTenants b b') (h' : SameTenants b' b'') :
    SameTenants b b'' := by
  intro k
  refine ⟨(h' k).1.trans (h k).1, fun used => ?_⟩
  obtain ⟨hid, hkind, hidx⟩ := (h k).2 used
  obtain ⟨hid', hkind', hidx'⟩ := (h' k).2 ((h k).1.trans used)
  exact ⟨hid'.trans hid, hkind'.trans hkind, hidx'.trans hidx⟩

theorem sameTenants_setTenant (b : TieredArenaBridge c) (i : ℕ) {r : TenantRecord}
    (hu : r.inUse = (b.tenants i).inUse) (hr : (b.tenants i).inUse = true → r.tenantId = (b.tenants i).tenantId ∧
      r.kind = (b.tenants i).kind ∧ r.sharedSlotIdx = (b.tenants i).sharedSlotIdx) :
    SameTenants b (b.setTenant i r) := by
  intro k
  by_cases hk : k = i
  · subst hk
    rw [tenants_setTenant_self]
    exact ⟨hu, hr⟩
  · rw [tenants_setTenant_of_ne hk]
    exact SameTenants.refl b k

def Event.KeepsTenants : Event → Prop
  | .created _ | .destroyed _ => False
  | _ => True

theorem Step.sameTenants {ev : Event} (hs : Step caller b ev b') (kind : ev.KeepsTenants) : SameTenants b b' := by
  cases hs with
  | counters => exact .refl b
  | hotQuiet => exact .refl b
  | coldQuiet => exact .refl b
  | idle free still _ =>
    exact sameTenants_setTenant b _ (still.trans free.symm) (fun used => absurd (used.symm.trans free) (by decide))
  | evict => exact sameTenants_setTenant b _ rfl (fun _ => ⟨rfl, rfl, rfl⟩)
  | promote => exact sameTenants_setTenant b _ rfl (fun _ => ⟨rfl, rfl, rfl⟩)
  | create => exact kind.elim
  | createMicro => exact kind.elim
  | openShared => exact .refl b
  | closeShared => exact .refl b
  | destroyHot => exact kind.elim
  | destroyCold => exact kind.elim
  | destroyMicro => exact kind.elim
  | touch => exact sameTenants_setTenant b _ rfl (fun _ => ⟨rfl, rfl, rfl⟩)

theorem Step.inUse_of_subject_ne {ev : Event} {i : ℕ} (hs : Step caller b ev b') (hne : ev.subject ≠ some i) :
    (b'.tenants i).inUse = (b.tenants i).inUse := by
  have hother : ∀ {k : ℕ} {r : TenantRecord}, (some k : Option ℕ) ≠ some i →
      ((b.setTenant k r).tenants i).inUse = (b.tenants i).inUse := by
    intro k r hk
    rw [tenants_setTenant_of_ne (fun heq => hk (congrArg some heq.symm))]
  cases hs with
  | create => exact hother hne
  | createMicro => exact hother hne
  | destroyHot => exact hother hne
  | destroyCold => exact hother hne
  | destroyMicro => exact hother hne
  | evict => exact hother hne
  | promote => exact hother hne
  | touch => exact hother hne
  | idle free still sameId =>
    have hs : Step caller b .scratch _ := .idle free still sameId
    exact (hs.sameTenants trivial i).1
  | _ => rfl

/-- A tenant that nothing has happened to. -/
structure Kept (b b' : TieredArenaBridge c) (i : ℕ) : Prop where
  record : b'.tenants i = b.tenants i
  hot : (b.tenants i).state = .kInHot → ∀ a ∈ hotRegion c (b.tenants i), b'.hot.die a = b.hot.die a
  cold : (b.tenants i).state = .kInCold → ∀ a ∈ c.cold.slotSpan (b.tenants i).coldId.id,
    b'.cold.die a = b.cold.die a

theorem Kept.refl (b : TieredArenaBridge c) (i : ℕ) : Kept b b i := ⟨rfl, fun _ _ _ => rfl, fun _ _ _ => rfl⟩

theorem Kept.trans {b'' : TieredArenaBridge c} {i : ℕ} (h : Kept b b' i) (h' : Kept b' b'' i) : Kept b b'' i := by
  obtain ⟨hrec', hhot', hcold'⟩ := h'
  rw [h.record] at hrec' hhot' hcold'
  refine ⟨hrec', ?_, ?_⟩
  · intro hs a ha
    exact (hhot' hs a ha).trans (h.hot hs a ha)
  · intro hs a ha
    exact (hcold' hs a ha).trans (h.cold hs a ha)

namespace Step

variable {i k : ℕ}

/-- The bytes of one slot of an arena are wiped or written; a span elsewhere keeps its
bytes. -/
private theorem die_of_released {g : Geometry} {s : FractalArena g} {id : GenID} (hv : s.validate id = true)
    {v : Span} {slot : ℕ} (hw : v.Within (g.slotSpan slot)) (hne : slot ≠ id.id) :
    ∀ a ∈ v, (s.release id).2.die a = s.die a := by
  intro a ha
  rw [(release_of_validate hv).2.die]
  exact fill_of_notMem (Geometry.slotSpan_disjoint hne a (hw a ha))

private theorem die_of_stored {g : Geometry} {s s' : FractalArena g} {id : GenID} (taken : Allocated s id s')
    (bytes : List Byte) {v : Span} {slot : ℕ} (hw : v.Within (g.slotSpan slot)) (hocc : slot ∈ s.occupied) :
    ∀ a ∈ v, store s'.die (g.slotSpan id.id) bytes a = s.die a := by
  intro a ha
  have hne : slot ≠ id.id := fun heq => taken.fresh (heq ▸ hocc)
  rw [store_of_notMem bytes (Geometry.slotSpan_disjoint hne a (hw a ha)), taken.die]

private theorem die_of_zeroized (h : Invariant b) {e j : ℕ} (he : (b.sharedSlots e).hotId.isNull = false)
    (hj : j < c.kSubSlotsPerSlot) (used : (b.tenants k).inUse = true) (hot : (b.tenants k).state = .kInHot)
    (other : (b.tenants k).kind = .kMicro → (b.tenants k).sharedSlotIdx = e →
      (b.tenants k).hotId.subSlotIndex ≠ j) : ∀ a ∈ hotRegion c (b.tenants k),
      (b.hot.zeroizeSubSlot ((b.sharedSlots e).hotId.withSubSlot j) kMicroSlotSize).2.die a = b.hot.die a := by
  have hj' : ((b.sharedSlots e).hotId.withSubSlot j).subSlotIndex = j :=
    GenID.subSlotIndex_withSubSlot (Nat.le_of_lt_succ (Nat.lt_of_lt_of_le hj c.subSlots_le))
  have hlt : ((b.sharedSlots e).hotId.withSubSlot j).subSlotIndex < c.hot.subSlotCount kMicroSlotSize := by
    rwa [hj', subSlotCount_kMicroSlotSize]
  rw [zeroizeSubSlot_snd, viewSubSlot_of_validate (h.shared_valid he j) hlt, hj', GenID.id_withSubSlot]
  intro a ha
  exact fill_of_notMem (h.hotRegion_disjoint_subSlot he hj used hot other a ha)

theorem kept {ev : Event} (hs : Step caller b ev b') (h : Invariant b) (used : (b.tenants i).inUse = true)
    (hne : ev.subject ≠ some i) : Kept b b' i := by
  have hw := h.hotRegion_within used
  have hocc := fun hhot => (validate_iff.mp (h.validate_of_hot used hhot)).2.1
  have hcocc := fun hcold => (validate_iff.mp (h.coldRecord used hcold).valid).2.1
  have hsub : ∀ k, ev.subject = some k → i ≠ k := by
    rintro k hk rfl
    exact hne hk
  cases hs with
  | counters => exact ⟨rfl, fun _ _ _ => rfl, fun _ _ _ => rfl⟩
  | hotQuiet quiet => exact ⟨rfl, fun hhot a ha => quiet.die _ (hocc hhot) a (hw hhot a ha), fun _ _ _ => rfl⟩
  | coldQuiet quiet => exact ⟨rfl, fun _ _ _ => rfl, fun hcold a ha => quiet.die _ (hcocc hcold) a ha⟩
  | @idle k r free still _ =>
    refine ⟨tenants_setTenant_of_ne ?_, fun _ _ _ => rfl, fun _ _ _ => rfl⟩
    rintro rfl
    exact absurd (used.symm.trans free) (by decide)
  | @evict k coldId cold bytes usedK live _ _ taken _ =>
    have hik := hsub k rfl
    refine ⟨tenants_setTenant_of_ne hik, ?_, ?_⟩
    · intro hhot
      exact die_of_released live.valid (hw hhot) (h.slot_ne_of_hot hik usedK live used hhot)
    · intro hcold
      exact die_of_stored taken bytes (Span.Within.refl _) (hcocc hcold)
  | @promote k hotId hot bytes usedK live taken _ =>
    have hik := hsub k rfl
    refine ⟨tenants_setTenant_of_ne hik, ?_, ?_⟩
    · intro hhot
      exact die_of_stored taken bytes (hw hhot) (hocc hhot)
    · intro hcold
      exact die_of_released live.valid (Span.Within.refl _)
        (h.coldId_ne hik usedK live used (h.coldRecord used hcold))
  | @create k hotId hot tenantId accessTime free lt taken =>
    exact ⟨tenants_setTenant_of_ne (hsub k rfl), fun _ a _ => congrFun taken.die a, fun _ _ _ => rfl⟩
  | @createMicro k e j tenantId accessTime free lt entry subIdx bit =>
    refine ⟨tenants_setTenant_of_ne (hsub k rfl), ?_, fun _ _ _ => rfl⟩
    intro hhot
    exact die_of_zeroized h entry subIdx used hhot (fun hk he => by
      rintro rfl
      have hr := (h.microRecord used hk).bit
      rw [he, bit] at hr
      cases hr)
  | openShared lt entry taken => exact ⟨rfl, fun _ a _ => congrFun taken.die a, fun _ _ _ => rfl⟩
  | @closeShared e entry empty =>
    refine ⟨rfl, ?_, fun _ _ _ => rfl⟩
    intro hhot
    refine die_of_released (h.shared_valid entry 0) (hw hhot) ?_
    rw [GenID.id_withSubSlot]
    refine h.slot_ne_of_shared entry used hhot ?_
    rintro hk rfl
    have hbit := (h.microRecord used hk).bit
    rw [empty] at hbit
    simp at hbit
  | @destroyHot k usedK live =>
    have hik := hsub k rfl
    refine ⟨tenants_setTenant_of_ne hik, ?_, fun _ _ _ => rfl⟩
    intro hhot
    exact die_of_released live.valid (hw hhot) (h.slot_ne_of_hot hik usedK live used hhot)
  | @destroyCold k usedK live =>
    have hik := hsub k rfl
    refine ⟨tenants_setTenant_of_ne hik, fun _ _ _ => rfl, ?_⟩
    intro hcold
    exact die_of_released live.valid (Span.Within.refl _)
      (h.coldId_ne hik usedK live used (h.coldRecord used hcold))
  | @destroyMicro k usedK live =>
    have hik := hsub k rfl
    refine ⟨tenants_setTenant_of_ne hik, ?_, fun _ _ _ => rfl⟩
    intro hhot
    rw [live.hotId]
    exact die_of_zeroized h live.entry (h.bits_lt _ _ live.bit) used hhot (fun hk he hsub =>
      h.cell_ne hik usedK live used (h.microRecord used hk) (by rw [he, hsub]))
  | @touch k => exact ⟨tenants_setTenant_of_ne (hsub k rfl), fun _ _ _ => rfl, fun _ _ _ => rfl⟩

end Step

end Qtx.TieredArenaBridge
