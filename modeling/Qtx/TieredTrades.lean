import Qtx.TieredRuns

/-!
# Which cold tenants come back

A promotion into a full hot tier evicts another tenant first, and the victim needs a
cold slot before the promoted tenant has given up its own. So a trade of places
succeeds only while some slot is free in one of the two tiers.
-/
namespace Qtx.TieredArenaBridge
open SpanMemory FractalArena

variable {c : TieredConfig} {caller : Caller} {b b' : TieredArenaBridge c}

/-- Every call of the codec reports the sizes of the two tiers. A bound of zero is how
a codec rejects the payload size. -/
structure SizeCorrect (c : TieredConfig) (codec : ColdCodec) : Prop where
  supported : 0 < c.kCompressedBytes
  compress : ∀ source destination, source.length = c.kPayloadBytes →
    (codec.compress source destination).1 = c.kCompressedBytes
  decompress : ∀ source destination, source.length = c.kCompressedBytes →
    (codec.decompress source destination).1 = c.kPayloadBytes

def HotFull (b : TieredArenaBridge c) : Prop := b.hot.occupied = Finset.range c.hot.slotCount

def ColdFull (b : TieredArenaBridge c) : Prop := b.cold.occupied = Finset.range c.cold.slotCount

/-- A tenant that the eviction sweep may choose. -/
def HasVictim (b : TieredArenaBridge c) (skipId : BitVec 64) : Prop := ∃ k, b.eligible skipId k = true

theorem not_full_of_fresh {g : Geometry} {s s' : FractalArena g} {id : GenID} (h : Allocated s id s') :
    s.occupied ≠ Finset.range g.slotCount := by
  intro hfull
  exact h.fresh (hfull ▸ Finset.mem_range.mpr h.lt)

theorem evict_iff (h : Invariant b) (caller : Caller) (good : SizeCorrect c caller.codec) (skipId : BitVec 64) :
    (b.evictOldestToColdLocked caller skipId).1 = true ↔ b.HasVictim skipId ∧ ¬b.ColdFull := by
  have ho := evict_outcome h caller skipId
  generalize b.evictOldestToColdLocked caller skipId = res at ho
  cases ho with
  | noVictim hnone =>
    refine ⟨fun hf => (nomatch hf), ?_⟩
    rintro ⟨⟨k, hk⟩, -⟩
    rw [findVictim_none hnone (h.tenants_lt k (eligible_iff.mp hk).1)] at hk
    cases hk
  | noSlot full =>
    refine ⟨fun hf => (nomatch hf), ?_⟩
    rintro ⟨-, hroom⟩
    exact absurd (full.resolve_left (not_not.mpr (accepts_compressed good.supported))) hroom
  | refused count sized => exact absurd (good.compress _ _ sized) count
  | @moved v b₁ victim next =>
    refine ⟨fun _ => ⟨⟨v, findVictim_some victim⟩, ?_⟩, fun _ => rfl⟩
    cases next with
    | evict _ _ _ _ taken => exact not_full_of_fresh taken

/-- An eviction leaves a hot slot free. -/
theorem not_hotFull_of_evict (h : Invariant b) (caller : Caller) (skipId : BitVec 64)
    (moved : (b.evictOldestToColdLocked caller skipId).1 = true) :
    ¬(b.evictOldestToColdLocked caller skipId).2.HotFull := by
  have ho := evict_outcome h caller skipId
  generalize b.evictOldestToColdLocked caller skipId = res at ho moved
  cases ho with
  | noVictim => cases moved
  | noSlot => cases moved
  | refused => cases moved
  | moved victim next =>
    cases next with
    | evict used live =>
      have hrel := (release_of_validate live.valid).2
      have hlt := lt_of_mem_occupied (validate_iff.mp live.valid).2.1
      intro hfull
      have hmem := Finset.mem_range.mpr hlt
      rw [← hfull] at hmem
      exact absurd rfl (Finset.mem_erase.mp (hrel.occupied ▸ hmem)).1

theorem allocate_slot_null_iff (s : FractalArena c.hot) (t : ℕ) :
    (s.allocate c.kPayloadBytes 128 t).1.isNull = true ↔ s.occupied = Finset.range c.hot.slotCount := by
  rcases s.allocate_cases c.kPayloadBytes 128 t with ⟨hnull, hwhy⟩ | ⟨-, taken⟩
  · rw [hnull]
    exact ⟨fun _ => hwhy.resolve_left (not_not.mpr (accepts_slot c)), fun _ => rfl⟩
  · rw [taken.notNull]
    exact ⟨fun hf => (nomatch hf), fun hfull => absurd hfull (not_full_of_fresh taken)⟩

/-- The ways of the hot allocation: a slot is free, or the one eviction fails, or it makes room. -/
inductive HotPath (caller : Caller) (b : TieredArenaBridge c) (skipId : BitVec 64) :
    GenID × TieredArenaBridge c → Prop
  | room {hotId hot} (roomy : ¬b.HotFull) (granted : hotId.isNull = false) :
      HotPath caller b skipId (hotId, { b with hot := hot })
  | stuck {b₁} (full : b.HotFull) (evict : b.evictOldestToColdLocked caller skipId = (false, b₁)) :
      HotPath caller b skipId (.null, b₁)
  | traded {hotId hot b₁} (full : b.HotFull) (evict : b.evictOldestToColdLocked caller skipId = (true, b₁))
      (granted : hotId.isNull = false) : HotPath caller b skipId (hotId, { b₁ with hot := hot })

/-- An eviction leaves a hot slot free, so no operation evicts twice. -/
theorem allocateHot_path (h : Invariant b) (caller : Caller) (skipId : BitVec 64) :
    HotPath caller b skipId (b.allocateHot caller skipId) := by
  unfold allocateHot
  by_cases hfull : b.HotFull
  · have hnull : b.hot.allocate c.kPayloadBytes 128 caller.mixThreadId = (.null, b.hot) := by
      rcases b.hot.allocate_cases c.kPayloadBytes 128 caller.mixThreadId with ⟨hn, -⟩ | ⟨-, taken⟩
      · exact hn
      · exact absurd hfull (not_full_of_fresh taken)
    rw [hnull]
    dsimp only [kEvictRetries, retryHot]
    rw [if_neg (by decide)]
    have hroom := not_hotFull_of_evict h caller skipId
    generalize hres : b.evictOldestToColdLocked caller skipId = res at hroom
    obtain ⟨moved, b₁⟩ := res
    cases moved with
    | false => exact .stuck hfull hres
    | true =>
      have hn : (b₁.hot.allocate c.kPayloadBytes 128 caller.mixThreadId).1.isNull = false :=
        Bool.eq_false_iff.mpr (fun hn => hroom rfl ((allocate_slot_null_iff _ _).mp hn))
      dsimp only
      rw [if_pos (by rw [hn]; rfl)]
      exact .traded hfull hres hn
  · have hn : (b.hot.allocate c.kPayloadBytes 128 caller.mixThreadId).1.isNull = false :=
      Bool.eq_false_iff.mpr (fun hn => hfull ((allocate_slot_null_iff _ _).mp hn))
    dsimp only [kEvictRetries, retryHot]
    rw [if_pos (by rw [hn]; rfl)]
    exact .room hfull hn

/-- The hot allocation fails exactly when the hot tier is full and the eviction fails. -/
theorem allocateHot_null_iff (h : Invariant b) (caller : Caller) (skipId : BitVec 64) :
    (b.allocateHot caller skipId).1.isNull = true ↔
      b.HotFull ∧ (b.evictOldestToColdLocked caller skipId).1 = false := by
  have hpath := allocateHot_path h caller skipId
  generalize b.allocateHot caller skipId = res at hpath
  cases hpath with
  | room roomy granted =>
    rw [granted]
    exact ⟨fun hf => (nomatch hf), fun hf => absurd hf.1 roomy⟩
  | stuck full evict =>
    rw [evict]
    exact ⟨fun _ => ⟨full, rfl⟩, fun _ => rfl⟩
  | traded full evict granted =>
    rw [evict, granted]
    exact ⟨fun hf => (nomatch hf), fun hf => nomatch hf.2⟩

/-- With a good codec the bytes of a cold tenant are shown exactly when it gets a hot
slot. -/
theorem acquireFP32_cold_iff (h : Invariant b) (caller : Caller) (good : SizeCorrect c caller.codec)
    {handle : TenantHandle} {i : ℕ} (found : b.findTenantLocked handle = some i)
    (cold : (b.tenants i).state = .kInCold) :
    (b.acquireFP32 caller handle).1.isEmpty = false ↔
      (b.allocateHot caller (b.tenants i).tenantId).1.isNull = false := by
  obtain ⟨-, hu, -⟩ := findTenantLocked_some found
  have hlive := h.coldRecord hu cold
  unfold acquireFP32
  rw [found]
  dsimp only
  rw [if_neg (by rw [cold]; decide), if_pos cold]
  have hp := promote_outcome h caller hu hlive
  generalize b.promote caller i = res at hp
  cases hp with
  | noSlot null =>
    rw [null]
    exact ⟨fun hf => (nomatch hf), fun hf => nomatch hf⟩
  | refused count sized => exact absurd (good.decompress _ _ sized) count
  | @promoted b₁ b₂ granted upkeep next =>
    have h₂ := next.invariant (upkeep.invariant h)
    obtain ⟨-, hstate, hused, -, hpin⟩ := next.promoted_record
    have hu₂ : (b₂.tenants i).inUse = true := by rw [hused, upkeep.inUse, hu]
    refine ⟨fun _ => granted, fun _ => ?_⟩
    dsimp only
    rcases pin_cases caller hu₂ hstate with ⟨-, hmax⟩ | ⟨b₃, accessTime, hb₃, -, -, hhot, hrec⟩
    · rw [hpin] at hmax
      exact absurd hmax (by decide)
    · rw [hb₃]
      dsimp only
      rw [hhot, hrec, view_of_validate (h₂.validate_of_hot hu₂ hstate)]
      exact slotSpan_isEmpty _ _

theorem freeSlots_pos_iff {g : Geometry} (s : FractalArena g) :
    0 < s.freeSlots ↔ s.occupied ≠ Finset.range g.slotCount := by
  have hinter : Finset.range g.slotCount ∩ s.selector.free = s.selector.free :=
    Finset.inter_eq_right.mpr (AxiomSelector.free_subset s.selector)
  rw [freeSlots, AxiomSelector.freeCount_eq_card, Finset.card_pos, occupied, Ne, Finset.sdiff_eq_self_iff_disjoint,
    Finset.disjoint_iff_inter_eq_empty, hinter, Finset.nonempty_iff_ne_empty]

/-- The hot tier has a free slot, or another tenant could trade places with this one. -/
def CanPromote (b : TieredArenaBridge c) (i : ℕ) : Prop :=
  0 < b.hot.freeSlots ∨ ∃ k, (b.tenants k).inUse = true ∧ (b.tenants k).state = .kInHot ∧
    (b.tenants k).pinCount = 0#32 ∧ (b.tenants k).tenantId ≠ (b.tenants i).tenantId ∧
    (b.tenants k).sealed = false ∧ (b.tenants k).kind = .kFullSlot

/-- A cold tenant that could be promoted is promoted exactly when one of the two tiers
has a free slot. -/
theorem acquireFP32_nonempty_iff (hr : (system c).Reachable b) (caller : Caller)
    (good : SizeCorrect c caller.codec) {handle : TenantHandle} {i : ℕ}
    (found : b.findTenantLocked handle = some i) (cold : (b.tenants i).state = .kInCold)
    (promotable : b.CanPromote i) :
    (b.acquireFP32 caller handle).1.isEmpty = false ↔ 0 < b.hot.freeSlots ∨ 0 < b.cold.freeSlots := by
  have h := (reachable_invariant hr).1
  have hvictim : b.HotFull → b.HasVictim (b.tenants i).tenantId := by
    intro hfull
    rcases promotable with hfree | ⟨k, hk⟩
    · exact absurd hfull ((freeSlots_pos_iff _).mp hfree)
    · exact ⟨k, eligible_iff.mpr hk⟩
  have hevict := evict_iff h caller good (b.tenants i).tenantId
  have hnull := allocateHot_null_iff h caller (b.tenants i).tenantId
  rw [acquireFP32_cold_iff h caller good found cold, ← Bool.not_eq_true, hnull, ← Bool.not_eq_true, hevict,
    freeSlots_pos_iff, freeSlots_pos_iff, not_and_or, not_not]
  constructor
  · rintro (hhot | ⟨-, hcold⟩)
    · exact .inl hhot
    · exact .inr hcold
  · rintro (hhot | hcold)
    · exact .inl hhot
    · by_cases hfull : b.HotFull
      · exact .inr ⟨hvictim hfull, hcold⟩
      · exact .inl hfull

theorem halvingCaller_sizeCorrect : SizeCorrect smallConfig halvingCaller.codec :=
  ⟨by decide, fun _ _ _ => rfl, fun _ _ _ => rfl⟩

/-- The 65th tenant takes the place of the first one. -/
def crowdedBridge : TieredArenaBridge smallConfig :=
  (new smallConfig).calls (List.replicate 65 (halvingCaller, .createTenant))

theorem crowdedBridge_promotes : (crowdedBridge.acquireFP32 halvingCaller ⟨1#64, true⟩).1.isEmpty = false := by
  have hrun : crowdedBridge.findTenantLocked ⟨1#64, true⟩ = some 0 ∧
      (crowdedBridge.tenants 0).state = .kInCold ∧
      crowdedBridge.eligible (crowdedBridge.tenants 0).tenantId 1 = true ∧ 0 < crowdedBridge.cold.freeSlots := by
    decide +kernel
  obtain ⟨hfound, hcold, hvictim, hroom⟩ := hrun
  exact (acquireFP32_nonempty_iff (b := crowdedBridge) (reachable_calls .refl _) halvingCaller
    halvingCaller_sizeCorrect hfound hcold (.inr ⟨1, eligible_iff.mp hvictim⟩)).mpr (.inr hroom)

/-- Two tenants for every hot slot fill both tiers. -/
def fullBridge : TieredArenaBridge smallConfig :=
  (new smallConfig).calls (List.replicate 128 (halvingCaller, .createTenant))

/-- With both tiers full the first tenant cannot come back, although another tenant
could trade places with it. -/
theorem fullBridge_strands : (system smallConfig).Reachable fullBridge ∧
    SizeCorrect smallConfig halvingCaller.codec ∧
    fullBridge.findTenantLocked ⟨1#64, true⟩ = some 0 ∧ (fullBridge.tenants 0).state = .kInCold ∧
    fullBridge.CanPromote 0 ∧ (fullBridge.acquireFP32 halvingCaller ⟨1#64, true⟩).1.isEmpty = true := by
  have hrun : fullBridge.findTenantLocked ⟨1#64, true⟩ = some 0 ∧ (fullBridge.tenants 0).state = .kInCold ∧
      fullBridge.eligible (fullBridge.tenants 0).tenantId 127 = true ∧
      (fullBridge.acquireFP32 halvingCaller ⟨1#64, true⟩).1.isEmpty = true := by decide +kernel
  obtain ⟨hfound, hcold, hvictim, hempty⟩ := hrun
  exact ⟨reachable_calls (b := new smallConfig) .refl _, halvingCaller_sizeCorrect, hfound, hcold,
    .inr ⟨127, eligible_iff.mp hvictim⟩, hempty⟩

end Qtx.TieredArenaBridge
