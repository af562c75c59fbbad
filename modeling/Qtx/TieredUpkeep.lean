import Qtx.TieredFrames

/-!
# The upkeep of an operation

Before an operation makes the change it is called for, it retires counters, takes slots
and gives them back, and evicts tenants. This module follows the lookups, the eviction
sweep and the hot allocation with its retries.
-/
namespace Qtx.TieredArenaBridge
open SpanMemory OwnershipTables FractalArena

variable {c : TieredConfig}

/-- A chain of elementary changes whose events are all admitted. -/
inductive Changes (caller : Caller) (ok : Event → Prop) (b : TieredArenaBridge c) : TieredArenaBridge c → Prop
  | refl : Changes caller ok b b
  | tail {ev b₁ b₂} (past : Changes caller ok b b₁) (next : Step caller b₁ ev b₂) (admitted : ok ev) :
      Changes caller ok b b₂

def Event.isUpkeep : Event → Prop
  | .scratch | .evicted _ => True
  | _ => False

/-- Changes that serve no particular tenant. -/
abbrev Upkeep (caller : Caller) (b b' : TieredArenaBridge c) : Prop := Changes caller Event.isUpkeep b b'

variable {caller : Caller} {b b' b'' : TieredArenaBridge c} {ok ok' : Event → Prop}

namespace Changes

theorem invariant (hs : Changes caller ok b b') (h : Invariant b) : Invariant b' := by
  induction hs with
  | refl => exact h
  | tail past next admitted ih => exact next.invariant ih

theorem mono (hs : Changes caller ok b b') (weaken : ∀ ev, ok ev → ok' ev) : Changes caller ok' b b' := by
  induction hs with
  | refl => exact .refl
  | tail past next admitted ih => exact .tail ih next (weaken _ admitted)

theorem trans (h : Changes caller ok b b') (h' : Changes caller ok b' b'') : Changes caller ok b b'' := by
  induction h' with
  | refl => exact h
  | tail past next admitted ih => exact .tail ih next admitted

theorem sameTenants (hs : Changes caller ok b b') (keeps : ∀ ev, ok ev → ev.KeepsTenants) : SameTenants b b' := by
  induction hs with
  | refl => exact .refl b
  | tail past next admitted ih => exact ih.trans (next.sameTenants (keeps _ admitted))

end Changes

/-- What the eviction sweep never takes. -/
def Anchored (r : TenantRecord) : Prop :=
  r.state = .kInCold ∨ r.pinCount ≠ 0#32 ∨ r.sealed = true ∨ r.kind = .kMicro

theorem Step.not_anchored {i : ℕ} (hs : Step caller b (.evicted i) b') : ¬Anchored (b.tenants i) := by
  cases hs with
  | evict used live unpinned unsealed =>
    rintro (hcold | hpin | hseal | hkind)
    · exact absurd (hcold.symm.trans live.state) (by decide)
    · exact hpin unpinned
    · exact absurd (hseal.symm.trans unsealed) (by decide)
    · exact absurd (hkind.symm.trans live.kind) (by decide)

theorem Step.free_of_created {i : ℕ} (hs : Step caller b (.created i) b') : (b.tenants i).inUse = false := by
  cases hs with
  | create _ _ free => exact free
  | createMicro _ _ free => exact free

/-- An anchored tenant is kept by changes that are not about it, evictions aside. -/
theorem Changes.kept (hs : Changes caller ok b b') (h : Invariant b) {i : ℕ} (used : (b.tenants i).inUse = true)
    (anchored : Anchored (b.tenants i))
    (about : ∀ ev, ok ev → ev.subject = some i → ev = .evicted i ∨ ev = .created i) : Kept b b' i := by
  induction hs with
  | refl => exact .refl b i
  | @tail ev b₁ b₂ past next admitted ih =>
    have used₁ : (b₁.tenants i).inUse = true := by rw [ih.record, used]
    have hne : ev.subject ≠ some i := by
      intro hev
      rcases about ev admitted hev with rfl | rfl
      · exact next.not_anchored (ih.record ▸ anchored)
      · exact absurd (used₁.symm.trans next.free_of_created) (by decide)
    exact ih.trans (next.kept (past.invariant h) used₁ hne)

theorem Event.isUpkeep.keepsTenants {ev : Event} (h : ev.isUpkeep) : ev.KeepsTenants := by
  cases ev with
  | scratch => trivial
  | evicted => trivial
  | _ => exact h.elim

theorem Event.isUpkeep.about {ev : Event} {i : ℕ} (h : ev.isUpkeep) (hev : ev.subject = some i) :
    ev = .evicted i ∨ ev = .created i := by
  cases ev with
  | scratch => cases hev
  | evicted k => exact .inl (congrArg Event.evicted (Option.some.inj hev))
  | _ => exact h.elim

namespace Upkeep

theorem refl : Upkeep caller b b := Changes.refl

theorem scratch (hu : Upkeep caller b b') (next : Step caller b' .scratch b'') : Upkeep caller b b'' :=
  .tail hu next trivial

theorem evicted {v : ℕ} (hu : Upkeep caller b b') (next : Step caller b' (.evicted v) b'') : Upkeep caller b b'' :=
  .tail hu next trivial

theorem sameTenants (hu : Upkeep caller b b') : SameTenants b b' :=
  Changes.sameTenants hu (fun _ hev => hev.keepsTenants)

theorem inUse (hu : Upkeep caller b b') (i : ℕ) : (b'.tenants i).inUse = (b.tenants i).inUse :=
  (hu.sameTenants i).1

theorem kept (hu : Upkeep caller b b') (h : Invariant b) {i : ℕ} (used : (b.tenants i).inUse = true)
    (anchored : Anchored (b.tenants i)) : Kept b b' i :=
  Changes.kept hu h used anchored (fun _ hev => hev.about)

theorem tenants_of_cold (hu : Upkeep caller b b') (h : Invariant b) {i : ℕ} (used : (b.tenants i).inUse = true)
    (cold : (b.tenants i).state = .kInCold) : b'.tenants i = b.tenants i :=
  (hu.kept h used (.inl cold)).record

end Upkeep

theorem Step.sharedSlots_of_upkeep {ev : Event} (hs : Step caller b ev b') (kind : ev.isUpkeep) :
    b'.sharedSlots = b.sharedSlots := by
  cases hs with
  | counters => rfl
  | hotQuiet => rfl
  | coldQuiet => rfl
  | idle => rfl
  | evict => rfl
  | promote => exact kind.elim
  | create => exact kind.elim
  | createMicro => exact kind.elim
  | openShared => exact kind.elim
  | closeShared => exact kind.elim
  | destroyHot => exact kind.elim
  | destroyCold => exact kind.elim
  | destroyMicro => exact kind.elim
  | touch => exact kind.elim

theorem Upkeep.sharedSlots (hu : Upkeep caller b b') : b'.sharedSlots = b.sharedSlots := by
  induction hu with
  | refl => rfl
  | tail past next kind ih => exact (next.sharedSlots_of_upkeep kind).trans ih

section Lookup

theorem acquireRecord_some {i : ℕ} (h : b.acquireRecord = some i) :
    i < c.maxTenants ∧ (b.tenants i).inUse = false := by
  have hp := List.find?_some h
  exact ⟨List.mem_range.mp (List.mem_of_find?_eq_some h), by simpa using hp⟩

theorem findTenantLocked_some {handle : TenantHandle} {i : ℕ} (h : b.findTenantLocked handle = some i) :
    i < c.maxTenants ∧ (b.tenants i).inUse = true ∧ (b.tenants i).tenantId = handle.tenantId := by
  unfold findTenantLocked at h
  split_ifs at h
  have hp := List.find?_some h
  simp only [Bool.and_eq_true, beq_iff_eq] at hp
  exact ⟨List.mem_range.mp (List.mem_of_find?_eq_some h), hp.1, hp.2⟩

theorem LiveRecord.state_ne_dead {r : TenantRecord} (h : LiveRecord b r) : r.state ≠ .kDead := by
  cases h with
  | hot h => rw [h.state]; decide
  | cold h => rw [h.state]; decide
  | micro h => rw [h.state]; decide

theorem LiveRecord.state_hot {r : TenantRecord} (h : LiveRecord b r) (hcold : r.state ≠ .kInCold) :
    r.state = .kInHot := by
  cases hs : r.state with
  | kInHot => rfl
  | kInCold => exact absurd hs hcold
  | kDead => exact absurd hs h.state_ne_dead

/-- Records in use are never dead, so both lookups find the same record. -/
theorem Invariant.findTenantLockfree (h : Invariant b) (handle : TenantHandle) :
    b.findTenantLockfree handle = b.findTenantLocked handle := by
  unfold TieredArenaBridge.findTenantLockfree findTenantLocked
  congr 2
  funext i
  cases hu : (b.tenants i).inUse with
  | false => rfl
  | true => simp [(h.records i hu).state_ne_dead]

theorem olderVictim_cases (skipId : BitVec 64) (victim : Option ℕ) (i : ℕ) :
    b.olderVictim skipId victim i = victim ∧ (b.eligible skipId i = false ∨ victim ≠ none) ∨
      b.olderVictim skipId victim i = some i ∧ b.eligible skipId i = true := by
  unfold olderVictim
  by_cases he : b.eligible skipId i = true
  · rw [if_pos he]
    cases victim with
    | none => exact .inr ⟨rfl, he⟩
    | some v =>
      dsimp only
      split_ifs
      · exact .inr ⟨rfl, he⟩
      · exact .inl ⟨rfl, .inr (Option.some_ne_none v)⟩
  · rw [if_neg he]
    exact .inl ⟨rfl, .inl (Bool.eq_false_iff.mpr he)⟩

/-- The sweep finds an eligible tenant whenever there is one. -/
theorem foldl_olderVictim (skipId : BitVec 64) (is : List ℕ) (victim : Option ℕ) :
    (∀ v, is.foldl (b.olderVictim skipId) victim = some v →
      victim = some v ∨ v ∈ is ∧ b.eligible skipId v = true) ∧
    (is.foldl (b.olderVictim skipId) victim = none →
      victim = none ∧ ∀ i ∈ is, b.eligible skipId i = false) := by
  induction is generalizing victim with
  | nil =>
    refine ⟨fun v h => .inl h, fun h => ⟨h, ?_⟩⟩
    intro i hi
    cases hi
  | cons i is ih =>
    obtain ⟨hsome, hnone⟩ := ih (b.olderVictim skipId victim i)
    refine ⟨?_, ?_⟩
    · intro v hv
      rcases hsome v hv with hv | ⟨hmem, hv⟩
      · rcases olderVictim_cases (b := b) skipId victim i with ⟨heq, -⟩ | ⟨heq, hel⟩
        · exact .inl (heq ▸ hv)
        · rw [heq] at hv
          cases hv
          exact .inr ⟨List.mem_cons_self, hel⟩
      · exact .inr ⟨List.mem_cons_of_mem _ hmem, hv⟩
    · intro hn
      obtain ⟨hfirst, hrest⟩ := hnone hn
      rcases olderVictim_cases (b := b) skipId victim i with ⟨heq, hwhy⟩ | ⟨heq, -⟩
      · rw [heq] at hfirst
        have hel := hwhy.resolve_right (not_not.mpr hfirst)
        refine ⟨hfirst, ?_⟩
        intro k hk
        rcases List.mem_cons.mp hk with rfl | hk
        · exact hel
        · exact hrest k hk
      · rw [heq] at hfirst
        cases hfirst

theorem findVictim_some {skipId : BitVec 64} {v : ℕ} (h : b.findVictim skipId = some v) :
    b.eligible skipId v = true := by
  rcases (foldl_olderVictim (b := b) skipId (List.range c.maxTenants) none).1 v h with hn | ⟨-, he⟩
  · cases hn
  · exact he

theorem findVictim_none {skipId : BitVec 64} (h : b.findVictim skipId = none) {i : ℕ} (hi : i < c.maxTenants) :
    b.eligible skipId i = false :=
  ((foldl_olderVictim (b := b) skipId (List.range c.maxTenants) none).2 h).2 i (List.mem_range.mpr hi)

theorem gt_zero_iff (x : BitVec 32) : x > 0#32 ↔ x ≠ 0#32 := by
  rw [gt_iff_lt, BitVec.lt_def, BitVec.toNat_zero, Nat.pos_iff_ne_zero]
  exact not_congr ⟨fun h => BitVec.eq_of_toNat_eq h, fun h => h ▸ rfl⟩

theorem eligible_iff {skipId : BitVec 64} {i : ℕ} : b.eligible skipId i = true ↔
    (b.tenants i).inUse = true ∧ (b.tenants i).state = .kInHot ∧ (b.tenants i).pinCount = 0#32 ∧
      (b.tenants i).tenantId ≠ skipId ∧ (b.tenants i).sealed = false ∧ (b.tenants i).kind = .kFullSlot := by
  have hkind : ∀ k : TenantKind, k ≠ .kMicro ↔ k = .kFullSlot := by
    intro k
    cases k <;> decide
  simp only [eligible, Bool.and_eq_true, decide_eq_true_eq, Bool.not_eq_true', decide_eq_false_iff_not,
    gt_zero_iff, ne_eq, not_not, hkind, and_assoc]

end Lookup

section Eviction

/-- The allocation of a whole hot slot always passes the parameter checks. -/
theorem accepts_slot (c : TieredConfig) : Accepts c.hot c.kPayloadBytes 128 :=
  ⟨c.hot.slotSize_pos, le_rfl, by decide, kMicroSlotSize_le c⟩

theorem accepts_compressed (h : 0 < c.kCompressedBytes) : Accepts c.cold c.kCompressedBytes 128 :=
  ⟨h, c.compressed_le, by decide,
    Nat.le_of_dvd c.cold.slotSize_pos (Nat.dvd_of_mod_eq_zero c.cold.slotSize_mod)⟩

theorem slotSpan_isEmpty (g : Geometry) (slot : ℕ) : (g.slotSpan slot).isEmpty = false :=
  decide_eq_false (Nat.ne_of_gt g.slotSize_pos)

theorem Invariant.eligible_live (h : Invariant b) {skipId : BitVec 64} {i : ℕ}
    (he : b.eligible skipId i = true) : HotRecord b (b.tenants i) := by
  obtain ⟨hu, hstate, -, -, -, hkind⟩ := eligible_iff.mp he
  cases h.records i hu with
  | hot hr => exact hr
  | cold hr => rw [hr.state] at hstate; cases hstate
  | micro hr => rw [hr.kind] at hkind; cases hkind

/-- Why an eviction fails, and what a successful one does. -/
inductive EvictOutcome (caller : Caller) (b : TieredArenaBridge c) (skipId : BitVec 64) :
    Bool × TieredArenaBridge c → Prop
  | noVictim (none : b.findVictim skipId = none) : EvictOutcome caller b skipId (false, b)
  | noSlot (full : ¬Accepts c.cold c.kCompressedBytes 128 ∨ b.cold.occupied = Finset.range c.cold.slotCount) :
      EvictOutcome caller b skipId (false, b)
  | refused {source destination cold} (count : (caller.codec.compress source destination).1 ≠ c.kCompressedBytes)
      (sized : source.length = c.kPayloadBytes) (quiet : Quiet b.cold cold) :
      EvictOutcome caller b skipId (false, { b with cold := cold })
  | moved {v b₁} (victim : b.findVictim skipId = some v) (next : Step caller b (.evicted v) b₁) :
      EvictOutcome caller b skipId (true, b₁)

theorem evict_outcome (h : Invariant b) (caller : Caller) (skipId : BitVec 64) :
    EvictOutcome caller b skipId (b.evictOldestToColdLocked caller skipId) := by
  unfold evictOldestToColdLocked
  cases hv : b.findVictim skipId with
  | none => exact .noVictim hv
  | some v =>
    have hel := findVictim_some hv
    obtain ⟨hu, -, hpin, -, hseal, -⟩ := eligible_iff.mp hel
    have live := h.eligible_live hel
    dsimp only
    rcases b.cold.allocate_cases c.kCompressedBytes 128 caller.mixThreadId with ⟨hnull, hwhy⟩ | ⟨-, taken⟩
    · rw [hnull]
      exact .noSlot hwhy
    · generalize hres : b.cold.allocate c.kCompressedBytes 128 caller.mixThreadId = res at taken
      obtain ⟨coldId, cold⟩ := res
      dsimp only at taken ⊢
      rw [if_neg (by simp [taken.notNull]), view_of_validate live.valid, view_of_validate taken.validate,
        if_neg (by simp [slotSpan_isEmpty])]
      split_ifs with hw
      · exact .refused hw (length_load _ _) (taken.quiet_release (fun a ha => store_of_notMem _ ha))
      · exact .moved hv (.evict hu live hpin hseal taken (Prod.ext (not_not.mp hw) rfl))

theorem upkeep_evict (h : Invariant b) (caller : Caller) (skipId : BitVec 64) :
    Upkeep caller b (b.evictOldestToColdLocked caller skipId).2 := by
  generalize hres : b.evictOldestToColdLocked caller skipId = res
  have ho := evict_outcome h caller skipId
  rw [hres] at ho
  cases ho with
  | noVictim => exact .refl
  | noSlot => exact .refl
  | refused _ _ quiet => exact Upkeep.refl.scratch (.coldQuiet quiet)
  | moved _ next => exact Upkeep.refl.evicted next

/-- What the hot allocation with its retries comes to. -/
inductive HotGrant (caller : Caller) (b : TieredArenaBridge c) : GenID × TieredArenaBridge c → Prop
  | failed {b₁} (upkeep : Upkeep caller b b₁) : HotGrant caller b (.null, b₁)
  | granted {hotId b₁ hot} (upkeep : Upkeep caller b b₁) (taken : Allocated b₁.hot hotId hot) :
      HotGrant caller b (hotId, { b₁ with hot := hot })

theorem hotGrant_allocate (hu : Upkeep caller b b') :
    HotGrant caller b ((b'.hot.allocate c.kPayloadBytes 128 caller.mixThreadId).1,
      { b' with hot := (b'.hot.allocate c.kPayloadBytes 128 caller.mixThreadId).2 }) := by
  rcases b'.hot.allocate_cases c.kPayloadBytes 128 caller.mixThreadId with ⟨hnull, -⟩ | ⟨-, taken⟩
  · rw [hnull]
    exact .failed hu
  · exact .granted hu taken

theorem hotGrant_retryHot (h : Invariant b) (skipId : BitVec 64) (retries : ℕ)
    {res : GenID × TieredArenaBridge c} (hg : HotGrant caller b res) :
    HotGrant caller b (retryHot caller skipId retries res.1 res.2) := by
  induction retries generalizing res with
  | zero => exact hg
  | succ retries ih =>
    unfold retryHot
    cases hg with
    | granted upkeep taken =>
      rw [if_pos (by simp [taken.notNull])]
      exact .granted upkeep taken
    | @failed b₁ upkeep =>
      rw [if_neg (by simp)]
      have hev := upkeep_evict (upkeep.invariant h) caller skipId
      generalize hres : b₁.evictOldestToColdLocked caller skipId = res at hev
      obtain ⟨moved, b₂⟩ := res
      cases moved with
      | false => exact .failed (upkeep.trans hev)
      | true => exact ih (hotGrant_allocate (upkeep.trans hev))

theorem hotGrant_allocateHot (h : Invariant b) (caller : Caller) (skipId : BitVec 64) :
    HotGrant caller b (b.allocateHot caller skipId) :=
  hotGrant_retryHot h skipId kEvictRetries (hotGrant_allocate .refl)

end Eviction

end Qtx.TieredArenaBridge
