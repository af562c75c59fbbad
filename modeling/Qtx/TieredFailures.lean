import Qtx.TieredTrades

/-!
# Failed operations

An operation that fails has at most moved other tenants to the cold tier, each by a
compress call that reported the full size. It leaves no record, entry or slot behind,
whatever the codec answers.
-/
namespace Qtx.TieredArenaBridge
open SpanMemory OwnershipTables FractalArena

variable {c : TieredConfig} {caller : Caller} {b b' b'' : TieredArenaBridge c} {i : ℕ}

/-- A tenant of the hot tier whose bytes a call of `compress` has moved to the cold tier. -/
structure Moved (caller : Caller) (b b' : TieredArenaBridge c) (i : ℕ) : Prop where
  live : HotRecord b (b.tenants i)
  unpinned : (b.tenants i).pinCount = 0#32
  unsealed : (b.tenants i).sealed = false
  record : b'.tenants i =
    { b.tenants i with hotId := .null, coldId := (b'.tenants i).coldId, state := .kInCold }
  compressed : ∃ destination bytes, caller.codec.compress (load b.hot.die (c.hot.slotSpan (b.tenants i).hotId.id))
    destination = (c.kCompressedBytes, bytes) ∧
      load b'.cold.die (c.cold.slotSpan (b'.tenants i).coldId.id) =
        bytes.take c.cold.slotSize ++ destination.drop bytes.length

theorem Moved.cold (hm : Moved caller b b' i) : (b'.tenants i).state = .kInCold := by rw [hm.record]

theorem Step.moved (hs : Step caller b (.evicted i) b') : Moved caller b b' i := by
  cases hs with
  | @evict _ coldId cold bytes used live unpinned unsealed taken compressed =>
    refine ⟨live, unpinned, unsealed, ?_, _, bytes, compressed, ?_⟩
    · rw [tenants_setTenant_self]
    · rw [tenants_setTenant_self]
      exact load_store cold.die (c.cold.slotSpan coldId.id) bytes

/-- What has not happened to a tenant before its move, and nothing happens after it. -/
theorem Kept.moved (hk : Kept b b' i) (hm : Moved caller b' b'' i) (h : Invariant b)
    (used : (b.tenants i).inUse = true) :
    Moved caller b b'' i := by
  obtain ⟨live, unpinned, unsealed, record, destination, bytes, compressed, stored⟩ := hm
  rw [hk.record] at live unpinned unsealed record compressed
  have hrecord := h.records i used
  have hlive : HotRecord b (b.tenants i) := by
    cases hrecord with
    | hot hr => exact hr
    | cold hr => exact absurd (hr.state.symm.trans live.state) (by decide)
    | micro hr => exact absurd (hr.kind.symm.trans live.kind) (by decide)
  have hbytes : load b'.hot.die (c.hot.slotSpan (b.tenants i).hotId.id) =
      load b.hot.die (c.hot.slotSpan (b.tenants i).hotId.id) := by
    apply load_congr
    intro a ha
    exact hk.hot live.state a (hlive.region ▸ ha)
  rw [hbytes] at compressed
  exact ⟨hlive, unpinned, unsealed, record, destination, bytes, compressed, stored⟩

theorem Moved.kept (hm : Moved caller b b' i) (hk : Kept b' b'' i) : Moved caller b b'' i := by
  have hrecord := hk.record
  refine ⟨hm.live, hm.unpinned, hm.unsealed, ?_, ?_⟩
  · rw [hrecord]
    exact hm.record
  · obtain ⟨destination, bytes, compressed, stored⟩ := hm.compressed
    refine ⟨destination, bytes, compressed, ?_⟩
    rw [hrecord, ← stored]
    exact load_congr (hk.cold hm.cold)

/-- Upkeep leaves a tenant alone or moves it once. -/
theorem Upkeep.kept_or_moved (hu : Upkeep caller b b') (h : Invariant b) (used : (b.tenants i).inUse = true) :
    Kept b b' i ∨ Moved caller b b' i := by
  induction hu with
  | refl => exact .inl (.refl b i)
  | @tail ev b₁ b₂ past next admitted ih =>
    have h₁ := past.invariant h
    have used₁ : (b₁.tenants i).inUse = true := by rw [Upkeep.inUse past, used]
    by_cases hsub : ev.subject = some i
    · have hev : ev = .evicted i := by
        rcases admitted.about hsub with rfl | rfl
        · rfl
        · exact admitted.elim
      subst hev
      rcases ih with hk | hm
      · exact .inr (hk.moved next.moved h used)
      · exact absurd (.inl hm.cold) next.not_anchored
    · have hk₁ := next.kept h₁ used₁ hsub
      exact ih.imp (fun hk => hk.trans hk₁) (fun hm => hm.kept hk₁)

/-- The tenants that have been moved. -/
def movedTenants (caller : Caller) (b b' : TieredArenaBridge c) : Set ℕ :=
  {i | (b.tenants i).inUse = true ∧ Moved caller b b' i}

/-- The bridge after an operation that failed: nobody was created or destroyed, the tenant that was asked for is
as it was, the others are as they were or moved, and the slots that changed hands are those of moved tenants. -/
structure Unharmed (caller : Caller) (b b' : TieredArenaBridge c) (requester : Option ℕ) : Prop where
  live : ∀ i, (b'.tenants i).inUse = (b.tenants i).inUse
  requester : ∀ i, requester = some i → Kept b b' i
  others : ∀ i, (b.tenants i).inUse = true → Kept b b' i ∨ Moved caller b b' i
  shared : b'.sharedSlots = b.sharedSlots
  hotSlots : ∀ slot, slot ∈ b'.hot.occupied ↔
    slot ∈ b.hot.occupied ∧ ∀ i ∈ movedTenants caller b b', (b.tenants i).hotId.id ≠ slot
  coldSlots : ∀ slot, slot ∈ b'.cold.occupied ↔
    slot ∈ b.cold.occupied ∨ ∃ i ∈ movedTenants caller b b', (b'.tenants i).coldId.id = slot

namespace Upkeep

variable (hu : Upkeep caller b b') (h : Invariant b)
include hu h

/-- Whoever owned a hot slot and was not moved owns it still, and nobody else owns one. -/
theorem hotOwners_iff (x : ℕ ⊕ ℕ) (slot : ℕ) : b'.hotOwners x = some slot ↔
    b.hotOwners x = some slot ∧ ∀ i ∈ movedTenants caller b b', x ≠ .inl i := by
  rcases x with i | e
  · change hotSlot (b'.tenants i) = some slot ↔ hotSlot (b.tenants i) = some slot ∧ _
    cases used : (b.tenants i).inUse with
    | false =>
      rw [hotSlot_free used, hotSlot_free ((hu.inUse i).trans used)]
      exact ⟨fun hc => (nomatch hc), fun hc => nomatch hc.1⟩
    | true =>
      rcases hu.kept_or_moved h used with hk | hm
      · rw [hk.record]
        refine ⟨fun ho => ⟨ho, ?_⟩, And.left⟩
        rintro k ⟨-, hm⟩ heq
        obtain rfl := Sum.inl.inj heq
        have hcold := hm.cold
        rw [hk.record] at hcold
        exact absurd (hcold.symm.trans hm.live.state) (by decide)
      · have hnone : hotSlot (b'.tenants i) = none := by
          rw [hm.record]
          exact if_neg (fun hc => nomatch hc.2.2)
        rw [hnone]
        exact ⟨fun hc => (nomatch hc), fun hc => absurd rfl (hc.2 i ⟨used, hm⟩)⟩
  · change entrySlot (b'.sharedSlots e) = some slot ↔ _
    rw [hu.sharedSlots]
    exact ⟨fun ho => ⟨ho, fun i _ => Sum.inr_ne_inl⟩, And.left⟩

/-- Whoever owned a cold slot owns it still, and the moved tenants own theirs. -/
theorem coldOwners_iff (i slot : ℕ) : b'.coldOwners i = some slot ↔
    b.coldOwners i = some slot ∨ i ∈ movedTenants caller b b' ∧ (b'.tenants i).coldId.id = slot := by
  change coldSlot (b'.tenants i) = some slot ↔ coldSlot (b.tenants i) = some slot ∨ _
  cases used : (b.tenants i).inUse with
  | false =>
    rw [coldSlot_free used, coldSlot_free ((hu.inUse i).trans used)]
    refine ⟨fun hc => (nomatch hc), ?_⟩
    rintro (hc | ⟨hmoved, -⟩)
    · cases hc
    · exact absurd (hmoved.1.symm.trans used) (by decide)
  | true =>
    rcases hu.kept_or_moved h used with hk | hm
    · rw [hk.record]
      refine ⟨.inl, fun ho => ho.elim id ?_⟩
      rintro ⟨⟨-, hm⟩, -⟩
      have hcold := hm.cold
      rw [hk.record] at hcold
      exact absurd (hcold.symm.trans hm.live.state) (by decide)
    · have hcold : coldSlot (b'.tenants i) = some (b'.tenants i).coldId.id := by
        refine if_pos ⟨(hu.inUse i).trans used, ?_, hm.cold⟩
        rw [hm.record]
        exact hm.live.kind
      rw [hcold, hm.live.coldSlot, Option.some.injEq]
      exact ⟨fun heq => .inr ⟨⟨used, hm⟩, heq⟩, fun ho => ho.elim (fun hc => (nomatch hc)) And.right⟩

theorem unharmed {requester : Option ℕ} (kept : ∀ i, requester = some i → Kept b b' i) :
    Unharmed caller b b' requester := by
  have h' := Changes.invariant hu h
  refine ⟨hu.inUse, kept, fun i used => hu.kept_or_moved h used, hu.sharedSlots, fun slot => ?_, fun slot => ?_⟩
  · constructor
    · intro hslot
      obtain ⟨x, hx⟩ := h'.hotOwned.exists_owner slot hslot
      obtain ⟨hx, hstays⟩ := (hu.hotOwners_iff h x slot).mp hx
      refine ⟨h.hotOwned.mem x slot hx, ?_⟩
      rintro i hi rfl
      exact hstays i hi (h.hotOwned.unique _ _ _ hx (hotOwners_tenant hi.1 hi.2.live))
    · rintro ⟨hslot, hstays⟩
      obtain ⟨x, hx⟩ := h.hotOwned.exists_owner slot hslot
      refine h'.hotOwned.mem x slot ((hu.hotOwners_iff h x slot).mpr ⟨hx, ?_⟩)
      rintro i hi rfl
      exact hstays i hi (Option.some.inj ((hotOwners_tenant hi.1 hi.2.live).symm.trans hx))
  · constructor
    · intro hslot
      obtain ⟨i, hi⟩ := h'.coldOwned.exists_owner slot hslot
      rcases (hu.coldOwners_iff h i slot).mp hi with ho | ho
      · exact .inl (h.coldOwned.mem i slot ho)
      · exact .inr ⟨i, ho⟩
    · rintro (hslot | ⟨i, hi⟩)
      · obtain ⟨i, hi⟩ := h.coldOwned.exists_owner slot hslot
        exact h'.coldOwned.mem i slot ((hu.coldOwners_iff h i slot).mpr (.inl hi))
      · exact h'.coldOwned.mem i slot ((hu.coldOwners_iff h i slot).mpr (.inr hi))

end Upkeep

theorem CreateOutcome.unharmed {kind : TenantKind} {res : TenantHandle × TieredArenaBridge c}
    (ho : CreateOutcome caller b kind res) (h : Invariant b) (failed : res.1.isValid = false) :
    Unharmed caller b res.2 none := by
  cases ho with
  | failed upkeep => exact upkeep.unharmed h (fun _ hc => nomatch hc)
  | created => cases failed

/-- A failed acquire has not touched the tenant it was asked for. -/
theorem acquireFP32_unharmed (h : Invariant b) (caller : Caller) (handle : TenantHandle)
    (failed : (b.acquireFP32 caller handle).1.isEmpty = true) :
    Unharmed caller b (b.acquireFP32 caller handle).2 (b.findTenantLocked handle) := by
  have ho := acquireFP32_outcome h caller handle
  by_cases hcold : ∀ i, b.findTenantLocked handle = some i → (b.tenants i).state = .kInCold
  · generalize b.acquireFP32 caller handle = res at ho failed
    cases ho with
    | failed upkeep =>
      refine upkeep.unharmed h (fun i hi => ?_)
      exact upkeep.kept h (findTenantLocked_some hi).2.1 (.inl (hcold i hi))
    | pinned =>
      rw [AcquirePath.region_isEmpty] at failed
      cases failed
  · -- a tenant of the hot tier is refused before anything happens
    have hsame : (b.acquireFP32 caller handle).2 = b := by
      rw [not_forall] at hcold
      obtain ⟨i, hcold⟩ := hcold
      obtain ⟨hi, hcold⟩ := Classical.not_imp.mp hcold
      have used := (findTenantLocked_some hi).2.1
      have hlive := h.records i used
      have hhot : (b.tenants i).state = .kInHot := hlive.state_hot hcold
      unfold acquireFP32 at failed ⊢
      rw [hi] at failed ⊢
      dsimp only at failed ⊢
      rw [if_neg hlive.state_ne_dead, if_neg hcold] at failed ⊢
      rcases pin_cases caller used hhot with ⟨hpin, -⟩ | ⟨b₂, accessTime, hpin, -, -, hdie, hrec⟩
      · simp only [hpin, Bool.not_true, Bool.false_eq_true, if_false]
      · simp only [hpin, Bool.not_true, Bool.false_eq_true, if_false, hdie, hrec] at failed
        rw [view_of_validate (h.validate_of_hot used hhot), slotSpan_isEmpty] at failed
        cases failed
    rw [hsame]
    exact Upkeep.refl.unharmed h (fun i _ => .refl b i)

/-- In every state reached, and whatever the codec answers, an operation that fails harms no
tenant and leaks nothing. -/
theorem failed_unharmed (hr : (system c).Reachable b) (caller : Caller) :
    ((b.createTenant caller).1.isValid = false → Unharmed caller b (b.createTenant caller).2 none) ∧
    ((b.createMicroTenant caller).1.isValid = false → Unharmed caller b (b.createMicroTenant caller).2 none) ∧
    ∀ handle, (b.acquireFP32 caller handle).1.isEmpty = true →
      Unharmed caller b (b.acquireFP32 caller handle).2 (b.findTenantLocked handle) := by
  have h := (reachable_invariant hr).1
  refine ⟨fun hf => ?_, fun hf => ?_, fun handle hf => ?_⟩
  · exact (createTenant_outcome h caller).unharmed h hf
  · exact (createMicroTenant_outcome h caller).unharmed h hf
  · exact acquireFP32_unharmed h caller handle hf

/-- Compresses, and refuses to decompress. -/
def oneWayCaller : Caller where
  mixThreadId := 0
  codec := ⟨halvingCaller.codec.compress, fun _ destination => (0, destination)⟩

/-- The second tenant makes room for the first one, whose bytes then do not come back. -/
theorem failed_unharmed_oneWay :
    Unharmed oneWayCaller crowdedBridge (crowdedBridge.acquireFP32 oneWayCaller ⟨1#64, true⟩).2
      (crowdedBridge.findTenantLocked ⟨1#64, true⟩) := by
  have hrun : (system smallConfig).Reachable crowdedBridge := reachable_calls (b := new smallConfig) .refl _
  exact (failed_unharmed hrun oneWayCaller).2.2 ⟨1#64, true⟩ (by decide +kernel)

end Qtx.TieredArenaBridge
