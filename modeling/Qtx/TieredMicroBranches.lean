import Qtx.TieredClock
import Qtx.TieredConservation
import Mathlib.Data.Set.Card

/-!
# The ways through `createMicroTenant`

The scan over the shared entries finds a free sub-slot if there is one. If there is none, an
entry is left unused for the fresh slot, so of the five ways through the call four are taken.
-/
namespace Qtx.TieredArenaBridge
open SpanMemory OwnershipTables FractalArena TransitionSystems

variable {c : TieredConfig} {caller : Caller} {b b' : TieredArenaBridge c}

def RecordFree (b : TieredArenaBridge c) : Prop := ∃ i < c.maxTenants, (b.tenants i).inUse = false

def SubSlotFree (b : TieredArenaBridge c) : Prop := ∃ e, b.EntryInUse e ∧
  ∃ j < c.kSubSlotsPerSlot, (b.sharedSlots e).occupancyBitmap.getLsbD j = false

/-- What the conditions on names and on the scan come to over a run. -/
structure Orderly (b : TieredArenaBridge c) : Prop where
  named : ∀ i, (b.tenants i).inUse = true → (b.tenants i).tenantId ≠ kNoTenantId
  scan : b.nextSharedScanStart < c.kMaxSharedSlots

theorem Orderly.step (h : Orderly b) {skipId : BitVec 64} {use : Option ℕ} (timed : Timed b b' skipId use) :
    Orderly b' := by
  refine ⟨fun i hu => ?_, timed.scan.elim (fun heq => heq ▸ h.scan) id⟩
  rcases timed.name i hu with hne | ⟨hu', heq⟩
  · exact hne
  · rw [heq]
    exact h.named i hu'

theorem reachable_orderly (hr : (system c).Reachable b) : Orderly b := by
  have hboth : Invariant b ∧ Orderly b := by
    refine hr.invariant (P := fun b => Invariant b ∧ Orderly b) ⟨invariant_new c, ?_⟩ ?_
    · exact ⟨fun _ hu => (nomatch hu), kMaxSharedSlots_pos c⟩
    · intro b l b' ⟨hi, ho⟩ hs
      cases hs
      exact ⟨call_invariant hi l.1 l.2, ho.step (call_timed hi l.1 l.2)⟩
  exact hboth.2

theorem acquireRecord_iff : (∃ i, b.acquireRecord = some i) ↔ b.RecordFree := by
  constructor
  · rintro ⟨i, hi⟩
    exact ⟨i, acquireRecord_some hi⟩
  · rintro ⟨i, hlt, hfree⟩
    rw [← Option.isSome_iff_exists, acquireRecord, List.find?_isSome]
    exact ⟨i, List.mem_range.mpr hlt, by rw [hfree]; rfl⟩

section SubSlots

theorem pickSubSlot_iff {bitmap : BitVec 32} (within : ∀ j, bitmap.getLsbD j = true → j < c.kSubSlotsPerSlot) :
    (∃ p, pickSubSlot c bitmap = some p) ↔ ∃ j < c.kSubSlotsPerSlot, bitmap.getLsbD j = false := by
  constructor
  · rintro ⟨⟨j, bitmap'⟩, hp⟩
    obtain ⟨hlt, hbit, -⟩ := pickSubSlot_some hp
    exact ⟨j, hlt, hbit⟩
  · rintro ⟨j, hlt, hbit⟩
    have hmask : bitmap &&& c.kValidBits = bitmap := by
      refine BitVec.eq_of_getLsbD_eq (fun k _ => ?_)
      rw [BitVec.getLsbD_and, getLsbD_kValidBits]
      cases hk : bitmap.getLsbD k with
      | false => rfl
      | true => simpa using within k hk
    have hne : bitmap ≠ c.kValidBits := by
      intro heq
      rw [heq, getLsbD_kValidBits, decide_eq_false_iff_not] at hbit
      exact hbit hlt
    simp [pickSubSlot, hmask, hne]

/-- The scan passes over a list of entries until it meets a free sub-slot. -/
theorem scanShared_iff (h : Invariant b) {scanStart : ℕ} {ks : List ℕ} :
    (∃ found, b.scanShared scanStart ks = some found) ↔
      ∃ k ∈ ks, b.EntryInUse ((scanStart + k) % 2 ^ 32 % c.kMaxSharedSlots) ∧
        ∃ j < c.kSubSlotsPerSlot, (b.sharedSlots
          ((scanStart + k) % 2 ^ 32 % c.kMaxSharedSlots)).occupancyBitmap.getLsbD j = false := by
  induction ks with
  | nil => simp [scanShared]
  | cons k ks ih =>
    rw [List.exists_mem_cons_iff, ← ih]
    generalize hslot : (scanStart + k) % 2 ^ 32 % c.kMaxSharedSlots = e
    rw [← pickSubSlot_iff (h.bits_lt e)]
    simp only [scanShared, hslot, EntryInUse]
    cases (b.sharedSlots e).hotId.isNull with
    | true => simp
    | false =>
      cases pickSubSlot c (b.sharedSlots e).occupancyBitmap with
      | none => simp
      | some p => simp

theorem kMaxSharedSlots_le (hmany : 2 ≤ c.kSubSlotsPerSlot) : 2 * c.kMaxSharedSlots ≤ 2 ^ 32 := by
  have hdiv : c.kMaxSharedSlots * c.kSubSlotsPerSlot ≤ c.maxTenants + c.kSubSlotsPerSlot - 1 :=
    Nat.div_mul_le_self _ _
  have hlt := c.maxTenants_lt
  have hpos := kMaxSharedSlots_pos c
  obtain ⟨n, hn⟩ := Nat.exists_eq_add_of_lt hpos
  rw [hn] at hdiv ⊢
  have hmul : (0 + n + 1) * c.kSubSlotsPerSlot = n * c.kSubSlotsPerSlot + c.kSubSlotsPerSlot := by ring
  have hle : n * 2 ≤ n * c.kSubSlotsPerSlot := Nat.mul_le_mul_left n hmany
  omega

/-- A scan over as many entries as there are meets each of them. -/
theorem scan_covers (hmany : 2 ≤ c.kSubSlotsPerSlot) {scanStart e : ℕ} (hs : scanStart < c.kMaxSharedSlots)
    (he : e < c.kMaxSharedSlots) :
    ∃ k ∈ List.range c.kMaxSharedSlots, (scanStart + k) % 2 ^ 32 % c.kMaxSharedSlots = e := by
  have hwide := kMaxSharedSlots_le hmany
  by_cases hle : scanStart ≤ e
  · refine ⟨e - scanStart, List.mem_range.mpr (by omega), ?_⟩
    rw [Nat.add_sub_cancel' hle, Nat.mod_eq_of_lt (show e < 2 ^ 32 by omega), Nat.mod_eq_of_lt he]
  · refine ⟨e + c.kMaxSharedSlots - scanStart, List.mem_range.mpr (by omega), ?_⟩
    rw [Nat.add_sub_cancel' (by omega), Nat.mod_eq_of_lt (show e + c.kMaxSharedSlots < 2 ^ 32 by omega),
      Nat.add_mod_right, Nat.mod_eq_of_lt he]

/-- With one sub-slot in a slot no entry in use has a free one. -/
theorem Settled.many (h : Invariant b) (hs : Settled b) (hfree : b.SubSlotFree) : 2 ≤ c.kSubSlotsPerSlot := by
  obtain ⟨e, he, j, hj, hbit⟩ := hfree
  by_contra hone
  refine hs e he (BitVec.eq_of_getLsbD_eq (fun k _ => ?_))
  rw [BitVec.getLsbD_zero]
  by_contra hk
  have hlt := h.bits_lt e k (Bool.eq_true_of_not_eq_false hk)
  have heq : k = j := by omega
  exact hk (heq ▸ hbit)

theorem scanShared_range_iff (h : Invariant b) (hs : Settled b) (ho : Orderly b) :
    (∃ found, b.scanShared b.nextSharedScanStart (List.range c.kMaxSharedSlots) = some found) ↔
      b.SubSlotFree := by
  rw [scanShared_iff h]
  constructor
  · rintro ⟨k, -, he, hj⟩
    exact ⟨_, he, hj⟩
  · intro hfree
    have hmany := hs.many h hfree
    obtain ⟨e, he, hj⟩ := hfree
    obtain ⟨k, hk, rfl⟩ := scan_covers hmany ho.scan (h.shared_lt e he)
    exact ⟨k, hk, he, hj⟩

/-- A record and a filled sub-slot go together, so a free record leaves an entry unused
when all those in use are full. -/
theorem exists_unused_entry (h : Invariant b) (hfree : b.RecordFree) (hfull : ¬b.SubSlotFree) :
    ∃ e < c.kMaxSharedSlots, (b.sharedSlots e).hotId.isNull = true := by
  by_contra hnone
  have hused : ∀ e < c.kMaxSharedSlots, b.EntryInUse e := by
    intro e he
    rw [EntryInUse, ← Bool.not_eq_true]
    exact fun hn => hnone ⟨e, he, hn⟩
  have hcells : b.takenCells =
      (Finset.range c.kMaxSharedSlots ×ˢ Finset.range c.kSubSlotsPerSlot : Finset (ℕ × ℕ)) := by
    ext ⟨e, j⟩
    rw [Finset.coe_product, Set.mem_prod, Finset.mem_coe, Finset.mem_coe, Finset.mem_range, Finset.mem_range]
    constructor
    · intro hbit
      refine ⟨h.shared_lt e ?_, h.bits_lt e j hbit⟩
      rw [← Bool.not_eq_true]
      intro hn
      rw [takenCells, Set.mem_ofPred_eq, h.bits_null e hn] at hbit
      simp at hbit
    · rintro ⟨he, hj⟩
      by_contra hbit
      exact hfull ⟨e, hused e he, j, hj, Bool.eq_false_iff.mpr hbit⟩
  obtain ⟨i, hi, hidle⟩ := hfree
  have howners : {k | (b.cellOwners k).isSome = true} ⊆ ((Finset.range c.maxTenants).erase i : Finset ℕ) := by
    intro k hk
    obtain ⟨p, hp⟩ := Option.isSome_iff_exists.mp hk
    have hm := ((cellOwners_eq_some (e := p.1) (j := p.2) h).mp hp).1
    rw [Finset.mem_coe, Finset.mem_erase, Finset.mem_range]
    refine ⟨?_, h.tenants_lt k hm.1⟩
    rintro rfl
    exact absurd (hm.1.symm.trans hidle) (by decide)
  have hle := Set.ncard_le_ncard howners (Finset.finite_toSet _)
  rw [h.cellsOwned.ncard_eq, hcells, Set.ncard_coe_finset, Set.ncard_coe_finset, Finset.card_product,
    Finset.card_range, Finset.card_range, Finset.card_erase_of_mem (Finset.mem_range.mpr hi),
      Finset.card_range] at hle
  -- the shared entries have a sub-slot for every record
  have hpos : 0 < c.kSubSlotsPerSlot := Nat.div_pos (kMicroSlotSize_le c) (by decide)
  have hceil : c.maxTenants + c.kSubSlotsPerSlot - 1 < (c.kMaxSharedSlots + 1) * c.kSubSlotsPerSlot :=
    Nat.lt_mul_of_div_lt (Nat.lt_succ_self _) hpos
  rw [Nat.succ_mul] at hceil
  omega

theorem findFreeShared_of_unused (h : Invariant b)
    (hunused : ∃ e < c.kMaxSharedSlots, (b.sharedSlots e).hotId.isNull = true) :
    ∃ e, b.findFreeShared = some e := by
  obtain ⟨e, he, hnull⟩ := hunused
  rw [← Option.isSome_iff_exists, findFreeShared, List.find?_isSome]
  exact ⟨e, List.mem_range.mpr he, by rw [hnull, h.bits_null e hnull]; rfl⟩

end SubSlots

/-- The ways through `createMicroTenant`, with what each of them has at hand. -/
inductive MicroBranch (c : TieredConfig)
  | noRecord
  | packed (i e subIdx : ℕ) (bitmap : BitVec 32)
  | noSlot (i : ℕ) (after : TieredArenaBridge c)
  | noEntry (i : ℕ) (fresh : GenID) (after : TieredArenaBridge c)
  | opened (i e : ℕ) (fresh : GenID) (after : TieredArenaBridge c)

/-- The rotating start of the scan moves with every call. -/
def advanceScan (b : TieredArenaBridge c) : TieredArenaBridge c :=
  { b with nextSharedScanStart := (b.nextSharedScanStart + 1) % 2 ^ 32 % c.kMaxSharedSlots }

def microBranch (b : TieredArenaBridge c) (caller : Caller) : MicroBranch c :=
  match b.acquireRecord with
  | none => .noRecord
  | some i =>
    match b.advanceScan.scanShared b.nextSharedScanStart (List.range c.kMaxSharedSlots) with
    | some (e, subIdx, bitmap) => .packed i e subIdx bitmap
    | none =>
      let (fresh, after) := b.advanceScan.allocateHot caller kNoTenantId
      if fresh.isNull then .noSlot i after
      else match after.findFreeShared with
        | none => .noEntry i fresh after
        | some e => .opened i e fresh after

namespace MicroBranch

/-- What the call does on each way. -/
def run (b : TieredArenaBridge c) : MicroBranch c → TenantHandle × TieredArenaBridge c
  | noRecord => (invalidHandle, b)
  | packed i e subIdx bitmap =>
    (b.advanceScan.setShared e ⟨bitmap, (b.sharedSlots e).hotId⟩).bindMicro i e subIdx
  | noSlot i after => (invalidHandle, after.releaseRecord i)
  | noEntry i fresh after => (invalidHandle, { after with hot := (after.hot.release fresh).2 }.releaseRecord i)
  | opened i e fresh after => (after.setShared e ⟨1#32, fresh⟩).bindMicro i e 0

/-- The record, the shared entry and the sub-slot of a tenant that is made. -/
def binds : MicroBranch c → Option (ℕ × ℕ × ℕ)
  | packed i e subIdx _ => some (i, e, subIdx)
  | opened i e _ _ => some (i, e, 0)
  | _ => none

end MicroBranch

theorem createMicroTenant_eq (b : TieredArenaBridge c) (caller : Caller) :
    b.createMicroTenant caller = (b.microBranch caller).run b := by
  unfold createMicroTenant microBranch
  cases b.acquireRecord with
  | none => rfl
  | some i =>
    dsimp only
    generalize hb₀ : ({ b with
      nextSharedScanStart := (b.nextSharedScanStart + 1) % 2 ^ 32 % c.kMaxSharedSlots } :
        TieredArenaBridge c) = b₀
    have hadvance : b.advanceScan = b₀ := hb₀
    rw [hadvance]
    cases b₀.scanShared b.nextSharedScanStart (List.range c.kMaxSharedSlots) with
    | some found =>
      subst hb₀
      rfl
    | none =>
      dsimp only
      generalize b₀.allocateHot caller kNoTenantId = res
      cases hnull : res.1.isNull with
      | true => simp [MicroBranch.run]
      | false =>
        simp only [Bool.false_eq_true, if_false]
        cases res.2.findFreeShared with
        | none => rfl
        | some e => rfl

section Branches

theorem step_advanceScan (caller : Caller) (b : TieredArenaBridge c) : Step caller b .scratch b.advanceScan :=
  .counters b.monotonicClock b.nextTenantId ((b.nextSharedScanStart + 1) % 2 ^ 32 % c.kMaxSharedSlots) b.evictions
    b.promotions

/-- The ways that a call can take, and what holds on each of them. A fresh slot without an entry is none. -/
inductive MicroCase (caller : Caller) (b : TieredArenaBridge c) : MicroBranch c → Prop
  | noRecord (full : ¬ b.RecordFree) : MicroCase caller b .noRecord
  | packed {i e subIdx bitmap} (record : b.acquireRecord = some i) (entry : b.EntryInUse e)
      (subIdx_lt : subIdx < c.kSubSlotsPerSlot) (bit : (b.sharedSlots e).occupancyBitmap.getLsbD subIdx = false) :
      MicroCase caller b (.packed i e subIdx bitmap)
  | noSlot {i after} (full : ¬ b.SubSlotFree)
    (refused : (b.advanceScan.allocateHot caller kNoTenantId).1.isNull = true) :
      MicroCase caller b (.noSlot i after)
  | opened {i e fresh b₁ hot} (record : b.acquireRecord = some i) (full : ¬ b.SubSlotFree)
    (upkeep : Upkeep caller b b₁)
      (taken : Allocated b₁.hot fresh hot) (entry : (b.sharedSlots e).hotId.isNull = true)
      (placed : (b.advanceScan.allocateHot caller kNoTenantId).1.isNull = false) :
      MicroCase caller b (.opened i e fresh { b₁ with hot := hot })

theorem microBranch_case (h : Invariant b) (hs : Settled b) (ho : Orderly b) (caller : Caller) :
    MicroCase caller b (b.microBranch caller) := by
  have hadvance : Invariant b.advanceScan := (step_advanceScan caller b).invariant h
  unfold microBranch
  cases hr : b.acquireRecord with
  | none =>
    refine .noRecord (fun hfree => ?_)
    obtain ⟨i, hi⟩ := acquireRecord_iff.mpr hfree
    rw [hr] at hi
    cases hi
  | some i =>
    dsimp only
    cases hscan : b.advanceScan.scanShared b.nextSharedScanStart (List.range c.kMaxSharedSlots) with
    | some found =>
      obtain ⟨e, subIdx, bitmap⟩ := found
      obtain ⟨hentry, hpick⟩ := scanShared_some hscan
      obtain ⟨hlt, hbit, -⟩ := pickSubSlot_some hpick
      exact .packed hr hentry hlt hbit
    | none =>
      -- the scan met every entry in use, so all of them are full
      have hfull : ¬ b.SubSlotFree := by
        intro hfree
        obtain ⟨found, hfound⟩ := (scanShared_iff hadvance).mpr
          ((scanShared_iff h).mp ((scanShared_range_iff h hs ho).mpr hfree))
        rw [hscan] at hfound
        cases hfound
      have hgrant := hotGrant_allocateHot hadvance caller kNoTenantId
      generalize hres : b.advanceScan.allocateHot caller kNoTenantId = res at hgrant
      cases hgrant with
      | failed => exact .noSlot hfull (by rw [hres]; rfl)
      | @granted fresh b₁ hot upkeep taken =>
        have hup : Upkeep caller b b₁ := (Upkeep.refl.scratch (step_advanceScan caller b)).trans upkeep
        have hunused : ∃ e < c.kMaxSharedSlots, (b₁.sharedSlots e).hotId.isNull = true := by
          rw [hup.sharedSlots]
          exact exists_unused_entry h (acquireRecord_iff.mp ⟨i, hr⟩) hfull
        obtain ⟨e, he⟩ := findFreeShared_of_unused (hup.invariant h) hunused
        have he' : findFreeShared { b₁ with hot := hot } = some e := he
        have hnull : (b.sharedSlots e).hotId.isNull = true := hup.sharedSlots ▸ (findFreeShared_some he).2
        dsimp only
        rw [if_neg (by simp [taken.notNull]), he']
        exact .opened hr hfull hup taken hnull (by rw [hres]; exact taken.notNull)

/-- The record that step 3 writes. -/
theorem bindMicro_record {i e j : ℕ} (entry : SharedSlotEntry) (hj : j < c.kSubSlotsPerSlot) :
    let result := (b.setShared e entry).bindMicro i e j
    result.1.isValid = true ∧ (result.2.tenants i).sharedSlotIdx = e ∧
      (result.2.tenants i).hotId.id = entry.hotId.id ∧
      (result.2.tenants i).hotId.subSlotIndex = j := by
  have hle : j ≤ GenID.kMaxSubSlot := Nat.le_of_lt_succ (Nat.lt_of_lt_of_le hj c.subSlots_le)
  dsimp only
  rw [bindMicro_setShared, tenants_setTenant_self]
  exact ⟨rfl, rfl, GenID.id_withSubSlot _ _, GenID.subSlotIndex_withSubSlot hle⟩

end Branches

end Qtx.TieredArenaBridge
