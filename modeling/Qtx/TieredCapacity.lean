import Qtx.TieredMicroBranches

/-!
# When a tenant can be created

A creation needs a record, and a place: a free slot or sub-slot, or a tenant that can
move to a free cold slot. Nothing else stands in its way, after any history.
-/
namespace Qtx.TieredArenaBridge
open SpanMemory OwnershipTables FractalArena TransitionSystems

variable {c : TieredConfig} {caller : Caller} {b b' : TieredArenaBridge c}

/-- A hot tenant that nothing keeps from moving to the cold tier. -/
def Displaceable (b : TieredArenaBridge c) (i : ℕ) : Prop :=
  (b.tenants i).inUse = true ∧ (b.tenants i).kind = .kFullSlot ∧ (b.tenants i).state = .kInHot ∧
    (b.tenants i).pinCount = 0#32 ∧ (b.tenants i).sealed = false

/-- A whole hot slot can be had. -/
def CanPlace (b : TieredArenaBridge c) : Prop :=
  0 < b.hot.freeSlots ∨ (∃ i, b.Displaceable i) ∧ 0 < b.cold.freeSlots

def liveTenants (b : TieredArenaBridge c) : Set ℕ := {i | (b.tenants i).inUse = true}

section Placement

theorem Orderly.hasVictim_iff (h : Orderly b) : b.HasVictim kNoTenantId ↔ ∃ i, b.Displaceable i := by
  constructor
  · rintro ⟨i, hi⟩
    obtain ⟨hu, hstate, hpin, -, hseal, hkind⟩ := eligible_iff.mp hi
    exact ⟨i, hu, hkind, hstate, hpin, hseal⟩
  · rintro ⟨i, hu, hkind, hstate, hpin, hseal⟩
    exact ⟨i, eligible_iff.mpr ⟨hu, hstate, hpin, h.named i hu, hseal, hkind⟩⟩

theorem allocateHot_placed_iff (h : Invariant b) (ho : Orderly b) (good : SizeCorrect c caller.codec) :
    (b.allocateHot caller kNoTenantId).1.isNull = false ↔ b.CanPlace := by
  rw [← Bool.not_eq_true, allocateHot_null_iff h, ← Bool.not_eq_true, evict_iff h caller good, ho.hasVictim_iff,
    not_and_or, not_not, CanPlace, freeSlots_pos_iff, freeSlots_pos_iff, HotFull, ColdFull]

theorem createTenant_valid_iff (h : Invariant b) (ho : Orderly b) (good : SizeCorrect c caller.codec) :
    (b.createTenant caller).1.isValid = true ↔ b.RecordFree ∧ b.CanPlace := by
  rw [← acquireRecord_iff, ← allocateHot_placed_iff h ho good]
  unfold createTenant
  cases hr : b.acquireRecord with
  | none => simp [invalidHandle]
  | some i =>
    dsimp only
    cases hnull : (b.allocateHot caller kNoTenantId).1.isNull with
    | true => simp [invalidHandle]
    | false => simp

theorem createMicroTenant_valid_iff (h : Invariant b) (hs : Settled b) (ho : Orderly b)
    (good : SizeCorrect c caller.codec) :
    (b.createMicroTenant caller).1.isValid = true ↔ b.RecordFree ∧ (b.SubSlotFree ∨ b.CanPlace) := by
  have hcase := microBranch_case h hs ho caller
  have hplaced : (b.advanceScan.allocateHot caller kNoTenantId).1.isNull = false ↔ b.CanPlace :=
    allocateHot_placed_iff ((step_advanceScan caller b).invariant h)
      ⟨ho.named, Nat.mod_lt _ (kMaxSharedSlots_pos c)⟩ good
  have hpos : 0 < c.kSubSlotsPerSlot := Nat.div_pos (kMicroSlotSize_le c) (by decide)
  rw [createMicroTenant_eq]
  generalize b.microBranch caller = branch at hcase ⊢
  cases hcase with
  | noRecord full => exact iff_of_false Bool.false_ne_true (fun hfree => full hfree.1)
  | packed record entry hlt bit =>
    exact iff_of_true (bindMicro_record _ hlt).1 ⟨acquireRecord_iff.mp ⟨_, record⟩, .inl ⟨_, entry, _, hlt, bit⟩⟩
  | noSlot full refused =>
    refine iff_of_false Bool.false_ne_true (fun hfree => hfree.2.elim full (fun hplace => ?_))
    rw [hplaced.mpr hplace] at refused
    cases refused
  | opened record _ _ _ _ placed =>
    exact iff_of_true (bindMicro_record _ hpos).1 ⟨acquireRecord_iff.mp ⟨_, record⟩, .inr (hplaced.mp placed)⟩

end Placement

section Creations

/-- Only tenants that the eviction sweep may take. -/
def Plain (b : TieredArenaBridge c) : Prop := ∀ i, (b.tenants i).inUse = true →
  (b.tenants i).kind = .kFullSlot ∧ (b.tenants i).pinCount = 0#32 ∧ (b.tenants i).sealed = false

theorem Plain.setTenant (h : Plain b) {i : ℕ} {r : TenantRecord}
    (hr : r.inUse = true → r.kind = .kFullSlot ∧ r.pinCount = 0#32 ∧ r.sealed = false) : Plain (b.setTenant i r) :=
  forall_tenants_setTenant (P := fun _ r => r.inUse = true →
    r.kind = .kFullSlot ∧ r.pinCount = 0#32 ∧ r.sealed = false) hr (fun k _ => h k)

theorem Step.plain {ev : Event} (hs : Step caller b ev b') (h : Plain b) (untouched : ∀ i, ev ≠ .touched i)
    (kind : ∀ i, ev = .created i → (b'.tenants i).kind = .kFullSlot) : Plain b' := by
  cases hs with
  | counters => exact h
  | hotQuiet => exact h
  | coldQuiet => exact h
  | openShared => exact h
  | closeShared => exact h
  | idle _ still => exact h.setTenant (fun hu => absurd (hu.symm.trans still) (by decide))
  | evict used => exact Plain.setTenant h (fun _ => h _ used)
  | promote used => exact Plain.setTenant h (fun _ => h _ used)
  | create => exact Plain.setTenant h (fun _ => ⟨rfl, rfl, rfl⟩)
  | @createMicro i =>
    have hk := kind i rfl
    rw [tenants_setTenant_self] at hk
    cases hk
  | destroyHot => exact Plain.setTenant h (fun hu => nomatch hu)
  | destroyCold => exact Plain.setTenant h (fun hu => nomatch hu)
  | destroyMicro => exact Plain.setTenant h (fun hu => nomatch hu)
  | @touch i => exact absurd rfl (untouched i)

theorem Upkeep.plain (hu : Upkeep caller b b') (h : Plain b) : Plain b' := by
  induction hu with
  | refl => exact h
  | tail past next admitted ih =>
    refine next.plain ih ?_ ?_
    · rintro i rfl
      exact admitted
    · rintro i rfl
      exact admitted.elim

theorem Step.plain_of_shared (hs : Step caller b .shared b') (h : Plain b) : Plain b' :=
  hs.plain h (fun _ hc => nomatch hc) (fun _ hc => nomatch hc)

theorem createTenant_plain (hi : Invariant b) (h : Plain b) (caller : Caller) :
    Plain (b.createTenant caller).2 := by
  have ho := createTenant_outcome hi caller
  generalize b.createTenant caller = res at ho
  cases ho with
  | failed upkeep => exact upkeep.plain h
  | @created i b₁ b₂ b₃ _ upkeep opened next kindEq =>
    have h₂ : Plain b₂ := by
      rcases opened with rfl | hopen
      · exact upkeep.plain h
      · exact hopen.plain_of_shared (upkeep.plain h)
    refine next.plain h₂ (fun _ hc => nomatch hc) ?_
    rintro k hk
    obtain rfl := Event.created.inj hk
    exact kindEq

theorem destroyTenant_plain (hi : Invariant b) (h : Plain b) (handle : TenantHandle) :
    Plain (b.destroyTenant handle).2 := by
  have ho := destroyTenant_outcome hi default handle
  generalize b.destroyTenant handle = res at ho
  cases ho with
  | missing => exact h
  | destroyed _ next closed =>
    have h₁ := next.plain h (fun _ hc => nomatch hc) (fun _ hc => nomatch hc)
    rcases closed with rfl | hclose
    · exact h₁
    · exact hclose.plain_of_shared h₁

/-- A creation or a destruction of a tenant with a slot of its own. -/
def Op.isPlain : Op → Prop
  | .createTenant | .destroyTenant _ => True
  | _ => False

theorem calls_plain (hi : Invariant b) (h : Plain b) (ls : List (Caller × Op)) (hls : ∀ l ∈ ls, l.2.isPlain) :
    Plain (b.calls ls) := by
  induction ls generalizing b with
  | nil => exact h
  | cons l ls ih =>
    refine ih (call_invariant hi l.1 l.2) ?_ (fun l' hl => hls l' (List.mem_cons_of_mem _ hl))
    have hl := hls l List.mem_cons_self
    obtain ⟨caller, op⟩ := l
    cases op with
    | createTenant => exact createTenant_plain hi h caller
    | destroyTenant handle => exact destroyTenant_plain hi h handle
    | _ => exact hl.elim

/-- Every entry in use has a micro tenant, so there is none. -/
theorem Plain.no_entries (h : Plain b) (hi : Invariant b) (hs : Settled b) : {e | b.EntryInUse e} = ∅ := by
  rw [Set.eq_empty_iff_forall_notMem]
  intro e he
  refine hs e he (BitVec.eq_of_getLsbD_eq (fun j _ => ?_))
  rw [BitVec.getLsbD_zero]
  by_contra hbit
  obtain ⟨i, hi', -⟩ := hi.cellsOwned.existsUnique (k := (e, j)) (Bool.eq_true_of_not_eq_false hbit)
  obtain ⟨hu, hmicro⟩ := ((cellOwners_eq_some hi).mp hi').1
  exact absurd ((h i hu).1.symm.trans hmicro.1) (by decide)

theorem Plain.displaceable (h : Plain b) (hi : Invariant b) {i : ℕ} (hot : i ∈ b.hotTenants) :
    b.Displaceable i := by
  obtain ⟨hu, hr⟩ := (mem_hotTenants hi).mp hot
  obtain ⟨-, hpin, hseal⟩ := h i hu
  exact ⟨hu, hr.kind, hr.state, hpin, hseal⟩

/-- Every tenant holds one slot of one tier. -/
theorem Plain.ncard_liveTenants (h : Plain b) (hi : Invariant b) (hs : Settled b) :
    b.liveTenants.ncard = b.hot.usedSlots + b.cold.usedSlots := by
  have hlive : b.liveTenants = b.hotTenants ∪ b.coldTenants := by
    ext i
    refine ⟨fun hu => ?_, fun hi => hi.elim And.left And.left⟩
    rcases record_shapes hi hu with ⟨hh, -⟩ | ⟨-, hc, -⟩ | ⟨-, -, hm⟩
    · exact .inl ⟨hu, hh⟩
    · exact .inr ⟨hu, hc⟩
    · exact absurd ((h i hu).1.symm.trans hm.1) (by decide)
  have hdisjoint : Disjoint b.hotTenants b.coldTenants := by
    rw [Set.disjoint_left]
    rintro i ⟨-, hh⟩ ⟨-, hc⟩
    cases (validate_iff.mp hh.2.1).1.symm.trans hc.2.2.1
  have hfinite : ∀ s ⊆ b.liveTenants, s.Finite := fun s hsub =>
    (Set.finite_lt_nat c.maxTenants).subset (fun i hm => hi.tenants_lt i (hsub hm))
  rw [hot_usedSlots_eq hi, cold_usedSlots_eq hi, h.no_entries hi hs, Set.ncard_empty, Nat.add_zero, hlive,
    Set.ncard_union_eq hdisjoint (hfinite _ (fun _ hm => hm.1)) (hfinite _ (fun _ hm => hm.1))]

theorem freeSlots_pos_iff_used {g : Geometry} (s : FractalArena g) :
    0 < s.freeSlots ↔ s.usedSlots < g.slotCount := by
  have hsub : s.occupied ⊆ Finset.range g.slotCount := Finset.sdiff_subset
  rw [freeSlots_pos_iff, usedSlots_eq_card]
  constructor
  · intro hne
    simpa using Finset.card_lt_card (hsub.ssubset_of_ne hne)
  · rintro hlt heq
    rw [heq, Finset.card_range] at hlt
    exact absurd hlt (Nat.lt_irrefl _)

theorem usedSlots_le {g : Geometry} (s : FractalArena g) : s.usedSlots ≤ g.slotCount := Nat.sub_le _ _

theorem recordFree_iff (h : Invariant b) : b.RecordFree ↔ b.liveTenants.ncard < c.maxTenants := by
  have hcount : {i : ℕ | i < c.maxTenants}.ncard = c.maxTenants := by
    rw [show {i : ℕ | i < c.maxTenants} = (Finset.range c.maxTenants : Set ℕ) by ext; simp, Set.ncard_coe_finset,
      Finset.card_range]
  have hsub : b.liveTenants ⊆ {i | i < c.maxTenants} := h.tenants_lt
  constructor
  · rintro ⟨i, hlt, hidle⟩
    have hne : b.liveTenants ≠ {i | i < c.maxTenants} := by
      intro heq
      have hm : i ∈ b.liveTenants := heq ▸ hlt
      exact absurd (hm.symm.trans hidle) (by decide)
    exact hcount ▸ Set.ncard_lt_ncard (hsub.ssubset_of_ne hne) (Set.finite_lt_nat _)
  · intro hlt
    by_contra hnone
    have heq : b.liveTenants = {i | i < c.maxTenants} := by
      refine hsub.antisymm (fun i hi => ?_)
      by_contra hidle
      exact hnone ⟨i, hi, Bool.eq_false_iff.mpr hidle⟩
    rw [heq, hcount] at hlt
    exact absurd hlt (Nat.lt_irrefl _)

theorem Plain.canPlace_iff (h : Plain b) (hi : Invariant b) (hs : Settled b) :
    b.CanPlace ↔ b.liveTenants.ncard < c.hot.slotCount + c.cold.slotCount := by
  have hhot := usedSlots_le b.hot
  have hcold := usedSlots_le b.cold
  rw [CanPlace, freeSlots_pos_iff_used, freeSlots_pos_iff_used, h.ncard_liveTenants hi hs]
  constructor
  · rintro (hlt | ⟨-, hlt⟩)
    · omega
    · omega
  · intro hlt
    by_cases hroom : b.hot.usedSlots < c.hot.slotCount
    · exact .inl hroom
    · have hpos : 0 < c.hot.slotCount := c.hot.count.pos
      have hsome : b.hotTenants.ncard ≠ 0 := by
        have hcount := hot_usedSlots_eq hi
        rw [h.no_entries hi hs, Set.ncard_empty] at hcount
        omega
      obtain ⟨i, hm⟩ := Set.nonempty_of_ncard_ne_zero hsome
      exact .inr ⟨⟨i, h.displaceable hi hm⟩, by omega⟩

/-- In every state reached a creation succeeds exactly when there is a record and a place
for it, and with tenants that nothing keeps in the hot tier only their number counts. -/
theorem exact_capacity (c : TieredConfig) :
    (∀ b : TieredArenaBridge c, (system c).Reachable b → ∀ caller : Caller, SizeCorrect c caller.codec →
      ((b.createTenant caller).1.isValid = true ↔ b.RecordFree ∧ b.CanPlace) ∧
      ((b.createMicroTenant caller).1.isValid = true ↔ b.RecordFree ∧ (b.SubSlotFree ∨ b.CanPlace))) ∧
    ∀ ls : List (Caller × Op), (∀ l ∈ ls, l.2.isPlain) → ∀ caller : Caller, SizeCorrect c caller.codec →
      ((((new c).calls ls).createTenant caller).1.isValid = true ↔
        ((new c).calls ls).liveTenants.ncard < min c.maxTenants (c.hot.slotCount + c.cold.slotCount)) := by
  refine ⟨?_, ?_⟩
  · intro b hr caller good
    obtain ⟨h, hs⟩ := reachable_invariant hr
    have ho := reachable_orderly hr
    exact ⟨createTenant_valid_iff h ho good, createMicroTenant_valid_iff h hs ho good⟩
  · intro ls hls caller good
    have hr : (system c).Reachable ((new c).calls ls) := reachable_calls .refl ls
    obtain ⟨h, hs⟩ := reachable_invariant hr
    have hplain : Plain ((new c).calls ls) := calls_plain (invariant_new c) (fun _ hu => nomatch hu) ls hls
    rw [createTenant_valid_iff h (reachable_orderly hr) good, recordFree_iff h,
      hplain.canPlace_iff h hs, lt_min_iff]

/-- Two tenants are created and the first one is destroyed. -/
def plainCalls : List (Caller × Op) :=
  [.createTenant, .createTenant, .destroyTenant ⟨1#64, true⟩].map (halvingCaller, ·)

theorem exact_capacity_small :
    (((new smallConfig).calls mixedCalls).RecordFree ∧
      (((new smallConfig).calls mixedCalls).SubSlotFree ∨ ((new smallConfig).calls mixedCalls).CanPlace)) ∧
    ((new smallConfig).calls plainCalls).liveTenants.ncard <
      min smallConfig.maxTenants (smallConfig.hot.slotCount + smallConfig.cold.slotCount) := by
  obtain ⟨hstate, hrun⟩ := exact_capacity smallConfig
  have hls : ∀ l ∈ plainCalls, l.2.isPlain := by simp [plainCalls, Op.isPlain]
  have hmicro : (((new smallConfig).calls mixedCalls).createMicroTenant halvingCaller).1.isValid = true := by
    decide +kernel
  have hplain : (((new smallConfig).calls plainCalls).createTenant halvingCaller).1.isValid = true := by
    decide +kernel
  have hr : (system smallConfig).Reachable ((new smallConfig).calls mixedCalls) :=
    reachable_calls (b := new smallConfig) .refl mixedCalls
  have hiff := (hstate _ hr halvingCaller halvingCaller_sizeCorrect).2
  exact ⟨hiff.mp hmicro, (hrun plainCalls hls halvingCaller halvingCaller_sizeCorrect).mp hplain⟩

end Creations

end Qtx.TieredArenaBridge
