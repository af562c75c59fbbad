import Qtx.TieredReleases

/-!
# What the locked operations do to one record

An operation under the mutex leaves the identity of a record as it is, and its pins too,
unless it creates the tenant of the record or shows that tenant's bytes.
-/
namespace Qtx.TieredReleases
open SpanMemory TieredArenaBridge TransitionSystems

variable {c : TieredConfig} {caller : Caller} {b b' : TieredArenaBridge c} {i : ℕ}

/-- The record has the same id as before and, if it is in use, the same pins. -/
structure Steady (b b' : TieredArenaBridge c) (i : ℕ) : Prop where
  tenantId : (b'.tenants i).tenantId = (b.tenants i).tenantId
  pins : (b'.tenants i).inUse = true →
    (b.tenants i).inUse = true ∧ (b'.tenants i).pinCount = (b.tenants i).pinCount

theorem Steady.of_eq (h : b'.tenants i = b.tenants i) : Steady b b' i := by
  refine ⟨by rw [h], fun used => ?_⟩
  rw [h] at used
  exact ⟨used, by rw [h]⟩

theorem Steady.trans {b'' : TieredArenaBridge c} (h : Steady b b' i) (h' : Steady b' b'' i) : Steady b b'' i := by
  refine ⟨h'.tenantId.trans h.tenantId, fun used => ?_⟩
  obtain ⟨used', hpin'⟩ := h'.pins used
  obtain ⟨used'', hpin⟩ := h.pins used'
  exact ⟨used'', hpin'.trans hpin⟩

theorem steady_update {k : ℕ} {r : TenantRecord} (h : b'.tenants = Function.update b.tenants k r)
    (sameId : k = i → r.tenantId = (b.tenants i).tenantId)
    (pins : k = i → r.inUse = true → (b.tenants i).inUse = true ∧ r.pinCount = (b.tenants i).pinCount) :
    Steady b b' i := by
  by_cases hk : k = i
  · subst hk
    refine ⟨?_, ?_⟩
    · rw [h, Function.update_self]
      exact sameId rfl
    · rw [h, Function.update_self]
      exact pins rfl
  · exact .of_eq (by rw [h, Function.update_of_ne (Ne.symm hk)])

/-- Only a creation or a touch is about the id or the pins of a record. -/
theorem step_steady {ev : Event} (hs : Step caller b ev b') (notCreated : ev ≠ .created i)
    (notTouched : ev ≠ .touched i) : Steady b b' i := by
  cases hs with
  | counters => exact .of_eq rfl
  | hotQuiet => exact .of_eq rfl
  | coldQuiet => exact .of_eq rfl
  | idle _ still sameId =>
    exact steady_update rfl (fun hk => hk ▸ sameId) (fun _ used => absurd (used.symm.trans still) (by decide))
  | evict used => exact steady_update rfl (fun hk => by rw [hk]) (fun hk _ => by subst hk; exact ⟨used, rfl⟩)
  | promote used => exact steady_update rfl (fun hk => by rw [hk]) (fun hk _ => by subst hk; exact ⟨used, rfl⟩)
  | create =>
    have hne := fun hk => notCreated (congrArg Event.created hk)
    exact steady_update rfl (fun hk => (hne hk).elim) (fun hk => (hne hk).elim)
  | createMicro =>
    have hne := fun hk => notCreated (congrArg Event.created hk)
    exact steady_update rfl (fun hk => (hne hk).elim) (fun hk => (hne hk).elim)
  | openShared => exact .of_eq rfl
  | closeShared => exact .of_eq rfl
  | destroyHot => exact steady_update rfl (fun hk => by rw [hk]; rfl) (fun _ used => nomatch used)
  | destroyCold => exact steady_update rfl (fun hk => by rw [hk]; rfl) (fun _ used => nomatch used)
  | destroyMicro => exact steady_update rfl (fun hk => by rw [hk]; rfl) (fun _ used => nomatch used)
  | touch =>
    have hne := fun hk => notTouched (congrArg Event.touched hk)
    exact steady_update rfl (fun hk => (hne hk).elim) (fun hk => (hne hk).elim)

theorem changes_steady {ok : Event → Prop} (hs : Changes caller ok b b')
    (other : ∀ ev, ok ev → ev ≠ .created i ∧ ev ≠ .touched i) : Steady b b' i := by
  induction hs with
  | refl => exact .of_eq rfl
  | tail past next kind ih => exact ih.trans (step_steady next (other _ kind).1 (other _ kind).2)

theorem isUpkeep_other {ev : Event} (h : ev.isUpkeep) (i : ℕ) : ev ≠ .created i ∧ ev ≠ .touched i := by
  refine ⟨?_, ?_⟩
  · rintro rfl
    exact h
  · rintro rfl
    exact h

theorem upkeep_steady (hu : Upkeep caller b b') (i : ℕ) : Steady b b' i :=
  changes_steady hu (fun _ hev => isUpkeep_other hev i)

theorem ready_steady {k : ℕ} (hr : Ready caller b k b') (i : ℕ) : Steady b b' i := by
  refine changes_steady hr.changes ?_
  rintro ev (hev | rfl)
  · exact isUpkeep_other hev i
  · exact ⟨by simp, by simp⟩

theorem step_tenants_of_touched {k : ℕ} (hs : Step caller b (.touched k) b') (hne : i ≠ k) :
    b'.tenants i = b.tenants i := by
  cases hs with
  | touch => exact tenants_setTenant_of_ne hne

theorem step_pinCount_of_created (hs : Step caller b (.created i) b') : (b'.tenants i).pinCount = 0#32 := by
  cases hs with
  | create => rw [tenants_setTenant_self]
  | createMicro => rw [tenants_setTenant_self]

/-- An operation under the mutex creates a tenant in the record, or pins its tenant
once more, or leaves id and pins alone. -/
inductive Effect (b b' : TieredArenaBridge c) (i : ℕ) (created gained : Option ℕ) : Prop
  | restarts (isNew : created = some i) (unpinned : (b'.tenants i).pinCount = 0#32)
  | pins (old : created ≠ some i) (gain : gained = some i)
      (tenantId : (b'.tenants i).tenantId = (b.tenants i).tenantId) (used : (b.tenants i).inUse = true)
      (count : (b'.tenants i).pinCount.toNat = (b.tenants i).pinCount.toNat + 1)
  | keeps (old : created ≠ some i) (same : gained ≠ some i) (steady : Steady b b' i)

theorem create_effect {kind : TenantKind} {res : TenantHandle × TieredArenaBridge c}
    (ho : CreateOutcome caller b kind res) (i : ℕ) :
    Effect b res.2 i (if res.1.isValid then b.acquireRecord else none) none := by
  cases ho with
  | failed upkeep => exact .keeps (by simp [invalidHandle]) (by simp) (upkeep_steady upkeep i)
  | @created k b₁ b₂ b₃ record upkeep opened next kindEq settled =>
    rw [if_pos rfl, record]
    by_cases hk : k = i
    · subst hk
      exact .restarts rfl (step_pinCount_of_created next)
    · have hopen : Steady b₁ b₂ i := by
        rcases opened with rfl | hopen
        · exact .of_eq rfl
        · exact step_steady hopen (by simp) (by simp)
      refine .keeps (fun heq => hk (Option.some.inj heq)) (by simp)
        (((upkeep_steady upkeep i).trans hopen).trans ?_)
      exact step_steady next (fun heq => hk (Event.created.inj heq)) (by simp)

theorem acquire_effect {path : AcquirePath} {handle : TenantHandle} {res : Span × TieredArenaBridge c}
    (ho : AcquireOutcome caller b path handle res) (i : ℕ) :
    Effect b res.2 i none (if res.1.isEmpty then none else b.findTenantLocked handle) := by
  cases ho with
  | failed upkeep => exact .keeps (by simp) (by simp) (upkeep_steady upkeep i)
  | @pinned k b₁ b₂ accessTime found admitted ready below next record =>
    rw [path.region_isEmpty, found]
    have hsteady := ready_steady ready i
    by_cases hk : k = i
    · subst hk
      obtain ⟨-, used, -⟩ := findTenantLocked_some found
      obtain ⟨-, hpin⟩ := hsteady.pins ((ready.sameTenants k).1.trans used)
      refine .pins (by simp) rfl ?_ used ?_
      · rw [record]
        exact hsteady.tenantId
      · rw [record, ← hpin]
        exact pinned_toNat below
    · refine .keeps (by simp) (fun heq => hk (Option.some.inj heq)) (hsteady.trans (.of_eq ?_))
      exact step_tenants_of_touched next (Ne.symm hk)

theorem call_effect (h : Invariant b) (caller : Caller) {op : Op} (hl : isLocked op = true) (i : ℕ) :
    Effect b (b.call caller op) i (created b caller op) (gained b caller op) := by
  cases op with
  | createTenant => exact create_effect (createTenant_outcome h caller) i
  | createMicroTenant => exact create_effect (createMicroTenant_outcome h caller) i
  | destroyTenant handle =>
    have ho := destroyTenant_outcome h caller handle
    simp only [call]
    generalize b.destroyTenant handle = res at ho
    refine .keeps (by simp [created]) (by simp [gained]) ?_
    cases ho with
    | missing => exact .of_eq rfl
    | destroyed found next closed settled =>
      have hfirst := step_steady (i := i) next (by simp) (by simp)
      rcases closed with rfl | hclose
      · exact hfirst
      · exact hfirst.trans (step_steady hclose (by simp) (by simp))
  | acquire path handle => exact acquire_effect (acquire_outcome h caller path handle) i
  | release handle => cases hl
  | sealTenant handle =>
    have ho := sealTenant_outcome h caller handle
    simp only [call]
    generalize b.sealTenant handle = res at ho
    refine .keeps (by simp [created]) (by simp [gained]) ?_
    cases ho with
    | missing => exact .of_eq rfl
    | @sealed k b₁ found next record =>
      obtain ⟨-, used, -⟩ := findTenantLocked_some found
      by_cases hk : i = k
      · subst hk
        refine ⟨by rw [record], fun _ => ⟨used, by rw [record]⟩⟩
      · exact .of_eq (step_tenants_of_touched next hk)

end Qtx.TieredReleases
