import Qtx.TieredSessions

/-!
# Memory under a pin

While clients destroy no pinned tenant and keep `acquireFP32` for full-slot tenants, the
bytes under every span that is still held stay with their tenant. `destroyTenant` itself
does not look at the pin count.
-/
namespace Qtx.TieredArenaBridge
open SpanMemory TransitionSystems FractalArena

variable {c : TieredConfig} {caller : Caller} {b b' : TieredArenaBridge c}

theorem Stayed.region_eq {i : ℕ} (h : Stayed b b' i) : hotRegion c (b'.tenants i) = hotRegion c (b.tenants i) := by
  obtain ⟨pinCount, accessTime, sealed, -, hrec⟩ := h.record
  rw [hrec]
  rfl

theorem acquire_sameTenants (h : Invariant b) (caller : Caller) (path : AcquirePath) (handle : TenantHandle) :
    SameTenants b (b.acquire path caller handle).2 := by
  have ho := acquire_outcome h caller path handle
  generalize b.acquire path caller handle = res at ho
  cases ho with
  | failed upkeep => exact upkeep.sameTenants
  | pinned found admitted ready below next record => exact ready.sameTenants.trans (next.sameTenants trivial)

/-- What an acquire shows is the region of a tenant in the hot tier. -/
theorem acquire_region {s : Session c} (h : Invariant s.bridge) (caller : Caller) (path : AcquirePath)
    (handle : TenantHandle) (careful : Careful s (.call caller (.acquire path handle))) :
    (s.bridge.acquire path caller handle).1 = .none ∨
    ∃ k, s.bridge.findTenantLocked handle = some k ∧
      (((s.bridge.acquire path caller handle).2).tenants k).inUse = true ∧
      (((s.bridge.acquire path caller handle).2).tenants k).state = .kInHot ∧
      (s.bridge.acquire path caller handle).1 =
        hotRegion c (((s.bridge.acquire path caller handle).2).tenants k) := by
  have ho := acquire_outcome h caller path handle
  generalize s.bridge.acquire path caller handle = res at ho
  cases ho with
  | failed => exact .inl rfl
  | @pinned k b₁ b₂ accessTime found admitted ready below next record =>
    obtain ⟨-, used, -⟩ := findTenantLocked_some found
    refine .inr ⟨k, found, ?_, ?_, ?_⟩
    · rw [record]
      exact (ready.sameTenants k).1.trans used
    · rw [record]
      exact ready.hot
    · rw [record]
      exact careful.region_eq found admitted ready

/-- In every run of careful clients an operation neither changes the bytes under a held
span nor takes the slot or sub-slot from its tenant nor shows any of it for another
tenant. -/
theorem held_span_safe {s : Session c} (hs : (sessions c).Steps Careful (sessions c).init s) (caller : Caller)
    (op : Op) (careful : Careful s (.call caller op)) {i : ℕ} {v : Span} (hv : v ∈ s.held i) :
    (∀ a ∈ v, (s.bridge.call caller op).hot.die a = s.bridge.hot.die a) ∧
    (((s.bridge.call caller op).tenants i).inUse = true ∧
      ((s.bridge.call caller op).tenants i).tenantId = (s.bridge.tenants i).tenantId ∧
      ((s.bridge.call caller op).tenants i).hotId = (s.bridge.tenants i).hotId ∧
      (s.bridge.call caller op).hot.validate (s.bridge.tenants i).hotId = true ∧
      v = hotRegion c ((s.bridge.call caller op).tenants i) ∧
      ((s.bridge.tenants i).kind = .kMicro →
        ((s.bridge.call caller op).sharedSlots (s.bridge.tenants i).sharedSlotIdx).occupancyBitmap.getLsbD
          (s.bridge.tenants i).hotId.subSlotIndex = true)) ∧
    (∀ k, k ≠ i → ((s.bridge.call caller op).tenants k).inUse = true →
      ((s.bridge.call caller op).tenants k).state = .kInHot →
      (hotRegion c ((s.bridge.call caller op).tenants k)).Disjoint v) ∧
    ∀ path handle, op = .acquire path handle → s.bridge.findTenantLocked handle ≠ some i →
      (s.bridge.acquire path caller handle).1.Disjoint v := by
  obtain ⟨h, hh⟩ := session_invariant hs
  obtain ⟨used, pinned⟩ := hh.pinned hv
  have hot := hh.hot h hv
  have hstayed : Stayed s.bridge (s.bridge.call caller op) i := by
    refine call_stayed h caller op used hot (.inr (.inl pinned)) ?_
    rintro handle rfl found
    exact pinned (careful.1 caller handle i rfl found)
  have h' := call_invariant h caller op
  have hregion : v = hotRegion c ((s.bridge.call caller op).tenants i) :=
    (hh.region i v hv).trans hstayed.region_eq.symm
  obtain ⟨pinCount, accessTime, sealed, -, hrec⟩ := hstayed.record
  have hused' : ((s.bridge.call caller op).tenants i).inUse = true := by rw [hrec]; exact used
  have hhot' : ((s.bridge.call caller op).tenants i).state = .kInHot := by rw [hrec]; exact hot
  have hid : ((s.bridge.call caller op).tenants i).hotId = (s.bridge.tenants i).hotId := by rw [hrec]
  have hdisjoint : ∀ k, k ≠ i → ((s.bridge.call caller op).tenants k).inUse = true →
      ((s.bridge.call caller op).tenants k).state = .kInHot →
      (hotRegion c ((s.bridge.call caller op).tenants k)).Disjoint v := by
    intro k hk huk hsk
    rw [hregion]
    exact h'.hotRegion_disjoint hk hused' hhot' huk hsk
  refine ⟨?_, ⟨hused', by rw [hrec], hid, ?_, hregion, ?_⟩, hdisjoint, ?_⟩
  · rw [hh.region i v hv]
    exact hstayed.die
  · rw [← hid]
    exact h'.validate_of_hot hused' hhot'
  · intro hkind
    have hr := h'.microRecord hused' (by rw [hrec]; exact hkind)
    have hidx : ((s.bridge.call caller op).tenants i).sharedSlotIdx = (s.bridge.tenants i).sharedSlotIdx := by
      rw [hrec]
    rw [← hid, ← hidx]
    exact hr.bit
  · rintro path handle rfl hother
    rcases acquire_region h caller path handle careful with hnone | ⟨k, found, huk, hsk, heq⟩
    · rw [hnone]
      exact fun a ha => absurd ha (Span.notMem_of_isEmpty rfl a)
    · rw [heq]
      exact hdisjoint k (fun hki => hother (hki ▸ found)) huk hsk

/-- One tenant is created and acquired. -/
def heldSession : Session smallConfig :=
  ((sessions smallConfig).init.call halvingCaller .createTenant).call halvingCaller
    (.acquire .acquireFP32 ⟨1#64, true⟩)

theorem heldSession_careful :
    (sessions smallConfig).Steps Careful (sessions smallConfig).init heldSession := by
  refine .snoc (.snoc .refl ?_ (step_call _ _ _)) ?_ (step_call _ _ _)
  · exact ⟨fun _ _ _ hf => (nomatch hf), fun _ _ _ hf => nomatch hf⟩
  · refine ⟨fun _ _ _ hf => (nomatch hf), ?_⟩
    rintro caller handle i hact found
    cases hact
    have hi : ((sessions smallConfig).init.call halvingCaller .createTenant).bridge.findTenantLocked
        ⟨1#64, true⟩ = some 0 := by decide +kernel
    obtain rfl := Option.some.inj (hi.symm.trans found)
    decide +kernel

/-- The next tenant leaves the held bytes and their slot alone. -/
theorem heldSession_safe :
    (heldSession.bridge.call halvingCaller .createTenant).hot.die 3 = heldSession.bridge.hot.die 3 ∧
    (heldSession.bridge.call halvingCaller .createTenant).hot.validate (heldSession.bridge.tenants 0).hotId =
      true := by
  have hheld : (⟨0, 256⟩ : Span) ∈ heldSession.held 0 := by decide +kernel
  have hsafe := held_span_safe heldSession_careful halvingCaller .createTenant
    ⟨fun _ _ _ hf => (nomatch hf), fun _ _ _ hf => nomatch hf⟩ hheld
  exact ⟨hsafe.1 3 (by decide), hsafe.2.1.2.2.2.1⟩

/-- The tenant writes through its span and is destroyed while it is pinned. -/
def destroyedSession : Session smallConfig :=
  (heldSession.write 0 ⟨0, 256⟩ 3 170#8).call halvingCaller (.destroyTenant ⟨1#64, true⟩)

/-- The span is still held, but its bytes are wiped, and the next tenant gets them. -/
theorem destroyedSession_reissues : (sessions smallConfig).Reachable destroyedSession ∧
    (heldSession.write 0 ⟨0, 256⟩ 3 170#8).bridge.hot.die 3 = 170#8 ∧
    (⟨0, 256⟩ : Span) ∈ destroyedSession.held 0 ∧ destroyedSession.bridge.hot.die 3 = 0#8 ∧
    (((destroyedSession.bridge.createTenant halvingCaller).2).acquireFP32 halvingCaller ⟨2#64, true⟩).1 =
      ⟨0, 256⟩ := by
  have hheld : (⟨0, 256⟩ : Span) ∈ heldSession.held 0 := by decide +kernel
  have hwrite : (sessions smallConfig).Reachable (heldSession.write 0 ⟨0, 256⟩ 3 170#8) :=
    .snoc (heldSession_careful.mono (fun _ _ _ => trivial)) trivial (step_write hheld (by decide))
  refine ⟨.snoc hwrite trivial (step_call _ _ _), ?_⟩
  decide +kernel

end Qtx.TieredArenaBridge
