import Qtx.TieredRuns

/-!
# Isolation of tenants

The bytes shown for two tenants are disjoint, except that `acquireFP32` does not look
at the kind of the tenant: for a micro tenant it shows the whole shared slot.
-/
namespace Qtx.TieredArenaBridge
open SpanMemory FractalArena

variable {c : TieredConfig} {caller : Caller} {b b' : TieredArenaBridge c}

theorem region_base_mem (c : TieredConfig) (path : AcquirePath) (r : TenantRecord) :
    (path.region c r).base ∈ path.region c r :=
  Span.base_mem (path.region_isEmpty r)

section Regions

variable (h : Invariant b) {i j : ℕ} {path path' : AcquirePath}
include h

theorem region_within (used : (b.tenants i).inUse = true) (hot : (b.tenants i).state = .kInHot)
    (admitted : path.Admits (b.tenants i).kind) :
    (path.region c (b.tenants i)).Within (c.hot.slotSpan (b.tenants i).hotId.id) := by
  cases path with
  | acquireFP32 => exact Span.Within.refl _
  | acquireMicroFP32 =>
    have hw := h.hotRegion_within used hot
    rw [(h.microRecord used admitted).region] at hw
    exact hw

/-- Slots of two tenants coincide only for micro tenants of one shared slot. -/
theorem slot_eq_iff (hij : i ≠ j) (usedI : (b.tenants i).inUse = true) (hotI : (b.tenants i).state = .kInHot)
    (usedJ : (b.tenants j).inUse = true) (hotJ : (b.tenants j).state = .kInHot) :
    (b.tenants i).hotId.id = (b.tenants j).hotId.id ↔ (b.tenants i).kind = .kMicro ∧
      (b.tenants j).kind = .kMicro ∧ (b.tenants i).sharedSlotIdx = (b.tenants j).sharedSlotIdx := by
  constructor
  · intro heq
    rcases h.hot_cases usedJ hotJ with hr | hr
    · exact absurd heq (h.slot_ne_of_hot hij usedJ hr usedI hotI)
    · by_contra hne
      rw [hr.slot_eq] at heq
      exact h.slot_ne_of_shared hr.entry usedI hotI (fun hk hidx => hne ⟨hk, hr.kind, hidx⟩) heq
  · rintro ⟨hi, hj, hidx⟩
    rw [(h.microRecord usedI hi).slot_eq, (h.microRecord usedJ hj).slot_eq, hidx]

theorem region_disjoint_iff (hij : i ≠ j) (usedI : (b.tenants i).inUse = true)
    (hotI : (b.tenants i).state = .kInHot) (admittedI : path.Admits (b.tenants i).kind)
    (usedJ : (b.tenants j).inUse = true) (hotJ : (b.tenants j).state = .kInHot)
    (admittedJ : path'.Admits (b.tenants j).kind) :
    (path.region c (b.tenants i)).Disjoint (path'.region c (b.tenants j)) ↔
      ¬((b.tenants i).kind = .kMicro ∧ (b.tenants j).kind = .kMicro ∧
        (b.tenants i).sharedSlotIdx = (b.tenants j).sharedSlotIdx ∧
        (path = .acquireFP32 ∨ path' = .acquireFP32)) := by
  have hslot := slot_eq_iff h hij usedI hotI usedJ hotJ
  have hwi := region_within h usedI hotI admittedI
  have hwj := region_within h usedJ hotJ admittedJ
  by_cases hsame : (b.tenants i).hotId.id = (b.tenants j).hotId.id
  · obtain ⟨hki, hkj, hidx⟩ := hslot.mp hsame
    have hri := h.microRecord usedI hki
    have hrj := h.microRecord usedJ hkj
    simp only [hki, hkj, hidx, true_and]
    cases path with
    | acquireFP32 =>
      -- the whole slot contains the other region
      refine ⟨fun hd => ?_, fun hn => absurd (.inl rfl) hn⟩
      have hmem := region_base_mem c path' (b.tenants j)
      exact absurd hmem (hd _ (by rw [AcquirePath.region, hsame]; exact hwj _ hmem))
    | acquireMicroFP32 =>
      cases path' with
      | acquireFP32 =>
        refine ⟨fun hd => ?_, fun hn => absurd (.inr rfl) hn⟩
        have hmem := region_base_mem c .acquireMicroFP32 (b.tenants i)
        exact absurd (by rw [AcquirePath.region, ← hsame]; exact hwi _ hmem) (hd _ hmem)
      | acquireMicroFP32 =>
        have hd := h.hotRegion_disjoint hij usedJ hotJ usedI hotI
        rw [hri.region, hrj.region] at hd
        exact ⟨fun _ hn => hn.elim (fun hf => nomatch hf) (fun hf => nomatch hf), fun _ => hd⟩
  · refine ⟨fun _ hn => hsame (hslot.mpr ⟨hn.1, hn.2.1, hn.2.2.1⟩), fun _ => ?_⟩
    exact (Geometry.slotSpan_disjoint hsame).mono hwi hwj

end Regions

/-- Acquired one after the other, two live tenants get disjoint bytes, unless they are
micro tenants of one shared slot and one of them is asked for through `acquireFP32`. -/
theorem acquire_disjoint_iff (hr : (system c).Reachable b) (caller caller' : Caller) (path path' : AcquirePath)
    {handle handle' : TenantHandle} {i j : ℕ} (found : b.findTenantLocked handle = some i)
    (found' : b.findTenantLocked handle' = some j) (hij : i ≠ j)
    (shown : (b.acquire path caller handle).1.isEmpty = false)
    (shown' : ((b.acquire path caller handle).2.acquire path' caller' handle').1.isEmpty = false) :
    (b.acquire path caller handle).1.Disjoint ((b.acquire path caller handle).2.acquire path' caller' handle').1 ↔
      ¬((b.tenants i).kind = .kMicro ∧ (b.tenants j).kind = .kMicro ∧
        (b.tenants i).sharedSlotIdx = (b.tenants j).sharedSlotIdx ∧
        (path = .acquireFP32 ∨ path' = .acquireFP32)) := by
  have h := (reachable_invariant hr).1
  have ho := acquire_outcome h caller path handle
  generalize b.acquire path caller handle = res at ho shown shown'
  cases ho with
  | failed => cases shown
  | @pinned k b₁ b₂ accessTime found₁ admitted ready below next record =>
    obtain rfl := Option.some.inj (found₁.symm.trans found)
    obtain ⟨-, usedK, -⟩ := findTenantLocked_some found
    obtain ⟨-, usedJ, -⟩ := findTenantLocked_some found'
    have h₂ := next.invariant (ready.invariant h)
    have same := ready.sameTenants.trans (next.sameTenants trivial)
    have ho' := acquire_outcome h₂ caller' path' handle'
    dsimp only at shown' ⊢
    generalize b₂.acquire path' caller' handle' = res' at ho' shown'
    cases ho' with
    | failed => cases shown'
    | @pinned l b₃ b₄ accessTime' found₃ admitted' ready' below' next' record' =>
      obtain rfl := Option.some.inj (found₃.symm.trans ((same.findTenantLocked handle').trans found'))
      have hpin : (b₂.tenants k).pinCount ≠ 0#32 := by
        rw [record]
        exact pinned_ne_zero below
      have used₂ : (b₂.tenants k).inUse = true := (same k).1.trans usedK
      have hkept := ready'.kept h₂ hij used₂ (.inr (.inl hpin))
      have same₃ := same.trans ready'.sameTenants
      obtain ⟨-, hkindK, hidxK⟩ := (same₃ k).2 usedK
      obtain ⟨-, hkindJ, hidxJ⟩ := (same₃ l).2 usedJ
      have hregion : path.region c (b₁.tenants k) = path.region c (b₃.tenants k) := by
        rw [hkept.record, record]
        cases path <;> rfl
      have hhot : (b₃.tenants k).state = .kInHot := by
        rw [hkept.record, record]
        exact ready.hot
      dsimp only
      rw [hregion, region_disjoint_iff (ready'.invariant h₂) hij ((same₃ k).1.trans usedK) hhot
        (by rw [hkindK]; exact admitted) ((same₃ l).1.trans usedJ) ready'.hot
        (by rw [hkindJ, ← ((same l).2 usedJ).2.1]; exact admitted'), hkindK, hkindJ, hidxK, hidxJ]

/-- A full-slot tenant and two micro tenants. -/
def packedBridge : TieredArenaBridge smallConfig :=
  (new smallConfig).calls [(halvingCaller, .createTenant), (halvingCaller, .createMicroTenant),
    (halvingCaller, .createMicroTenant)]

theorem packedBridge_disjoint : (packedBridge.acquire .acquireFP32 halvingCaller ⟨1#64, true⟩).1.Disjoint
    ((packedBridge.acquire .acquireFP32 halvingCaller ⟨1#64, true⟩).2.acquire .acquireMicroFP32 halvingCaller
      ⟨3#64, true⟩).1 := by
  refine (acquire_disjoint_iff (b := packedBridge) (i := 0) (j := 2) (reachable_calls .refl _) halvingCaller
    halvingCaller .acquireFP32 .acquireMicroFP32 ?_ ?_ (by decide) ?_ ?_).mpr ?_
  · decide +kernel
  · decide +kernel
  · decide +kernel
  · decide +kernel
  · rintro ⟨hkind, -⟩
    exact absurd hkind (by decide +kernel)

/-- Asked for the first micro tenant, `acquireFP32` shows the bytes of the second one. -/
theorem packedBridge_overlap : (system smallConfig).Reachable packedBridge ∧
    packedBridge.findTenantLocked ⟨2#64, true⟩ = some 1 ∧ packedBridge.findTenantLocked ⟨3#64, true⟩ = some 2 ∧
    (packedBridge.acquire .acquireFP32 halvingCaller ⟨2#64, true⟩).1 = ⟨256, 256⟩ ∧
    ((packedBridge.acquire .acquireFP32 halvingCaller ⟨2#64, true⟩).2.acquire .acquireMicroFP32 halvingCaller
      ⟨3#64, true⟩).1 = ⟨384, 128⟩ ∧ ¬Span.Disjoint ⟨256, 256⟩ ⟨384, 128⟩ := by
  have hrun : packedBridge.findTenantLocked ⟨2#64, true⟩ = some 1 ∧
      packedBridge.findTenantLocked ⟨3#64, true⟩ = some 2 ∧
      (packedBridge.acquire .acquireFP32 halvingCaller ⟨2#64, true⟩).1 = ⟨256, 256⟩ ∧
      ((packedBridge.acquire .acquireFP32 halvingCaller ⟨2#64, true⟩).2.acquire .acquireMicroFP32 halvingCaller
        ⟨3#64, true⟩).1 = ⟨384, 128⟩ := by decide +kernel
  obtain ⟨hfound, hfound', hspan, hspan'⟩ := hrun
  exact ⟨reachable_calls (b := new smallConfig) .refl _, hfound, hfound', hspan, hspan',
    fun hd => hd 384 (by decide) (by decide)⟩

end Qtx.TieredArenaBridge
