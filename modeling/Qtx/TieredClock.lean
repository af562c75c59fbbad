import Qtx.TieredReleaseRuns
import Qtx.TieredTrades

/-!
# The access clock

The clock advances by one ticket at each successful create or acquire, which stamps the
record it is about. Nothing else an operation does touches the clock or a stamp.
-/
namespace Qtx.TieredArenaBridge
open SpanMemory TieredReleases

variable {c : TieredConfig} {b b₁ b' : TieredArenaBridge c} {skipId : BitVec 64} {i : ℕ}

/-- The record of the tenant that a call creates, or acquires with success. -/
def used (b : TieredArenaBridge c) (caller : Caller) (op : Op) : Option ℕ :=
  (created b caller op).or (gained b caller op)

/-- The id that an eviction inside the operation would skip. -/
def Op.excluded (op : Op) (b : TieredArenaBridge c) : BitVec 64 :=
  match op.target b with
  | none => kNoTenantId
  | some i => (b.tenants i).tenantId

section Sweeps

/-- What an operation does before it creates, destroys or pins: the stamps stay, and only
the victim goes cold. -/
structure Swept (b b' : TieredArenaBridge c) (skipId : BitVec 64) : Prop where
  clock : b'.monotonicClock = b.monotonicClock
  scan : b'.nextSharedScanStart = b.nextSharedScanStart
  inUse : ∀ i, (b'.tenants i).inUse = (b.tenants i).inUse
  stamp : ∀ i, (b'.tenants i).accessTime = (b.tenants i).accessTime
  name : ∀ i, (b'.tenants i).tenantId = (b.tenants i).tenantId
  cold : ∀ i, (b'.tenants i).state = .kInCold → (b.tenants i).state = .kInCold ∨ b.findVictim skipId = some i

theorem Swept.refl (b : TieredArenaBridge c) (skipId : BitVec 64) : Swept b b skipId :=
  ⟨rfl, rfl, fun _ => rfl, fun _ => rfl, fun _ => rfl, fun _ => .inl⟩

/-- Arenas and counters other than the clock are not looked at. -/
theorem Swept.congr (h : Swept b b₁ skipId) (tenants : b'.tenants = b₁.tenants)
    (clock : b'.monotonicClock = b₁.monotonicClock)
    (scan : b'.nextSharedScanStart = b₁.nextSharedScanStart) : Swept b b' skipId := by
  obtain ⟨hclock, hscan, hused, hstamp, hname, hcold⟩ := h
  rw [← tenants] at hused hstamp hname hcold
  exact ⟨clock.trans hclock, scan.trans hscan, hused, hstamp, hname, hcold⟩

theorem Swept.update (h : Swept b b₁ skipId) {r : TenantRecord}
    (tenants : b'.tenants = Function.update b₁.tenants i r) (clock : b'.monotonicClock = b₁.monotonicClock)
    (scan : b'.nextSharedScanStart = b₁.nextSharedScanStart) (inUse : r.inUse = (b₁.tenants i).inUse)
    (stamp : r.accessTime = (b₁.tenants i).accessTime) (name : r.tenantId = (b₁.tenants i).tenantId)
    (cold : r.state = .kInCold → (b.tenants i).state = .kInCold ∨ b.findVictim skipId = some i) :
    Swept b b' skipId := by
  have hset : b'.tenants = (b₁.setTenant i r).tenants := tenants
  refine ⟨clock.trans h.clock, scan.trans h.scan, ?_, ?_, ?_, ?_⟩
  · rw [hset]
    exact forall_tenants_setTenant (P := fun k r => r.inUse = (b.tenants k).inUse) (inUse.trans (h.inUse i))
      (fun k _ => h.inUse k)
  · rw [hset]
    exact forall_tenants_setTenant (P := fun k r => r.accessTime = (b.tenants k).accessTime)
      (stamp.trans (h.stamp i)) (fun k _ => h.stamp k)
  · rw [hset]
    exact forall_tenants_setTenant (P := fun k r => r.tenantId = (b.tenants k).tenantId)
      (name.trans (h.name i)) (fun k _ => h.name k)
  · rw [hset]
    exact forall_tenants_setTenant (P := fun k r => r.state = .kInCold →
      (b.tenants k).state = .kInCold ∨ b.findVictim skipId = some k) cold (fun k _ => h.cold k)

theorem swept_evict (b : TieredArenaBridge c) (caller : Caller) (skipId : BitVec 64) :
    Swept b (b.evictOldestToColdLocked caller skipId).2 skipId := by
  unfold evictOldestToColdLocked
  cases hv : b.findVictim skipId with
  | none => exact .refl b skipId
  | some v =>
    dsimp only
    split_ifs
    · exact (Swept.refl b skipId).congr rfl rfl rfl
    · exact (Swept.refl b skipId).congr rfl rfl rfl
    · exact (Swept.refl b skipId).congr rfl rfl rfl
    · exact (Swept.refl b skipId).update rfl rfl rfl rfl rfl rfl (fun _ => .inr hv)

theorem swept_allocateHot (h : Invariant b) (caller : Caller) (skipId : BitVec 64) :
    Swept b (b.allocateHot caller skipId).2 skipId := by
  have hpath := allocateHot_path h caller skipId
  have hswept := swept_evict b caller skipId
  generalize b.allocateHot caller skipId = res at hpath
  cases hpath with
  | room => exact (Swept.refl b skipId).congr rfl rfl rfl
  | stuck _ evict =>
    rw [evict] at hswept
    exact hswept
  | traded _ evict =>
    rw [evict] at hswept
    exact hswept.congr rfl rfl rfl

theorem swept_promote (h : Invariant b) (caller : Caller) (i : ℕ) :
    Swept b (b.promote caller i).2 (b.tenants i).tenantId := by
  have hswept := swept_allocateHot h caller (b.tenants i).tenantId
  unfold promote
  dsimp only
  split_ifs
  · exact hswept
  · exact hswept.congr rfl rfl rfl
  · exact hswept.congr rfl rfl rfl
  · exact hswept.update rfl rfl rfl rfl rfl rfl (fun hc => absurd hc (by simp))

end Sweeps

section Operations

/-- What an operation does to the clock, the stamps and the names. -/
structure Timed (b b' : TieredArenaBridge c) (skipId : BitVec 64) (use : Option ℕ) : Prop where
  clock : b'.monotonicClock = if use.isSome then b.monotonicClock + 1#64 else b.monotonicClock
  scan : b'.nextSharedScanStart = b.nextSharedScanStart ∨ b'.nextSharedScanStart < c.kMaxSharedSlots
  used : ∀ i ∈ use, (b'.tenants i).inUse = true ∧
    (((b.tenants i).inUse = true → (b.tenants i).accessTime < b.monotonicClock) →
      (b'.tenants i).accessTime = b.monotonicClock)
  others : ∀ i ∉ use, (b'.tenants i).inUse = true →
    (b.tenants i).inUse = true ∧ (b'.tenants i).accessTime = (b.tenants i).accessTime
  name : ∀ i, (b'.tenants i).inUse = true → (b'.tenants i).tenantId ≠ kNoTenantId ∨
    (b.tenants i).inUse = true ∧ (b'.tenants i).tenantId = (b.tenants i).tenantId
  cold : ∀ i, (b'.tenants i).state = .kInCold → (b.tenants i).state = .kInCold ∨ b.findVictim skipId = some i

theorem Swept.timed (h : Swept b b' skipId) : Timed b b' skipId none := by
  refine ⟨h.clock, .inl h.scan, fun i hi => (nomatch hi), ?_, ?_, h.cold⟩
  · intro i _ hu
    exact ⟨(h.inUse i).symm.trans hu, h.stamp i⟩
  · intro i hu
    exact .inr ⟨(h.inUse i).symm.trans hu, h.name i⟩

/-- A record that is not used afterwards has no stamp to keep. -/
theorem Timed.clear (h : Timed b b' skipId none) {r : TenantRecord} (idle : r.inUse = false)
    (warm : r.state ≠ .kInCold) : Timed b (b'.setTenant i r) skipId none := by
  refine ⟨h.clock, h.scan, fun i hi => (nomatch hi), ?_, ?_, ?_⟩
  · exact forall_tenants_setTenant (P := fun k r => k ∉ (none : Option ℕ) → r.inUse = true →
      (b.tenants k).inUse = true ∧ r.accessTime = (b.tenants k).accessTime)
      (fun _ hu => absurd (hu.symm.trans idle) (by decide)) (fun k _ => h.others k)
  · exact forall_tenants_setTenant (P := fun k r => r.inUse = true → r.tenantId ≠ kNoTenantId ∨
      (b.tenants k).inUse = true ∧ r.tenantId = (b.tenants k).tenantId)
      (fun hu => absurd (hu.symm.trans idle) (by decide)) (fun k _ => h.name k)
  · exact forall_tenants_setTenant (P := fun k r => r.state = .kInCold →
      (b.tenants k).state = .kInCold ∨ b.findVictim skipId = some k)
      (fun hc => absurd hc warm) (fun k _ => h.cold k)

/-- One record takes the next ticket. -/
theorem Timed.stamp (h : Timed b b₁ skipId none) {r : TenantRecord}
    (tenants : b'.tenants = Function.update b₁.tenants i r)
    (clock : b'.monotonicClock = b₁.monotonicClock + 1#64)
    (scan : b'.nextSharedScanStart = b₁.nextSharedScanStart)
    (inUse : r.inUse = true)
    (ticket : ((b.tenants i).inUse = true → (b.tenants i).accessTime < b.monotonicClock) →
      r.accessTime = b.monotonicClock)
    (name : r.tenantId ≠ kNoTenantId ∨ (b.tenants i).inUse = true ∧ r.tenantId = (b.tenants i).tenantId)
    (warm : r.state ≠ .kInCold) : Timed b b' skipId (some i) := by
  have hclock : b₁.monotonicClock = b.monotonicClock := h.clock
  have hself : b'.tenants i = r := by rw [tenants, Function.update_self]
  have hother : ∀ k, k ≠ i → b'.tenants k = b₁.tenants k := fun k hk => by
    rw [tenants, Function.update_of_ne hk]
  refine ⟨by rw [clock, hclock]; rfl, ?_, ?_, ?_, ?_, ?_⟩
  · rw [scan]
    exact h.scan
  · intro k hk
    obtain rfl := Option.some.inj hk
    rw [hself]
    exact ⟨inUse, ticket⟩
  · intro k hk hu
    have hne : k ≠ i := fun heq => hk (congrArg some heq.symm)
    rw [hother k hne] at hu ⊢
    exact h.others k (fun hm => nomatch hm) hu
  · intro k hu
    by_cases hk : k = i
    · subst hk
      rw [hself]
      exact name
    · rw [hother k hk] at hu ⊢
      exact h.name k hu
  · intro k hc
    by_cases hk : k = i
    · subst hk
      rw [hself] at hc
      exact absurd hc warm
    · rw [hother k hk] at hc
      exact h.cold k hc

/-- No tenant gets the reserved id. -/
theorem freshTenantId_ne (b : TieredArenaBridge c) : b.freshTenantId.1 ≠ kNoTenantId := by
  unfold freshTenantId
  dsimp only
  split_ifs with hv
  · rcases hv with hv | hv
    · rw [hv]
      decide
    · rw [hv]
      decide
  · exact fun heq => hv (.inr heq)

/-- The clock and the stamps after a creation. -/
inductive CreateTimed (b : TieredArenaBridge c) : TenantHandle × TieredArenaBridge c → Prop
  | failed {b₂} (timed : Timed b b₂ kNoTenantId none) : CreateTimed b (invalidHandle, b₂)
  | created {k tenantId b₂} (record : b.acquireRecord = some k) (timed : Timed b b₂ kNoTenantId (some k)) :
      CreateTimed b (⟨tenantId, true⟩, b₂)

theorem createTenant_timed (h : Invariant b) (caller : Caller) : CreateTimed b (b.createTenant caller) := by
  have hswept := swept_allocateHot h caller kNoTenantId
  unfold createTenant
  cases hr : b.acquireRecord with
  | none => exact .failed (Swept.refl b kNoTenantId).timed
  | some i =>
    generalize b.allocateHot caller kNoTenantId = res at hswept
    obtain ⟨hotId, b₁⟩ := res
    dsimp only at hswept ⊢
    split_ifs with hnull
    · exact .failed (hswept.timed.clear rfl (by simp))
    · exact .created hr (hswept.timed.stamp rfl rfl rfl rfl (fun _ => hswept.clock) (.inl (freshTenantId_ne _))
        (by simp))

/-- Counting on the scan does not disturb the sweep. -/
theorem Timed.rescan (h : Timed b₁ b' skipId none) (tenants : b₁.tenants = b.tenants)
    (clock : b₁.monotonicClock = b.monotonicClock) (next : b₁.nextSharedScanStart < c.kMaxSharedSlots) :
    Timed b b' skipId none := by
  have hvictim : b₁.findVictim skipId = b.findVictim skipId := by
    unfold findVictim olderVictim eligible
    rw [tenants]
  obtain ⟨hclock, hscan, hused, hothers, hname, hcold⟩ := h
  rw [clock] at hclock
  rw [tenants] at hothers hname hcold
  rw [hvictim] at hcold
  exact ⟨hclock, .inr (hscan.elim (fun heq => heq ▸ next) id), fun i hi => (nomatch hi), hothers, hname, hcold⟩

theorem bindMicro_timed (h : Timed b b₁ kNoTenantId none) {i e j : ℕ} (record : b.acquireRecord = some i) :
    CreateTimed b (b₁.bindMicro i e j) := by
  unfold bindMicro
  exact .created record (h.stamp rfl rfl rfl rfl (fun _ => h.clock) (.inl (freshTenantId_ne _)) (by simp))

theorem kMaxSharedSlots_pos (c : TieredConfig) : 0 < c.kMaxSharedSlots := by
  have hpos : 0 < c.kSubSlotsPerSlot := Nat.div_pos (kMicroSlotSize_le c) (by decide)
  have hrecords := c.maxTenants_pos
  exact Nat.div_pos (by omega) hpos

theorem createMicroTenant_timed (h : Invariant b) (caller : Caller) :
    CreateTimed b (b.createMicroTenant caller) := by
  unfold createMicroTenant
  cases hr : b.acquireRecord with
  | none => exact .failed (Swept.refl b kNoTenantId).timed
  | some i =>
    dsimp only
    have hn : (b.nextSharedScanStart + 1) % 2 ^ 32 % c.kMaxSharedSlots < c.kMaxSharedSlots :=
      Nat.mod_lt _ (kMaxSharedSlots_pos c)
    generalize hb₀ : ({ b with
      nextSharedScanStart := (b.nextSharedScanStart + 1) % 2 ^ 32 % c.kMaxSharedSlots } :
        TieredArenaBridge c) = b₀
    have h₀ : Invariant b₀ := by
      subst hb₀
      have hstep : Step caller b .scratch _ := Step.counters b.monotonicClock b.nextTenantId
        ((b.nextSharedScanStart + 1) % 2 ^ 32 % c.kMaxSharedSlots) b.evictions b.promotions
      exact hstep.invariant h
    have hrescan : ∀ {b₁ : TieredArenaBridge c}, Timed b₀ b₁ kNoTenantId none → Timed b b₁ kNoTenantId none := by
      subst hb₀
      exact fun timed => timed.rescan rfl rfl hn
    cases b₀.scanShared b.nextSharedScanStart (List.range c.kMaxSharedSlots) with
    | some found =>
      refine bindMicro_timed (hrescan (Swept.timed ?_)) hr
      exact (Swept.refl b₀ kNoTenantId).congr rfl rfl rfl
    | none =>
      have hswept := swept_allocateHot h₀ caller kNoTenantId
      generalize b₀.allocateHot caller kNoTenantId = res at hswept
      obtain ⟨fresh, b₁⟩ := res
      dsimp only at hswept ⊢
      split_ifs
      · exact .failed ((hrescan hswept.timed).clear rfl (by simp))
      · cases findFreeShared b₁ with
        | none =>
          have hback : Swept b₀ { b₁ with hot := (b₁.hot.release fresh).2 } kNoTenantId :=
            hswept.congr rfl rfl rfl
          exact .failed ((hrescan hback.timed).clear rfl (by simp))
        | some e =>
          refine bindMicro_timed (hrescan (Swept.timed ?_)) hr
          exact hswept.congr rfl rfl rfl

/-- Without the arenas and the counters, a destruction clears one record. -/
theorem destroyTenant_timed (b : TieredArenaBridge c) (handle : TenantHandle) (skipId : BitVec 64) :
    Timed b (b.destroyTenant handle).2 skipId none := by
  have hclear : ∀ {b₁ : TieredArenaBridge c} {i : ℕ} {r : TenantRecord}, b₁.tenants = b.tenants →
      b₁.monotonicClock = b.monotonicClock → b₁.nextSharedScanStart = b.nextSharedScanStart →
      r.inUse = false → r.state ≠ .kInCold → Timed b (b₁.setTenant i r) skipId none := by
    intro b₁ i r htenants hclock hscan hidle hwarm
    exact ((Swept.refl b skipId).congr htenants hclock hscan).timed.clear hidle hwarm
  unfold destroyTenant
  split
  · exact (Swept.refl b skipId).timed
  · dsimp only
    split_ifs
    · exact (Swept.refl b skipId).timed
    all_goals exact hclear rfl rfl rfl rfl (by simp)

/-- The clock and the stamps after an acquire. -/
inductive AcquireTimed (b : TieredArenaBridge c) (handle : TenantHandle) (skipId : BitVec 64) :
    Span × TieredArenaBridge c → Prop
  | failed {b₂} (timed : Timed b b₂ skipId none) : AcquireTimed b handle skipId (.none, b₂)
  | pinned {k span b₂} (found : b.findTenantLocked handle = some k) (shown : span.isEmpty = false)
      (timed : Timed b b₂ skipId (some k)) : AcquireTimed b handle skipId (span, b₂)

/-- A pin takes a ticket and stamps its record when the ticket is later. -/
theorem pin_stamp (hpin : b₁.pin i = (true, b')) : ∃ r, b'.tenants = Function.update b₁.tenants i r ∧
    b'.monotonicClock = b₁.monotonicClock + 1#64 ∧ b'.nextSharedScanStart = b₁.nextSharedScanStart ∧
    r.inUse = (b₁.tenants i).inUse ∧ r.tenantId = (b₁.tenants i).tenantId ∧ r.state = (b₁.tenants i).state ∧
    ((b₁.tenants i).accessTime < b₁.monotonicClock → r.accessTime = b₁.monotonicClock) := by
  unfold pin bumpAccessTime at hpin
  dsimp only at hpin
  split_ifs at hpin with hmax htime
  · cases (Prod.mk.inj hpin).1
  · obtain rfl := (Prod.mk.inj hpin).2
    refine ⟨{ b₁.tenants i with pinCount := (b₁.tenants i).pinCount + 1#32, accessTime := b₁.monotonicClock },
      ?_, rfl, rfl, rfl, rfl, rfl, fun _ => rfl⟩
    simp [setTenant, Function.update_idem]
  · obtain rfl := (Prod.mk.inj hpin).2
    refine ⟨_, rfl, rfl, rfl, rfl, rfl, rfl, fun hlt => absurd ?_ htime⟩
    rw [tenants_setTenant_self]
    exact hlt

/-- A hot tenant that is asked for is stamped unless it is pinned too often. -/
theorem acquire_timed_of_ready (h : Invariant b₁) (hswept : Swept b b₁ skipId) {handle : TenantHandle}
    (path : AcquirePath) (found : b.findTenantLocked handle = some i) (hot : (b₁.tenants i).state = .kInHot)
    (kind : path.Admits (b₁.tenants i).kind) :
    AcquireTimed b handle skipId (match b₁.pin i with
      | (false, b) => (.none, b)
      | (true, b) => (path.view b (b.tenants i).hotId, b)) := by
  obtain ⟨-, hu, -⟩ := findTenantLocked_some found
  have hu₁ : (b₁.tenants i).inUse = true := (hswept.inUse i).trans hu
  rcases pin_cases default hu₁ hot with ⟨hpin, -⟩ | ⟨b₂, accessTime, hpin, -, -, hhot, hrec⟩
  · rw [hpin]
    exact .failed hswept.timed
  · rw [hpin]
    dsimp only
    rw [view_of_pinned h path hu₁ hot kind hhot hrec]
    obtain ⟨r, htenants, hclock, hscan, hused, hname, hstate, hticket⟩ := pin_stamp hpin
    refine .pinned found (path.region_isEmpty _) ?_
    refine hswept.timed.stamp htenants hclock hscan (hused.trans hu₁) ?_ ?_ (by rw [hstate, hot]; decide)
    · intro hlt
      have hlt₁ := hlt hu
      rw [← hswept.stamp i, ← hswept.clock] at hlt₁
      exact (hticket hlt₁).trans hswept.clock
    · exact .inr ⟨hu, hname.trans (hswept.name i)⟩

theorem acquireFP32_timed (h : Invariant b) (caller : Caller) (handle : TenantHandle) :
    AcquireTimed b handle ((Op.acquire .acquireFP32 handle).excluded b) (b.acquireFP32 caller handle) := by
  unfold acquireFP32 Op.excluded
  cases hf : b.findTenantLocked handle with
  | none =>
    simp only [Op.target, hf]
    exact .failed (Swept.refl b _).timed
  | some i =>
    obtain ⟨-, hu, -⟩ := findTenantLocked_some hf
    have hlive := h.records i hu
    simp only [Op.target, hf]
    rw [if_neg hlive.state_ne_dead]
    by_cases hc : (b.tenants i).state = .kInCold
    · rw [if_pos hc]
      have hswept := swept_promote h caller i
      have hp := promote_outcome h caller hu (h.coldRecord hu hc)
      generalize b.promote caller i = res at hp hswept
      cases hp with
      | noSlot => exact .failed hswept.timed
      | refused => exact .failed hswept.timed
      | @promoted b₁ b₂ _ upkeep next =>
        have h₂ := next.invariant (upkeep.invariant h)
        exact acquire_timed_of_ready h₂ hswept .acquireFP32 hf next.promoted_record.2.1 trivial
    · rw [if_neg hc]
      exact acquire_timed_of_ready h (.refl b _) .acquireFP32 hf (hlive.state_hot hc) trivial

theorem acquireMicroFP32_timed (h : Invariant b) (handle : TenantHandle) (skipId : BitVec 64) :
    AcquireTimed b handle skipId (b.acquireMicroFP32 handle) := by
  unfold acquireMicroFP32
  cases hf : b.findTenantLocked handle with
  | none => exact .failed (Swept.refl b _).timed
  | some i =>
    obtain ⟨-, hu, -⟩ := findTenantLocked_some hf
    dsimp only
    split_ifs with hkind hdead
    · exact .failed (Swept.refl b _).timed
    · exact .failed (Swept.refl b _).timed
    · have hr := h.microRecord hu (not_not.mp hkind)
      exact acquire_timed_of_ready h (.refl b _) .acquireMicroFP32 hf hr.state hr.kind

/-- `release` and `sealTenant` keep the stamp of the record they change. -/
theorem timed_update {r : TenantRecord} (inUse : r.inUse = (b.tenants i).inUse)
    (stamp : r.accessTime = (b.tenants i).accessTime) (name : r.tenantId = (b.tenants i).tenantId)
    (state : r.state = (b.tenants i).state) : Timed b (b.setTenant i r) skipId none := by
  apply Swept.timed
  exact (Swept.refl b skipId).update rfl rfl rfl inUse stamp name (fun hc => .inl (state.symm.trans hc))

/-- Every operation stamps at most the record that it uses. -/
theorem call_timed (h : Invariant b) (caller : Caller) (op : Op) :
    Timed b (b.call caller op) (op.excluded b) (b.used caller op) := by
  cases op with
  | createTenant =>
    have ht := createTenant_timed h caller
    simp only [call, used, created, gained, Option.or_none]
    generalize b.createTenant caller = res at ht
    cases ht with
    | failed timed => exact timed
    | created record timed =>
      simp only [if_true, record]
      exact timed
  | createMicroTenant =>
    have ht := createMicroTenant_timed h caller
    simp only [call, used, created, gained, Option.or_none]
    generalize b.createMicroTenant caller = res at ht
    cases ht with
    | failed timed => exact timed
    | created record timed =>
      simp only [if_true, record]
      exact timed
  | destroyTenant handle => exact destroyTenant_timed b handle _
  | acquire path handle =>
    have ht : AcquireTimed b handle ((Op.acquire path handle).excluded b) (b.acquire path caller handle) := by
      cases path with
      | acquireFP32 => exact acquireFP32_timed h caller handle
      | acquireMicroFP32 => exact acquireMicroFP32_timed h handle _
    simp only [call, used, created, gained, Option.none_or]
    generalize b.acquire path caller handle = res at ht
    cases ht with
    | failed timed => exact timed
    | pinned found shown timed =>
      simp only [shown, found]
      exact timed
  | release handle =>
    simp only [call, used, created, gained, Option.or_none]
    unfold release
    split
    · exact (Swept.refl b _).timed
    · dsimp only
      split_ifs
      · exact timed_update rfl rfl rfl rfl
      · exact (Swept.refl b _).timed
  | sealTenant handle =>
    simp only [call, used, created, gained, Option.or_none]
    unfold sealTenant
    split
    · exact (Swept.refl b _).timed
    · dsimp only
      split_ifs
      · exact (Swept.refl b _).timed
      · exact timed_update rfl rfl rfl rfl

end Operations

end Qtx.TieredArenaBridge
