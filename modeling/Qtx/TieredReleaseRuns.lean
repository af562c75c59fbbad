import Qtx.TieredReleaseEffects

/-!
# The calls of `release` in flight

As long as no record that a call has matched is given to another tenant, the pins of a
tenant are the acquires that showed its bytes less the releases that took effect.
-/
namespace Qtx.TieredReleases
open SpanMemory TieredArenaBridge TransitionSystems

section Runs

variable {c : TieredConfig} {τ : Type*} [DecidableEq τ] {s s' : State c τ}

/-- A call that has matched a record is about the tenant of that record. -/
def Pc.Sound (b : TieredArenaBridge c) : Pc → Prop
  | .state h k | .pinCount h k => (b.tenants k).tenantId = h.tenantId
  | .exchange h k cur => (b.tenants k).tenantId = h.tenantId ∧ cur ≠ 0#32
  | .idle | .inUse _ _ | .tenantId _ _ | .returning _ => True

theorem Pc.Sound.congr {b b' : TieredArenaBridge c} {pc : Pc} (h : pc.Sound b)
    (same : ∀ p ∈ pc.matched, (b'.tenants p.2).tenantId = (b.tenants p.2).tenantId) : pc.Sound b' := by
  cases pc with
  | state h' k => exact (same (h', k) rfl).trans h
  | pinCount h' k => exact (same (h', k) rfl).trans h
  | exchange h' k cur => exact ⟨(same (h', k) rfl).trans h.1, h.2⟩
  | _ => trivial

theorem scan_sound (b : TieredArenaBridge c) (h : TenantHandle) (k : ℕ) : (scan c h k).Sound b := by
  unfold scan
  split_ifs <;> trivial

theorem retry_sound {b : TieredArenaBridge c} {h : TenantHandle} {k : ℕ}
    (sameId : (b.tenants k).tenantId = h.tenantId) (cur : BitVec 32) : (retry h k cur).Sound b := by
  unfold retry
  split_ifs with hpos
  · exact ⟨sameId, (gt_zero_iff _).mp hpos⟩
  · trivial

/-- What holds in every state: the pins of a tenant are the acquires that no release has
undone. -/
structure Tracked (s : State c τ) : Prop where
  bridge : Invariant s.bridge
  pcs : ∀ t, (s.pc t).Sound s.bridge
  balanced : ∀ i, (s.bridge.tenants i).inUse = true →
    (s.bridge.tenants i).pinCount.toNat + s.released i = s.acquired i

theorem tracked_init (c : TieredConfig) (τ : Type*) [DecidableEq τ] : Tracked (system c τ).init :=
  ⟨invariant_new c, fun _ => trivial, fun _ used => nomatch used⟩

theorem Tracked.goto (h : Tracked s) {t : τ} {pc : Pc} (sound : pc.Sound s.bridge) : Tracked (s.goto t pc) := by
  refine ⟨h.bridge, fun t' => ?_, h.balanced⟩
  by_cases ht : t' = t
  · subst ht
    rwa [goto_pc_self]
  · simpa [State.goto, ht] using h.pcs t'

omit [DecidableEq τ] in
theorem Tracked.locked (h : Tracked s) (caller : Caller) {op : Op} (hl : isLocked op = true)
    (fresh : NoReuse s (.locked caller op)) : Tracked (s.locked caller op) := by
  have heffect := call_effect h.bridge caller hl
  refine ⟨call_invariant h.bridge caller op, ?_, ?_⟩
  · intro t
    refine (h.pcs t).congr (fun p hp => ?_)
    cases heffect p.2 with
    | restarts isNew => exact absurd isNew (fresh t p hp)
    | pins _ _ tenantId => exact tenantId
    | keeps _ _ steady => exact steady.tenantId
  · intro i used
    simp only [State.locked] at used ⊢
    cases heffect i with
    | restarts isNew unpinned => simp only [isNew, unpinned, if_true, BitVec.toNat_zero]
    | pins old gain tenantId used count =>
      rw [if_neg old, if_neg old, if_pos gain, count, Nat.add_right_comm, h.balanced i used]
    | keeps old same steady =>
      obtain ⟨used', hpin⟩ := steady.pins used
      rw [if_neg old, if_neg old, if_neg same, hpin, h.balanced i used']

theorem invariant_unpin {b : TieredArenaBridge c} (h : Invariant b) {k : ℕ}
    (pinned : (b.tenants k).pinCount ≠ 0#32) (pinCount : BitVec 32) :
    Invariant (b.setTenant k { b.tenants k with pinCount := pinCount }) := by
  cases hu : (b.tenants k).inUse with
  | true =>
    have hs : Step default b (.touched k) _ := .touch b.monotonicClock pinCount (b.tenants k).accessTime
      (b.tenants k).sealed hu (fun hc => absurd (h.unpinned_of_cold hu hc) pinned) id
    exact hs.invariant h
  | false =>
    have hs : Step default b .scratch (b.setTenant k { b.tenants k with pinCount := pinCount }) := .idle hu hu rfl
    exact hs.invariant h

theorem Tracked.unpin (h : Tracked s) {t : τ} {handle : TenantHandle} {k : ℕ} {cur : BitVec 32}
    (hpc : s.pc t = .exchange handle k cur) (won : (s.bridge.tenants k).pinCount = cur) :
    Tracked (s.unpin t handle k cur) := by
  have hsound := h.pcs t
  rw [hpc] at hsound
  obtain ⟨sameId, positive⟩ := hsound
  refine ⟨invariant_unpin h.bridge (won ▸ positive) _, ?_, ?_⟩
  · have hgoto : Tracked (s.goto t (.returning true)) := h.goto trivial
    intro t'
    refine (hgoto.pcs t').congr (fun p _ => ?_)
    by_cases hk : p.2 = k
    · simp [State.unpin, State.goto, hk]
    · simp [State.unpin, State.goto, tenants_setTenant_of_ne hk]
  · intro i used
    simp only [State.unpin, State.goto] at used ⊢
    by_cases hk : i = k
    · subst hk
      rw [tenants_setTenant_self] at used ⊢
      have hbalanced := h.balanced i used
      have hpos : 0 < cur.toNat := Nat.pos_of_ne_zero (fun hz => positive (BitVec.eq_of_toNat_eq hz))
      have hsub := unpinned_toNat positive
      rw [if_pos ⟨used, sameId⟩, Function.update_self]
      rw [won] at hbalanced
      dsimp only
      omega
    · rw [tenants_setTenant_of_ne hk] at used ⊢
      have hreleased : ∀ n, Function.update s.released k n i = s.released i := fun n => Function.update_of_ne hk ..
      split_ifs
      · rw [hreleased]
        exact h.balanced i used
      · exact h.balanced i used

theorem Tracked.act (h : Tracked s) {t : τ} {spurious : Bool} (hs : s.act t spurious = some s') : Tracked s' := by
  have hsound := h.pcs t
  unfold State.act at hs
  cases hpc : s.pc t with
  | idle => simp only [hpc] at hs; cases hs
  | inUse handle k =>
    simp only [hpc] at hs
    cases hs
    refine h.goto ?_
    split_ifs
    · trivial
    · exact scan_sound _ _ _
  | tenantId handle k =>
    simp only [hpc] at hs
    cases hs
    refine h.goto ?_
    split_ifs with hid
    · exact hid
    · exact scan_sound _ _ _
  | state handle k =>
    simp only [hpc] at hs hsound
    cases hs
    refine h.goto ?_
    split_ifs
    · exact hsound
    · exact scan_sound _ _ _
  | pinCount handle k =>
    simp only [hpc] at hs hsound
    cases hs
    exact h.goto (retry_sound hsound _)
  | exchange handle k cur =>
    simp only [hpc] at hs hsound
    split_ifs at hs with hwon
    · cases hs
      exact h.unpin hpc hwon.1
    · cases hs
      exact h.goto (retry_sound hsound.1 _)
  | returning result =>
    simp only [hpc] at hs
    cases hs
    exact h.goto trivial

theorem tracked (hs : (system c τ).Steps NoReuse (system c τ).init s) : Tracked s := by
  refine hs.preserves (tracked_init c τ) ?_
  intro s l s' h fresh next
  cases l with
  | locked caller op =>
    simp only [system, State.step] at next
    split_ifs at next with hl
    cases next
    exact h.locked caller hl fresh
  | callRelease t handle =>
    simp only [system, State.step] at next
    split_ifs at next
    · cases next
      exact h.goto trivial
    · cases next
      exact h.goto (scan_sound _ _ _)
  | act t spurious => exact h.act next

/-- Only the winning compare-exchange of a call changes pins, those of its record. -/
theorem act_pinCount {t : τ} {spurious : Bool} (hs : s.act t spurious = some s') {i : ℕ}
    (changed : (s'.bridge.tenants i).pinCount ≠ (s.bridge.tenants i).pinCount) :
    ∃ h cur, s.pc t = .exchange h i cur := by
  unfold State.act at hs
  cases hpc : s.pc t with
  | exchange handle k cur =>
    simp only [hpc] at hs
    split_ifs at hs
    · cases hs
      by_cases hk : i = k
      · exact ⟨handle, cur, by rw [hk]⟩
      · exact absurd (by simp [State.unpin, tenants_setTenant_of_ne hk]) changed
    · cases hs
      exact absurd rfl changed
  | idle => simp only [hpc] at hs; cases hs
  | _ =>
    simp only [hpc] at hs
    cases hs
    exact absurd rfl changed

theorem findVictim_ne {b : TieredArenaBridge c} {i : ℕ} (pinned : (b.tenants i).pinCount ≠ 0#32)
    (skipId : BitVec 64) : b.findVictim skipId ≠ some i := by
  intro hv
  exact pinned (eligible_iff.mp (findVictim_some hv)).2.2.1

/-- In every run without reuse a release changes only the pins of its own tenant. A
tenant that was acquired more often than released is pinned, no eviction chooses it, and
it stays hot and in place through every operation but its own destruction. -/
theorem release_own (hs : (system c τ).Steps NoReuse (system c τ).init s) :
    (∀ t spurious s', (system c τ).step s (.act t spurious) = some s' → ∀ i,
      (s'.bridge.tenants i).pinCount ≠ (s.bridge.tenants i).pinCount →
      ∃ h cur, s.pc t = .exchange h i cur ∧
        ((s.bridge.tenants i).inUse = true → (s.bridge.tenants i).tenantId = h.tenantId)) ∧
    ∀ i, (s.bridge.tenants i).inUse = true → s.released i < s.acquired i →
      (s.bridge.tenants i).pinCount ≠ 0#32 ∧ (∀ skipId, s.bridge.findVictim skipId ≠ some i) ∧
      ∀ caller op, isLocked op = true →
        (∀ handle, op = .destroyTenant handle → s.bridge.findTenantLocked handle ≠ some i) →
        ((s.bridge.call caller op).tenants i).state = .kInHot ∧ Stayed s.bridge (s.bridge.call caller op) i := by
  have htracked := tracked hs
  refine ⟨?_, ?_⟩
  · intro t spurious s' next i changed
    obtain ⟨h, cur, hpc⟩ := act_pinCount next changed
    have hsound := htracked.pcs t
    rw [hpc] at hsound
    exact ⟨h, cur, hpc, fun _ => hsound.1⟩
  · intro i used more
    have hpinned : (s.bridge.tenants i).pinCount ≠ 0#32 := by
      intro hz
      have hbalanced := htracked.balanced i used
      rw [hz, BitVec.toNat_zero] at hbalanced
      omega
    refine ⟨hpinned, findVictim_ne hpinned, ?_⟩
    intro caller op _ alive
    have hot : (s.bridge.tenants i).state = .kInHot :=
      (htracked.bridge.records i used).state_hot (mt (htracked.bridge.unpinned_of_cold used) hpinned)
    have hstayed := call_stayed htracked.bridge caller op used hot (.inr (.inl hpinned)) alive
    obtain ⟨pinCount, accessTime, sealed, -, hrec⟩ := hstayed.record
    exact ⟨by rw [hrec]; exact hot, hstayed⟩

end Runs

/-- One thread that calls `release`, next to others that hold the mutex in turn. -/
abbrev oneReleaser : System (State smallConfig Unit) (Label Unit) := system smallConfig Unit

def creates : Label Unit := .locked halvingCaller .createTenant

def acquires (id : BitVec 64) : Label Unit := .locked halvingCaller (.acquire .acquireFP32 ⟨id, true⟩)

def destroys (id : BitVec 64) : Label Unit := .locked halvingCaller (.destroyTenant ⟨id, true⟩)

/-- The lookup of a release that finds record 0, up to the match. -/
def matches0 : List (Label Unit) := [.callRelease () ⟨1#64, true⟩, .act () false, .act () false]

/-- The rest of the call before its compare-exchange. -/
def loadsPin : List (Label Unit) := [.act () false, .act () false]

/-- The first tenant is acquired twice and released once, while another tenant is
created. -/
def pairedState : State smallConfig Unit :=
  (oneReleaser.restrict NoReuse).after
    ([creates, acquires 1#64, acquires 1#64] ++ matches0 ++ [creates] ++ loadsPin)

theorem pairedState_own :
    (∃ h cur, pairedState.pc () = .exchange h 0 cur ∧ (pairedState.bridge.tenants 0).tenantId = h.tenantId) ∧
    (pairedState.bridge.tenants 0).pinCount ≠ 0#32 ∧
    (∀ skipId, pairedState.bridge.findVictim skipId ≠ some 0) ∧
    ((pairedState.bridge.call halvingCaller .createTenant).tenants 0).state = .kInHot := by
  have hrun : oneReleaser.Steps NoReuse oneReleaser.init pairedState :=
    System.steps_of_restrict (System.reachable_after (by decide +kernel))
  obtain ⟨hown, hpinned⟩ := release_own hrun
  have hused : (pairedState.bridge.tenants 0).inUse = true := by decide +kernel
  have hpc : pairedState.pc () = .exchange ⟨1#64, true⟩ 0 2#32 := by decide +kernel
  have hpin : (pairedState.bridge.tenants 0).pinCount = 2#32 := by decide +kernel
  have hstep : oneReleaser.step pairedState (.act () false) =
      some (pairedState.unpin () ⟨1#64, true⟩ 0 2#32) := by
    simp [system, State.step, State.act, hpc, hpin]
  obtain ⟨h, cur, hat, hid⟩ := hown () false _ hstep 0 (by simp [State.unpin, hpin])
  obtain ⟨hne, hvictim, hstays⟩ := hpinned 0 hused (by decide +kernel)
  exact ⟨⟨h, cur, hat, hid hused⟩, hne, hvictim,
    (hstays halvingCaller .createTenant rfl (fun _ => Op.noConfusion)).1⟩

/-- While a release of the first tenant is under way the tenant is destroyed; the next
one is created in its record and acquired. -/
def staleState : State smallConfig Unit :=
  oneReleaser.after ([creates, acquires 1#64] ++ matches0 ++ [destroys 1#64, creates, acquires 2#64] ++ loadsPin)

/-- The release takes the only pin of the new tenant, which is the next victim. -/
theorem staleState_unpins : oneReleaser.Reachable staleState ∧
    oneReleaser.step staleState (.act () false) = some (staleState.unpin () ⟨1#64, true⟩ 0 1#32) ∧
    (staleState.bridge.tenants 0).inUse = true ∧ (staleState.bridge.tenants 0).tenantId = 2#64 ∧
    (staleState.bridge.tenants 0).pinCount = 1#32 ∧
    ((staleState.unpin () ⟨1#64, true⟩ 0 1#32).bridge.tenants 0).pinCount = 0#32 ∧
    (staleState.unpin () ⟨1#64, true⟩ 0 1#32).acquired 0 = 1 ∧
    (staleState.unpin () ⟨1#64, true⟩ 0 1#32).released 0 = 0 ∧
    (staleState.unpin () ⟨1#64, true⟩ 0 1#32).bridge.findVictim kNoTenantId = some 0 := by
  have hpc : staleState.pc () = .exchange ⟨1#64, true⟩ 0 1#32 := by decide +kernel
  have hpin : (staleState.bridge.tenants 0).pinCount = 1#32 := by decide +kernel
  refine ⟨System.reachable_after (by decide +kernel), ?_, by decide +kernel⟩
  simp [system, State.step, State.act, hpc, hpin]

end Qtx.TieredReleases
