import Qtx.TieredRuns

/-!
# `release` without the lock

Each load and compare-exchange of `release` and of its lookup is one step of the calling
thread; an operation under the mutex is one step. Next to the bridge the model counts,
for the present tenant of every record, the acquires that showed bytes and the releases
that took a pin off.
-/
namespace Qtx.TieredReleases
open SpanMemory TieredArenaBridge TransitionSystems

/-- Where a thread is in `release(h)`; `k` is the record it looks at. -/
inductive Pc where
  | idle
  | inUse (h : TenantHandle) (k : ℕ)
  | tenantId (h : TenantHandle) (k : ℕ)
  | state (h : TenantHandle) (k : ℕ)
  | pinCount (h : TenantHandle) (k : ℕ)
  | exchange (h : TenantHandle) (k : ℕ) (cur : BitVec 32)
  | returning (result : Bool)
  deriving DecidableEq

/-- The record whose `tenant_id` the call has compared with its handle and found equal. -/
def Pc.matched : Pc → Option (TenantHandle × ℕ)
  | .state h k | .pinCount h k | .exchange h k _ => some (h, k)
  | .idle | .inUse _ _ | .tenantId _ _ | .returning _ => none

structure State (c : TieredConfig) (τ : Type*) where
  bridge : TieredArenaBridge c
  pc : τ → Pc
  acquired : ℕ → ℕ
  released : ℕ → ℕ

inductive Label (τ : Type*) where
  | locked (caller : Caller) (op : Op)
  | callRelease (t : τ) (h : TenantHandle)
  | act (t : τ) (spurious : Bool)

/-- The operations that hold the mutex. -/
def isLocked : Op → Bool
  | .release _ => false
  | _ => true

section Model

variable {c : TieredConfig} {τ : Type*} [DecidableEq τ]

/-- The record that an operation creates a tenant in. -/
def created (b : TieredArenaBridge c) (caller : Caller) : Op → Option ℕ
  | .createTenant => if (b.createTenant caller).1.isValid then b.acquireRecord else none
  | .createMicroTenant => if (b.createMicroTenant caller).1.isValid then b.acquireRecord else none
  | _ => none

/-- The record that an operation pins. -/
def gained (b : TieredArenaBridge c) (caller : Caller) : Op → Option ℕ
  | .acquire path handle =>
    if (b.acquire path caller handle).1.isEmpty then none else b.findTenantLocked handle
  | _ => none

/-- The next record of the lookup, or `nullptr`. -/
def scan (c : TieredConfig) (h : TenantHandle) (k : ℕ) : Pc :=
  if k < c.maxTenants then .inUse h k else .returning false

/-- The test of the `while` of `release`. -/
def retry (h : TenantHandle) (k : ℕ) (cur : BitVec 32) : Pc :=
  if cur > 0#32 then .exchange h k cur else .returning false

namespace State

variable (s : State c τ)

def goto (t : τ) (pc : Pc) : State c τ := { s with pc := Function.update s.pc t pc }

def locked (caller : Caller) (op : Op) : State c τ where
  bridge := s.bridge.call caller op
  pc := s.pc
  acquired i := if created s.bridge caller op = some i then 0
    else if gained s.bridge caller op = some i then s.acquired i + 1 else s.acquired i
  released i := if created s.bridge caller op = some i then 0 else s.released i

/-- The winning compare-exchange on the pin count of record `k`. -/
def unpin (t : τ) (h : TenantHandle) (k : ℕ) (cur : BitVec 32) : State c τ :=
  { s.goto t (.returning true) with
    bridge := s.bridge.setTenant k { s.bridge.tenants k with pinCount := cur - 1#32 }
    released := if (s.bridge.tenants k).inUse ∧ (s.bridge.tenants k).tenantId = h.tenantId
      then Function.update s.released k (s.released k + 1) else s.released }

def act (t : τ) (spurious : Bool) : Option (State c τ) :=
  match s.pc t with
  | .idle => none
  | .inUse h k =>
    some (s.goto t (if (s.bridge.tenants k).inUse then .tenantId h k else scan c h (k + 1)))
  | .tenantId h k =>
    some (s.goto t (if (s.bridge.tenants k).tenantId = h.tenantId then .state h k else scan c h (k + 1)))
  | .state h k =>
    some (s.goto t (if (s.bridge.tenants k).state ≠ .kDead then .pinCount h k else scan c h (k + 1)))
  | .pinCount h k => some (s.goto t (retry h k (s.bridge.tenants k).pinCount))
  | .exchange h k cur =>
    if (s.bridge.tenants k).pinCount = cur ∧ spurious = false then some (s.unpin t h k cur)
    else some (s.goto t (retry h k (s.bridge.tenants k).pinCount))
  | .returning _ => some (s.goto t .idle)

/-- The two reserved ids are refused before the lookup. -/
def step (s : State c τ) : Label τ → Option (State c τ)
  | .locked caller op => if isLocked op then some (s.locked caller op) else none
  | .callRelease t h =>
    if s.pc t = .idle then
      some (s.goto t (if h.tenantId = kNoTenantId ∨ h.tenantId = 0#64 then .returning false else scan c h 0))
    else none
  | .act t spurious => s.act t spurious

end State

def system (c : TieredConfig) (τ : Type*) [DecidableEq τ] : System (State c τ) (Label τ) where
  init := ⟨.new c, fun _ => .idle, fun _ => 0, fun _ => 0⟩
  step := State.step

/-- No tenant is created in a record that a `release` in flight has already matched. -/
def NoReuse (s : State c τ) : Label τ → Prop
  | .locked caller op => ∀ t, ∀ p ∈ (s.pc t).matched, created s.bridge caller op ≠ some p.2
  | .callRelease _ _ | .act _ _ => True

instance [Fintype τ] (s : State c τ) : ∀ l, Decidable (NoReuse s l)
  | .locked caller op =>
    inferInstanceAs (Decidable (∀ t, ∀ p ∈ (s.pc t).matched, created s.bridge caller op ≠ some p.2))
  | .callRelease _ _ => .isTrue trivial
  | .act _ _ => .isTrue trivial

end Model

/-! ## A call that runs alone

Uninterrupted and without spurious failures, the atomic steps of a call compute the
sequential `release`. -/

section Solo

variable {c : TieredConfig} {τ : Type*} [DecidableEq τ] {s : State c τ} {t : τ} {h : TenantHandle}

/-- The three tests of the lookup on record `k`. -/
def isMatch (b : TieredArenaBridge c) (h : TenantHandle) (k : ℕ) : Bool :=
  (b.tenants k).inUse && (b.tenants k).tenantId == h.tenantId && (b.tenants k).state ≠ .kDead

@[simp] theorem goto_pc_self (s : State c τ) (t : τ) (pc : Pc) : (s.goto t pc).pc t = pc := by
  simp [State.goto]

@[simp] theorem goto_bridge (s : State c τ) (t : τ) (pc : Pc) : (s.goto t pc).bridge = s.bridge := rfl

@[simp] theorem goto_goto (s : State c τ) (t : τ) (pc pc' : Pc) : (s.goto t pc).goto t pc' = s.goto t pc' := by
  simp [State.goto]

private theorem solo_step {s' : State c τ} (next : s.act t false = some s') :
    (system c τ).Steps (fun _ l => l = .act t false) s s' :=
  .snoc .refl rfl next

private theorem solo_record {k : ℕ} (hpc : s.pc t = .inUse h k) :
    (system c τ).Steps (fun _ l => l = .act t false) s
      (s.goto t (if isMatch s.bridge h k then .pinCount h k else scan c h (k + 1))) := by
  have first : s.act t false =
      some (s.goto t (if (s.bridge.tenants k).inUse then .tenantId h k else scan c h (k + 1))) := by
    simp only [State.act, hpc]
  cases hused : (s.bridge.tenants k).inUse with
  | false => simpa [isMatch, hused] using solo_step first
  | true =>
    rw [hused, if_pos rfl] at first
    by_cases hid : (s.bridge.tenants k).tenantId = h.tenantId
    · have second : (s.goto t (.tenantId h k)).act t false = some (s.goto t (.state h k)) := by
        simp [State.act, hid]
      have third : (s.goto t (.state h k)).act t false =
          some (s.goto t (if isMatch s.bridge h k then .pinCount h k else scan c h (k + 1))) := by
        cases hstate : (s.bridge.tenants k).state <;> simp [State.act, isMatch, hused, hid, hstate]
      exact ((solo_step first).snoc rfl second).snoc rfl third
    · have second : (s.goto t (.tenantId h k)).act t false = some (s.goto t (scan c h (k + 1))) := by
        simp [State.act, hid]
      simpa [isMatch, hid] using (solo_step first).snoc rfl second

private theorem solo_scan (m : ℕ) : ∀ (s : State c τ) (k : ℕ), k + m = c.maxTenants → s.pc t = scan c h k →
    (system c τ).Steps (fun _ l => l = .act t false) s
      (s.goto t (match (List.range' k m).find? (isMatch s.bridge h) with
        | some i => .pinCount h i
        | none => .returning false)) := by
  induction m with
  | zero =>
    intro s k hk hpc
    have hself : s.goto t (.returning false) = s := by
      rw [scan, if_neg (by omega)] at hpc
      simp [State.goto, ← hpc]
    simpa [hself] using System.Steps.refl
  | succ m ih =>
    intro s k hk hpc
    rw [scan, if_pos (by omega)] at hpc
    have hrecord := solo_record hpc
    rw [List.range'_succ, List.find?_cons]
    cases hm : isMatch s.bridge h k with
    | true => simpa [hm] using hrecord
    | false =>
      simp only [hm, Bool.false_eq_true, if_false] at hrecord
      simpa using hrecord.trans (ih _ (k + 1) (by omega) (goto_pc_self s t _))

private theorem solo_unpin {k : ℕ} (hpc : s.pc t = .pinCount h k) :
    ∃ s', (system c τ).Steps (fun _ l => l = .act t false) s s' ∧
      (s'.pc t, s'.bridge) = if (s.bridge.tenants k).pinCount > 0#32 then (.returning true, s.bridge.setTenant k
          { s.bridge.tenants k with pinCount := (s.bridge.tenants k).pinCount - 1#32 })
        else (.returning false, s.bridge) := by
  have first : s.act t false = some (s.goto t (retry h k (s.bridge.tenants k).pinCount)) := by
    simp only [State.act, hpc]
  by_cases hpos : (s.bridge.tenants k).pinCount > 0#32
  · rw [if_pos hpos]
    rw [retry, if_pos hpos] at first
    have second : (s.goto t (.exchange h k (s.bridge.tenants k).pinCount)).act t false =
        some ((s.goto t (.exchange h k (s.bridge.tenants k).pinCount)).unpin t h k
          (s.bridge.tenants k).pinCount) := by
      simp [State.act]
    exact ⟨_, (solo_step first).snoc rfl second, by simp [State.unpin]⟩
  · rw [if_neg hpos]
    rw [retry, if_neg hpos] at first
    exact ⟨_, solo_step first, by simp⟩

/-- A whole call without interference does what `release` computes. -/
theorem release_solo (hpc : s.pc t = .idle) (h : TenantHandle) :
    ∃ s', (system c τ).Steps (fun _ l => l = .callRelease t h ∨ l = .act t false) s s' ∧
      (s'.pc t, s'.bridge) = (.returning (s.bridge.release h).1, (s.bridge.release h).2) := by
  have start : (system c τ).step s (.callRelease t h) = some (s.goto t
      (if h.tenantId = kNoTenantId ∨ h.tenantId = 0#64 then .returning false else scan c h 0)) := by
    simp only [system, State.step, hpc, if_true]
  have called : (system c τ).Steps (fun _ l => l = .callRelease t h ∨ l = .act t false) s _ :=
    .snoc .refl (.inl rfl) start
  unfold release
  by_cases hid : h.tenantId = kNoTenantId ∨ h.tenantId = 0#64
  · rw [if_pos hid] at called
    rw [findTenantLockfree, if_pos hid]
    exact ⟨_, called, by simp⟩
  · have hfind : s.bridge.findTenantLockfree h = (List.range c.maxTenants).find? (isMatch s.bridge h) := if_neg hid
    have scanned := solo_scan c.maxTenants (s.goto t (scan c h 0)) 0 (Nat.zero_add _) (goto_pc_self s t _)
    rw [goto_bridge, goto_goto, ← List.range_eq_range'] at scanned
    rw [if_neg hid] at called
    rw [hfind]
    cases hf : (List.range c.maxTenants).find? (isMatch s.bridge h) with
    | none =>
      rw [hf] at scanned
      exact ⟨_, called.trans (scanned.mono (fun _ _ => .inr)), by simp⟩
    | some k =>
      rw [hf] at scanned
      obtain ⟨s', unpinned, hs'⟩ := solo_unpin (goto_pc_self s t (.pinCount h k))
      refine ⟨s', called.trans ((scanned.trans unpinned).mono (fun _ _ => .inr)), ?_⟩
      rw [hs', goto_bridge]
      dsimp only
      split_ifs <;> rfl

end Solo

end Qtx.TieredReleases
