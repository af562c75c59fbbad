import Qtx.TieredOperations
import Qtx.TransitionSystems

/-!
# Whole runs of the bridge

Any operation may follow any other, with any handle, thread and codec.
-/
namespace Qtx.TieredArenaBridge
open SpanMemory OwnershipTables TransitionSystems FractalArena

variable {c : TieredConfig} {caller : Caller} {b b' : TieredArenaBridge c}

inductive Op
  | createTenant
  | createMicroTenant
  | destroyTenant (handle : TenantHandle)
  | acquire (path : AcquirePath) (handle : TenantHandle)
  | release (handle : TenantHandle)
  | sealTenant (handle : TenantHandle)

/-- The bridge after an operation. -/
def call (b : TieredArenaBridge c) (caller : Caller) : Op → TieredArenaBridge c
  | .createTenant => (b.createTenant caller).2
  | .createMicroTenant => (b.createMicroTenant caller).2
  | .destroyTenant handle => (b.destroyTenant handle).2
  | .acquire path handle => (b.acquire path caller handle).2
  | .release handle => (b.release handle).2
  | .sealTenant handle => (b.sealTenant handle).2

theorem Ready.changes {i : ℕ} (hr : Ready caller b i b') :
    Changes caller (fun ev => ev.isUpkeep ∨ ev = .promoted i) b b' := by
  cases hr with
  | already => exact .refl
  | promoted _ upkeep next => exact .tail (upkeep.mono (fun _ => .inl)) next (.inr rfl)

theorem Step.sharedSlots_of_touched {i : ℕ} (hs : Step caller b (.touched i) b') :
    b'.sharedSlots = b.sharedSlots := by
  cases hs with
  | touch => rfl

theorem Ready.sharedSlots {i : ℕ} (hr : Ready caller b i b') : b'.sharedSlots = b.sharedSlots := by
  cases hr with
  | already => rfl
  | promoted _ upkeep next =>
    cases next with
    | promote => exact upkeep.sharedSlots

theorem SameTenants.findTenantLocked (h : SameTenants b b') (handle : TenantHandle) :
    b'.findTenantLocked handle = b.findTenantLocked handle := by
  unfold TieredArenaBridge.findTenantLocked
  congr 2
  funext k
  rw [(h k).1]
  cases hu : (b.tenants k).inUse with
  | false => rfl
  | true => rw [((h k).2 hu).1]

theorem Ready.sameTenants {i : ℕ} (hr : Ready caller b i b') : SameTenants b b' := by
  refine hr.changes.sameTenants ?_
  rintro ev (hev | rfl)
  · exact hev.keepsTenants
  · trivial

theorem Ready.invariant {i : ℕ} (hr : Ready caller b i b') (h : Invariant b) : Invariant b' :=
  hr.changes.invariant h

theorem Ready.hot {i : ℕ} (hr : Ready caller b i b') : (b'.tenants i).state = .kInHot := by
  cases hr with
  | already hot => exact hot
  | promoted _ _ next => exact next.promoted_record.2.1

/-- Making one tenant ready leaves an anchored one alone. -/
theorem Ready.kept {i k : ℕ} (hr : Ready caller b i b') (h : Invariant b) (hki : k ≠ i)
    (used : (b.tenants k).inUse = true) (anchored : Anchored (b.tenants k)) : Kept b b' k := by
  refine hr.changes.kept h used anchored ?_
  rintro ev (hev | rfl) hsub
  · exact hev.about hsub
  · exact absurd (Option.some.inj hsub).symm hki

theorem pinned_toNat {pinCount : BitVec 32} (h : pinCount < kPinCountSoftMax) :
    (pinCount + 1#32).toNat = pinCount.toNat + 1 := by
  have hlt : pinCount.toNat < 2 ^ 31 := h
  rw [BitVec.toNat_add, BitVec.toNat_ofNat, Nat.mod_eq_of_lt (by omega : 1 < 2 ^ 32)]
  exact Nat.mod_eq_of_lt (by omega)

theorem unpinned_toNat {pinCount : BitVec 32} (h : pinCount ≠ 0#32) :
    (pinCount - 1#32).toNat = pinCount.toNat - 1 := by
  have hpos : 0 < pinCount.toNat := Nat.pos_of_ne_zero (fun hz => h (BitVec.eq_of_toNat_eq hz))
  exact BitVec.toNat_sub_of_le hpos

theorem pinned_ne_zero {pinCount : BitVec 32} (h : pinCount < kPinCountSoftMax) : pinCount + 1#32 ≠ 0#32 := by
  intro heq
  have hnat := pinned_toNat h
  rw [heq] at hnat
  cases hnat

/-- The tenant that an operation is asked for. -/
def Op.target (op : Op) (b : TieredArenaBridge c) : Option ℕ :=
  match op with
  | .createTenant | .createMicroTenant => none
  | .destroyTenant handle | .acquire _ handle | .release handle | .sealTenant handle => b.findTenantLocked handle

/-- The events that an operation from one state to another may consist of. -/
def Op.MayCause (op : Op) (b b' : TieredArenaBridge c) : Event → Prop
  | .scratch | .shared | .evicted _ => True
  | .created i => (b.tenants i).inUse = false ∧ (b'.tenants i).inUse = true
  | .promoted i | .destroyed i | .touched i => op.target b = some i

theorem Event.isUpkeep.mayCause {ev : Event} (h : ev.isUpkeep) (op : Op) : op.MayCause b b' ev := by
  cases ev with
  | scratch => trivial
  | evicted => trivial
  | _ => exact h.elim

theorem Step.used_of_created {i : ℕ} (hs : Step caller b (.created i) b') : (b'.tenants i).inUse = true := by
  cases hs with
  | create => rw [tenants_setTenant_self]
  | createMicro => rw [tenants_setTenant_self]

/-- What an operation comes to. -/
inductive CallOutcome (caller : Caller) (b : TieredArenaBridge c) (op : Op) : TieredArenaBridge c → Prop
  | upkeep {b₁} (upkeep : Upkeep caller b b₁) : CallOutcome caller b op b₁
  | created {i b₁ b₂ b₃} (creates : op.target b = none) (record : b.acquireRecord = some i)
      (upkeep : Upkeep caller b b₁) (opened : b₂ = b₁ ∨ Step caller b₁ .shared b₂)
      (next : Step caller b₂ (.created i) b₃) (settled : Settled b → Settled b₃) : CallOutcome caller b op b₃
  | destroyed {handle i b₁ b₂} (destroys : op = .destroyTenant handle)
      (found : b.findTenantLocked handle = some i) (next : Step caller b (.destroyed i) b₁)
      (closed : b₂ = b₁ ∨ Step caller b₁ .shared b₂) (settled : Settled b → Settled b₂) :
      CallOutcome caller b op b₂
  | touched {i b₁ b₂} (found : op.target b = some i) (ready : b₁ = b ∨ Ready caller b i b₁)
      (next : Step caller b₁ (.touched i) b₂) : CallOutcome caller b op b₂

theorem CreateOutcome.call {kind : TenantKind} {res : TenantHandle × TieredArenaBridge c} {op : Op}
    (ho : CreateOutcome caller b kind res) (creates : op.target b = none) : CallOutcome caller b op res.2 := by
  cases ho with
  | failed upkeep => exact .upkeep upkeep
  | created record upkeep opened next kindEq settled => exact .created creates record upkeep opened next settled

theorem call_outcome (h : Invariant b) (caller : Caller) (op : Op) :
    CallOutcome caller b op (b.call caller op) := by
  cases op with
  | createTenant => exact (createTenant_outcome h caller).call rfl
  | createMicroTenant => exact (createMicroTenant_outcome h caller).call rfl
  | destroyTenant handle =>
    simp only [call]
    have ho := destroyTenant_outcome h caller handle
    generalize b.destroyTenant handle = res at ho
    cases ho with
    | missing => exact .upkeep .refl
    | destroyed found next closed settled => exact .destroyed rfl found next closed settled
  | acquire path handle =>
    simp only [call]
    have ho := acquire_outcome h caller path handle
    generalize b.acquire path caller handle = res at ho
    cases ho with
    | failed upkeep => exact .upkeep upkeep
    | pinned found admitted ready below next record => exact .touched found (.inr ready) next
  | release handle =>
    simp only [call]
    have ho := release_outcome h caller handle
    generalize b.release handle = res at ho
    cases ho with
    | refused => exact .upkeep .refl
    | unpinned found pinned next record => exact .touched found (.inl rfl) next
  | sealTenant handle =>
    simp only [call]
    have ho := sealTenant_outcome h caller handle
    generalize b.sealTenant handle = res at ho
    cases ho with
    | missing => exact .upkeep .refl
    | sealed found next record => exact .touched found (.inl rfl) next

/-- Every operation is a chain of elementary changes about the tenant it is asked for or
the one it creates, evictions aside. -/
theorem call_changes (h : Invariant b) (caller : Caller) (op : Op) :
    Changes caller (op.MayCause b (b.call caller op)) b (b.call caller op) := by
  have ho := call_outcome h caller op
  generalize b.call caller op = b' at ho
  cases ho with
  | upkeep upkeep => exact upkeep.mono (fun _ hev => hev.mayCause op)
  | @created i b₁ b₂ _ creates record upkeep opened next settled =>
    have hup : Changes caller (op.MayCause b b') b b₁ := upkeep.mono (fun _ hev => hev.mayCause op)
    have hev : op.MayCause b b' (.created i) := ⟨(acquireRecord_some record).2, next.used_of_created⟩
    rcases opened with rfl | hopen
    · exact .tail hup next hev
    · exact .tail (.tail hup hopen trivial) next hev
  | @destroyed handle i b₁ _ destroys found next closed settled =>
    subst destroys
    have hfirst : Changes caller ((Op.destroyTenant handle).MayCause b b') b b₁ := .tail .refl next found
    rcases closed with rfl | hclose
    · exact hfirst
    · exact .tail hfirst hclose trivial
  | @touched i b₁ _ found ready next =>
    rcases ready with rfl | ready
    · exact .tail .refl next found
    · refine .tail (ready.changes.mono ?_) next found
      rintro ev (hev | rfl)
      · exact hev.mayCause op
      · exact found

theorem call_invariant (h : Invariant b) (caller : Caller) (op : Op) : Invariant (b.call caller op) :=
  (call_changes h caller op).invariant h

/-- No operation leaves an empty shared slot behind. -/
theorem call_settled (h : Invariant b) (caller : Caller) (op : Op) (hs : Settled b) :
    Settled (b.call caller op) := by
  have ho := call_outcome h caller op
  generalize b.call caller op = b' at ho
  cases ho with
  | upkeep upkeep => exact hs.congr upkeep.sharedSlots
  | created _ _ _ _ _ settled => exact settled hs
  | destroyed _ _ _ _ settled => exact settled hs
  | touched _ ready next =>
    rcases ready with rfl | ready
    · exact hs.congr next.sharedSlots_of_touched
    · exact hs.congr (next.sharedSlots_of_touched.trans ready.sharedSlots)

/-- A hot tenant that has stayed where it was, whatever happened to its pins, and that
has kept its seal. -/
structure Stayed (b b' : TieredArenaBridge c) (i : ℕ) : Prop where
  record : ∃ pinCount accessTime sealed, ((b.tenants i).sealed = true → sealed = true) ∧
    b'.tenants i = { b.tenants i with pinCount := pinCount, accessTime := accessTime, sealed := sealed }
  die : ∀ a ∈ hotRegion c (b.tenants i), b'.hot.die a = b.hot.die a

theorem Kept.stayed {i : ℕ} (h : Kept b b' i) (hot : (b.tenants i).state = .kInHot) : Stayed b b' i :=
  ⟨⟨_, _, _, id, h.record⟩, h.hot hot⟩

theorem Step.stayed_of_touched {i : ℕ} (hs : Step caller b (.touched i) b') : Stayed b b' i := by
  cases hs with
  | touch monotonicClock pinCount accessTime sealed used cold keeps =>
    exact ⟨⟨pinCount, accessTime, sealed, keeps, tenants_setTenant_self ..⟩, fun _ _ => rfl⟩

/-- An operation that is not asked for an anchored tenant leaves it alone. -/
theorem call_kept (h : Invariant b) (caller : Caller) (op : Op) {i : ℕ} (used : (b.tenants i).inUse = true)
    (anchored : Anchored (b.tenants i)) (other : op.target b ≠ some i) : Kept b (b.call caller op) i := by
  refine (call_changes h caller op).kept h used anchored ?_
  intro ev hev hsub
  cases ev with
  | scratch => cases hsub
  | shared => cases hsub
  | evicted k => exact .inl (congrArg Event.evicted (Option.some.inj hsub))
  | created k => exact .inr (congrArg Event.created (Option.some.inj hsub))
  | promoted k => exact absurd (Eq.trans hev hsub) other
  | destroyed k => exact absurd (Eq.trans hev hsub) other
  | touched k => exact absurd (Eq.trans hev hsub) other

/-- No operation moves a pinned or sealed tenant or changes its bytes, except its
destruction. -/
theorem call_stayed (h : Invariant b) (caller : Caller) (op : Op) {i : ℕ} (used : (b.tenants i).inUse = true)
    (hot : (b.tenants i).state = .kInHot) (anchored : Anchored (b.tenants i))
    (alive : ∀ handle, op = .destroyTenant handle → b.findTenantLocked handle ≠ some i) :
    Stayed b (b.call caller op) i := by
  by_cases htarget : op.target b = some i
  · have ho := call_outcome h caller op
    generalize b.call caller op = b' at ho
    cases ho with
    | upkeep upkeep => exact (upkeep.kept h used anchored).stayed hot
    | created creates => exact absurd (creates.symm.trans htarget) (by simp)
    | destroyed destroys found =>
      subst destroys
      exact absurd htarget (alive _ rfl)
    | touched found ready next =>
      obtain rfl := Option.some.inj (found.symm.trans htarget)
      rcases ready with rfl | ready
      · exact next.stayed_of_touched
      · cases ready with
        | already => exact next.stayed_of_touched
        | promoted cold => exact absurd (cold.symm.trans hot) (by decide)
  · exact (call_kept h caller op used anchored htarget).stayed hot

def system (c : TieredConfig) : System (TieredArenaBridge c) (Caller × Op) :=
  ⟨.new c, fun b l => some (b.call l.1 l.2)⟩

theorem reachable_invariant (h : (system c).Reachable b) : Invariant b ∧ Settled b := by
  refine h.invariant (P := fun b => Invariant b ∧ Settled b) ⟨invariant_new c, fun e he => nomatch he⟩ ?_
  intro b l b' hb hs
  cases hs
  exact ⟨call_invariant hb.1 l.1 l.2, call_settled hb.1 l.1 l.2 hb.2⟩

theorem reachable_call (h : (system c).Reachable b) (caller : Caller) (op : Op) :
    (system c).Reachable (b.call caller op) :=
  System.Steps.snoc (l := (caller, op)) h trivial rfl

/-- The state after a list of calls. -/
def calls (b : TieredArenaBridge c) (ls : List (Caller × Op)) : TieredArenaBridge c :=
  ls.foldl (fun b l => b.call l.1 l.2) b

theorem reachable_calls (h : (system c).Reachable b) (ls : List (Caller × Op)) :
    (system c).Reachable (b.calls ls) := by
  induction ls generalizing b with
  | nil => exact h
  | cons l ls ih => exact ih (reachable_call h l.1 l.2)

/-- 64 hot slots of 256 bytes over 64 cold slots of 128 bytes. -/
def smallConfig : TieredConfig where
  hot := smallGeometry
  cold := ⟨oneWord, 128, smallGeometry.count_le, by decide, by decide, by decide⟩
  maxTenants := 128
  kCompressedBytes := 72
  maxTenants_pos := by decide
  maxTenants_lt := by decide
  compressed_le := by decide
  int4_le := by decide
  subSlots_le := by decide

/-- The codec of `smallConfig` that keeps every second byte of the first 144. -/
def halvingCaller : Caller where
  mixThreadId := 0
  codec := ⟨fun source _ => (72, (List.range 72).map (fun i => source.getD (2 * i) 0#8)),
    fun source _ => (256, (List.range 256).map (fun i => source.getD (i / 2) 0#8))⟩

end Qtx.TieredArenaBridge
