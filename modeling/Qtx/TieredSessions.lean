import Qtx.BufferJournals
import Qtx.TieredRuns

/-!
# Sessions: the bridge and its clients

Next to the bridge a session keeps, for every record, the spans that were returned and
are not yet matched by a `release`, and the journal of the tenant's bytes since it was
created. Clients write through the spans they hold.
-/
namespace Qtx.TieredArenaBridge
open SpanMemory BufferJournals TransitionSystems FractalArena

variable {c : TieredConfig} {caller : Caller} {b b' : TieredArenaBridge c}

structure Session (c : TieredConfig) where
  bridge : TieredArenaBridge c
  held : ℕ → List Span
  journal : ℕ → List (Entry Byte)

inductive Act
  | call (caller : Caller) (op : Op)
  | write (i : ℕ) (v : Span) (j : ℕ) (value : Byte)

namespace Session

variable (s : Session c)

/-- An acquire that shows bytes adds a span; a successful release matches the oldest. -/
def heldAfter (caller : Caller) : Op → ℕ → List Span
  | .acquire path handle =>
    let v := (s.bridge.acquire path caller handle).1
    match s.bridge.findTenantLocked handle with
    | some i => if v.isEmpty then s.held else Function.update s.held i (s.held i ++ [v])
    | none => s.held
  | .release handle =>
    match s.bridge.findTenantLockfree handle with
    | some i => if (s.bridge.release handle).1 then Function.update s.held i (s.held i).tail else s.held
    | none => s.held
  | _ => s.held

/-- A new tenant begins with an empty journal. -/
def restart (handle : TenantHandle) : ℕ → List (Entry Byte) :=
  match s.bridge.acquireRecord with
  | some i => if handle.isValid then Function.update s.journal i [] else s.journal
  | none => s.journal

/-- An acquire is a read, after a recoding if it brought the tenant back from the cold
tier. -/
def journalAfter (caller : Caller) : Op → ℕ → List (Entry Byte)
  | .createTenant => s.restart (s.bridge.createTenant caller).1
  | .createMicroTenant => s.restart (s.bridge.createMicroTenant caller).1
  | .acquire path handle =>
    let (v, b) := s.bridge.acquire path caller handle
    match s.bridge.findTenantLocked handle with
    | some i =>
      let promoted := if (s.bridge.tenants i).state = .kInCold ∧
        (b.tenants i).state = .kInHot then [.recode] else []
      Function.update s.journal i (s.journal i ++ promoted ++ if v.isEmpty then [] else [.read])
    | none => s.journal
  | _ => s.journal

def call (caller : Caller) (op : Op) : Session c :=
  ⟨s.bridge.call caller op, s.heldAfter caller op, s.journalAfter caller op⟩

def write (i : ℕ) (v : Span) (j : ℕ) (value : Byte) : Session c where
  bridge := { s.bridge with hot := s.bridge.hot.write v j value }
  held := s.held
  journal := Function.update s.journal i (s.journal i ++ [.write j value])

/-- A write needs a span that is held. -/
def step (s : Session c) : Act → Option (Session c)
  | .call caller op => some (s.call caller op)
  | .write i v j value => if v ∈ s.held i ∧ j < v.length then some (s.write i v j value) else none

end Session

def sessions (c : TieredConfig) : System (Session c) Act :=
  ⟨⟨.new c, fun _ => [], fun _ => []⟩, Session.step⟩

@[simp] theorem Session.held_write (s : Session c) (i : ℕ) (v : Span) (j : ℕ) (value : Byte) :
    (s.write i v j value).held = s.held := rfl

theorem step_call (s : Session c) (caller : Caller) (op : Op) :
    (sessions c).step s (.call caller op) = some (s.call caller op) := rfl

theorem step_write {s : Session c} {i j : ℕ} {v : Span} {value : Byte} (hv : v ∈ s.held i) (hj : j < v.length) :
    (sessions c).step s (.write i v j value) = some (s.write i v j value) :=
  if_pos ⟨hv, hj⟩

/-- The spans held are the regions of their tenants, one for each pin. -/
structure Holds (b : TieredArenaBridge c) (held : ℕ → List Span) : Prop where
  count : ∀ i, (b.tenants i).inUse = true → (held i).length = (b.tenants i).pinCount.toNat
  free : ∀ i, (b.tenants i).inUse = false → held i = []
  region : ∀ i, ∀ v ∈ held i, v = hotRegion c (b.tenants i)

section Holding

variable {held : ℕ → List Span} {i : ℕ}

theorem Holds.pinned (hh : Holds b held) {v : Span} (hv : v ∈ held i) :
    (b.tenants i).inUse = true ∧ (b.tenants i).pinCount ≠ 0#32 := by
  have hu : (b.tenants i).inUse = true := by
    by_contra hf
    rw [hh.free i (Bool.eq_false_iff.mpr hf)] at hv
    cases hv
  refine ⟨hu, fun hz => ?_⟩
  have hlen := hh.count i hu
  rw [hz, BitVec.toNat_zero, List.length_eq_zero_iff] at hlen
  rw [hlen] at hv
  cases hv

theorem Holds.hot (hh : Holds b held) (h : Invariant b) {v : Span} (hv : v ∈ held i) :
    (b.tenants i).state = .kInHot := by
  obtain ⟨hu, hne⟩ := hh.pinned hv
  exact (h.records i hu).state_hot (mt (h.unpinned_of_cold hu) hne)

theorem forall_unpinned_setTenant (b : TieredArenaBridge c) {r : TenantRecord} {k : ℕ}
    (hr : k = i → r.inUse = true → r.pinCount = 0#32)
    (hk : (b.tenants k).inUse = true → (b.tenants k).pinCount = 0#32) :
    ((b.setTenant i r).tenants k).inUse = true → ((b.setTenant i r).tenants k).pinCount = 0#32 := by
  by_cases hki : k = i
  · subst hki
    rw [tenants_setTenant_self]
    exact hr rfl
  · rw [tenants_setTenant_of_ne hki]
    exact hk

/-- Only a touch pins a record. -/
theorem Step.unpinned {ev : Event} (hs : Step caller b ev b') (htouch : ∀ i, ev ≠ .touched i)
    (hp : (b.tenants i).inUse = true → (b.tenants i).pinCount = 0#32) :
    (b'.tenants i).inUse = true → (b'.tenants i).pinCount = 0#32 := by
  cases hs with
  | counters => exact hp
  | hotQuiet => exact hp
  | coldQuiet => exact hp
  | idle _ still =>
    exact forall_unpinned_setTenant b (fun _ hu => absurd (hu.symm.trans still) (by decide)) hp
  | evict used live unpinned => exact forall_unpinned_setTenant b (fun _ _ => unpinned) hp
  | promote used live => exact forall_unpinned_setTenant b (fun _ _ => live.unpinned) hp
  | create => exact forall_unpinned_setTenant b (fun _ _ => rfl) hp
  | createMicro => exact forall_unpinned_setTenant b (fun _ _ => rfl) hp
  | openShared => exact hp
  | closeShared => exact hp
  | destroyHot => exact forall_unpinned_setTenant b (fun _ hu => nomatch hu) hp
  | destroyCold => exact forall_unpinned_setTenant b (fun _ hu => nomatch hu) hp
  | destroyMicro => exact forall_unpinned_setTenant b (fun _ hu => nomatch hu) hp
  | touch => exact absurd rfl (htouch _)

/-- A change that pins nobody and destroys nobody who is pinned is about no holder. -/
theorem Step.subject_ne {ev : Event} (hs : Step caller b ev b') (htouch : ∀ i, ev ≠ .touched i)
    (hdestroy : ∀ i, ev = .destroyed i → (b.tenants i).pinCount = 0#32)
    (used : (b.tenants i).inUse = true) (pinned : (b.tenants i).pinCount ≠ 0#32) : ev.subject ≠ some i := by
  rintro heq
  cases ev with
  | scratch => cases heq
  | shared => cases heq
  | evicted k =>
    cases heq
    exact hs.not_anchored (.inr (.inl pinned))
  | promoted k =>
    cases heq
    cases hs with
    | promote _ live => exact pinned live.unpinned
  | created k =>
    cases heq
    cases hs with
    | create _ _ free => exact absurd (used.symm.trans free) (by decide)
    | createMicro _ _ free => exact absurd (used.symm.trans free) (by decide)
  | destroyed k =>
    cases heq
    exact pinned (hdestroy i rfl)
  | touched k => exact htouch k rfl

theorem Step.holds {ev : Event} (hs : Step caller b ev b') (h : Invariant b) (hh : Holds b held)
    (htouch : ∀ i, ev ≠ .touched i) (hdestroy : ∀ i, ev = .destroyed i → (b.tenants i).pinCount = 0#32) :
    Holds b' held := by
  have hkeep : ∀ i, held i ≠ [] → b'.tenants i = b.tenants i := by
    intro i hne
    obtain ⟨v, hv⟩ := List.exists_mem_of_ne_nil _ hne
    obtain ⟨hu, hp⟩ := hh.pinned hv
    exact (hs.kept h hu (hs.subject_ne htouch hdestroy hu hp)).record
  have hnil : ∀ i, held i = [] → (b'.tenants i).inUse = true → (b'.tenants i).pinCount = 0#32 := by
    intro i hi
    refine hs.unpinned htouch (fun hu => ?_)
    have hlen := hh.count i hu
    rw [hi] at hlen
    exact BitVec.eq_of_toNat_eq hlen.symm
  refine ⟨?_, ?_, ?_⟩
  · intro i hu
    by_cases hi : held i = []
    · rw [hi, hnil i hi hu]
      rfl
    · rw [hkeep i hi] at hu ⊢
      exact hh.count i hu
  · intro i hf
    by_contra hi
    rw [hkeep i hi] at hf
    exact hi (hh.free i hf)
  · intro i v hv
    rw [hkeep i (List.ne_nil_of_mem hv)]
    exact hh.region i v hv

theorem Upkeep.holds (hu : Upkeep caller b b') (h : Invariant b) (hh : Holds b held) : Holds b' held := by
  induction hu with
  | refl => exact hh
  | @tail ev b₁ b₂ past next kind ih =>
    refine next.holds (past.invariant h) ih ?_ ?_
    · rintro i rfl
      exact kind
    · rintro i rfl
      exact kind.elim

theorem Ready.holds {k : ℕ} (hr : Ready caller b k b') (h : Invariant b) (hh : Holds b held) : Holds b' held := by
  cases hr with
  | already => exact hh
  | promoted _ upkeep next =>
    exact next.holds (upkeep.invariant h) (upkeep.holds h hh) (fun i hf => nomatch hf) (fun i hf => nomatch hf)

/-- A touch goes with one more or one fewer span of the same tenant. -/
theorem Step.holds_touched (hs : Step caller b (.touched i) b') (hh : Holds b held) {vs : List Span}
    (pinCount : BitVec 32) (accessTime : BitVec 64) (sealed : Bool)
    (record : b'.tenants i = { b.tenants i with pinCount := pinCount, accessTime := accessTime, sealed := sealed })
    (hlen : vs.length = pinCount.toNat) (hvs : ∀ v ∈ vs, v = hotRegion c (b.tenants i)) :
    Holds b' (Function.update held i vs) := by
  have hother : ∀ k, k ≠ i → b'.tenants k = b.tenants k ∧ Function.update held i vs k = held k := by
    intro k hk
    refine ⟨?_, Function.update_of_ne hk ..⟩
    cases hs with
    | touch => exact tenants_setTenant_of_ne hk
  have hused : (b.tenants i).inUse = true := by
    cases hs with
    | touch _ _ _ _ used => exact used
  refine ⟨?_, ?_, ?_⟩
  · intro k hu
    by_cases hk : k = i
    · subst hk
      rw [Function.update_self, record, hlen]
    · rw [(hother k hk).1] at hu ⊢
      rw [(hother k hk).2]
      exact hh.count k hu
  · intro k hf
    by_cases hk : k = i
    · subst hk
      rw [record] at hf
      exact absurd (hused.symm.trans hf) (by decide)
    · rw [(hother k hk).1] at hf
      rw [(hother k hk).2]
      exact hh.free k hf
  · intro k v hv
    by_cases hk : k = i
    · subst hk
      rw [Function.update_self] at hv
      rw [hvs v hv, record]
      rfl
    · rw [(hother k hk).2] at hv
      rw [(hother k hk).1]
      exact hh.region k v hv

end Holding

/-- No pinned tenant is destroyed, and `acquireFP32` is kept for full-slot tenants. -/
def Careful (s : Session c) (a : Act) : Prop :=
  (∀ caller handle i, a = .call caller (.destroyTenant handle) → s.bridge.findTenantLocked handle = some i →
    (s.bridge.tenants i).pinCount = 0#32) ∧
  ∀ caller handle i, a = .call caller (.acquire .acquireFP32 handle) →
    s.bridge.findTenantLocked handle = some i → (s.bridge.tenants i).kind = .kFullSlot

theorem AcquirePath.region_eq {path : AcquirePath} {r : TenantRecord} (admitted : path.Admits r.kind)
    (full : path = .acquireFP32 → r.kind = .kFullSlot) : path.region c r = hotRegion c r := by
  cases path with
  | acquireFP32 => simp only [AcquirePath.region, hotRegion, full rfl]
  | acquireMicroFP32 => simp only [AcquirePath.region, hotRegion, show r.kind = .kMicro from admitted]

/-- What a careful acquire shows is the region of its tenant. -/
theorem Careful.region_eq {s : Session c} {path : AcquirePath} {handle : TenantHandle} {i : ℕ}
    {b₁ : TieredArenaBridge c} (careful : Careful s (.call caller (.acquire path handle)))
    (found : s.bridge.findTenantLocked handle = some i) (admitted : path.Admits (s.bridge.tenants i).kind)
    (ready : Ready caller s.bridge i b₁) : path.region c (b₁.tenants i) = hotRegion c (b₁.tenants i) := by
  obtain ⟨-, used, -⟩ := findTenantLocked_some found
  have hkind := ((ready.sameTenants i).2 used).2.1
  refine AcquirePath.region_eq (by rw [hkind]; exact admitted) ?_
  rintro rfl
  rw [hkind]
  exact careful.2 caller handle i rfl found

theorem heldAfter_of_failed (s : Session c) (caller : Caller) {path : AcquirePath} {handle : TenantHandle}
    (h : (s.bridge.acquire path caller handle).1.isEmpty = true) :
    s.heldAfter caller (.acquire path handle) = s.held := by
  simp only [Session.heldAfter, h, if_true]
  cases s.bridge.findTenantLocked handle with
  | none => rfl
  | some i => rfl

theorem heldAfter_of_shown (s : Session c) (caller : Caller) {path : AcquirePath} {handle : TenantHandle} {i : ℕ}
    (found : s.bridge.findTenantLocked handle = some i)
    (h : (s.bridge.acquire path caller handle).1.isEmpty = false) :
    s.heldAfter caller (.acquire path handle) =
      Function.update s.held i (s.held i ++ [(s.bridge.acquire path caller handle).1]) := by
  simp only [Session.heldAfter, found, h, Bool.false_eq_true, if_false]

theorem holds_acquire {s : Session c} (h : Invariant s.bridge) (hh : Holds s.bridge s.held) (caller : Caller)
    (path : AcquirePath) (handle : TenantHandle) (careful : Careful s (.call caller (.acquire path handle))) :
    Holds (s.bridge.acquire path caller handle).2 (s.heldAfter caller (.acquire path handle)) := by
  have ho := acquire_outcome h caller path handle
  generalize hres : s.bridge.acquire path caller handle = res at ho
  cases ho with
  | failed upkeep =>
    rw [heldAfter_of_failed s caller (by rw [hres]; rfl)]
    exact upkeep.holds h hh
  | @pinned i b₁ b₂ accessTime found admitted ready below next record =>
    have hh₁ := ready.holds h hh
    obtain ⟨-, used, -⟩ := findTenantLocked_some found
    rw [heldAfter_of_shown s caller found (by rw [hres]; exact path.region_isEmpty _), hres]
    refine next.holds_touched hh₁ ((b₁.tenants i).pinCount + 1#32) accessTime (b₁.tenants i).sealed record ?_ ?_
    · rw [List.length_append, hh₁.count i ((ready.sameTenants i).1.trans used), pinned_toNat below]
      rfl
    · intro v hv
      rcases List.mem_append.mp hv with hv | hv
      · exact hh₁.region i v hv
      · rw [List.mem_singleton.mp hv]
        exact careful.region_eq found admitted ready

theorem holds_release {s : Session c} (h : Invariant s.bridge) (hh : Holds s.bridge s.held) (caller : Caller)
    (handle : TenantHandle) : Holds (s.bridge.release handle).2 (s.heldAfter caller (.release handle)) := by
  have ho := release_outcome h caller handle
  simp only [Session.heldAfter, h.findTenantLockfree]
  generalize s.bridge.release handle = res at ho
  cases ho with
  | refused =>
    cases s.bridge.findTenantLocked handle with
    | none => exact hh
    | some i => exact hh
  | @unpinned i b₁ found pinned next record =>
    obtain ⟨-, used, -⟩ := findTenantLocked_some found
    rw [found]
    refine next.holds_touched hh ((s.bridge.tenants i).pinCount - 1#32) (s.bridge.tenants i).accessTime
      (s.bridge.tenants i).sealed record ?_ ?_
    · rw [List.length_tail, hh.count i used, unpinned_toNat pinned]
    · intro v hv
      exact hh.region i v (List.mem_of_mem_tail hv)

theorem holds_sealTenant {s : Session c} (h : Invariant s.bridge) (hh : Holds s.bridge s.held) (caller : Caller)
    (handle : TenantHandle) : Holds (s.bridge.sealTenant handle).2 s.held := by
  have ho := sealTenant_outcome h caller handle
  generalize s.bridge.sealTenant handle = res at ho
  cases ho with
  | missing => exact hh
  | @sealed i b₁ found next record =>
    obtain ⟨-, used, -⟩ := findTenantLocked_some found
    have ht := next.holds_touched hh (s.bridge.tenants i).pinCount (s.bridge.tenants i).accessTime true record
      (hh.count i used) (hh.region i)
    rwa [Function.update_eq_self] at ht

theorem holds_create {kind : TenantKind} {res : TenantHandle × TieredArenaBridge c} {held : ℕ → List Span}
    (ho : CreateOutcome caller b kind res) (h : Invariant b) (hh : Holds b held) : Holds res.2 held := by
  cases ho with
  | failed upkeep => exact upkeep.holds h hh
  | @created i b₁ b₂ b₃ record upkeep opened next kindEq settled =>
    have h₁ := upkeep.invariant h
    have hh₁ := upkeep.holds h hh
    have h₂ : Invariant b₂ ∧ Holds b₂ held := by
      rcases opened with rfl | hopen
      · exact ⟨h₁, hh₁⟩
      · exact ⟨hopen.invariant h₁, hopen.holds h₁ hh₁ (fun i hf => nomatch hf) (fun i hf => nomatch hf)⟩
    exact next.holds h₂.1 h₂.2 (fun i hf => nomatch hf) (fun i hf => nomatch hf)

theorem holds_destroyTenant {s : Session c} (h : Invariant s.bridge) (hh : Holds s.bridge s.held)
    (caller : Caller) (handle : TenantHandle) (careful : Careful s (.call caller (.destroyTenant handle))) :
    Holds (s.bridge.destroyTenant handle).2 s.held := by
  have ho := destroyTenant_outcome h caller handle
  generalize s.bridge.destroyTenant handle = res at ho
  cases ho with
  | missing => exact hh
  | @destroyed i b₁ b₂ found next closed settled =>
    have hh₁ := next.holds h hh (fun i hf => nomatch hf) (fun k hk => by
      cases hk
      exact careful.1 caller handle i rfl found)
    rcases closed with rfl | hclose
    · exact hh₁
    · exact hclose.holds (next.invariant h) hh₁ (fun i hf => nomatch hf) (fun i hf => nomatch hf)

theorem holds_call {s : Session c} (h : Invariant s.bridge) (hh : Holds s.bridge s.held) (caller : Caller) (op : Op)
    (careful : Careful s (.call caller op)) : Holds (s.bridge.call caller op) (s.heldAfter caller op) := by
  cases op with
  | createTenant => exact holds_create (createTenant_outcome h caller) h hh
  | createMicroTenant => exact holds_create (createMicroTenant_outcome h caller) h hh
  | destroyTenant handle => exact holds_destroyTenant h hh caller handle careful
  | acquire path handle => exact holds_acquire h hh caller path handle careful
  | release handle => exact holds_release h hh caller handle
  | sealTenant handle => exact holds_sealTenant h hh caller handle

/-- Writing into the region of a tenant keeps the books. -/
theorem invariant_write (h : Invariant b) {i : ℕ} (used : (b.tenants i).inUse = true)
    (hot : (b.tenants i).state = .kInHot) (j : ℕ) (value : Byte) :
    Invariant { b with hot := b.hot.write (hotRegion c (b.tenants i)) j value } := by
  refine ⟨h.tenants_lt, ?_, h.shared_lt, h.entries, h.bits_lt, h.bits_null, h.hotOwned, h.coldOwned, h.cellsOwned,
    ?_, h.coldClean⟩
  · intro k hk
    exact (h.records k hk).frame (fun hr => hr.valid) (fun hr => hr.valid) (fun hr => hr.frame rfl hr.bit)
  · refine h.hotClean.of_die (fun a ha => ?_)
    have hmem : a ∈ hotRegion c (b.tenants i) := by
      by_contra hne
      exact ha (assign_of_notMem hne)
    exact ⟨_, (validate_iff.mp (h.validate_of_hot used hot)).2.1, h.hotRegion_within used hot a hmem⟩

theorem holds_init (c : TieredConfig) : Holds (new c) (fun _ => []) := by
  refine ⟨fun i hu => (nomatch hu), fun _ _ => rfl, fun i v hv => nomatch hv⟩

/-- Every state that careful clients reach. -/
theorem session_invariant {s : Session c} (hs : (sessions c).Steps Careful (sessions c).init s) :
    Invariant s.bridge ∧ Holds s.bridge s.held := by
  refine hs.preserves (P := fun s => Invariant s.bridge ∧ Holds s.bridge s.held)
    ⟨invariant_new c, holds_init c⟩ ?_
  intro s a s' ih careful next
  obtain ⟨h, hh⟩ := ih
  cases a with
  | call caller op =>
    cases next
    exact ⟨call_invariant h caller op, holds_call h hh caller op careful⟩
  | write i v j value =>
    simp only [sessions, Session.step] at next
    split_ifs at next with hv
    cases next
    rw [Session.write, hh.region i v hv.1]
    exact ⟨invariant_write h (hh.pinned hv.1).1 (hh.hot h hv.1) j value, hh.count, hh.free, hh.region⟩

end Qtx.TieredArenaBridge
