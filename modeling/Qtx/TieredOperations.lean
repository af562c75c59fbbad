import Qtx.TieredUpkeep

/-!
# The operations as chains of elementary changes

Each operation makes the change it is called for after its upkeep, or fails with the
upkeep done. Together with the lemmas on upkeep, the outcomes here are the only place
where the bodies of the operations are opened.
-/
namespace Qtx.TieredArenaBridge
open SpanMemory OwnershipTables FractalArena

variable {c : TieredConfig} {caller : Caller} {b b' : TieredArenaBridge c}

/-- Shared entries in use have a sub-slot in use. -/
def Settled (b : TieredArenaBridge c) : Prop :=
  ∀ e, (b.sharedSlots e).hotId.isNull = false → (b.sharedSlots e).occupancyBitmap ≠ 0#32

theorem Settled.congr (h : Settled b) (hs : b'.sharedSlots = b.sharedSlots) : Settled b' := by
  rw [Settled, hs]
  exact h

theorem Settled.setShared (h : Settled b) {e : ℕ} {entry : SharedSlotEntry}
    (he : entry.hotId.isNull = false → entry.occupancyBitmap ≠ 0#32) : Settled (b.setShared e entry) :=
  forall_sharedSlots_setShared (P := fun _ x => x.hotId.isNull = false → x.occupancyBitmap ≠ 0#32) he
    (fun k _ => h k)

section Creation

/-- What `createTenant` and `createMicroTenant` come to. -/
inductive CreateOutcome (caller : Caller) (b : TieredArenaBridge c) (kind : TenantKind) :
    TenantHandle × TieredArenaBridge c → Prop
  | failed {b₁} (upkeep : Upkeep caller b b₁) : CreateOutcome caller b kind (invalidHandle, b₁)
  | created {i b₁ b₂ b₃} (record : b.acquireRecord = some i) (upkeep : Upkeep caller b b₁)
      (opened : b₂ = b₁ ∨ Step caller b₁ .shared b₂) (next : Step caller b₂ (.created i) b₃)
      (kindEq : (b₃.tenants i).kind = kind) (settled : Settled b → Settled b₃) :
      CreateOutcome caller b kind (⟨(b₃.tenants i).tenantId, true⟩, b₃)

theorem createTenant_outcome (h : Invariant b) (caller : Caller) :
    CreateOutcome caller b .kFullSlot (b.createTenant caller) := by
  unfold createTenant
  cases hr : b.acquireRecord with
  | none => exact .failed .refl
  | some i =>
    obtain ⟨hlt, hfree⟩ := acquireRecord_some hr
    have hg := hotGrant_allocateHot h caller kNoTenantId
    generalize hres : b.allocateHot caller kNoTenantId = res at hg
    cases hg with
    | @failed b₁ upkeep =>
      exact .failed (upkeep.scratch (.idle (by rw [upkeep.inUse, hfree]) rfl rfl))
    | @granted hotId b₁ hot upkeep taken =>
      dsimp only
      rw [if_neg (by simp [taken.notNull])]
      have hup := upkeep.scratch (.counters (b₁.monotonicClock + 1#64)
        (freshTenantId { b₁ with hot := hot }).2 b₁.nextSharedScanStart b₁.evictions b₁.promotions)
      have hfree' := (hup.inUse i).trans hfree
      have hnext : Step caller _ (.created i) _ :=
        .create (freshTenantId { b₁ with hot := hot }).1 b₁.monotonicClock hfree' hlt taken
      have hout : CreateOutcome caller b .kFullSlot _ := .created hr hup (.inl rfl) hnext
        (by rw [tenants_setTenant_self]) (fun hs => hs.congr hup.sharedSlots)
      rw [tenants_setTenant_self] at hout
      exact hout

theorem getLsbD_kValidBits (c : TieredConfig) (j : ℕ) :
    c.kValidBits.getLsbD j = decide (j < c.kSubSlotsPerSlot) := by
  have hle : c.kSubSlotsPerSlot ≤ 32 := c.subSlots_le
  unfold TieredConfig.kValidBits
  split_ifs with h
  · rw [BitVec.getLsbD_allOnes, Nat.le_antisymm hle h]
  · have hpos := Nat.two_pow_pos c.kSubSlotsPerSlot
    have hlt : 2 ^ c.kSubSlotsPerSlot < 2 ^ 32 := Nat.pow_lt_pow_right (by decide) (Nat.not_le.mp h)
    have hone : 1#32 ≤ BitVec.twoPow 32 c.kSubSlotsPerSlot := by
      rw [BitVec.le_def, BitVec.toNat_twoPow, Nat.mod_eq_of_lt hlt]
      exact hpos
    have hnat : (BitVec.twoPow 32 c.kSubSlotsPerSlot - 1#32).toNat = 2 ^ c.kSubSlotsPerSlot - 1 := by
      rw [BitVec.toNat_sub_of_le hone, BitVec.toNat_twoPow, Nat.mod_eq_of_lt hlt]
      rfl
    rw [← BitVec.testBit_toNat, hnat, Nat.testBit_two_pow_sub_one]

/-- The picked sub-slot is in range and was free, and only its bit is added. -/
theorem pickSubSlot_some {bitmap bitmap' : BitVec 32} {j : ℕ} (h : pickSubSlot c bitmap = some (j, bitmap')) :
    j < c.kSubSlotsPerSlot ∧ bitmap.getLsbD j = false ∧ bitmap' = bitmap ||| BitVec.twoPow 32 j := by
  simp only [pickSubSlot] at h
  split_ifs at h with hfull hmask
  rw [← hmask] at h hfull
  simp only [Option.some.injEq, Prod.mk.injEq] at h
  obtain ⟨rfl, rfl⟩ := h
  have hne : ~~~bitmap &&& c.kValidBits ≠ 0#32 := by
    intro hzero
    refine hfull (BitVec.eq_of_getLsbD_eq (fun k hk => ?_))
    have hm := congrArg (fun x : BitVec 32 => x.getLsbD k) hmask
    have hz := congrArg (fun x : BitVec 32 => x.getLsbD k) hzero
    simp only [BitVec.getLsbD_and, BitVec.getLsbD_not, hk, decide_true, Bool.true_and,
      BitVec.getLsbD_zero] at hm hz
    generalize bitmap.getLsbD k = x at hm hz ⊢
    generalize c.kValidBits.getLsbD k = y at hm hz ⊢
    cases x with
    | false => exact hz.symm
    | true => exact hm
  have hmem := WordBits.mem_ones.mp (WordBits.ctz_mem_ones hne)
  rw [BitVec.getLsbD_and, BitVec.getLsbD_not, getLsbD_kValidBits] at hmem
  simp only [Bool.and_eq_true, decide_eq_true_eq, Bool.not_eq_true'] at hmem
  exact ⟨hmem.2, hmem.1.2, rfl⟩

theorem scanShared_some {scanStart e j : ℕ} {bitmap : BitVec 32} {ks : List ℕ}
    (h : b.scanShared scanStart ks = some (e, j, bitmap)) :
    (b.sharedSlots e).hotId.isNull = false ∧
      pickSubSlot c (b.sharedSlots e).occupancyBitmap = some (j, bitmap) := by
  induction ks with
  | nil => cases h
  | cons k ks ih =>
    simp only [scanShared] at h
    split_ifs at h with hnull
    · exact ih h
    · split at h
      · rename_i subIdx bitmap' hpick
        simp only [Option.some.injEq, Prod.mk.injEq] at h
        obtain ⟨rfl, rfl, rfl⟩ := h
        exact ⟨Bool.eq_false_iff.mpr hnull, hpick⟩
      · exact ih h

theorem findFreeShared_some {e : ℕ} (h : b.findFreeShared = some e) :
    e < c.kMaxSharedSlots ∧ (b.sharedSlots e).hotId.isNull = true := by
  have hp := List.find?_some h
  simp only [Bool.and_eq_true] at hp
  exact ⟨List.mem_range.mp (List.mem_of_find?_eq_some h), hp.1⟩

/-- Only the last value of an entry counts. -/
theorem setShared_hot_setShared (b : TieredArenaBridge c) (e : ℕ) (x y : SharedSlotEntry)
    (hot : FractalArena c.hot) :
    ({ b.setShared e x with hot := hot }.setShared e y : TieredArenaBridge c) =
      { b with hot := hot }.setShared e y := by
  simp only [setShared, Function.update_idem]

theorem or_twoPow_ne_zero (x : BitVec 32) {j : ℕ} (hj : j < 32) : x ||| BitVec.twoPow 32 j ≠ 0#32 := by
  rw [Ne, ← WordBits.ones_eq_empty, WordBits.ones_or_twoPow x hj]
  exact Finset.insert_ne_empty _ _

theorem bindMicro_setShared (b : TieredArenaBridge c) (i e j : ℕ) (entry : SharedSlotEntry) :
    (b.setShared e entry).bindMicro i e j = (⟨b.freshTenantId.1, true⟩, ({ b with
      hot := (b.hot.zeroizeSubSlot (entry.hotId.withSubSlot j) kMicroSlotSize).2
      monotonicClock := b.monotonicClock + 1#64
      nextTenantId := b.freshTenantId.2 }.setShared e entry).setTenant i
        { tenantId := b.freshTenantId.1, pinCount := 0#32, state := .kInHot, accessTime := b.monotonicClock,
          inUse := true, sealed := false, hotId := entry.hotId.withSubSlot j, coldId := .null, kind := .kMicro,
          sharedSlotIdx := e }) := by
  simp only [bindMicro, sharedSlots_setShared_self]
  rfl

/-- `createMicroTenant` takes a free sub-slot of an entry that is open by then. -/
theorem bindMicro_outcome {i e j : ℕ} {b₁ b₂ : TieredArenaBridge c} (record : b.acquireRecord = some i)
    (upkeep : Upkeep caller b b₁) (opened : b₂ = b₁ ∨ Step caller b₁ .shared b₂)
    (free : (b₂.tenants i).inUse = false)
    (entry : (b₂.sharedSlots e).hotId.isNull = false) (subIdx : j < c.kSubSlotsPerSlot)
    (bit : (b₂.sharedSlots e).occupancyBitmap.getLsbD j = false)
    (others : Settled b → ∀ k, k ≠ e → (b₂.sharedSlots k).hotId.isNull = false →
      (b₂.sharedSlots k).occupancyBitmap ≠ 0#32) (tenantId accessTime : BitVec 64) :
    CreateOutcome caller b .kMicro (⟨tenantId, true⟩, ({ b₂ with
      hot := (b₂.hot.zeroizeSubSlot ((b₂.sharedSlots e).hotId.withSubSlot j) kMicroSlotSize).2 }.setShared e
        ⟨(b₂.sharedSlots e).occupancyBitmap ||| BitVec.twoPow 32 j, (b₂.sharedSlots e).hotId⟩).setTenant i
      { tenantId := tenantId, pinCount := 0#32, state := .kInHot, accessTime := accessTime, inUse := true,
        sealed := false, hotId := (b₂.sharedSlots e).hotId.withSubSlot j, coldId := .null, kind := .kMicro,
        sharedSlotIdx := e }) := by
  have hlt := (acquireRecord_some record).1
  have hnext : Step caller b₂ (.created i) _ := .createMicro tenantId accessTime free hlt entry subIdx bit
  have hout : CreateOutcome caller b .kMicro _ := .created record upkeep opened hnext
    (by rw [tenants_setTenant_self]) ?_
  · rw [tenants_setTenant_self] at hout
    exact hout
  · intro hs
    refine forall_sharedSlots_setShared (b := b₂)
      (P := fun _ x => x.hotId.isNull = false → x.occupancyBitmap ≠ 0#32) ?_ (others hs)
    intro _
    exact or_twoPow_ne_zero _ (Nat.lt_of_lt_of_le subIdx c.subSlots_le)

theorem createMicroTenant_outcome (h : Invariant b) (caller : Caller) :
    CreateOutcome caller b .kMicro (b.createMicroTenant caller) := by
  unfold createMicroTenant
  cases hr : b.acquireRecord with
  | none => exact .failed .refl
  | some i =>
    obtain ⟨hlt, hfree⟩ := acquireRecord_some hr
    dsimp only
    generalize hb₀ : ({ b with
      nextSharedScanStart := (b.nextSharedScanStart + 1) % 2 ^ 32 % c.kMaxSharedSlots } :
        TieredArenaBridge c) = b₀
    have hup₀ : Upkeep caller b b₀ := hb₀ ▸ Upkeep.refl.scratch (.counters b.monotonicClock b.nextTenantId
      ((b.nextSharedScanStart + 1) % 2 ^ 32 % c.kMaxSharedSlots) b.evictions b.promotions)
    cases hscan : b₀.scanShared b.nextSharedScanStart (List.range c.kMaxSharedSlots) with
    | some found =>
      obtain ⟨e, j, bitmap⟩ := found
      obtain ⟨hentry, hpick⟩ := scanShared_some hscan
      obtain ⟨hsub, hbit, rfl⟩ := pickSubSlot_some hpick
      simp only [← hup₀.sharedSlots, bindMicro_setShared]
      have hup := hup₀.scratch (.counters (b₀.monotonicClock + 1#64) b₀.freshTenantId.2
        b₀.nextSharedScanStart b₀.evictions b₀.promotions)
      exact bindMicro_outcome hr hup (.inl rfl) ((hup.inUse i).trans hfree) hentry hsub hbit
        (fun hs k _ => hs.congr hup.sharedSlots k) b₀.freshTenantId.1 b₀.monotonicClock
    | none =>
      have hg := hotGrant_allocateHot (hup₀.invariant h) caller kNoTenantId
      generalize hres : b₀.allocateHot caller kNoTenantId = res at hg
      cases hg with
      | @failed b₁ upkeep =>
        have hup₁ : Upkeep caller b b₁ := hup₀.trans upkeep
        exact .failed (Upkeep.scratch (hup₀.trans upkeep) (.idle ((hup₁.inUse i).trans hfree) rfl rfl))
      | @granted fresh b₁ hot upkeep taken =>
        have hup₁ : Upkeep caller b b₁ := hup₀.trans upkeep
        dsimp only
        rw [if_neg (by simp [taken.notNull])]
        cases hfind : findFreeShared { b₁ with hot := hot } with
        | none =>
          have hquiet : Step caller b₁ .scratch { b₁ with hot := (hot.release fresh).2 } :=
            .hotQuiet (taken.quiet_release (fun _ _ => rfl))
          exact .failed ((hup₁.scratch hquiet).scratch (.idle ((hup₁.inUse i).trans hfree) rfl rfl))
        | some e =>
          obtain ⟨he, hnull⟩ := findFreeShared_some hfind
          simp only [bindMicro_setShared]
          have hup := hup₁.scratch (.counters (b₁.monotonicClock + 1#64)
            (freshTenantId { b₁ with hot := hot }).2 b₁.nextSharedScanStart b₁.evictions b₁.promotions)
          have hopen : Step caller { b₁ with
              monotonicClock := b₁.monotonicClock + 1#64
              nextTenantId := (freshTenantId { b₁ with hot := hot }).2 } .shared _ := .openShared he hnull taken
          have hpos : 0 < c.kSubSlotsPerSlot := Nat.div_pos (kMicroSlotSize_le c) (by decide)
          have hout := bindMicro_outcome (j := 0) (e := e) hr hup (.inr hopen) ((hup₁.inUse i).trans hfree)
            (by rw [sharedSlots_setShared_self]; exact taken.notNull) hpos
            (by rw [sharedSlots_setShared_self]; exact BitVec.getLsbD_zero)
            (fun hs k hk => by
              rw [sharedSlots_setShared_of_ne hk]
              exact hs.congr hup.sharedSlots k)
            (freshTenantId { b₁ with hot := hot }).1 b₁.monotonicClock
          have hbit : 0#32 ||| BitVec.twoPow 32 0 = 1#32 := by decide
          simp only [sharedSlots_setShared_self, hbit] at hout
          rw [setShared_hot_setShared] at hout
          exact hout

end Creation

section Destruction

/-- What `destroyTenant` comes to. -/
inductive DestroyOutcome (caller : Caller) (b : TieredArenaBridge c) (handle : TenantHandle) :
    Bool × TieredArenaBridge c → Prop
  | missing (none : b.findTenantLocked handle = none) : DestroyOutcome caller b handle (false, b)
  | destroyed {i b₁ b₂} (found : b.findTenantLocked handle = some i) (next : Step caller b (.destroyed i) b₁)
      (closed : b₂ = b₁ ∨ Step caller b₁ .shared b₂) (settled : Settled b → Settled b₂) :
      DestroyOutcome caller b handle (true, b₂)

/-- An entry whose last sub-slot has just been cleared is closed. -/
theorem step_closeShared_destroyed (caller : Caller) (b : TieredArenaBridge c) (i : ℕ) {e : ℕ} {bitmap : BitVec 32}
    (entry : (b.sharedSlots e).hotId.isNull = false) (hot : FractalArena c.hot) (r : TenantRecord)
    (empty : bitmap = 0#32) :
    Step caller (({ b with hot := hot }.setShared e ⟨bitmap, (b.sharedSlots e).hotId⟩).setTenant i r) .shared
      (({ b with hot := (hot.release ((b.sharedSlots e).hotId.withSubSlot 0)).2 }.setShared e
        ⟨0#32, .null⟩).setTenant i r) := by
  have hs : ((({ b with hot := hot }.setShared e ⟨bitmap, (b.sharedSlots e).hotId⟩).setTenant i r).sharedSlots e) =
      ⟨bitmap, (b.sharedSlots e).hotId⟩ := sharedSlots_setShared_self { b with hot := hot } e _
  have hclose : Step caller (({ b with hot := hot }.setShared e ⟨bitmap, (b.sharedSlots e).hotId⟩).setTenant i r)
      .shared _ := .closeShared (by rw [hs, entry]) (by rw [hs, empty])
  rw [hs] at hclose
  simpa only [setShared, setTenant, Function.update_idem] using hclose

theorem isNull_of_validate {g : Geometry} {s : FractalArena g} {id : GenID} (h : s.validate id = true) :
    id.isNull = false := (validate_iff.mp h).1

theorem destroyTenant_outcome (h : Invariant b) (caller : Caller) (handle : TenantHandle) :
    DestroyOutcome caller b handle (b.destroyTenant handle) := by
  unfold destroyTenant
  cases hf : b.findTenantLocked handle with
  | none => exact .missing hf
  | some i =>
    obtain ⟨-, hu, -⟩ := findTenantLocked_some hf
    have hlive := h.records i hu
    dsimp only
    rw [if_neg hlive.state_ne_dead]
    cases hlive with
    | hot hr =>
      have hk : (b.tenants i).kind ≠ .kMicro := by rw [hr.kind]; decide
      have hn : (b.tenants i).coldId.isNull = true := by rw [hr.cold]; rfl
      rw [if_neg hk]
      simp only [isNull_of_validate hr.valid, hn, Bool.not_true, Bool.not_false, Bool.false_eq_true, if_false,
        if_true]
      exact .destroyed hf (.destroyHot hu hr) (.inl rfl) (fun hs => hs)
    | cold hr =>
      have hk : (b.tenants i).kind ≠ .kMicro := by rw [hr.kind]; decide
      have hn : (b.tenants i).hotId.isNull = true := by rw [hr.hot]; rfl
      rw [if_neg hk]
      simp only [isNull_of_validate hr.valid, hn, Bool.not_true, Bool.not_false, Bool.false_eq_true, if_false,
        if_true]
      exact .destroyed hf (.destroyCold hu hr) (.inl rfl) (fun hs => hs)
    | micro hr =>
      have hidx := h.shared_lt _ hr.entry
      have hsub := h.bits_lt _ _ hr.bit
      rw [if_pos hr.kind, if_neg (Nat.not_le.mpr hidx), if_neg (Nat.not_le.mpr hsub)]
      have hnext : Step caller b (.destroyed i) _ := .destroyMicro hu hr
      split_ifs with hnow
      · have hclose := step_closeShared_destroyed caller b i hr.entry
          ((b.hot.zeroizeSubSlot (b.tenants i).hotId kMicroSlotSize).2) (deadRecord (b.tenants i)) hnow
        have hsettled : Settled b → Settled (({ b with
            hot := ((b.hot.zeroizeSubSlot (b.tenants i).hotId kMicroSlotSize).2.release
              ((b.sharedSlots (b.tenants i).sharedSlotIdx).hotId.withSubSlot 0)).2 }.setShared
                (b.tenants i).sharedSlotIdx ⟨0#32, .null⟩).setTenant i (deadRecord (b.tenants i))) :=
          fun hs => hs.setShared (fun hn => nomatch hn)
        rw [hnow]
        exact .destroyed hf hnext (.inr hclose) hsettled
      · exact .destroyed hf hnext (.inl rfl) (fun hs => hs.setShared (fun _ => hnow))

end Destruction

section Acquisition

/-- The two ways to ask for the bytes of a tenant. -/
inductive AcquirePath
  | acquireFP32 | acquireMicroFP32
  deriving DecidableEq

def acquire (b : TieredArenaBridge c) (path : AcquirePath) (caller : Caller) (handle : TenantHandle) :
    Span × TieredArenaBridge c :=
  match path with
  | .acquireFP32 => b.acquireFP32 caller handle
  | .acquireMicroFP32 => b.acquireMicroFP32 handle

def AcquirePath.Admits : AcquirePath → TenantKind → Prop
  | .acquireFP32, _ => True
  | .acquireMicroFP32, kind => kind = .kMicro

def AcquirePath.view (path : AcquirePath) (b : TieredArenaBridge c) (id : GenID) : Span :=
  match path with
  | .acquireFP32 => b.hot.view id
  | .acquireMicroFP32 => b.hot.viewSubSlot id kMicroSlotSize

/-- What each path shows of a valid hot record. -/
def AcquirePath.region (c : TieredConfig) : AcquirePath → TenantRecord → Span
  | .acquireFP32, r => c.hot.slotSpan r.hotId.id
  | .acquireMicroFP32, r => c.hot.subSlotSpan r.hotId.id r.hotId.subSlotIndex kMicroSlotSize

theorem AcquirePath.region_isEmpty (path : AcquirePath) (r : TenantRecord) : (path.region c r).isEmpty = false := by
  cases path with
  | acquireFP32 => exact slotSpan_isEmpty c.hot _
  | acquireMicroFP32 => rfl

inductive PromoteOutcome (caller : Caller) (b : TieredArenaBridge c) (i : ℕ) : Bool × TieredArenaBridge c → Prop
  | noSlot {b₁} (null : (b.allocateHot caller (b.tenants i).tenantId).1.isNull = true)
      (upkeep : Upkeep caller b b₁) : PromoteOutcome caller b i (false, b₁)
  | refused {source destination b₁}
      (count : (caller.codec.decompress source destination).1 ≠ c.kPayloadBytes)
      (sized : source.length = c.kCompressedBytes) (upkeep : Upkeep caller b b₁) :
      PromoteOutcome caller b i (false, b₁)
  | promoted {b₁ b₂} (granted : (b.allocateHot caller (b.tenants i).tenantId).1.isNull = false)
      (upkeep : Upkeep caller b b₁) (next : Step caller b₁ (.promoted i) b₂) :
      PromoteOutcome caller b i (true, b₂)

theorem promote_outcome (h : Invariant b) (caller : Caller) {i : ℕ} (used : (b.tenants i).inUse = true)
    (live : ColdRecord b (b.tenants i)) : PromoteOutcome caller b i (b.promote caller i) := by
  unfold promote
  have hg := hotGrant_allocateHot h caller (b.tenants i).tenantId
  generalize hres : b.allocateHot caller (b.tenants i).tenantId = res at hg
  have hnull := congrArg (fun p => p.1.isNull) hres
  cases hg with
  | failed upkeep => exact .noSlot hnull upkeep
  | @granted hotId b₁ hot upkeep taken =>
    have hrec := upkeep.tenants_of_cold h used live.state
    have hlive : ColdRecord b₁ (b₁.tenants i) := by
      cases (upkeep.invariant h).records i (by rw [hrec, used]) with
      | hot hr => rw [hrec] at hr; exact absurd (hr.state.symm.trans live.state) (by decide)
      | cold hr => exact hr
      | micro hr => rw [hrec] at hr; exact absurd (hr.state.symm.trans live.state) (by decide)
    dsimp only
    rw [if_neg (by simp [taken.notNull]), view_of_validate hlive.valid, view_of_validate taken.validate,
      if_neg (by simp [slotSpan_isEmpty])]
    split_ifs with hw
    · exact .refused hw (length_load _ _)
        (upkeep.scratch (.hotQuiet (taken.quiet_release (fun a ha => store_of_notMem _ ha))))
    · exact .promoted (hnull.trans taken.notNull) upkeep
        (.promote (by rw [hrec, used]) hlive taken (Prod.ext (not_not.mp hw) rfl))

/-- The way of a tenant into the hot tier. -/
inductive Ready (caller : Caller) (b : TieredArenaBridge c) (i : ℕ) : TieredArenaBridge c → Prop
  | already (hot : (b.tenants i).state = .kInHot) : Ready caller b i b
  | promoted {b₁ b₂} (cold : (b.tenants i).state = .kInCold) (upkeep : Upkeep caller b b₁)
      (next : Step caller b₁ (.promoted i) b₂) : Ready caller b i b₂

inductive AcquireOutcome (caller : Caller) (b : TieredArenaBridge c) (path : AcquirePath) (handle : TenantHandle) :
    Span × TieredArenaBridge c → Prop
  | failed {b₁} (upkeep : Upkeep caller b b₁) : AcquireOutcome caller b path handle (.none, b₁)
  | pinned {i b₁ b₂ accessTime} (found : b.findTenantLocked handle = some i)
      (admitted : path.Admits (b.tenants i).kind) (ready : Ready caller b i b₁)
      (below : (b₁.tenants i).pinCount < kPinCountSoftMax) (next : Step caller b₁ (.touched i) b₂)
      (record : b₂.tenants i =
        { b₁.tenants i with pinCount := (b₁.tenants i).pinCount + 1#32, accessTime := accessTime }) :
      AcquireOutcome caller b path handle (path.region c (b₁.tenants i), b₂)

theorem setTenant_setTenant (b : TieredArenaBridge c) (i : ℕ) (r r' : TenantRecord) :
    (b.setTenant i r).setTenant i r' = b.setTenant i r' := by
  simp only [setTenant, Function.update_idem]

/-- The pin either meets the soft maximum, or counts one up and sets the access time. -/
theorem pin_cases (caller : Caller) {i : ℕ} (used : (b.tenants i).inUse = true)
    (hot : (b.tenants i).state = .kInHot) :
    b.pin i = (false, b) ∧ kPinCountSoftMax ≤ (b.tenants i).pinCount ∨
    ∃ b₂ accessTime, b.pin i = (true, b₂) ∧ (b.tenants i).pinCount < kPinCountSoftMax ∧
      Step caller b (.touched i) b₂ ∧ b₂.hot = b.hot ∧ b₂.tenants i =
        { b.tenants i with pinCount := (b.tenants i).pinCount + 1#32, accessTime := accessTime } := by
  have hstep : ∀ accessTime, Step caller b (.touched i) _ := fun accessTime =>
    .touch (b.monotonicClock + 1#64) ((b.tenants i).pinCount + 1#32) accessTime (b.tenants i).sealed used
      (fun hc => absurd (hot.symm.trans hc) (by decide)) id
  simp only [pin, bumpAccessTime, tenants_setTenant_self]
  split_ifs with hmax htime
  · exact .inl ⟨rfl, hmax⟩
  · refine .inr ⟨_, b.monotonicClock, rfl, BitVec.not_le.mp hmax, ?_, rfl, tenants_setTenant_self ..⟩
    have hs := hstep b.monotonicClock
    rw [← setTenant_setTenant _ _ { b.tenants i with pinCount := (b.tenants i).pinCount + 1#32 }] at hs
    exact hs
  · exact .inr ⟨_, (b.tenants i).accessTime, rfl, BitVec.not_le.mp hmax, hstep _, rfl,
      tenants_setTenant_self ..⟩

theorem Step.promoted_record {i : ℕ} (hs : Step caller b (.promoted i) b') :
    (b.tenants i).state = .kInCold ∧ (b'.tenants i).state = .kInHot ∧
      (b'.tenants i).inUse = (b.tenants i).inUse ∧ (b'.tenants i).kind = (b.tenants i).kind ∧
      (b'.tenants i).pinCount = 0#32 := by
  cases hs with
  | promote used live =>
    rw [tenants_setTenant_self]
    exact ⟨live.state, rfl, rfl, rfl, live.unpinned⟩

/-- A tenant that has just been pinned is shown in its region. -/
theorem view_of_pinned (h : Invariant b) (path : AcquirePath) {i : ℕ} {pinCount : BitVec 32}
    {accessTime : BitVec 64} (used : (b.tenants i).inUse = true) (hot : (b.tenants i).state = .kInHot)
    (kind : path.Admits (b.tenants i).kind) (arena : b'.hot = b.hot)
    (record : b'.tenants i = { b.tenants i with pinCount := pinCount, accessTime := accessTime }) :
    path.view b' (b'.tenants i).hotId = path.region c (b.tenants i) := by
  have hvalid := h.validate_of_hot used hot
  rw [record]
  cases path with
  | acquireFP32 =>
    rw [AcquirePath.view, arena]
    exact view_of_validate hvalid
  | acquireMicroFP32 =>
    have hr := h.microRecord used kind
    rw [AcquirePath.view, arena]
    refine viewSubSlot_of_validate hvalid ?_
    rw [subSlotCount_kMicroSlotSize]
    exact h.bits_lt _ _ hr.bit

/-- A hot tenant below the soft maximum gets the region of its path. -/
theorem acquire_of_ready (h : Invariant b') {handle : TenantHandle} {i : ℕ} (path : AcquirePath)
    (found : b.findTenantLocked handle = some i) (admitted : path.Admits (b.tenants i).kind)
    (ready : Ready caller b i b') (used : (b'.tenants i).inUse = true)
    (hot : (b'.tenants i).state = .kInHot) (kind : path.Admits (b'.tenants i).kind) :
    AcquireOutcome caller b path handle (match b'.pin i with
      | (false, b) => (.none, b)
      | (true, b) => (path.view b (b.tenants i).hotId, b)) := by
  rcases pin_cases caller used hot with ⟨hpin, hmax⟩ | ⟨b₂, accessTime, hpin, hbelow, hnext, hhot, hrec⟩
  · rw [hpin]
    cases ready with
    | already => exact .failed .refl
    | promoted _ _ next =>
      rw [next.promoted_record.2.2.2.2] at hmax
      exact absurd hmax (by decide)
  · rw [hpin]
    dsimp only
    rw [view_of_pinned h path used hot kind hhot hrec]
    exact .pinned found admitted ready hbelow hnext hrec

theorem acquireFP32_outcome (h : Invariant b) (caller : Caller) (handle : TenantHandle) :
    AcquireOutcome caller b .acquireFP32 handle (b.acquireFP32 caller handle) := by
  unfold acquireFP32
  cases hf : b.findTenantLocked handle with
  | none => exact .failed .refl
  | some i =>
    obtain ⟨-, hu, -⟩ := findTenantLocked_some hf
    have hlive := h.records i hu
    dsimp only
    rw [if_neg hlive.state_ne_dead]
    by_cases hc : (b.tenants i).state = .kInCold
    · rw [if_pos hc]
      have hp := promote_outcome h caller hu (h.coldRecord hu hc)
      generalize b.promote caller i = res at hp
      cases hp with
      | noSlot _ upkeep => exact .failed upkeep
      | refused _ _ upkeep => exact .failed upkeep
      | @promoted b₁ b₂ _ upkeep next =>
        have h₂ := next.invariant (upkeep.invariant h)
        obtain ⟨-, hstate, hused, -, -⟩ := next.promoted_record
        exact acquire_of_ready h₂ .acquireFP32 hf trivial (.promoted hc upkeep next)
          (by rw [hused, upkeep.inUse, hu]) hstate trivial
    · have hhot : (b.tenants i).state = .kInHot := hlive.state_hot hc
      rw [if_neg hc]
      exact acquire_of_ready h .acquireFP32 hf trivial (.already hhot) hu hhot trivial

theorem acquireMicroFP32_outcome (h : Invariant b) (caller : Caller) (handle : TenantHandle) :
    AcquireOutcome caller b .acquireMicroFP32 handle (b.acquireMicroFP32 handle) := by
  unfold acquireMicroFP32
  cases hf : b.findTenantLocked handle with
  | none => exact .failed .refl
  | some i =>
    obtain ⟨-, hu, -⟩ := findTenantLocked_some hf
    dsimp only
    split_ifs with hkind hdead
    · exact .failed .refl
    · exact .failed .refl
    · have hr := h.microRecord hu (not_not.mp hkind)
      exact acquire_of_ready h .acquireMicroFP32 hf hr.kind (.already hr.state) hu hr.state hr.kind

theorem acquire_outcome (h : Invariant b) (caller : Caller) (path : AcquirePath) (handle : TenantHandle) :
    AcquireOutcome caller b path handle (b.acquire path caller handle) := by
  cases path with
  | acquireFP32 => exact acquireFP32_outcome h caller handle
  | acquireMicroFP32 => exact acquireMicroFP32_outcome h caller handle

end Acquisition

section Handles

inductive ReleaseOutcome (caller : Caller) (b : TieredArenaBridge c) (handle : TenantHandle) :
    Bool × TieredArenaBridge c → Prop
  | refused (idle : ∀ i, b.findTenantLocked handle = some i → (b.tenants i).pinCount = 0#32) :
      ReleaseOutcome caller b handle (false, b)
  | unpinned {i b₁} (found : b.findTenantLocked handle = some i) (pinned : (b.tenants i).pinCount ≠ 0#32)
      (next : Step caller b (.touched i) b₁)
      (record : b₁.tenants i = { b.tenants i with pinCount := (b.tenants i).pinCount - 1#32 }) :
      ReleaseOutcome caller b handle (true, b₁)

inductive SealOutcome (caller : Caller) (b : TieredArenaBridge c) (handle : TenantHandle) :
    Bool × TieredArenaBridge c → Prop
  | missing (none : b.findTenantLocked handle = none) : SealOutcome caller b handle (false, b)
  | sealed {i b₁} (found : b.findTenantLocked handle = some i) (next : Step caller b (.touched i) b₁)
      (record : b₁.tenants i = { b.tenants i with sealed := true }) : SealOutcome caller b handle (true, b₁)

theorem Invariant.unpinned_of_cold (h : Invariant b) {i : ℕ} (used : (b.tenants i).inUse = true)
    (cold : (b.tenants i).state = .kInCold) : (b.tenants i).pinCount = 0#32 :=
  (h.coldRecord used cold).unpinned

theorem release_outcome (h : Invariant b) (caller : Caller) (handle : TenantHandle) :
    ReleaseOutcome caller b handle (b.release handle) := by
  unfold release
  rw [h.findTenantLockfree]
  cases hf : b.findTenantLocked handle with
  | none => exact .refused (fun i hi => nomatch hf.symm.trans hi)
  | some i =>
    obtain ⟨-, hu, -⟩ := findTenantLocked_some hf
    dsimp only
    split_ifs with hpos
    · have hne : (b.tenants i).pinCount ≠ 0#32 := (gt_zero_iff _).mp hpos
      exact .unpinned hf hne (.touch b.monotonicClock ((b.tenants i).pinCount - 1#32) (b.tenants i).accessTime
        (b.tenants i).sealed hu (fun hc => absurd (h.unpinned_of_cold hu hc) hne) id) (tenants_setTenant_self ..)
    · refine .refused (fun k hk => ?_)
      rw [← Option.some.inj (hf.symm.trans hk)]
      exact not_not.mp (fun hne => hpos ((gt_zero_iff _).mpr hne))

theorem sealTenant_outcome (h : Invariant b) (caller : Caller) (handle : TenantHandle) :
    SealOutcome caller b handle (b.sealTenant handle) := by
  unfold sealTenant
  cases hf : b.findTenantLocked handle with
  | none => exact .missing hf
  | some i =>
    obtain ⟨-, hu, -⟩ := findTenantLocked_some hf
    dsimp only
    rw [if_neg (h.records i hu).state_ne_dead]
    exact .sealed hf (.touch b.monotonicClock (b.tenants i).pinCount (b.tenants i).accessTime true hu
      (h.unpinned_of_cold hu) (fun _ => rfl)) (tenants_setTenant_self ..)

end Handles

end Qtx.TieredArenaBridge
