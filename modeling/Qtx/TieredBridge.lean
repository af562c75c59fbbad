import Qtx.FractalArena

/-!
# The tiered bridge

Tenants live in a hot arena as plain bytes or in a cold arena as compressed bytes.
The bridge owns both arenas, so they are part of its state; the null checks on the
two arena pointers have no counterpart. The codec is a policy of the source and may
come from a third party: a call reads a source span, may rewrite its destination
span, and reports a byte count. Operations run one after another, so every
compare-exchange sees the value it loaded.
-/
namespace Qtx
open SpanMemory

def kMicroSlotSize : ℕ := 128

def kEvictRetries : ℕ := 2

def kPinCountSoftMax : BitVec 32 := BitVec.twoPow 32 31

def kNoTenantId : BitVec 64 := BitVec.allOnes 64

/-- `compressedSize(kINT4, n)`: blocks of 32 elements, a 4-byte scale and 16 bytes each. -/
def kINT4CompressedBytes (elements : ℕ) : ℕ := (elements + 31) / 32 * 20

/-- The template arguments with the static assertions on them. Record indices are
`u32` in the source. -/
structure TieredConfig where
  hot : Geometry
  cold : Geometry
  maxTenants : ℕ
  kCompressedBytes : ℕ
  maxTenants_pos : 0 < maxTenants
  maxTenants_lt : maxTenants < 2 ^ 32
  compressed_le : kCompressedBytes ≤ cold.slotSize
  int4_le : kINT4CompressedBytes (hot.slotSize / 4) ≤ cold.slotSize
  subSlots_le : hot.slotSize / kMicroSlotSize ≤ 32

namespace TieredConfig

variable (c : TieredConfig)

def kPayloadBytes : ℕ := c.hot.slotSize

def kSubSlotsPerSlot : ℕ := c.hot.slotSize / kMicroSlotSize

def kMaxSharedSlots : ℕ := (c.maxTenants + c.kSubSlotsPerSlot - 1) / c.kSubSlotsPerSlot

def kValidBits : BitVec 32 :=
  if c.kSubSlotsPerSlot ≥ 32 then BitVec.allOnes 32 else BitVec.twoPow 32 c.kSubSlotsPerSlot - 1#32

end TieredConfig

/-- A destination is given with its old contents and returned with its new ones. -/
structure ColdCodec where
  compress : (source destination : List Byte) → ℕ × List Byte
  decompress : (source destination : List Byte) → ℕ × List Byte
  deriving Inhabited

structure TenantHandle where
  tenantId : BitVec 64
  isValid : Bool
  deriving DecidableEq

inductive TenantState
  | kInHot | kInCold | kDead
  deriving DecidableEq

inductive TenantKind
  | kFullSlot | kMicro
  deriving DecidableEq

structure TenantRecord where
  tenantId : BitVec 64
  pinCount : BitVec 32
  state : TenantState
  accessTime : BitVec 64
  inUse : Bool
  sealed : Bool
  hotId : GenID
  coldId : GenID
  kind : TenantKind
  sharedSlotIdx : ℕ

structure SharedSlotEntry where
  occupancyBitmap : BitVec 32
  hotId : GenID

structure TieredArenaBridge (c : TieredConfig) where
  hot : FractalArena c.hot
  cold : FractalArena c.cold
  tenants : ℕ → TenantRecord
  sharedSlots : ℕ → SharedSlotEntry
  monotonicClock : BitVec 64
  nextTenantId : BitVec 64
  nextSharedScanStart : ℕ
  evictions : BitVec 64
  promotions : BitVec 64

/-- What a call brings with it: the hash of its thread and the codec. -/
structure Caller where
  mixThreadId : ℕ
  codec : ColdCodec
  deriving Inhabited

namespace TieredArenaBridge

variable {c : TieredConfig}

def blankRecord : TenantRecord :=
  ⟨0#64, 0#32, .kDead, 0#64, false, false, .null, .null, .kFullSlot, 0⟩

def new (c : TieredConfig) : TieredArenaBridge c where
  hot := .new c.hot
  cold := .new c.cold
  tenants := fun _ => blankRecord
  sharedSlots := fun _ => ⟨0#32, .null⟩
  monotonicClock := 0#64
  nextTenantId := 0#64
  nextSharedScanStart := 0
  evictions := 0#64
  promotions := 0#64

def invalidHandle : TenantHandle := ⟨0#64, false⟩

variable (b : TieredArenaBridge c)

def setTenant (i : ℕ) (r : TenantRecord) : TieredArenaBridge c :=
  { b with tenants := Function.update b.tenants i r }

def setShared (e : ℕ) (entry : SharedSlotEntry) : TieredArenaBridge c :=
  { b with sharedSlots := Function.update b.sharedSlots e entry }

def acquireRecord : Option ℕ := (List.range c.maxTenants).find? (fun i => !(b.tenants i).inUse)

def releaseRecord (i : ℕ) : TieredArenaBridge c :=
  b.setTenant i { b.tenants i with state := .kDead, inUse := false }

/-- `nextTenantId()`: the new id and the counter after it. -/
def freshTenantId : BitVec 64 × BitVec 64 :=
  let v := b.nextTenantId + 1#64
  if v = 0#64 ∨ v = kNoTenantId then (v + 1#64, v + 1#64) else (v, v)

def findTenantLocked (h : TenantHandle) : Option ℕ :=
  if h.tenantId = kNoTenantId ∨ h.tenantId = 0#64 then none
  else (List.range c.maxTenants).find?
    (fun i => (b.tenants i).inUse && (b.tenants i).tenantId == h.tenantId)

/-- The lookup of `release`, which takes no lock and skips dead records. -/
def findTenantLockfree (h : TenantHandle) : Option ℕ :=
  if h.tenantId = kNoTenantId ∨ h.tenantId = 0#64 then none
  else (List.range c.maxTenants).find? (fun i => (b.tenants i).inUse &&
    (b.tenants i).tenantId == h.tenantId && (b.tenants i).state ≠ .kDead)

def bumpAccessTime (i : ℕ) : TieredArenaBridge c :=
  let ticket := b.monotonicClock
  let r := b.tenants i
  let b := { b with monotonicClock := b.monotonicClock + 1#64 }
  if ticket > r.accessTime then b.setTenant i { r with accessTime := ticket } else b

/-- The tenants the eviction sweep does not skip. -/
def eligible (skipId : BitVec 64) (i : ℕ) : Bool :=
  let r := b.tenants i
  r.inUse && r.state = .kInHot && !(r.pinCount > 0#32) && r.tenantId ≠ skipId && !r.sealed &&
    r.kind ≠ .kMicro

def olderVictim (skipId : BitVec 64) (victim : Option ℕ) (i : ℕ) : Option ℕ :=
  if b.eligible skipId i then
    match victim with
    | none => some i
    | some v => if (b.tenants i).accessTime < (b.tenants v).accessTime then some i else some v
  else victim

def findVictim (skipId : BitVec 64) : Option ℕ :=
  (List.range c.maxTenants).foldl (b.olderVictim skipId) none

def evictOldestToColdLocked (caller : Caller) (skipId : BitVec 64) : Bool × TieredArenaBridge c :=
  match b.findVictim skipId with
  | none => (false, b)
  | some v =>
    let victim := b.tenants v
    let (coldId, cold) := b.cold.allocate c.kCompressedBytes 128 caller.mixThreadId
    if coldId.isNull then (false, { b with cold := cold })
    else
      let hotView := b.hot.view victim.hotId
      let coldView := cold.view coldId
      if hotView.isEmpty || coldView.isEmpty then (false, { b with cold := (cold.release coldId).2 })
      else
        let (written, bytes) :=
          caller.codec.compress (load b.hot.die (hotView.first c.kPayloadBytes)) (load cold.die coldView)
        let cold := { cold with die := store cold.die coldView bytes }
        if written ≠ c.kCompressedBytes then (false, { b with cold := (cold.release coldId).2 })
        else
          let b := { b with
            hot := (b.hot.release victim.hotId).2
            cold := cold
            evictions := b.evictions + 1#64 }
          (true, b.setTenant v { victim with hotId := .null, coldId := coldId, state := .kInCold })

/-- Evict and allocate again while the hot allocation fails; `null` is failure. -/
def retryHot (caller : Caller) (skipId : BitVec 64) :
    ℕ → GenID → TieredArenaBridge c → GenID × TieredArenaBridge c
  | 0, hotId, b => (hotId, b)
  | retries + 1, hotId, b =>
    if !hotId.isNull then (hotId, b)
    else match b.evictOldestToColdLocked caller skipId with
      | (false, b) => (.null, b)
      | (true, b) =>
        let (hotId, hot) := b.hot.allocate c.kPayloadBytes 128 caller.mixThreadId
        retryHot caller skipId retries hotId { b with hot := hot }

/-- The hot allocation of `createTenant`, `createMicroTenant` and of a promotion. -/
def allocateHot (caller : Caller) (skipId : BitVec 64) : GenID × TieredArenaBridge c :=
  let (hotId, hot) := b.hot.allocate c.kPayloadBytes 128 caller.mixThreadId
  retryHot caller skipId kEvictRetries hotId { b with hot := hot }

def createTenant (caller : Caller) : TenantHandle × TieredArenaBridge c :=
  match b.acquireRecord with
  | none => (invalidHandle, b)
  | some i =>
    let (hotId, b) := b.allocateHot caller kNoTenantId
    if hotId.isNull then (invalidHandle, b.releaseRecord i)
    else
      let (tenantId, nextTenantId) := b.freshTenantId
      let accessTime := b.monotonicClock
      let b := { b with nextTenantId := nextTenantId, monotonicClock := b.monotonicClock + 1#64 }
      (⟨tenantId, true⟩, b.setTenant i
        { tenantId := tenantId, pinCount := 0#32, state := .kInHot, accessTime := accessTime, inUse := true,
          sealed := false, hotId := hotId, coldId := .null, kind := .kFullSlot, sharedSlotIdx := 0 })

def destroyTenant (h : TenantHandle) : Bool × TieredArenaBridge c :=
  match b.findTenantLocked h with
  | none => (false, b)
  | some i =>
    let r := b.tenants i
    if r.state = .kDead then (false, b)
    else if r.kind = .kMicro then
      let b := { b with hot := (b.hot.zeroizeSubSlot r.hotId kMicroSlotSize).2 }
      if r.sharedSlotIdx ≥ c.kMaxSharedSlots then
        (false, b.setTenant i { r with state := .kDead, inUse := false })
      else
        let subIdx := r.hotId.subSlotIndex
        if subIdx ≥ c.kSubSlotsPerSlot then
          (false, b.setTenant i { r with state := .kDead, inUse := false })
        else
          let entry := b.sharedSlots r.sharedSlotIdx
          let now := entry.occupancyBitmap &&& ~~~(BitVec.twoPow 32 subIdx)
          let b := if now = 0#32 then
              { b with hot := (b.hot.release (entry.hotId.withSubSlot 0)).2 }.setShared r.sharedSlotIdx ⟨now, .null⟩
            else b.setShared r.sharedSlotIdx ⟨now, entry.hotId⟩
          (true, b.setTenant i { r with state := .kDead, hotId := .null, coldId := .null, inUse := false })
    else
      let b := if !r.hotId.isNull then { b with hot := (b.hot.release r.hotId).2 } else b
      let b := if !r.coldId.isNull then { b with cold := (b.cold.release r.coldId).2 } else b
      (true, b.setTenant i { r with state := .kDead, hotId := .null, coldId := .null, inUse := false })

/-- The promotion of a cold tenant inside `acquireFP32`. -/
def promote (caller : Caller) (i : ℕ) : Bool × TieredArenaBridge c :=
  let (hotId, b) := b.allocateHot caller (b.tenants i).tenantId
  if hotId.isNull then (false, b)
  else
    let r := b.tenants i
    let coldView := b.cold.view r.coldId
    let hotView := b.hot.view hotId
    if coldView.isEmpty || hotView.isEmpty then (false, { b with hot := (b.hot.release hotId).2 })
    else
      let (written, bytes) :=
        caller.codec.decompress (load b.cold.die (coldView.first c.kCompressedBytes)) (load b.hot.die hotView)
      let hot := { b.hot with die := store b.hot.die hotView bytes }
      if written ≠ c.kPayloadBytes then (false, { b with hot := (hot.release hotId).2 })
      else
        let b := { b with
          hot := hot
          cold := (b.cold.release r.coldId).2
          promotions := b.promotions + 1#64 }
        (true, b.setTenant i { r with coldId := .null, hotId := hotId, state := .kInHot })

/-- The soft-max guard, the increment of the pin count and the new access time. -/
def pin (i : ℕ) : Bool × TieredArenaBridge c :=
  let r := b.tenants i
  if r.pinCount ≥ kPinCountSoftMax then (false, b)
  else (true, (b.setTenant i { r with pinCount := r.pinCount + 1#32 }).bumpAccessTime i)

def acquireFP32 (caller : Caller) (h : TenantHandle) : Span × TieredArenaBridge c :=
  match b.findTenantLocked h with
  | none => (.none, b)
  | some i =>
    if (b.tenants i).state = .kDead then (.none, b)
    else
      let (ready, b) := if (b.tenants i).state = .kInCold then b.promote caller i else (true, b)
      if !ready then (.none, b)
      else match b.pin i with
        | (false, b) => (.none, b)
        | (true, b) => (b.hot.view (b.tenants i).hotId, b)

/-- One uninterrupted `release`. -/
def release (h : TenantHandle) : Bool × TieredArenaBridge c :=
  match b.findTenantLockfree h with
  | none => (false, b)
  | some i =>
    let r := b.tenants i
    if r.pinCount > 0#32 then (true, b.setTenant i { r with pinCount := r.pinCount - 1#32 }) else (false, b)

def sealTenant (h : TenantHandle) : Bool × TieredArenaBridge c :=
  match b.findTenantLocked h with
  | none => (false, b)
  | some i =>
    let r := b.tenants i
    if r.state = .kDead then (false, b) else (true, b.setTenant i { r with sealed := true })

/-- The lowest free sub-slot of a bitmap and the bitmap with it taken. A bit beyond
`kSubSlotsPerSlot` would make the compare-exchange fail on every retry. -/
def pickSubSlot (c : TieredConfig) (bitmap : BitVec 32) : Option (ℕ × BitVec 32) :=
  let bm := bitmap &&& c.kValidBits
  if bm = c.kValidBits then none
  else if bitmap = bm then
    let freeBit := (~~~bm &&& c.kValidBits).ctz.toNat
    some (freeBit, bm ||| BitVec.twoPow 32 freeBit)
  else none

/-- The scan over the shared entries in use, from the rotating start; `u32` arithmetic. -/
def scanShared (scanStart : ℕ) : List ℕ → Option (ℕ × ℕ × BitVec 32)
  | [] => none
  | k :: ks =>
    let e := (scanStart + k) % 2 ^ 32 % c.kMaxSharedSlots
    if (b.sharedSlots e).hotId.isNull then scanShared scanStart ks
    else match pickSubSlot c (b.sharedSlots e).occupancyBitmap with
      | some (subIdx, bitmap) => some (e, subIdx, bitmap)
      | none => scanShared scanStart ks

def findFreeShared : Option ℕ :=
  (List.range c.kMaxSharedSlots).find?
    (fun e => (b.sharedSlots e).hotId.isNull && (b.sharedSlots e).occupancyBitmap = 0#32)

/-- Steps 3 and 4 of `createMicroTenant`. -/
def bindMicro (i sharedIdx subIdx : ℕ) : TenantHandle × TieredArenaBridge c :=
  let (tenantId, nextTenantId) := b.freshTenantId
  let hotId := (b.sharedSlots sharedIdx).hotId.withSubSlot subIdx
  let accessTime := b.monotonicClock
  let b := { b with
    nextTenantId := nextTenantId
    monotonicClock := b.monotonicClock + 1#64
    hot := (b.hot.zeroizeSubSlot hotId kMicroSlotSize).2 }
  (⟨tenantId, true⟩, b.setTenant i
    { tenantId := tenantId, pinCount := 0#32, state := .kInHot, accessTime := accessTime, inUse := true,
      sealed := false, hotId := hotId, coldId := .null, kind := .kMicro, sharedSlotIdx := sharedIdx })

def createMicroTenant (caller : Caller) : TenantHandle × TieredArenaBridge c :=
  match b.acquireRecord with
  | none => (invalidHandle, b)
  | some i =>
    let scanStart := b.nextSharedScanStart
    let b := { b with nextSharedScanStart := (scanStart + 1) % 2 ^ 32 % c.kMaxSharedSlots }
    match b.scanShared scanStart (List.range c.kMaxSharedSlots) with
    | some (e, subIdx, bitmap) =>
      (b.setShared e ⟨bitmap, (b.sharedSlots e).hotId⟩).bindMicro i e subIdx
    | none =>
      let (fresh, b) := b.allocateHot caller kNoTenantId
      if fresh.isNull then (invalidHandle, b.releaseRecord i)
      else match b.findFreeShared with
        | none => (invalidHandle, { b with hot := (b.hot.release fresh).2 }.releaseRecord i)
        | some e => (b.setShared e ⟨1#32, fresh⟩).bindMicro i e 0

def acquireMicroFP32 (h : TenantHandle) : Span × TieredArenaBridge c :=
  match b.findTenantLocked h with
  | none => (.none, b)
  | some i =>
    if (b.tenants i).kind ≠ .kMicro then (.none, b)
    else if (b.tenants i).state = .kDead then (.none, b)
    else match b.pin i with
      | (false, b) => (.none, b)
      | (true, b) => (b.hot.viewSubSlot (b.tenants i).hotId kMicroSlotSize, b)

end TieredArenaBridge

end Qtx
