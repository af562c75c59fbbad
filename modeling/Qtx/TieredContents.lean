import Qtx.BufferJournals
import Qtx.TieredFrames

/-!
# The payload that a tenant stands for

In the hot tier a tenant stands for the bytes of its region, in the cold tier for a
payload whose encoding is in its slot. An eviction does not change what a tenant stands
for; a promotion replaces it by its decoded encoding.
-/
namespace Qtx.TieredArenaBridge
open SpanMemory FractalArena

variable {c : TieredConfig} {caller : Caller} {b b' : TieredArenaBridge c}

/-- A codec by two functions on payloads. -/
structure PayloadCodec (c : TieredConfig) where
  enc : List Byte → List Byte
  dec : List Byte → List Byte
  length_enc : ∀ p, p.length = c.kPayloadBytes → (enc p).length = c.kCompressedBytes
  length_dec : ∀ p, p.length = c.kCompressedBytes → (dec p).length = c.kPayloadBytes

namespace PayloadCodec

variable (k : PayloadCodec c)

/-- One round trip through the cold tier. -/
def recode (p : List Byte) : List Byte := k.dec (k.enc p)

theorem length_recode {p : List Byte} (h : p.length = c.kPayloadBytes) : (k.recode p).length = c.kPayloadBytes :=
  k.length_dec _ (k.length_enc p h)

/-- The calls compute the two functions and report their sizes; beyond the reported
bytes they may write anything. -/
structure Computes (codec : ColdCodec) : Prop where
  compress : ∀ source destination, source.length = c.kPayloadBytes →
    (codec.compress source destination).1 = c.kCompressedBytes ∧
      k.enc source <+: (codec.compress source destination).2
  decompress : ∀ source destination, source.length = c.kCompressedBytes →
    (codec.decompress source destination).1 = c.kPayloadBytes ∧
      k.dec source <+: (codec.decompress source destination).2

end PayloadCodec

def payloadSize (c : TieredConfig) : TenantKind → ℕ
  | .kFullSlot => c.kPayloadBytes
  | .kMicro => kMicroSlotSize

/-- The compressed bytes of a tenant in the cold tier. -/
def coldRegion (c : TieredConfig) (r : TenantRecord) : Span :=
  (c.cold.slotSpan r.coldId.id).first c.kCompressedBytes

structure StandsFor (k : PayloadCodec c) (b : TieredArenaBridge c) (i : ℕ) (p : List Byte) : Prop where
  length : p.length = payloadSize c (b.tenants i).kind
  hot : (b.tenants i).state = .kInHot → load b.hot.die (hotRegion c (b.tenants i)) = p
  cold : (b.tenants i).state = .kInCold → load b.cold.die (coldRegion c (b.tenants i)) = k.enc p

variable {k : PayloadCodec c} {i : ℕ} {p : List Byte}

theorem coldRegion_within (c : TieredConfig) (r : TenantRecord) :
    (coldRegion c r).Within (c.cold.slotSpan r.coldId.id) := by
  rintro a ⟨hle, hlt⟩
  exact ⟨hle, Nat.lt_of_lt_of_le hlt (Nat.add_le_add_left c.compressed_le _)⟩

theorem Kept.standsFor (hk : Kept b b' i) (hp : StandsFor k b i p) : StandsFor k b' i p := by
  refine ⟨?_, ?_, ?_⟩
  · rw [hk.record]
    exact hp.length
  · rw [hk.record]
    intro hhot
    rw [← hp.hot hhot]
    exact load_congr (hk.hot hhot)
  · rw [hk.record]
    intro hcold
    rw [← hp.cold hcold]
    exact load_congr (fun a ha => hk.cold hcold a (coldRegion_within c _ a ha))

theorem Step.standsFor_of_evicted (hs : Step caller b (.evicted i) b') (good : k.Computes caller.codec)
    (hp : StandsFor k b i p) : StandsFor k b' i p := by
  cases hs with
  | @evict _ coldId cold bytes used live unpinned unsealed taken compressed =>
    have hload := hp.hot live.state
    rw [live.region] at hload
    have hlen : (load b.hot.die (c.hot.slotSpan (b.tenants i).hotId.id)).length = c.kPayloadBytes :=
      length_load _ _
    have hpre := (good.compress _ (load cold.die (c.cold.slotSpan coldId.id)) hlen).2
    rw [compressed, hload] at hpre
    have henc : (k.enc p).length = c.kCompressedBytes := k.length_enc p (hload ▸ hlen)
    refine ⟨?_, ?_, ?_⟩
    · rw [tenants_setTenant_self]
      exact hp.length
    · rw [tenants_setTenant_self]
      intro hf
      cases hf
    · rw [tenants_setTenant_self]
      intro _
      exact load_store_first _ hpre henc c.compressed_le

theorem Step.standsFor_of_promoted (hs : Step caller b (.promoted i) b') (good : k.Computes caller.codec)
    (hp : StandsFor k b i p) : StandsFor k b' i (k.recode p) := by
  cases hs with
  | @promote _ hotId hot bytes used live taken decompressed =>
    have hload := hp.cold live.state
    have hlen : (load b.cold.die (coldRegion c (b.tenants i))).length = c.kCompressedBytes := length_load _ _
    have hpre := (good.decompress _ (load hot.die (c.hot.slotSpan hotId.id)) hlen).2
    have hpl : p.length = c.kPayloadBytes := by
      rw [hp.length, live.kind]
      rfl
    have hrec := k.length_recode hpl
    rw [coldRegion, decompressed] at hpre
    rw [coldRegion] at hload
    rw [hload] at hpre
    refine ⟨?_, ?_, ?_⟩
    · rw [tenants_setTenant_self]
      simp only [live.kind]
      exact hrec
    · rw [tenants_setTenant_self]
      intro _
      simp only [hotRegion, live.kind]
      exact load_store_first _ hpre hrec le_rfl
    · rw [tenants_setTenant_self]
      intro hf
      cases hf

/-- A new tenant stands for zeros. -/
theorem Step.standsFor_of_created (hs : Step caller b (.created i) b') (h : Invariant b) :
    StandsFor k b' i (List.replicate (payloadSize c (b'.tenants i).kind) 0#8) := by
  refine ⟨List.length_replicate, ?_, ?_⟩
  · intro _
    cases hs with
    | @create _ hotId hot tenantId accessTime free lt taken =>
      rw [tenants_setTenant_self]
      refine Eq.trans ?_ (load_fill_self b.hot.die (c.hot.slotSpan hotId.id) 0#8)
      apply load_congr
      intro a ha
      have hzero : hot.die a = 0#8 := (congrFun taken.die a).trans (h.hotClean _ taken.lt taken.fresh a ha)
      exact hzero.trans (fill_of_mem (s := c.hot.slotSpan hotId.id) ha).symm
    | @createMicro _ e j tenantId accessTime free lt entry subIdx bit =>
      have hj : ((b.sharedSlots e).hotId.withSubSlot j).subSlotIndex = j :=
        GenID.subSlotIndex_withSubSlot (Nat.le_of_lt_succ (Nat.lt_of_lt_of_le subIdx c.subSlots_le))
      have hview := viewSubSlot_of_validate (h.shared_valid entry j)
        (by rw [hj, subSlotCount_kMicroSlotSize]; exact subIdx)
      rw [tenants_setTenant_self]
      change load (b.hot.zeroizeSubSlot _ kMicroSlotSize).2.die (c.hot.subSlotSpan _ _ kMicroSlotSize) = _
      rw [zeroizeSubSlot_snd, hview]
      exact load_fill_self ..
  · intro hcold
    cases hs with
    | create =>
      rw [tenants_setTenant_self] at hcold
      cases hcold
    | createMicro =>
      rw [tenants_setTenant_self] at hcold
      cases hcold

theorem Step.standsFor_of_touched (hs : Step caller b (.touched i) b') (hp : StandsFor k b i p) :
    StandsFor k b' i p := by
  cases hs with
  | touch =>
    refine ⟨?_, ?_, ?_⟩
    · rw [tenants_setTenant_self]
      exact hp.length
    · rw [tenants_setTenant_self]
      exact hp.hot
    · rw [tenants_setTenant_self]
      exact hp.cold

end Qtx.TieredArenaBridge
