import Qtx.AxiomSelector
import Qtx.CoreTypes
import Qtx.GenID
import Qtx.SpanMemory

/-!
# The slot arena

Slots of one size in a flat die, a generation counter for each slot, and the bitmap
selector for occupancy. Operations run one after another. A span is a range of die
offsets, and the empty span answers every refused view.
-/
namespace Qtx
open SpanMemory

def kMaxCacheLineSize : ℕ := 128

abbrev Byte := BitVec 8

/-- The slot counts and slot sizes the template admits. -/
structure Geometry where
  count : SlotCount
  slotSize : ℕ
  count_le : count.slots ≤ GenID.kMaxId + 1
  slotSize_pos : 0 < slotSize
  slotSize_mod : slotSize % kMaxCacheLineSize = 0
  total_fits : slotSize ≤ (2 ^ 64 - 1) / count.slots

namespace Geometry

variable (g : Geometry)

def slotCount : ℕ := g.count.slots

def totalSize : ℕ := g.slotCount * g.slotSize

/-- The bytes of one slot. -/
def slotSpan (slot : ℕ) : Span := ⟨slot * g.slotSize, g.slotSize⟩

def subSlotCount (subSlotSize : ℕ) : ℕ :=
  if subSlotSize = 0 then 0
  else if subSlotSize > g.slotSize then 0
  else if g.slotSize % subSlotSize ≠ 0 then 0
  else if subSlotSize < kMaxCacheLineSize then 0
  else if subSlotSize % kMaxCacheLineSize ≠ 0 then 0
  else g.slotSize / subSlotSize

/-- The bytes of one sub-slot. -/
def subSlotSpan (slot idx subSlotSize : ℕ) : Span := ⟨slot * g.slotSize + idx * subSlotSize, subSlotSize⟩

variable {g}

theorem slotSize_lt : g.slotSize < 2 ^ 64 := by
  have h := g.total_fits.trans (Nat.div_le_self _ _)
  omega

theorem slotSpan_disjoint {i j : ℕ} (h : i ≠ j) : (g.slotSpan i).Disjoint (g.slotSpan j) := by
  have hd := Span.disjoint_cells 0 g.slotSize h
  simpa only [slotSpan, Nat.zero_add] using hd

theorem slotSpan_unique {i j a : ℕ} (hi : a ∈ g.slotSpan i) (hj : a ∈ g.slotSpan j) : i = j := by
  by_contra hne
  exact slotSpan_disjoint hne a hi hj

theorem slotSpan_within {slot : ℕ} (h : slot < g.slotCount) : (g.slotSpan slot).Within ⟨0, g.totalSize⟩ := by
  have hw := Span.within_cells 0 g.slotSize h
  simpa only [slotSpan, totalSize, Nat.zero_add] using hw

theorem subSlotCount_pos {subSlotSize : ℕ} (h : 0 < g.subSlotCount subSlotSize) :
    0 < subSlotSize ∧ g.subSlotCount subSlotSize * subSlotSize = g.slotSize := by
  unfold subSlotCount at h ⊢
  split_ifs at h ⊢ with h1 h2 h3
  all_goals first | exact absurd h (Nat.lt_irrefl 0) | skip
  exact ⟨Nat.pos_of_ne_zero h1, Nat.div_mul_cancel (Nat.dvd_of_mod_eq_zero (not_not.mp h3))⟩

theorem subSlotSpan_within {slot idx subSlotSize : ℕ} (h : idx < g.subSlotCount subSlotSize) :
    (g.subSlotSpan slot idx subSlotSize).Within (g.slotSpan slot) := by
  have hn := (subSlotCount_pos (Nat.zero_lt_of_lt h)).2
  have hw := Span.within_cells (slot * g.slotSize) subSlotSize h
  rw [hn] at hw
  exact hw

theorem subSlotSpan_disjoint {slot i j subSlotSize : ℕ} (h : i ≠ j) :
    (g.subSlotSpan slot i subSlotSize).Disjoint (g.subSlotSpan slot j subSlotSize) :=
  Span.disjoint_cells _ _ h

end Geometry

/-- 64 slots of 256 bytes. -/
def smallGeometry : Geometry := ⟨oneWord, 256, by decide, by decide, by decide, by decide⟩

structure FractalArena (g : Geometry) where
  die : ℕ → Byte
  versions : ℕ → BitVec 16
  selector : AxiomSelector g.count

namespace FractalArena

variable {g : Geometry}

def new (g : Geometry) : FractalArena g := ⟨fun _ => 0#8, fun _ => 0#16, .new⟩

variable (s : FractalArena g)

def bumpVersion (slot : ℕ) : ℕ → BitVec 16 := Function.update s.versions slot (s.versions slot + 1#16)

/-- `mixThreadId` is the hash of the calling thread, from which the selector starts. -/
def allocate (requestedSize requestedAlign mixThreadId : ℕ) : GenID × FractalArena g :=
  if requestedSize = 0 || requestedSize > g.slotSize then (.null, s)
  else if requestedAlign = 0 || !isPowerOfTwo requestedAlign || requestedAlign > g.slotSize then (.null, s)
  else
    let alignmentClass := log2PowerOfTwo requestedAlign
    if alignmentClass > GenID.kMaxAlignment then (.null, s)
    else match s.selector.acquire mixThreadId with
      | (none, _) => (.null, s)
      | (some slot, selector) =>
        let newVersion := s.versions slot + 1#16
        (.make slot (newVersion.toNat &&& GenID.kMaxVersion) alignmentClass .kFP32 .kActive,
          { s with versions := s.bumpVersion slot, selector := selector })

def validate (id : GenID) : Bool :=
  if id.isNull then false
  else if id.id ≥ g.slotCount then false
  else if (s.versions id.id).toNat &&& GenID.kMaxVersion ≠ id.version &&& GenID.kMaxVersion then false
  else s.selector.isOccupied id.id

def view (id : GenID) : Span := if !s.validate id then .none else g.slotSpan id.id

def viewSubSlot (id : GenID) (subSlotSize : ℕ) : Span :=
  if !s.validate id then .none
  else if g.subSlotCount subSlotSize = 0 then .none
  else if id.subSlotIndex ≥ g.subSlotCount subSlotSize then .none
  else g.subSlotSpan id.id id.subSlotIndex subSlotSize

def zeroizeSubSlot (id : GenID) (subSlotSize : ℕ) : Bool × FractalArena g :=
  let v := s.viewSubSlot id subSlotSize
  if v.isEmpty then (false, s) else (true, { s with die := fill s.die v 0#8 })

def release (id : GenID) : Bool × FractalArena g :=
  if !s.validate id then (false, s)
  else (true, ⟨fill s.die (g.slotSpan id.id) 0#8, s.bumpVersion id.id, s.selector.release id.id⟩)

def freeSlots : ℕ := s.selector.freeCount

def usedSlots : ℕ := g.slotCount - s.selector.freeCount

/-- A client stores one byte at an index of a span it was given. -/
def write (v : Span) (i : ℕ) (value : Byte) : FractalArena g := { s with die := assign s.die v i value }

/-- The slots whose bit is taken. -/
def occupied : Finset ℕ := Finset.range g.slotCount \ s.selector.free

/-- The parameter checks of `allocate`. -/
def Accepts (g : Geometry) (requestedSize requestedAlign : ℕ) : Prop :=
  0 < requestedSize ∧ requestedSize ≤ g.slotSize ∧ isPowerOfTwo requestedAlign ∧ requestedAlign ≤ g.slotSize

/-- Free slots hold nothing but zeros. -/
def Clean : Prop := ∀ slot < g.slotCount, slot ∉ s.occupied → ∀ a ∈ g.slotSpan slot, s.die a = 0#8

variable {s} {s' : FractalArena g} {id : GenID}

theorem mem_occupied {slot : ℕ} : slot ∈ s.occupied ↔ slot < g.slotCount ∧ slot ∉ s.selector.free := by
  rw [occupied, Finset.mem_sdiff, Finset.mem_range]

theorem lt_of_mem_occupied {slot : ℕ} (h : slot ∈ s.occupied) : slot < g.slotCount := (mem_occupied.mp h).1

theorem isOccupied_iff {slot : ℕ} : s.selector.isOccupied slot = true ↔ slot ∈ s.occupied := by
  rw [AxiomSelector.isOccupied_iff, mem_occupied]
  rfl

@[simp] theorem occupied_new (g : Geometry) : (new g).occupied = ∅ := by
  rw [occupied, new, AxiomSelector.free_new]
  exact Finset.sdiff_self _

theorem usedSlots_eq_card (s : FractalArena g) : s.usedSlots = s.occupied.card := by
  rw [usedSlots, AxiomSelector.freeCount_eq_card, occupied, Finset.card_sdiff_of_subset, Finset.card_range]
  exact AxiomSelector.free_subset s.selector

theorem kMaxVersion_and (v : BitVec 16) : v.toNat &&& GenID.kMaxVersion = v.toNat := by
  change v.toNat &&& 2 ^ 16 - 1 = v.toNat
  rw [Nat.and_two_pow_sub_one_eq_mod, Nat.mod_eq_of_lt v.isLt]

theorem version_and (id : GenID) : id.version &&& GenID.kMaxVersion = id.version := by
  have h : id.version < 2 ^ 16 := Nat.lt_succ_of_le id.version_le
  change id.version &&& 2 ^ 16 - 1 = id.version
  rw [Nat.and_two_pow_sub_one_eq_mod, Nat.mod_eq_of_lt h]

/-- A handle is accepted exactly when it is not null, its slot is taken and its
generation is the current one. -/
theorem validate_iff : s.validate id = true ↔
    id.isNull = false ∧ id.id ∈ s.occupied ∧ (s.versions id.id).toNat = id.version := by
  unfold validate
  rw [kMaxVersion_and, version_and]
  split_ifs with h1 h2 h3
  · simp [h1]
  · simp [mem_occupied, Nat.not_lt.mpr h2]
  · simp [h3]
  · rw [isOccupied_iff]
    exact ⟨fun h => ⟨Bool.eq_false_iff.mpr h1, h, not_not.mp h3⟩, fun h => h.2.1⟩

theorem view_of_validate (h : s.validate id = true) : s.view id = g.slotSpan id.id := by
  simp [view, h]

theorem view_of_not_validate (h : s.validate id = false) : s.view id = .none := by
  simp [view, h]

/-- What a successful `allocate` does. -/
structure Allocated (s : FractalArena g) (id : GenID) (s' : FractalArena g) : Prop where
  active : id.state = .kActive
  lt : id.id < g.slotCount
  fresh : id.id ∉ s.occupied
  version : id.version = (s.versions id.id + 1#16).toNat
  occupied : s'.occupied = insert id.id s.occupied
  versions : s'.versions = s.bumpVersion id.id
  die : s'.die = s.die

/-- What a successful `release` does. -/
structure Released (s : FractalArena g) (id : GenID) (s' : FractalArena g) : Prop where
  valid : s.validate id = true
  occupied : s'.occupied = s.occupied.erase id.id
  versions : s'.versions = s.bumpVersion id.id
  die : s'.die = fill s.die (g.slotSpan id.id) 0#8

theorem log2PowerOfTwo_le {a : ℕ} (h : isPowerOfTwo a) (ha : a ≤ g.slotSize) :
    log2PowerOfTwo a ≤ GenID.kMaxAlignment := by
  have hlt : 2 ^ log2PowerOfTwo a < 2 ^ 64 := by
    rw [pow_log2PowerOfTwo h]
    exact Nat.lt_of_le_of_lt ha Geometry.slotSize_lt
  have := (Nat.pow_lt_pow_iff_right Nat.one_lt_two).mp hlt
  exact (show log2PowerOfTwo a ≤ 127 by omega)

theorem allocate_of_not_accepts {requestedSize requestedAlign : ℕ} (t : ℕ)
    (h : ¬Accepts g requestedSize requestedAlign) :
    s.allocate requestedSize requestedAlign t = (.null, s) := by
  unfold allocate
  split_ifs with h1 h2
  · rfl
  · rfl
  · refine absurd ?_ h
    simp only [Bool.or_eq_true, decide_eq_true_eq, not_or, Bool.not_eq_true', Nat.not_lt] at h1 h2
    exact ⟨Nat.pos_of_ne_zero h1.1, h1.2, Bool.eq_true_of_not_eq_false h2.1.2, h2.2⟩

theorem allocate_of_accepts {requestedSize requestedAlign : ℕ} (t : ℕ)
    (h : Accepts g requestedSize requestedAlign) :
    s.allocate requestedSize requestedAlign t = match s.selector.acquire t with
      | (none, _) => (.null, s)
      | (some slot, selector) =>
        (.make slot ((s.versions slot + 1#16).toNat &&& GenID.kMaxVersion) (log2PowerOfTwo requestedAlign)
          .kFP32 .kActive, { s with versions := s.bumpVersion slot, selector := selector }) := by
  obtain ⟨h1, h2, h3, h4⟩ := h
  have hz : requestedAlign ≠ 0 := by
    rintro rfl
    cases h3
  have hc := log2PowerOfTwo_le h3 h4
  simp only [allocate, Nat.pos_iff_ne_zero.mp h1, h3, hz, decide_false, Bool.not_true, Bool.or_false,
    Nat.not_lt.mpr h2, Nat.not_lt.mpr h4, Nat.not_lt.mpr hc, if_false, Bool.false_eq_true]

/-- An allocation is refused for its parameters or because every slot is taken, and
leaves the arena as it was; otherwise it takes one free slot. -/
theorem allocate_cases (s : FractalArena g) (requestedSize requestedAlign t : ℕ) :
    s.allocate requestedSize requestedAlign t = (.null, s) ∧
      (¬Accepts g requestedSize requestedAlign ∨ s.occupied = Finset.range g.slotCount) ∨
    Accepts g requestedSize requestedAlign ∧
      Allocated s (s.allocate requestedSize requestedAlign t).1 (s.allocate requestedSize requestedAlign t).2 := by
  by_cases ha : Accepts g requestedSize requestedAlign
  · rcases hacq : s.selector.acquire t with ⟨_ | slot, selector⟩
    · refine .inl ⟨by rw [allocate_of_accepts t ha, hacq], .inr ?_⟩
      rw [occupied, (AxiomSelector.acquire_none hacq).1, Finset.sdiff_empty]
    · obtain ⟨hfree, hnext⟩ := AxiomSelector.acquire_some hacq
      have hlt : slot < g.slotCount := AxiomSelector.lt_slots_of_mem_free hfree
      have hid : slot ≤ GenID.kMaxId := Nat.le_of_lt_succ (Nat.lt_of_lt_of_le hlt g.count_le)
      have hv : (s.versions slot + 1#16).toNat &&& GenID.kMaxVersion ≤ GenID.kMaxVersion := Nat.and_le_right
      have hc := log2PowerOfTwo_le ha.2.2.1 ha.2.2.2
      refine .inr ⟨ha, ?_⟩
      rw [allocate_of_accepts t ha, hacq]
      have hslot : (GenID.make slot _ _ .kFP32 .kActive).id = slot := GenID.id_make hid hv hc
      refine ⟨GenID.state_make hid hv hc, ?_, ?_, ?_, ?_, ?_, rfl⟩
      · rwa [hslot]
      · rw [hslot, mem_occupied]
        exact fun hmem => hmem.2 hfree
      · rw [hslot, GenID.version_make hid hv hc, kMaxVersion_and]
      · ext x
        simp only [hslot, mem_occupied, hnext, Finset.mem_erase, Finset.mem_insert]
        by_cases hx : x = slot
        · simp [hx, hlt]
        · simp [hx]
      · rw [hslot]
  · exact .inl ⟨allocate_of_not_accepts t ha, .inl ha⟩

theorem release_of_not_validate (h : s.validate id = false) : s.release id = (false, s) := by
  simp [release, h]

theorem release_of_validate (h : s.validate id = true) :
    (s.release id).1 = true ∧ Released s id (s.release id).2 := by
  have hmem := (validate_iff.mp h).2.1
  have hrel : s.release id =
      (true, ⟨fill s.die (g.slotSpan id.id) 0#8, s.bumpVersion id.id, s.selector.release id.id⟩) := by
    simp [release, h]
  rw [hrel]
  refine ⟨rfl, h, ?_, rfl, rfl⟩
  ext x
  rw [mem_occupied, AxiomSelector.free_release _ (lt_of_mem_occupied hmem), Finset.mem_erase,
    Finset.mem_insert, mem_occupied]
  tauto

theorem Allocated.notNull (h : Allocated s id s') : id.isNull = false :=
  GenID.isNull_of_state_ne (by rw [h.active]; decide)

theorem Allocated.validate (h : Allocated s id s') : s'.validate id = true := by
  rw [validate_iff, h.occupied, h.versions, h.version]
  exact ⟨h.notNull, Finset.mem_insert_self _ _, by rw [bumpVersion, Function.update_self]⟩

/-- Handles of other slots are not affected by an allocation. -/
theorem Allocated.validate_of_ne (h : Allocated s id s') {other : GenID} (hne : other.id ≠ id.id) :
    s'.validate other = s.validate other := by
  rw [Bool.eq_iff_iff, validate_iff, validate_iff, h.occupied, h.versions, bumpVersion,
    Function.update_of_ne hne, Finset.mem_insert, or_iff_right hne]

theorem Allocated.validate_of_valid (h : Allocated s id s') {other : GenID} (hv : s.validate other = true) :
    s'.validate other = true := by
  rw [h.validate_of_ne, hv]
  exact fun heq => h.fresh (heq ▸ (validate_iff.mp hv).2.1)

theorem Released.validate_of_ne (h : Released s id s') {other : GenID} (hne : other.id ≠ id.id) :
    s'.validate other = s.validate other := by
  rw [Bool.eq_iff_iff, validate_iff, validate_iff, h.occupied, h.versions, bumpVersion,
    Function.update_of_ne hne, Finset.mem_erase]
  simp [hne]

theorem clean_new (g : Geometry) : (new g).Clean := fun _ _ _ _ _ => rfl

/-- Bytes of taken slots may change freely. -/
theorem Clean.of_die (h : s.Clean) {die : ℕ → Byte}
    (hframe : ∀ a, die a ≠ s.die a → ∃ slot ∈ s.occupied, a ∈ g.slotSpan slot) :
    ({ s with die := die } : FractalArena g).Clean := by
  intro slot hlt hfree a ha
  by_cases hch : die a = s.die a
  · exact hch.trans (h slot hlt hfree a ha)
  · obtain ⟨other, hocc, hmem⟩ := hframe a hch
    exact absurd (Geometry.slotSpan_unique ha hmem ▸ hocc) hfree

theorem Allocated.clean (h : Allocated s id s') (hc : s.Clean) : s'.Clean := by
  intro slot hlt hfree a ha
  rw [h.occupied, Finset.mem_insert, not_or] at hfree
  rw [h.die]
  exact hc slot hlt hfree.2 a ha

theorem Released.clean (h : Released s id s') (hc : s.Clean) : s'.Clean := by
  intro slot hlt hfree a ha
  rw [h.die]
  by_cases hs : slot = id.id
  · subst hs
    exact fill_of_mem ha
  · rw [fill_of_notMem (Geometry.slotSpan_disjoint hs a ha)]
    rw [h.occupied, Finset.mem_erase, not_and] at hfree
    exact hc slot hlt (hfree hs) a ha

/-- Nothing that an owner of a taken slot could observe has changed. -/
structure Quiet (s s' : FractalArena g) : Prop where
  occupied : s'.occupied = s.occupied
  versions : ∀ slot ∈ s.occupied, s'.versions slot = s.versions slot
  die : ∀ slot ∈ s.occupied, ∀ a ∈ g.slotSpan slot, s'.die a = s.die a
  clean : s.Clean → s'.Clean

theorem Quiet.validate (h : Quiet s s') (id : GenID) : s'.validate id = s.validate id := by
  rw [Bool.eq_iff_iff, validate_iff, validate_iff, h.occupied]
  refine and_congr_right (fun _ => and_congr_right (fun hocc => ?_))
  rw [h.versions _ hocc]

/-- A slot that is taken, written and given back leaves no trace. -/
theorem Allocated.quiet_release (h : Allocated s id s') {die : ℕ → Byte}
    (hframe : ∀ a, a ∉ g.slotSpan id.id → die a = s'.die a) :
    Quiet s (({ s' with die := die } : FractalArena g).release id).2 := by
  have hv : ({ s' with die := die } : FractalArena g).validate id = true := h.validate
  have hrel := (release_of_validate hv).2
  have hocc : (({ s' with die := die } : FractalArena g).release id).2.occupied = s.occupied := by
    rw [hrel.occupied]
    exact (congrArg (Finset.erase · id.id) h.occupied).trans (Finset.erase_insert h.fresh)
  have hdie : ∀ slot, slot ≠ id.id → ∀ a ∈ g.slotSpan slot,
      (({ s' with die := die } : FractalArena g).release id).2.die a = s.die a := by
    intro slot hne a ha
    have hout := Geometry.slotSpan_disjoint hne a ha
    rw [hrel.die, fill_of_notMem hout]
    exact (hframe a hout).trans (congrFun h.die a)
  refine ⟨hocc, ?_, ?_, ?_⟩
  · intro slot hslot
    have hne : slot ≠ id.id := fun heq => h.fresh (heq ▸ hslot)
    rw [hrel.versions, bumpVersion, Function.update_of_ne hne]
    change s'.versions slot = _
    rw [h.versions, bumpVersion, Function.update_of_ne hne]
  · intro slot hslot
    exact hdie slot (fun heq => h.fresh (heq ▸ hslot))
  · intro hc slot hlt hfree a ha
    by_cases hs : slot = id.id
    · subst hs
      rw [hrel.die, fill_of_mem ha]
    · rw [hdie slot hs a ha]
      exact hc slot hlt (hocc ▸ hfree) a ha

theorem viewSubSlot_cases (s : FractalArena g) (id : GenID) (subSlotSize : ℕ) :
    s.viewSubSlot id subSlotSize = .none ∨
    s.validate id = true ∧ id.subSlotIndex < g.subSlotCount subSlotSize ∧
      s.viewSubSlot id subSlotSize = g.subSlotSpan id.id id.subSlotIndex subSlotSize := by
  unfold viewSubSlot
  split_ifs with h1 h2 h3
  · exact .inl rfl
  · exact .inl rfl
  · exact .inl rfl
  · simp only [Bool.not_eq_true', Bool.not_eq_false] at h1
    exact .inr ⟨h1, Nat.lt_of_not_le h3, rfl⟩

theorem viewSubSlot_of_validate {subSlotSize : ℕ} (h : s.validate id = true)
    (hidx : id.subSlotIndex < g.subSlotCount subSlotSize) :
    s.viewSubSlot id subSlotSize = g.subSlotSpan id.id id.subSlotIndex subSlotSize := by
  unfold viewSubSlot
  rw [if_neg (by simp [h]), if_neg (Nat.ne_of_gt (Nat.zero_lt_of_lt hidx)), if_neg (Nat.not_le.mpr hidx)]

theorem viewSubSlot_of_not_validate (h : s.validate id = false) (subSlotSize : ℕ) :
    s.viewSubSlot id subSlotSize = .none := by
  simp [viewSubSlot, h]

/-- Every view lies inside the slot that its handle names. -/
theorem viewSubSlot_within (s : FractalArena g) (id : GenID) (subSlotSize : ℕ) :
    (s.viewSubSlot id subSlotSize).Within (g.slotSpan id.id) := by
  rcases s.viewSubSlot_cases id subSlotSize with h | ⟨-, hidx, h⟩
  · rw [h]
    exact fun a ha => absurd ha (Span.notMem_of_isEmpty rfl a)
  · rw [h]
    exact Geometry.subSlotSpan_within hidx

theorem view_within (s : FractalArena g) (id : GenID) : (s.view id).Within (g.slotSpan id.id) := by
  unfold view
  split_ifs
  · exact fun a ha => absurd ha (Span.notMem_of_isEmpty rfl a)
  · exact Span.Within.refl _

/-- A view that shows any byte at all belongs to a valid handle. -/
theorem validate_of_mem_view {a : ℕ} (h : a ∈ s.view id) : s.validate id = true := by
  by_contra hv
  rw [view_of_not_validate (Bool.eq_false_iff.mpr hv)] at h
  exact Span.notMem_of_isEmpty rfl a h

theorem validate_of_mem_viewSubSlot {a subSlotSize : ℕ} (h : a ∈ s.viewSubSlot id subSlotSize) :
    s.validate id = true := by
  by_contra hv
  rw [viewSubSlot_of_not_validate (Bool.eq_false_iff.mpr hv)] at h
  exact Span.notMem_of_isEmpty rfl a h

/-- Only bytes of the sub-slot change, whether or not the request is accepted. -/
theorem zeroizeSubSlot_snd (s : FractalArena g) (id : GenID) (subSlotSize : ℕ) :
    (s.zeroizeSubSlot id subSlotSize).2 = { s with die := fill s.die (s.viewSubSlot id subSlotSize) 0#8 } := by
  simp only [zeroizeSubSlot]
  split_ifs with h
  · have hfill : fill s.die (s.viewSubSlot id subSlotSize) 0#8 = s.die := by
      funext a
      exact fill_of_notMem (Span.notMem_of_isEmpty h a)
    rw [hfill]
  · rfl

theorem zeroizeSubSlot_fst (s : FractalArena g) (id : GenID) (subSlotSize : ℕ) :
    (s.zeroizeSubSlot id subSlotSize).1 = !(s.viewSubSlot id subSlotSize).isEmpty := by
  simp only [zeroizeSubSlot]
  split_ifs with h
  · simp [h]
  · simp [h]

theorem validate_zeroizeSubSlot (s : FractalArena g) (id : GenID) (subSlotSize : ℕ) (other : GenID) :
    (s.zeroizeSubSlot id subSlotSize).2.validate other = s.validate other := by
  rw [zeroizeSubSlot_snd]
  rfl

theorem occupied_zeroizeSubSlot (s : FractalArena g) (id : GenID) (subSlotSize : ℕ) :
    (s.zeroizeSubSlot id subSlotSize).2.occupied = s.occupied := by
  rw [zeroizeSubSlot_snd]
  rfl

/-- The bytes that a sub-slot view shows belong to a taken slot. -/
theorem viewSubSlot_occupied {a subSlotSize : ℕ} (h : a ∈ s.viewSubSlot id subSlotSize) :
    ∃ slot ∈ s.occupied, a ∈ g.slotSpan slot :=
  ⟨id.id, (validate_iff.mp (validate_of_mem_viewSubSlot h)).2.1, viewSubSlot_within _ _ _ a h⟩

theorem Clean.zeroizeSubSlot (h : s.Clean) (id : GenID) (subSlotSize : ℕ) :
    (s.zeroizeSubSlot id subSlotSize).2.Clean := by
  rw [zeroizeSubSlot_snd]
  apply h.of_die
  intro a ha
  have hmem : a ∈ s.viewSubSlot id subSlotSize := by
    by_contra hne
    exact ha (fill_of_notMem hne)
  exact viewSubSlot_occupied hmem

end FractalArena

end Qtx
