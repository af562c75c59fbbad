import Qtx.FractalArena
import Qtx.TransitionSystems

/-!
# Whole runs of one arena

Next to the arena a run keeps the handles of the allocations that are still live:
`allocate` adds the handle it returns, and a `release` that is accepted ends the life
of the allocation in the slot it names, whichever handle it was given.
-/
namespace Qtx.FractalArenaRuns
open SpanMemory TransitionSystems FractalArena

variable {g : Geometry}

structure State (g : Geometry) where
  arena : FractalArena g
  live : List GenID

inductive Op
  | allocate (requestedSize requestedAlign mixThreadId : ℕ)
  | release (id : GenID)
  | view (id : GenID)
  | viewSubSlot (id : GenID) (subSlotSize : ℕ)
  | zeroizeSubSlot (id : GenID) (subSlotSize : ℕ)
  | write (id : GenID) (i : ℕ) (value : Byte)
  | writeSubSlot (id : GenID) (subSlotSize i : ℕ) (value : Byte)

def apply (s : State g) : Op → State g
  | .allocate requestedSize requestedAlign mixThreadId =>
    let (id, arena) := s.arena.allocate requestedSize requestedAlign mixThreadId
    ⟨arena, if id.isNull then s.live else id :: s.live⟩
  | .release id =>
    let (released, arena) := s.arena.release id
    ⟨arena, if released then s.live.filter (fun other => other.id ≠ id.id) else s.live⟩
  | .view _ | .viewSubSlot _ _ => s
  | .zeroizeSubSlot id subSlotSize => ⟨(s.arena.zeroizeSubSlot id subSlotSize).2, s.live⟩
  | .write id i value => ⟨s.arena.write (s.arena.view id) i value, s.live⟩
  | .writeSubSlot id subSlotSize i value =>
    ⟨s.arena.write (s.arena.viewSubSlot id subSlotSize) i value, s.live⟩

def system (g : Geometry) : System (State g) Op := ⟨⟨.new g, []⟩, fun s op => some (apply s op)⟩

theorem runFrom_eq (s : State g) (ops : List Op) : (system g).runFrom s ops = some (ops.foldl apply s) := by
  induction ops generalizing s with
  | nil => rfl
  | cons op ops ih => exact ih (apply s op)

structure Invariant (s : State g) : Prop where
  distinct : (s.live.map GenID.id).Nodup
  owned : ∀ slot, slot ∈ s.arena.occupied ↔ ∃ id ∈ s.live, id.id = slot
  valid : ∀ id ∈ s.live, s.arena.validate id = true
  clean : s.arena.Clean

theorem invariant_initial (g : Geometry) : Invariant (system g).init := by
  refine ⟨List.nodup_nil, ?_, ?_, clean_new g⟩
  · simp [system]
  · simp [system]

theorem Invariant.of_die {s : State g} (h : Invariant s) {die : ℕ → Byte}
    (hframe : ∀ a, die a ≠ s.arena.die a → ∃ slot ∈ s.arena.occupied, a ∈ g.slotSpan slot) :
    Invariant ⟨{ s.arena with die := die }, s.live⟩ :=
  ⟨h.distinct, h.owned, h.valid, h.clean.of_die hframe⟩

theorem Invariant.allocate {s : State g} (h : Invariant s) (requestedSize requestedAlign t : ℕ) :
    Invariant (apply s (.allocate requestedSize requestedAlign t)) := by
  simp only [apply]
  rcases s.arena.allocate_cases requestedSize requestedAlign t with ⟨hnull, -⟩ | ⟨-, hal⟩
  · rw [hnull]
    exact h
  · rw [if_neg (by simp [hal.notNull])]
    refine ⟨?_, ?_, ?_, hal.clean h.clean⟩
    · rw [List.map_cons, List.nodup_cons]
      refine ⟨?_, h.distinct⟩
      intro hmem
      obtain ⟨other, hother, heq⟩ := List.mem_map.mp hmem
      exact hal.fresh ((h.owned _).mpr ⟨other, hother, heq⟩)
    · intro slot
      rw [hal.occupied, Finset.mem_insert, h.owned slot, List.exists_mem_cons_iff]
      exact or_congr_left eq_comm
    · intro id hid
      rcases List.mem_cons.mp hid with rfl | hid
      · exact hal.validate
      · exact hal.validate_of_valid (h.valid id hid)

theorem Invariant.release {s : State g} (h : Invariant s) (id : GenID) :
    Invariant (apply s (.release id)) := by
  simp only [apply]
  by_cases hv : s.arena.validate id = true
  · obtain ⟨hfst, hrel⟩ := release_of_validate hv
    rw [hfst, if_pos rfl]
    refine ⟨?_, ?_, ?_, hrel.clean h.clean⟩
    · exact h.distinct.sublist (List.filter_sublist.map _)
    · intro slot
      rw [hrel.occupied, Finset.mem_erase, h.owned slot]
      simp only [List.mem_filter, decide_eq_true_eq]
      constructor
      · rintro ⟨hne, other, hother, rfl⟩
        exact ⟨other, ⟨hother, hne⟩, rfl⟩
      · rintro ⟨other, ⟨hother, hne⟩, rfl⟩
        exact ⟨hne, other, hother, rfl⟩
    · intro other hother
      rw [List.mem_filter, decide_eq_true_eq] at hother
      rw [hrel.validate_of_ne hother.2]
      exact h.valid other hother.1
  · rw [release_of_not_validate (Bool.eq_false_iff.mpr hv)]
    exact h

theorem Invariant.apply {s : State g} (h : Invariant s) (op : Op) : Invariant (apply s op) := by
  cases op with
  | allocate requestedSize requestedAlign t => exact h.allocate requestedSize requestedAlign t
  | release id => exact h.release id
  | view _ => exact h
  | viewSubSlot _ _ => exact h
  | zeroizeSubSlot id subSlotSize =>
    have hv := validate_zeroizeSubSlot s.arena id subSlotSize
    have ho := occupied_zeroizeSubSlot s.arena id subSlotSize
    refine ⟨h.distinct, ?_, ?_, h.clean.zeroizeSubSlot id subSlotSize⟩
    · intro slot
      exact (iff_of_eq (congrArg (slot ∈ ·) ho)).trans (h.owned slot)
    · intro other hother
      exact (hv other).trans (h.valid other hother)
  | write id i value =>
    refine h.of_die ?_
    intro a ha
    have hmem : a ∈ s.arena.view id := by
      by_contra hne
      exact ha (assign_of_notMem hne)
    exact ⟨id.id, (validate_iff.mp (validate_of_mem_view hmem)).2.1, view_within _ _ a hmem⟩
  | writeSubSlot id subSlotSize i value =>
    refine h.of_die ?_
    intro a ha
    have hmem : a ∈ s.arena.viewSubSlot id subSlotSize := by
      by_contra hne
      exact ha (assign_of_notMem hne)
    exact viewSubSlot_occupied hmem

theorem invariant_reachable {s : State g} (h : (system g).Reachable s) : Invariant s := by
  refine h.invariant (invariant_initial g) ?_
  intro t op u ht hs
  cases hs
  exact ht.apply op

theorem Invariant.usedSlots_eq {s : State g} (h : Invariant s) : s.arena.usedSlots = s.live.length := by
  have himage : s.arena.occupied = (s.live.map GenID.id).toFinset := by
    ext slot
    rw [h.owned slot, List.mem_toFinset, List.mem_map]
  rw [usedSlots_eq_card, himage, List.toFinset_card_of_nodup h.distinct, List.length_map]

theorem Invariant.views_disjoint {s : State g} (h : Invariant s) {id id' : GenID} (hid : id ∈ s.live)
    (hid' : id' ∈ s.live) (hne : id ≠ id') : (s.arena.view id).Disjoint (s.arena.view id') := by
  have hslot : id.id ≠ id'.id := fun heq => hne (List.inj_on_of_nodup_map h.distinct hid hid' heq)
  rw [view_of_validate (h.valid id hid), view_of_validate (h.valid id' hid')]
  exact Geometry.slotSpan_disjoint hslot

theorem allocate_null_iff {s : FractalArena g} {requestedSize requestedAlign : ℕ} (t : ℕ)
    (ha : Accepts g requestedSize requestedAlign) :
    (s.allocate requestedSize requestedAlign t).1.isNull = true ↔
      ∀ slot < g.slotCount, s.selector.isOccupied slot = true := by
  have hfull : (∀ slot < g.slotCount, s.selector.isOccupied slot = true) ↔
      s.occupied = Finset.range g.slotCount := by
    constructor
    · intro h
      ext slot
      rw [Finset.mem_range]
      exact ⟨lt_of_mem_occupied, fun hlt => isOccupied_iff.mp (h slot hlt)⟩
    · intro h slot hlt
      rw [isOccupied_iff, h, Finset.mem_range]
      exact hlt
  rw [hfull]
  rcases s.allocate_cases requestedSize requestedAlign t with ⟨hnull, hwhy⟩ | ⟨-, hal⟩
  · rw [hnull]
    exact ⟨fun _ => hwhy.resolve_left (not_not.mpr ha), fun _ => rfl⟩
  · rw [hal.notNull]
    constructor
    · intro h
      cases h
    · intro h
      exact absurd (h ▸ Finset.mem_range.mpr hal.lt) hal.fresh

/-- A fresh allocation reads as all zero. -/
theorem Invariant.fresh_zero {s : State g} (h : Invariant s) (requestedSize requestedAlign t : ℕ)
    (hn : (s.arena.allocate requestedSize requestedAlign t).1.isNull = false) :
    let (id, arena) := s.arena.allocate requestedSize requestedAlign t
    load arena.die (arena.view id) = List.replicate g.slotSize 0#8 := by
  rcases s.arena.allocate_cases requestedSize requestedAlign t with ⟨hnull, -⟩ | ⟨-, hal⟩
  · rw [hnull] at hn
    cases hn
  · dsimp only
    generalize hid : (s.arena.allocate requestedSize requestedAlign t).1 = id at hal
    rw [view_of_validate hal.validate, hal.die]
    refine Eq.trans ?_ (load_fill_self s.arena.die (g.slotSpan id.id) 0#8)
    apply load_congr
    intro a ha
    rw [h.clean _ hal.lt hal.fresh a ha, fill_of_mem ha]

theorem zeroizeSubSlot_of_not_validate {s : FractalArena g} {id : GenID} (h : s.validate id = false)
    (subSlotSize : ℕ) : s.zeroizeSubSlot id subSlotSize = (false, s) := by
  simp [zeroizeSubSlot, viewSubSlot_of_not_validate h]

/-- For every admitted geometry and every run of arena operations on arbitrary handles
the live allocations own the taken slots one to one and hold them safely. -/
theorem run_invariant {s : State g} (h : (system g).Reachable s) :
    ((s.live.map GenID.id).Nodup ∧ ∀ id ∈ s.live, s.arena.validate id = true) ∧
    ((∀ id ∈ s.live, (s.arena.view id).length = g.slotSize ∧ (s.arena.view id).Within ⟨0, g.totalSize⟩) ∧
      ∀ id ∈ s.live, ∀ id' ∈ s.live, id ≠ id' → (s.arena.view id).Disjoint (s.arena.view id')) ∧
    s.arena.usedSlots = s.live.length ∧
    (∀ requestedSize requestedAlign t, Accepts g requestedSize requestedAlign →
      ((s.arena.allocate requestedSize requestedAlign t).1.isNull = true ↔
        ∀ slot < g.slotCount, s.arena.selector.isOccupied slot = true)) ∧
    ((∀ slot < g.slotCount, s.arena.selector.isOccupied slot = false →
        ∀ a ∈ g.slotSpan slot, s.arena.die a = 0#8) ∧
      ∀ requestedSize requestedAlign t,
        (s.arena.allocate requestedSize requestedAlign t).1.isNull = false →
        let (id, arena) := s.arena.allocate requestedSize requestedAlign t
        load arena.die (arena.view id) = List.replicate g.slotSize 0#8) ∧
    (∀ id, s.arena.validate id = false → s.arena.release id = (false, s.arena) ∧
      ∀ subSlotSize, s.arena.zeroizeSubSlot id subSlotSize = (false, s.arena)) ∧
    ∀ id subSlotSize arena, s.arena.zeroizeSubSlot id subSlotSize = (true, arena) →
      arena.versions = s.arena.versions ∧ arena.selector = s.arena.selector ∧
      ∀ a, arena.die a = if a ∈ g.subSlotSpan id.id id.subSlotIndex subSlotSize then 0#8 else s.arena.die a := by
  have hinv := invariant_reachable h
  refine ⟨⟨hinv.distinct, hinv.valid⟩, ⟨?_, ?_⟩, hinv.usedSlots_eq, ?_, ⟨?_, ?_⟩, ?_, ?_⟩
  · intro id hid
    have hv := hinv.valid id hid
    rw [view_of_validate hv]
    exact ⟨rfl, Geometry.slotSpan_within (lt_of_mem_occupied (validate_iff.mp hv).2.1)⟩
  · intro id hid id' hid' hne
    exact hinv.views_disjoint hid hid' hne
  · intro requestedSize requestedAlign t ha
    exact allocate_null_iff t ha
  · intro slot hlt hfree
    refine hinv.clean slot hlt ?_
    rw [← isOccupied_iff, hfree]
    exact Bool.false_ne_true
  · exact hinv.fresh_zero
  · intro id hv
    exact ⟨release_of_not_validate hv, zeroizeSubSlot_of_not_validate hv⟩
  · intro id subSlotSize arena hz
    have hfst : (s.arena.zeroizeSubSlot id subSlotSize).1 = true := congrArg Prod.fst hz
    have hsnd : (s.arena.zeroizeSubSlot id subSlotSize).2 = arena := congrArg Prod.snd hz
    rw [zeroizeSubSlot_fst, Bool.not_eq_true'] at hfst
    rcases s.arena.viewSubSlot_cases id subSlotSize with hnone | ⟨-, -, hspan⟩
    · rw [hnone] at hfst
      cases hfst
    · rw [← hsnd, zeroizeSubSlot_snd, hspan]
      exact ⟨rfl, rfl, fun a => rfl⟩

/-- Slot 0 is taken, written, released and taken again. -/
def reuseRun : List Op :=
  [.allocate 256 128 0, .write (.make 0 1 7 .kFP32 .kActive) 3 170#8,
    .release (.make 0 1 7 .kFP32 .kActive), .allocate 1 64 0]

theorem reuseRun_reachable : (system smallGeometry).Reachable (reuseRun.foldl apply ⟨.new smallGeometry, []⟩) ∧
    (reuseRun.foldl apply ⟨.new smallGeometry, []⟩).arena.usedSlots = 1 := by
  have hr : (system smallGeometry).Reachable (reuseRun.foldl apply ⟨.new smallGeometry, []⟩) :=
    System.reachable_of_runFrom (runFrom_eq _ reuseRun)
  have hlen : (reuseRun.foldl apply ⟨.new smallGeometry, []⟩).live.length = 1 := by decide +kernel
  exact ⟨hr, (run_invariant hr).2.2.1.trans hlen⟩

end Qtx.FractalArenaRuns
