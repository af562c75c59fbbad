import Qtx.FractalArenaRuns
import Qtx.GenerationCounters

/-!
# How long a stale handle stays stale

Every slot of the arena is a cell with a generation counter: an allocation takes it, a
release gives it back, and no operation on another slot is seen by it.
-/
namespace Qtx.FractalArenaHorizon
open FractalArena FractalArenaRuns GenerationCounters

variable {g : Geometry}

/-- The slot as a cell of its own. -/
def cell (s : State g) (slot : ℕ) : Cell 16 := ⟨s.arena.selector.isOccupied slot, s.arena.versions slot⟩

/-- The slot that an operation takes. -/
def allocated (s : State g) : Op → Option ℕ
  | .allocate requestedSize requestedAlign mixThreadId =>
    let id := (s.arena.allocate requestedSize requestedAlign mixThreadId).1
    if id.isNull then none else some id.id
  | _ => none

/-- How many operations of a run take the slot. -/
def allocationsOf (slot : ℕ) : State g → List Op → ℕ
  | _, [] => 0
  | s, op :: ops => (if allocated s op = some slot then 1 else 0) + allocationsOf slot (apply s op) ops

variable {s : State g} {slot : ℕ} {id : GenID}

theorem cell_eq (ho : slot ∈ s.arena.occupied) : cell s slot = ⟨true, s.arena.versions slot⟩ := by
  rw [cell, isOccupied_iff.mpr ho]

theorem cell_eq_of_free (ho : slot ∉ s.arena.occupied) : cell s slot = ⟨false, s.arena.versions slot⟩ := by
  rw [cell, Bool.eq_false_iff.mpr (mt isOccupied_iff.mp ho)]

theorem cell_congr {t : State g} (ho : slot ∈ t.arena.occupied ↔ slot ∈ s.arena.occupied)
    (hv : t.arena.versions slot = s.arena.versions slot) : cell t slot = cell s slot := by
  rw [cell, cell, hv, Cell.mk.injEq, Bool.eq_iff_iff, isOccupied_iff, isOccupied_iff]
  exact ⟨ho, rfl⟩

theorem reaches_allocate (s : State g) (slot requestedSize requestedAlign t : ℕ) :
    Reaches (cell s slot) (if allocated s (.allocate requestedSize requestedAlign t) = some slot then 1 else 0)
      (cell (apply s (.allocate requestedSize requestedAlign t)) slot) := by
  rcases s.arena.allocate_cases requestedSize requestedAlign t with ⟨hnull, -⟩ | ⟨-, hal⟩
  · simp only [allocated, apply, hnull, GenID.isNull_null, if_true, reduceCtorEq, if_false]
    exact .refl
  · simp only [allocated, apply, hal.notNull, Bool.false_eq_true, if_false, Option.some.injEq]
    generalize (s.arena.allocate requestedSize requestedAlign t).2 = arena at hal ⊢
    generalize (s.arena.allocate requestedSize requestedAlign t).1 = id at hal ⊢
    by_cases hs : id.id = slot
    · subst hs
      have hnew : cell ⟨arena, id :: s.live⟩ id.id = ⟨true, s.arena.versions id.id + 1#16⟩ := by
        rw [cell_eq (s := ⟨arena, id :: s.live⟩) (hal.occupied ▸ Finset.mem_insert_self _ _)]
        simp only [hal.versions, bumpVersion, Function.update_self]
      rw [if_pos rfl, hnew, cell_eq_of_free hal.fresh]
      exact .take .refl rfl
    · have hsame : cell ⟨arena, id :: s.live⟩ slot = cell s slot := by
        apply cell_congr
        · simp only [hal.occupied, Finset.mem_insert, Ne.symm hs, false_or]
        · simp only [hal.versions, bumpVersion, Function.update_of_ne (Ne.symm hs)]
      rw [if_neg hs, hsame]
      exact .refl

theorem reaches_release (s : State g) (slot : ℕ) (id : GenID) :
    Reaches (cell s slot) 0 (cell (apply s (.release id)) slot) := by
  by_cases hv : s.arena.validate id = true
  · have hrel := (release_of_validate hv).2
    by_cases hs : slot = id.id
    · subst hs
      have hocc := (validate_iff.mp hv).2.1
      have hnew : cell (apply s (.release id)) id.id = ⟨false, s.arena.versions id.id + 1#16⟩ := by
        rw [cell_eq_of_free]
        · simp only [apply, hrel.versions, bumpVersion, Function.update_self]
        · simp only [apply, hrel.occupied, Finset.notMem_erase, not_false_eq_true]
      rw [hnew, cell_eq hocc]
      exact .give .refl rfl
    · have hsame : cell (apply s (.release id)) slot = cell s slot := by
        apply cell_congr
        · simp only [apply, hrel.occupied, Finset.mem_erase, ne_eq, hs, not_false_eq_true, true_and]
        · simp only [apply, hrel.versions, bumpVersion, Function.update_of_ne hs]
      rw [hsame]
      exact .refl
  · rw [Bool.not_eq_true] at hv
    have hsame : cell (apply s (.release id)) slot = cell s slot := by
      simp only [apply, release_of_not_validate hv, cell]
    rw [hsame]
    exact .refl

/-- An operation is seen by a slot only as a change of its own cell. -/
theorem reaches_apply (s : State g) (slot : ℕ) (op : Op) :
    Reaches (cell s slot) (if allocated s op = some slot then 1 else 0) (cell (apply s op) slot) := by
  cases op with
  | allocate requestedSize requestedAlign t => exact reaches_allocate s slot requestedSize requestedAlign t
  | release id => exact reaches_release s slot id
  | zeroizeSubSlot id subSlotSize =>
    have hsame : cell (apply s (.zeroizeSubSlot id subSlotSize)) slot = cell s slot := by
      simp only [apply, cell, zeroizeSubSlot_snd]
    rw [hsame]
    exact .refl
  | view _ => exact .refl
  | viewSubSlot _ _ => exact .refl
  | write _ _ _ => exact .refl
  | writeSubSlot _ _ _ _ => exact .refl

theorem reaches_run (s : State g) (slot : ℕ) (ops : List Op) :
    Reaches (cell s slot) (allocationsOf slot s ops) (cell (ops.foldl apply s) slot) := by
  induction ops generalizing s with
  | nil => exact .refl
  | cons op ops ih => exact (reaches_apply s slot op).trans (ih (apply s op))

/-- Whatever happens after an allocation, its handle is accepted exactly while the slot
is taken and has been taken a multiple of 32768 times since. -/
theorem validate_run_iff {s : State g} {id : GenID} (hv : s.arena.validate id = true) (ops : List Op) :
    (ops.foldl apply s).arena.validate id = true ↔
      (ops.foldl apply s).arena.selector.isOccupied id.id = true ∧ 32768 ∣ allocationsOf id.id s ops := by
  obtain ⟨hnull, hocc, hver⟩ := validate_iff.mp hv
  rw [validate_iff, hnull, ← hver, isOccupied_iff, BitVec.toNat_inj]
  refine (and_iff_right rfl).trans (and_congr_right (fun htaken => ?_))
  have hrun := reaches_run s id.id ops
  exact hrun.version_eq_iff (k := 15) (isOccupied_iff.mpr hocc) (isOccupied_iff.mpr htaken)

/-- In every run, and for every handle that one of its allocations returned: at every
later state the handle is accepted exactly while its slot is taken and the slot was
taken a multiple of 32768 times after that allocation. A handle that was released is
refused through the next 32767 uses of its slot, and a free slot accepts no handle. -/
theorem allocate_horizon (g : Geometry) (before later : List Op) (requestedSize requestedAlign t : ℕ) :
    let s := before.foldl apply ⟨.new g, []⟩
    let id := (s.arena.allocate requestedSize requestedAlign t).1
    let start := apply s (.allocate requestedSize requestedAlign t)
    let s' := later.foldl apply start
    (id.isNull = false → (s'.arena.validate id = true ↔
      s'.arena.selector.isOccupied id.id = true ∧ 32768 ∣ allocationsOf id.id start later)) ∧
    (id.isNull = false → 0 < allocationsOf id.id start later → allocationsOf id.id start later ≤ 32767 →
      s'.arena.validate id = false) ∧
    ∀ other : GenID, s'.arena.selector.isOccupied other.id = false → s'.arena.validate other = false := by
  intro s id start s'
  have hiff : id.isNull = false → (s'.arena.validate id = true ↔
      s'.arena.selector.isOccupied id.id = true ∧ 32768 ∣ allocationsOf id.id start later) := by
    intro hnull
    refine validate_run_iff (s := start) ?_ later
    rcases s.arena.allocate_cases requestedSize requestedAlign t with ⟨hnone, -⟩ | ⟨-, hal⟩
    · exact absurd hnull (by simp [id, hnone])
    · exact hal.validate
  refine ⟨hiff, ?_, ?_⟩
  · intro hnull hpos hle
    rw [Bool.eq_false_iff, Ne, hiff hnull]
    exact fun h => Nat.not_dvd_of_pos_of_lt hpos (Nat.lt_succ_of_le hle) h.2
  · intro other hfree
    rw [Bool.eq_false_iff, Ne, validate_iff, ← isOccupied_iff, hfree]
    simp

/-- The release of a handle and one more allocation, which takes the same slot. -/
def reuse : List Op := [.release (.make 0 1 7 .kFP32 .kActive), .allocate 1 64 0]

theorem allocate_horizon_reuse :
    ((reuse.foldl apply (apply ⟨.new smallGeometry, []⟩ (.allocate 256 128 0))).arena.validate
      (.make 0 1 7 .kFP32 .kActive)) = false := by
  have hid : ((FractalArena.new smallGeometry).allocate 256 128 0).1 = .make 0 1 7 .kFP32 .kActive := by
    decide +kernel
  have hstale := (allocate_horizon smallGeometry [] reuse 256 128 0).2.1 (by decide +kernel)
    (by decide +kernel) (by decide +kernel)
  exact hid ▸ hstale

end Qtx.FractalArenaHorizon
