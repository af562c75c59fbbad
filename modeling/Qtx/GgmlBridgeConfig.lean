import Qtx.FractalArenaRuns
import Qtx.GgmlBridgeSteps

/-!
# The configuration that a bridge keeps

A bridge clamps the buffer size and the alignment of its configuration to the slot size,
and the arena checks the alignment of every request once more. The slot size is a multiple
of the cache line and need not be a power of two, so an alignment that was clamped to it
may be one that the arena refuses.
-/
namespace Qtx.GgmlBridge
open FractalArena FractalArenaRuns

variable {g : Geometry} {cfg : BridgeConfig}

/-- Every request within the limits passes the checks of the arena, and takes a slot if one is free. -/
def Usable (g : Geometry) (cfg : BridgeConfig) : Prop :=
  ∀ n, 1 ≤ n → n ≤ cfg.maxBufferSize → Accepts g n cfg.tensorAlignment ∧
    ∀ (s : FractalArena g) (mixThreadId : ℕ), (∃ slot < g.slotCount, s.selector.isOccupied slot = false) →
      (s.allocate n cfg.tensorAlignment mixThreadId).1.isNull = false

section Clamping

variable {slotSize : ℕ}

theorem maxBufferSize_pos (cfg : BridgeConfig) (h : 0 < slotSize) :
    0 < (validateConfig cfg slotSize).maxBufferSize := by
  simp only [validateConfig, Bool.or_eq_true, decide_eq_true_eq]
  split_ifs with hout
  · exact h
  · exact Nat.pos_of_ne_zero (not_or.mp hout).1

theorem maxBufferSize_le (cfg : BridgeConfig) (slotSize : ℕ) :
    (validateConfig cfg slotSize).maxBufferSize ≤ slotSize := by
  simp only [validateConfig, Bool.or_eq_true, decide_eq_true_eq]
  split_ifs with hout
  · exact le_rfl
  · exact Nat.not_lt.mp (not_or.mp hout).2

theorem tensorAlignment_le (cfg : BridgeConfig) (slotSize : ℕ) :
    (validateConfig cfg slotSize).tensorAlignment ≤ slotSize := by
  simp only [validateConfig]
  split_ifs
  all_goals omega

/-- The alignment kept is the default, the one requested or the slot size. -/
theorem tensorAlignment_eq (h : 128 ≤ slotSize) : (validateConfig cfg slotSize).tensorAlignment =
    if isPowerOfTwo cfg.tensorAlignment = false then 128
    else if cfg.tensorAlignment ≤ slotSize then cfg.tensorAlignment else slotSize := by
  have hzero : cfg.tensorAlignment = 0 → isPowerOfTwo cfg.tensorAlignment = false := fun hz => by rw [hz]; rfl
  simp only [validateConfig]
  by_cases hpow : isPowerOfTwo cfg.tensorAlignment = false
  · simp [hpow, Nat.not_lt.mpr h]
  · have hne : cfg.tensorAlignment ≠ 0 := fun hz => hpow (hzero hz)
    simp only [hne, hpow, decide_false, Bool.false_or, Bool.not_eq_true']
    split_ifs
    all_goals omega

/-- A clamped alignment is a power of two only where the slot size is one. -/
theorem isPowerOfTwo_tensorAlignment_iff (h : 128 ≤ slotSize) :
    isPowerOfTwo (validateConfig cfg slotSize).tensorAlignment = true ↔
      isPowerOfTwo cfg.tensorAlignment = false ∨ cfg.tensorAlignment ≤ slotSize ∨ isPowerOfTwo slotSize = true := by
  rw [tensorAlignment_eq h]
  split_ifs with hpow hle
  · exact iff_of_true (by decide) (.inl hpow)
  · exact iff_of_true (Bool.eq_true_of_not_eq_false hpow) (.inr (.inl hle))
  · simp [hpow, hle]

end Clamping

theorem cacheLine_le_slotSize (g : Geometry) : 128 ≤ g.slotSize :=
  Nat.le_of_dvd g.slotSize_pos (Nat.dvd_of_mod_eq_zero g.slotSize_mod)

/-- Only the alignment decides whether a request within the limits is accepted. -/
theorem accepts_iff {n : ℕ} (hpos : 1 ≤ n) (hle : n ≤ (validateConfig cfg g.slotSize).maxBufferSize) :
    Accepts g n (validateConfig cfg g.slotSize).tensorAlignment ↔
      isPowerOfTwo (validateConfig cfg g.slotSize).tensorAlignment = true :=
  ⟨fun h => h.2.2.1, fun h => ⟨hpos, hle.trans (maxBufferSize_le cfg _), h, tensorAlignment_le cfg _⟩⟩

/-- A request that the arena accepts succeeds while a slot is free. -/
theorem allocate_succeeds {n align : ℕ} (ha : Accepts g n align) (s : FractalArena g) (t : ℕ)
    (hfree : ∃ slot < g.slotCount, s.selector.isOccupied slot = false) :
    (s.allocate n align t).1.isNull = false := by
  obtain ⟨slot, hlt, hslot⟩ := hfree
  rw [← Bool.not_eq_true, allocate_null_iff t ha]
  intro hfull
  rw [hfull slot hlt] at hslot
  cases hslot

/-- For every slot size and every configuration: what the bridge keeps is usable if and only if the
alignment was not clamped to a slot size that is no power of two. -/
theorem usable_iff (g : Geometry) (cfg : BridgeConfig) : Usable g (validateConfig cfg g.slotSize) ↔
    isPowerOfTwo cfg.tensorAlignment = false ∨ cfg.tensorAlignment ≤ g.slotSize ∨
    isPowerOfTwo g.slotSize = true := by
  rw [← isPowerOfTwo_tensorAlignment_iff (cacheLine_le_slotSize g)]
  constructor
  · intro h
    have hpos := maxBufferSize_pos cfg g.slotSize_pos
    exact (accepts_iff hpos le_rfl).mp (h _ hpos le_rfl).1
  · intro hpow n hpos hle
    have ha : Accepts g n (validateConfig cfg g.slotSize).tensorAlignment := (accepts_iff hpos hle).mpr hpow
    exact ⟨ha, fun s t => allocate_succeeds ha s t⟩

section Bridges

variable {α : Type} [DecidableEq α] {host : Host α} {aa : ArenaAccess α}

/-- Through a bridge whose alignment is no power of two, every request for memory fails and changes nothing. -/
theorem allocBuffer_refused (s : State host) {bridge size : ℕ} (hacc : host.arenaAccess bridge = some aa)
    (hpow : isPowerOfTwo aa.tensorAlignment = false) (hsize : size ≠ 0) (t : ℕ) (succeeds : Bool) :
    allocBuffer s bridge size t succeeds = (.handle none, s) := by
  have hrefused : (s.arenas aa.arena).allocate size aa.tensorAlignment t = (.null, s.arenas aa.arena) := by
    apply allocate_of_not_accepts
    intro ha
    rw [ha.2.2.1] at hpow
    cases hpow
  have hsame : s.setArena aa.arena (s.arenas aa.arena) = s := by
    rw [State.setArena, Function.update_eq_self]
  have hnull : GenID.null.isNull = true := rfl
  simp only [allocBuffer, hacc, allocBufferOn, checkedCast_arenaAccess hacc, Bool.not_true, hsize, hrefused, hsame,
    hnull, Bool.false_eq_true, if_false, if_true]
  split_ifs
  · rfl
  · rfl

end Bridges

/-- 64 slots of 384 bytes. -/
def paddedGeometry : Geometry := ⟨oneWord, 384, smallGeometry.count_le, by decide, by decide, by decide⟩

/-- An alignment of 512 is clamped to 384, and a fresh arena refuses a request for one byte. -/
theorem clamped_not_usable :
    let kept := validateConfig ⟨384, 512⟩ paddedGeometry.slotSize
    kept.tensorAlignment = 384 ∧ kept.maxBufferSize = 384 ∧
      ((FractalArena.new paddedGeometry).allocate 1 kept.tensorAlignment 0).1.isNull = true ∧
      ¬ Usable paddedGeometry kept := by
  have hrefused : ¬ Accepts paddedGeometry 1 384 := fun h => absurd h.2.2.1 (by decide)
  refine ⟨rfl, rfl, ?_, fun h => hrefused (h 1 le_rfl (by decide)).1⟩
  exact congrArg (fun r => r.1.isNull) (allocate_of_not_accepts 0 hrefused)

end Qtx.GgmlBridge
