import Qtx.FractalArenaRuns

/-!
# The alignment of a slot

The die lies at a multiple of the cache line, and so does every slot. An allocation is
accepted for every power of two up to the size of a slot, so a larger alignment holds
only where the die and the stride of the slots happen to have it.
-/
namespace Qtx.FractalArenaAlignment

open SpanMemory FractalArena FractalArenaRuns

variable {g : Geometry} {base requestedSize requestedAlign : ℕ}

/-- In a die at address `base`, the view of the handle that an allocation returns starts at a multiple of
its alignment. -/
def Honours (base requestedSize requestedAlign : ℕ) (s : FractalArena g) (mixThreadId : ℕ) : Prop :=
  let result := s.allocate requestedSize requestedAlign mixThreadId
  result.1.isNull = false → requestedAlign ∣ base + (result.2.view result.1).base

/-- An allocation starts at the slot it takes. -/
theorem honours_iff_of_allocated {s : FractalArena g} {t : ℕ}
    (h : Allocated s (s.allocate requestedSize requestedAlign t).1 (s.allocate requestedSize requestedAlign t).2) :
    Honours base requestedSize requestedAlign s t ↔
      requestedAlign ∣ base + (s.allocate requestedSize requestedAlign t).1.id * g.slotSize := by
  have hview : (s.allocate requestedSize requestedAlign t).2.view (s.allocate requestedSize requestedAlign t).1 =
      g.slotSpan (s.allocate requestedSize requestedAlign t).1.id := view_of_validate h.validate
  rw [Honours, hview]
  exact ⟨fun haligned => haligned h.notNull, fun haligned _ => haligned⟩

/-- Every slot is aligned where the die and the stride are. -/
theorem honours_of_dvd (hbase : requestedAlign ∣ base) (hstride : requestedAlign ∣ g.slotSize)
    (s : FractalArena g) (t : ℕ) :
    Honours base requestedSize requestedAlign s t := by
  rcases s.allocate_cases requestedSize requestedAlign t with ⟨hnull, -⟩ | ⟨-, hal⟩
  · rw [Honours, hnull]
    exact fun hc => absurd hc (by simp)
  · exact (honours_iff_of_allocated hal).mpr (Nat.dvd_add hbase (hstride.mul_left _))

/-- The powers of two up to the cache line divide it. -/
theorem dvd_of_le_cacheLine (hpow : isPowerOfTwo requestedAlign = true) (hle : requestedAlign ≤ kMaxCacheLineSize) :
    requestedAlign ∣ kMaxCacheLineSize := by
  obtain ⟨k, rfl⟩ := isPowerOfTwo_iff.mp hpow
  have hline : kMaxCacheLineSize = 2 ^ 7 := rfl
  rw [hline] at hle ⊢
  exact pow_dvd_pow 2 ((Nat.pow_le_pow_iff_right Nat.one_lt_two).mp hle)

theorem slotCount_ge (g : Geometry) : 64 ≤ g.slotCount :=
  Nat.le_of_dvd g.count.pos (Nat.dvd_of_mod_eq_zero g.count.mod_eq)

/-- The same allocation, `k` times. -/
def filled (g : Geometry) (requestedSize requestedAlign k : ℕ) : FractalArena g :=
  ((List.replicate k (Op.allocate requestedSize requestedAlign 0)).foldl apply ⟨.new g, []⟩).arena

theorem filled_succ (k : ℕ) : filled g requestedSize requestedAlign (k + 1) =
    ((filled g requestedSize requestedAlign k).allocate requestedSize requestedAlign 0).2 := by
  rw [filled, List.replicate_succ', List.foldl_concat]
  rfl

/-- Repeating an allocation takes one slot after the other, and each of them is aligned. -/
theorem filled_aligned (hacc : Accepts g requestedSize requestedAlign)
    (h : ∀ before : List Op, Honours base requestedSize requestedAlign (before.foldl apply ⟨.new g, []⟩).arena 0) :
    ∀ k ≤ g.slotCount, (filled g requestedSize requestedAlign k).occupied.card = k ∧
      ∀ slot ∈ (filled g requestedSize requestedAlign k).occupied, requestedAlign ∣ base + slot * g.slotSize := by
  intro k
  induction k with
  | zero =>
    intro _
    have hnew : (filled g requestedSize requestedAlign 0).occupied = ∅ := occupied_new g
    rw [hnew]
    exact ⟨Finset.card_empty, fun slot hslot => absurd hslot (Finset.notMem_empty slot)⟩
  | succ k ih =>
    intro hk
    obtain ⟨hcard, haligned⟩ := ih (Nat.le_of_succ_le hk)
    rcases (filled g requestedSize requestedAlign k).allocate_cases requestedSize requestedAlign 0 with
      ⟨-, hrefused | hfull⟩ | ⟨-, hal⟩
    · exact absurd hacc hrefused
    · rw [hfull, Finset.card_range] at hcard
      exact absurd hcard (Nat.ne_of_gt hk)
    · rw [filled_succ, hal.occupied]
      refine ⟨by rw [Finset.card_insert_of_notMem hal.fresh, hcard], fun slot hslot => ?_⟩
      rcases Finset.mem_insert.mp hslot with rfl | hslot
      · exact (honours_iff_of_allocated hal).mp (h _)
      · exact haligned slot hslot

/-- In every state an accepted allocation honours its alignment, if and only if the alignment is at most a
cache line, or both the address of the die and the stride of the slots are multiples of it. -/
theorem honours_iff (hbase : kMaxCacheLineSize ∣ base) (hacc : Accepts g requestedSize requestedAlign) :
    (∀ (before : List Op) (t : ℕ),
      Honours base requestedSize requestedAlign (before.foldl apply ⟨.new g, []⟩).arena t) ↔
    requestedAlign ≤ kMaxCacheLineSize ∨ requestedAlign ∣ base ∧ requestedAlign ∣ g.slotSize := by
  constructor
  · intro h
    right
    obtain ⟨hcard, haligned⟩ := filled_aligned hacc (fun before => h before 0) g.slotCount le_rfl
    have hfull : (filled g requestedSize requestedAlign g.slotCount).occupied = Finset.range g.slotCount := by
      apply Finset.eq_of_subset_of_card_le
      · exact fun slot hslot => Finset.mem_range.mpr (lt_of_mem_occupied hslot)
      · rw [Finset.card_range, hcard]
    have hge := slotCount_ge g
    have hzero := haligned 0 (by rw [hfull, Finset.mem_range]; omega)
    have hone := haligned 1 (by rw [hfull, Finset.mem_range]; omega)
    rw [Nat.zero_mul, Nat.add_zero] at hzero
    rw [Nat.one_mul] at hone
    exact ⟨hzero, (Nat.dvd_add_right hzero).mp hone⟩
  · intro h before t
    have hdvd : requestedAlign ∣ base ∧ requestedAlign ∣ g.slotSize := by
      rcases h with hle | hdvd
      · have hline := dvd_of_le_cacheLine hacc.2.2.1 hle
        exact ⟨hline.trans hbase, hline.trans (Nat.dvd_of_mod_eq_zero g.slotSize_mod)⟩
      · exact hdvd
    exact honours_of_dvd hdvd.1 hdvd.2 _ t

/-- A die at an odd multiple of the cache line, and slots that hold a cache line. -/
theorem honours_iff_cacheLine : Accepts smallGeometry 1 128 ∧ ∀ (before : List Op) (t : ℕ),
    Honours (g := smallGeometry) 128 1 128 (before.foldl apply ⟨.new smallGeometry, []⟩).arena t := by
  have hacc : Accepts smallGeometry 1 128 := ⟨Nat.one_pos, by decide, by decide, by decide⟩
  exact ⟨hacc, (honours_iff (Dvd.intro 1 rfl) hacc).mpr (.inl le_rfl)⟩

/-- The die at address 128 is aligned, and the first slot of 256 bytes is not. -/
theorem honours_fails : kMaxCacheLineSize ∣ 128 ∧ Accepts smallGeometry 256 256 ∧
    ((FractalArena.new smallGeometry).allocate 256 256 0).1.isNull = false ∧
    ¬ Honours 128 256 256 (FractalArena.new smallGeometry) 0 := by
  refine ⟨Dvd.intro 1 rfl, ⟨by decide, by decide, by decide, by decide⟩, by decide +kernel, ?_⟩
  unfold Honours
  decide +kernel

end Qtx.FractalArenaAlignment
