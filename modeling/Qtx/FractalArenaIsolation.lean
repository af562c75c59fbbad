import Qtx.FractalArenaOwnershipRuns

/-!
# Isolation of the threads of one arena

What the phases of the slots say about the threads: nobody shares a slot, nobody writes into
the slot of another thread, a new handle shows zeros, and a handle that was released is
refused until the generation of its slot comes round.
-/
namespace Qtx.FractalArenaThreads
open SpanMemory TransitionSystems FractalArena

variable {g : Geometry} {τ : Type*} [DecidableEq τ]

/-- What one step leaves to the threads: a handle is lost only by its own release, the bytes under it
change only by a write through it, and a handle that is new shows zeros. -/
structure Isolated (s : State g τ) (l : Label τ) (s' : State g τ) : Prop where
  keeps : ∀ t id, id ∈ s.held t → id ∈ s'.held t ∨ l = .callRelease t id
  bytes : ∀ t id, id ∈ s.held t →
    (∀ a ∈ g.slotSpan id.id, s'.die a = s.die a) ∨ ∃ i value, l = .write t id i value
  fresh : ∀ t id, id ∈ s'.held t → id ∉ s.held t → ∀ a ∈ g.slotSpan id.id, s'.die a = 0#8

variable {s s' : State g τ} {phase : ℕ → Phase τ} {start : τ → ℕ} {t : τ} {id : GenID}

/-- Of the steps inside a call only the fetch-add of `allocate` hands out a handle, and only a release writes. -/
theorem act_effect {spurious : Bool} (hs : act start s t spurious = some s') :
    (s'.held = s.held ∨ ∃ slot alignmentClass, s.pc t = .bumping slot alignmentClass ∧
      s' = s.issue t slot alignmentClass) ∧
    (s'.die = s.die ∨ ∃ id i, s.pc t = .wiping id i ∧ s'.die = assign s.die (g.slotSpan id.id) i 0#8) := by
  cases hpc : s.pc t with
  | idle => simp [act, hpc] at hs
  | acquiring _ =>
    simp only [act, hpc, Option.map_eq_some_iff] at hs
    obtain ⟨selector, -, rfl⟩ := hs
    exact ⟨.inl rfl, .inl rfl⟩
  | bumping slot alignmentClass =>
    simp only [act, hpc, Option.some.injEq] at hs
    subst hs
    exact ⟨.inr ⟨slot, alignmentClass, rfl, rfl⟩, .inl rfl⟩
  | loading call id =>
    rw [act_loading hpc, Option.some.injEq] at hs
    subst hs
    exact ⟨.inl rfl, .inl rfl⟩
  | testing call id =>
    simp only [act, hpc, Option.some.injEq] at hs
    subst hs
    exact ⟨.inl rfl, .inl rfl⟩
  | wiping id i =>
    simp only [act, hpc, Option.some.injEq] at hs
    subst hs
    exact ⟨.inl rfl, .inr ⟨id, i, rfl, rfl⟩⟩
  | retiring id =>
    simp only [act, hpc, Option.map_eq_some_iff] at hs
    obtain ⟨selector, -, rfl⟩ := hs
    exact ⟨.inl rfl, .inl rfl⟩
  | freeing id =>
    simp only [act, hpc, Option.map_eq_some_iff] at hs
    obtain ⟨selector, -, rfl⟩ := hs
    exact ⟨.inl rfl, .inl rfl⟩
  | answering call id accepted =>
    simp only [act, hpc, Option.some.injEq] at hs
    subst hs
    exact ⟨.inl rfl, .inl rfl⟩

omit [DecidableEq τ] in
theorem isolated_of_eq {l : Label τ} (hheld : s'.held = s.held) (hdie : s'.die = s.die) : Isolated s l s' where
  keeps t id hid := .inl (by rw [hheld]; exact hid)
  bytes _ _ _ := .inl (fun a _ => congrFun hdie a)
  fresh t id hid hnew := absurd (by rw [← hheld]; exact hid) hnew

omit [DecidableEq τ] in
/-- Handles of different slots do not see each other's bytes. -/
theorem Represents.assign_elsewhere (h : Represents s phase) {other : GenID} (hid : id ∈ s.held t)
    (hphase : phase other.id ≠ .live t id) {i : ℕ} {value : Byte} :
    ∀ a ∈ g.slotSpan id.id, assign s.die (g.slotSpan other.id) i value a = s.die a := by
  have hne : id.id ≠ other.id := fun heq => hphase (heq ▸ (h.held t id).mp hid)
  exact fun a ha => assign_of_notMem (Geometry.slotSpan_disjoint hne a ha)

theorem Represents.isolated_act (h : Represents s phase) {spurious : Bool}
    (hs : act start s t spurious = some s') : Isolated s (.act t spurious) s' := by
  obtain ⟨hheld, hdie⟩ := act_effect hs
  rcases hheld with hheld | ⟨slot, alignmentClass, hpc, rfl⟩
  · refine ⟨fun u id hid => .inl (by rw [hheld]; exact hid), fun u id hid => .inl ?_, ?_⟩
    · rcases hdie with hdie | ⟨other, i, hpc, hdie⟩
      · exact fun a _ => congrFun hdie a
      · have hclosing : phase other.id = .transit t (.closing other) := h.closing (by rw [hpc]; rfl)
        rw [hdie]
        exact h.assign_elsewhere hid (by simp [hclosing])
    · exact fun u id hid hnew => absurd (by rw [← hheld]; exact hid) hnew
  · have hphase := (h.hand t slot .claimed).mp (by rw [inHand, hpc])
    have howner : (phase slot).owner = some t := by rw [hphase]; rfl
    obtain ⟨hslot, -, -⟩ := issued (h.lt_of_owner howner) (h.consistent_of hpc) (s.versions slot + 1#16)
    refine ⟨fun u id hid => .inl ?_, fun u id hid => .inl (fun a _ => rfl), ?_⟩
    · change id ∈ Function.update s.held t _ u
      by_cases hu : u = t
      · subst hu
        rw [Function.update_self]
        exact Finset.mem_insert_of_mem hid
      · rwa [Function.update_of_ne hu]
    · intro u id hid hnew
      change id ∈ Function.update s.held t _ u at hid
      by_cases hu : u = t
      · subst hu
        rw [Function.update_self, Finset.mem_insert, or_iff_left hnew] at hid
        subst hid
        rw [hslot]
        exact h.clean slot (h.lt_of_owner howner) (by rw [hphase]; rfl)
      · rw [Function.update_of_ne hu] at hid
        exact absurd hid hnew

theorem Represents.isolated (h : Represents s phase) {l : Label τ} (hs : step start s l = some s') :
    Isolated s l s' := by
  cases l with
  | callAllocate t requestedSize requestedAlign =>
    simp only [step, AxiomSelectorThreads.step] at hs
    split_ifs at hs
    all_goals first | cases hs; exact isolated_of_eq rfl rfl | cases hs
  | callRelease t id =>
    simp only [step] at hs
    split_ifs at hs with hpc hheld hret
    · cases hs
      refine ⟨fun u other hother => ?_, fun _ _ _ => .inl (fun _ _ => rfl), fun u other hother hnew => ?_⟩
      · change other ∈ Function.update s.held t _ u ∨ _
        by_cases hu : u = t
        · subst hu
          rw [Function.update_self, Finset.mem_erase]
          by_cases ho : other = id
          · exact .inr (by rw [ho])
          · exact .inl ⟨ho, hother⟩
        · rw [Function.update_of_ne hu]
          exact .inl hother
      · change other ∈ Function.update s.held t _ u at hother
        by_cases hu : u = t
        · subst hu
          rw [Function.update_self] at hother
          exact absurd (Finset.mem_of_mem_erase hother) hnew
        · rw [Function.update_of_ne hu] at hother
          exact absurd hother hnew
    · cases hs
      exact isolated_of_eq rfl rfl
  | callValidate t id =>
    simp only [step, Option.ite_none_right_eq_some, Option.some.injEq] at hs
    obtain ⟨-, rfl⟩ := hs
    exact isolated_of_eq rfl rfl
  | callView t id =>
    simp only [step, Option.ite_none_right_eq_some, Option.some.injEq] at hs
    obtain ⟨-, rfl⟩ := hs
    exact isolated_of_eq rfl rfl
  | write t id i value =>
    simp only [step, Option.ite_none_right_eq_some, Option.some.injEq] at hs
    obtain ⟨⟨-, hid⟩, rfl⟩ := hs
    refine ⟨fun _ _ hother => .inl hother, fun u other hother => ?_, fun _ _ hother hnew => absurd hother hnew⟩
    have hlive := (h.held t id).mp hid
    by_cases heq : u = t ∧ other = id
    · obtain ⟨rfl, rfl⟩ := heq
      exact .inr ⟨i, value, rfl⟩
    · refine .inl (h.assign_elsewhere hother ?_)
      rw [hlive, Ne, Phase.live.injEq]
      exact fun hc => heq ⟨hc.1.symm, hc.2.symm⟩
  | act t spurious => exact h.isolated_act hs

omit [DecidableEq τ] in
/-- Between calls the occupied slots are those of the handles. -/
theorem Represents.usedSlots_eq (h : Represents s phase) (quiescent : ∀ t, s.pc t = .idle) :
    s.arena.usedSlots = {slot | ∃ t, ∃ id ∈ s.held t, id.id = slot}.ncard := by
  have heq : {slot | ∃ t, ∃ id ∈ s.held t, id.id = slot} = (↑s.arena.occupied : Set ℕ) := by
    ext slot
    rw [Set.mem_ofPred_eq, Finset.mem_coe, mem_occupied]
    constructor
    · rintro ⟨t, id, hid, rfl⟩
      obtain ⟨hlt, -, hocc⟩ := h.passes_held hid
      exact AxiomSelector.isOccupied_iff.mp hocc
    · rintro ⟨hlt, hfree⟩
      cases hp : phase slot with
      | free => exact absurd ((h.pool.free slot).mpr ⟨hlt, by rw [hp]; rfl⟩) hfree
      | live t id =>
        have hhandle : (phase slot).handle = some id := by rw [hp]; rfl
        obtain ⟨rfl, -⟩ := h.current slot id hhandle
        exact ⟨t, id, (h.held t id).mpr hp, rfl⟩
      | transit t kind =>
        have hold := (h.hand t slot kind).mpr hp
        rw [inHand, quiescent t] at hold
        cases hold
  rw [usedSlots_eq_card, heq, Set.ncard_coe_finset]

abbrev twoThreads : System (State smallGeometry Bool) (Label Bool) := system smallGeometry (fun _ => 0)

/-- One whole `allocate` that no other thread interrupts. -/
def wholeAllocate (t : Bool) : List (Label Bool) := .callAllocate t 100 64 :: List.replicate 4 (.act t false)

/-- The handle of the first allocation of slot 0, and of the second one. -/
def firstHandle : GenID := .make 0 1 6 .kFP32 .kActive
/-- One whole `release`, byte by byte. -/
def wholeRelease (t : Bool) : List (Label Bool) := .callRelease t firstHandle :: List.replicate 261 (.act t false)

def releasedTwice : List (Label Bool) :=
  wholeAllocate false ++ wholeRelease false ++ wholeAllocate true ++ [.callRelease false firstHandle]

/-- The second release has begun, and the slot belongs to the other thread. -/
@[irreducible] def releasing : State smallGeometry Bool := (twoThreads.restrict WithinHorizon).after releasedTwice

end Qtx.FractalArenaThreads
