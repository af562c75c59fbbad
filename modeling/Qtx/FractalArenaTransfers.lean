import Qtx.FractalArenaOwnership

/-!
# How a slot changes hands

One lemma for each step that moves a slot from one phase to the next: the winning
compare-exchange claims it, the fetch-add of `allocate` issues its handle, `release` takes
the handle back and retires it, and the fetch-or of the selector frees the slot.
-/
namespace Qtx.FractalArenaThreads
open SpanMemory TransitionSystems FractalArena GenerationCounters

variable {g : Geometry} {τ : Type*} [DecidableEq τ] {s : State g τ} {phase : ℕ → Phase τ} {t : τ} {start : τ → ℕ}

omit [DecidableEq τ] in
theorem Represents.linked_of {pc : Pc} (h : Represents s phase) (hpc : s.pc t = pc) : Linked pc (s.selector.pc t) :=
  hpc ▸ h.linked t

omit [DecidableEq τ] in
theorem Represents.consistent_of {pc : Pc} (h : Represents s phase) (hpc : s.pc t = pc) : Consistent s t pc :=
  hpc ▸ h.consistent t

theorem pool_goto {owner : ℕ → Option τ} {sel : AxiomSelectorThreads.State g.count τ}
    (h : AxiomSelectorThreads.Represents sel owner) (pc : AxiomSelectorThreads.Pc)
    (before : ∀ slot, sel.pc t ≠ .returning (some slot)) (after : pc.Unclaiming sel t) :
    AxiomSelectorThreads.Represents (sel.goto t pc) owner ∧ ∀ t' ≠ t, (sel.goto t pc).pc t' = sel.pc t' :=
  ⟨h.goto before after, fun _ ht => AxiomSelectorThreads.goto_pc_of_ne sel pc ht⟩

omit [DecidableEq τ] in
/-- A call of `acquire` that has no slot yet. -/
theorem won_of_unclaiming {sel : AxiomSelectorThreads.State g.count τ} {pc : AxiomSelectorThreads.Pc}
    (h : pc.Unclaiming sel t) : won pc = none := by
  cases pc with
  | returning result =>
    cases result with
    | none => rfl
    | some slot => exact h.elim
  | idle => rfl
  | load _ _ => rfl
  | cas _ _ _ _ => rfl
  | releasing _ => rfl

theorem inHand_goto_acquiring (s : State g τ) (t : τ) (alignmentClass : ℕ)
    (selector : AxiomSelectorThreads.State g.count τ) :
    inHand { s.goto t (.acquiring alignmentClass) with selector := selector } t = won (selector.pc t) := by
  simp [inHand, State.goto]

theorem linked_afterWord (alignmentClass pass i : ℕ) :
    Linked (.acquiring alignmentClass) (AxiomSelectorThreads.afterWord g.count pass i) := by
  unfold AxiomSelectorThreads.afterWord
  split_ifs
  · exact ⟨by simp, by simp⟩
  · exact ⟨by simp, by simp⟩
  · exact ⟨by simp, by simp⟩

theorem linked_scan (alignmentClass pass i : ℕ) (x : BitVec 64) (r : ℕ) :
    Linked (.acquiring alignmentClass) (AxiomSelectorThreads.scan g.count pass i x r) := by
  unfold AxiomSelectorThreads.scan
  split_ifs
  · exact linked_afterWord alignmentClass pass i
  · exact ⟨by simp, by simp⟩

/-- A step inside `acquire` that takes no slot. -/
theorem Represents.search (h : Represents s phase) {alignmentClass : ℕ} {pc : AxiomSelectorThreads.Pc}
    (hpc : s.pc t = .acquiring alignmentClass) (before : (s.selector.pc t).Unclaiming s.selector t)
    (after : pc.Unclaiming s.selector t) (linked : Linked (.acquiring alignmentClass) pc) :
    Represents { s.goto t (.acquiring alignmentClass) with selector := s.selector.goto t pc } phase := by
  have hnot : ∀ slot, s.selector.pc t ≠ .returning (some slot) := by
    intro slot hs
    rw [hs] at before
    exact before
  obtain ⟨hpool, hothers⟩ := pool_goto h.pool pc hnot after
  refine h.inner hpool hothers ?_ ?_ (h.consistent_of hpc)
  · rw [inHand_goto_acquiring, AxiomSelectorThreads.goto_pc_self, won_of_unclaiming after, inHand, hpc]
    exact (won_of_unclaiming before).symm
  · rwa [AxiomSelectorThreads.goto_pc_self]

/-- The winning compare-exchange claims a free slot for the call. -/
theorem Represents.claim (h : Represents s phase) {alignmentClass pass i r k : ℕ} {x : BitVec 64}
    (hpc : s.pc t = .acquiring alignmentClass) (hcas : s.selector.pc t = .cas pass i x r) (hk : k < g.count.kWords)
    (hx : s.selector.selector.words k = x) :
    ∃ phase', Represents { s.goto t (.acquiring alignmentClass) with selector := s.selector.takeBit t k x }
    phase' := by
  obtain ⟨hfree, hpool⟩ := h.pool.take hcas hk hx
  set slot := k * AxiomSelector.kBitsPerWord + AxiomSelector.bitInWord x with hslot
  have hphase : phase slot = .free := by
    have hnone := ((h.pool.free slot).mp hfree).2
    cases hp : phase slot with
    | free => rfl
    | live t' id => simp [hp, Phase.owner] at hnone
    | transit t' kind => simp [hp, Phase.owner] at hnone
  have hnone : inHand s t = none := by
    rw [inHand, hpc, hcas]
    rfl
  have hnew : inHand { s.goto t (.acquiring alignmentClass) with selector := s.selector.takeBit t k x } t =
      some (slot, .claimed) := by
    rw [inHand_goto_acquiring]
    simp [AxiomSelectorThreads.State.takeBit, hslot, won]
  refine ⟨Function.update phase slot (.transit t .claimed), h.move (t := t) ?_ ?_ ?_ ?_ ?_ ?_ ?_ ?_ ?_ ?_ ?_ ?_ ?_⟩
  · exact .inl (by rw [hphase, Phase.owner])
  · exact .inr rfl
  · rw [owner_update]
    exact hpool
  · intro t' ht
    refine ⟨Function.update_of_ne ht _ _, ?_, rfl⟩
    exact AxiomSelectorThreads.goto_pc_of_ne s.selector _ ht
  · intro id
    refine (h.held t id).trans ?_
    by_cases hs : id.id = slot
    · rw [hs, hphase, Function.update_self]
      simp
    · rw [Function.update_of_ne hs]
  · intro y kind
    rw [hnew]
    by_cases hy : y = slot
    · simp [hy]
    · rw [Function.update_of_ne hy, ← h.hand, hnone]
      simp [Ne.symm hy]
  · simp [State.goto, AxiomSelectorThreads.State.takeBit, Linked]
  · change Consistent _ t (Function.update s.pc t (Pc.acquiring alignmentClass) t)
    rw [Function.update_self]
    exact h.consistent_of hpc
  · exact fun r hr => hr
  · exact fun _ _ => ⟨rfl, fun _ _ => rfl⟩
  · intro id hid
    cases hid
  · intro hlt _
    exact h.clean slot hlt (by rw [hphase]; rfl)
  · exact h.retired_congr rfl rfl rfl (isSome_handle_update (by rw [hphase]; rfl))

/-- The fields of the handle that `allocate` makes. -/
theorem issued {slot alignmentClass : ℕ} (hslot : slot < g.slotCount) (ha : alignmentClass ≤ GenID.kMaxAlignment)
    (version : BitVec 16) :
    let id := GenID.make slot (version.toNat &&& GenID.kMaxVersion) alignmentClass .kFP32 .kActive
    id.id = slot ∧ id.isNull = false ∧ id.version = version.toNat := by
  have hid : slot ≤ GenID.kMaxId := Nat.le_of_lt_succ (Nat.lt_of_lt_of_le hslot g.count_le)
  have hv : version.toNat &&& GenID.kMaxVersion ≤ GenID.kMaxVersion := Nat.and_le_right
  refine ⟨GenID.id_make hid hv ha, GenID.isNull_of_state_ne ?_, ?_⟩
  · rw [GenID.state_make hid hv ha]
    decide
  · rw [GenID.version_make hid hv ha, kMaxVersion_and]

omit [DecidableEq τ] in
theorem Represents.lt_of_owner (h : Represents s phase) {slot : ℕ} (ho : (phase slot).owner = some t) :
    slot < g.slotCount := h.pool.bounded slot t ho

/-- The fetch-add of `allocate` opens the claimed slot under a new handle. -/
theorem Represents.issue (h : Represents s phase) {slot alignmentClass : ℕ}
    (hpc : s.pc t = .bumping slot alignmentClass) :
    ∃ phase', Represents (s.issue t slot alignmentClass) phase' := by
  have hold : inHand s t = some (slot, .claimed) := by rw [inHand, hpc]
  have hphase := (h.hand t slot .claimed).mp hold
  have howner : (phase slot).owner = some t := by rw [hphase]; rfl
  obtain ⟨hid, hnull, hversion⟩ := issued (h.lt_of_owner howner) (h.consistent_of hpc) (s.versions slot + 1#16)
  have hidle : s.selector.pc t = .idle := h.linked_of hpc
  set id := GenID.make slot ((s.versions slot + 1#16).toNat &&& GenID.kMaxVersion) alignmentClass .kFP32
    .kActive with hmake
  have hpc' : (s.issue t slot alignmentClass).pc t = .idle := Function.update_self _ _ _
  refine ⟨Function.update phase slot (.live t id), h.move (t := t) ?_ ?_ ?_ ?_ ?_ ?_ ?_ ?_ ?_ ?_ ?_ ?_ ?_⟩
  · exact .inr howner
  · exact .inr rfl
  · rw [owner_update_of_eq phase slot (p := .live t id) howner.symm]
    exact h.pool
  · intro t' ht
    exact ⟨Function.update_of_ne ht _ _, rfl, Function.update_of_ne ht _ _⟩
  · intro other
    have hheld : (s.issue t slot alignmentClass).held t = insert id (s.held t) := Function.update_self _ _ _
    rw [hheld, Finset.mem_insert, h.held]
    by_cases hs : other.id = slot
    · rw [hs, Function.update_self, hphase, Phase.live.injEq]
      simp [eq_comm]
    · have hne : other ≠ id := fun he => hs (he ▸ hid)
      rw [Function.update_of_ne hs]
      simp [hne]
  · intro y kind
    have hnone : inHand (s.issue t slot alignmentClass) t = none := by
      rw [inHand, hpc']
      rfl
    rw [hnone]
    by_cases hy : y = slot
    · rw [hy, Function.update_self]
      simp
    · rw [Function.update_of_ne hy, ← h.hand, hold]
      simp [Ne.symm hy]
  · rw [hpc']
    exact hidle
  · rw [hpc']
    trivial
  · exact fun r hr => hr
  · exact fun y hy => ⟨Function.update_of_ne hy _ _, fun _ _ => rfl⟩
  · rintro other ⟨rfl⟩
    refine ⟨hid, hnull, ?_⟩
    change (Function.update s.versions slot (s.versions slot + 1#16) id.id).toNat = id.version
    rw [hid, Function.update_self, hversion]
  · intro _ hnone
    cases hnone
  · intro other n hmem
    obtain ⟨hnotNull, hle, v, hv, hreach⟩ := h.retired other n hmem
    change _ ∧ n ≤ Function.update s.uses slot (s.uses slot + 1) other.id ∧ ∃ v, _ ∧
      Reaches _ (Function.update s.uses slot (s.uses slot + 1) other.id - n) _
    by_cases hs : other.id = slot
    · rw [hs] at hle hreach ⊢
      have hfree : cell s phase slot = ⟨false, s.versions slot⟩ := by rw [cell, hphase]; rfl
      have hnew : cell (s.issue t slot alignmentClass) (Function.update phase slot (.live t id)) slot =
          ⟨true, s.versions slot + 1#16⟩ := by
        simp only [cell, Function.update_self, State.issue]
        rfl
      rw [Function.update_self, hnew, Nat.sub_add_comm hle]
      rw [hfree] at hreach
      exact ⟨hnotNull, Nat.le_succ_of_le hle, v, hv, .take hreach rfl⟩
    · rw [Function.update_of_ne hs]
      refine ⟨hnotNull, hle, v, hv, ?_⟩
      rwa [cell_congr s phase]
      · exact Function.update_of_ne hs _ _
      · rw [Function.update_of_ne hs]

/-- The handle leaves the hands of the thread when it calls `release`. -/
def State.giveUp (s : State g τ) (t : τ) (id : GenID) : State g τ :=
  { s.goto t (.loading (.release true) id) with held := Function.update s.held t ((s.held t).erase id) }

theorem Represents.giveUp (h : Represents s phase) {id : GenID} (hpc : s.pc t = .idle) (hid : id ∈ s.held t) :
    ∃ phase', Represents (s.giveUp t id) phase' := by
  have hphase := (h.held t id).mp hid
  have howner : (phase id.id).owner = some t := by rw [hphase]; rfl
  have hidle : s.selector.pc t = .idle := h.linked_of hpc
  have hnone : inHand s t = none := by
    rw [inHand, hpc]
    rfl
  have hpc' : (s.giveUp t id).pc t = .loading (.release true) id := Function.update_self _ _ _
  refine ⟨Function.update phase id.id (.transit t (.closing id)),
    h.move (t := t) ?_ ?_ ?_ ?_ ?_ ?_ ?_ ?_ ?_ ?_ ?_ ?_ ?_⟩
  · exact .inr howner
  · exact .inr rfl
  · rw [owner_update_of_eq phase id.id (p := .transit t (.closing id)) howner.symm]
    exact h.pool
  · intro t' ht
    exact ⟨Function.update_of_ne ht _ _, rfl, Function.update_of_ne ht _ _⟩
  · intro other
    have hheld : (s.giveUp t id).held t = (s.held t).erase id := Function.update_self _ _ _
    rw [hheld, Finset.mem_erase, h.held]
    by_cases hs : other.id = id.id
    · rw [hs, Function.update_self, hphase, Phase.live.injEq]
      simp [eq_comm]
    · have hne : other ≠ id := fun he => hs (congrArg GenID.id he)
      rw [Function.update_of_ne hs]
      simp [hne]
  · intro y kind
    have hnew : inHand (s.giveUp t id) t = some (id.id, .closing id) := by
      rw [inHand, hpc']
      rfl
    rw [hnew]
    by_cases hy : y = id.id
    · rw [hy, Function.update_self]
      simp
    · rw [Function.update_of_ne hy, ← h.hand, hnone]
      simp [Ne.symm hy]
  · rw [hpc']
    exact hidle
  · rw [hpc']
    trivial
  · exact fun r hr => hr
  · exact fun _ _ => ⟨rfl, fun _ _ => rfl⟩
  · rintro other ⟨rfl⟩
    exact h.current _ id (by rw [hphase]; rfl)
  · intro _ hnone
    cases hnone
  · exact h.retired_congr rfl rfl rfl (isSome_handle_update (by rw [hphase]; rfl))

/-- The fetch-add of `release` drains the wiped slot and retires its handle. -/
theorem Represents.retire (h : Represents s phase) {id : GenID} (hpc : s.pc t = .retiring id) :
    ∃ phase', Represents (s.retire t id (s.selector.goto t (.releasing id.id))) phase' := by
  have hold : inHand s t = some (id.id, .closing id) := by
    rw [inHand, hpc]
    rfl
  have hphase := (h.hand t id.id _).mp hold
  have howner : (phase id.id).owner = some t := by rw [hphase]; rfl
  have hidle : s.selector.pc t = .idle := h.linked_of hpc
  have hheld : id.id ∈ s.selector.held t :=
    ((h.pool.owns t id.id).mpr howner).resolve_right (by rw [hidle]; exact AxiomSelectorThreads.Pc.noConfusion)
  obtain ⟨hpool, hothers⟩ := pool_goto (t := t) h.pool (.releasing id.id) (by simp [hidle]) hheld
  set selector := s.selector.goto t (.releasing id.id) with hselector
  have hpc' : (s.retire t id selector).pc t = .freeing id := Function.update_self _ _ _
  have hopen : cell s phase id.id = ⟨true, s.versions id.id⟩ := by rw [cell, hphase]; rfl
  have hdrained : cell (s.retire t id selector) (Function.update phase id.id (.transit t .drained)) id.id =
      ⟨false, s.versions id.id + 1#16⟩ := by
    simp only [cell, Function.update_self, State.retire]
    rfl
  refine ⟨Function.update phase id.id (.transit t .drained), h.move (t := t) ?_ ?_ ?_ ?_ ?_ ?_ ?_ ?_ ?_ ?_ ?_ ?_ ?_⟩
  · exact .inr howner
  · exact .inr rfl
  · rw [owner_update_of_eq phase id.id (p := .transit t .drained) howner.symm]
    exact hpool
  · intro t' ht
    exact ⟨Function.update_of_ne ht _ _, hothers t' ht, rfl⟩
  · intro other
    refine (h.held t other).trans ?_
    by_cases hs : other.id = id.id
    · rw [hs, hphase, Function.update_self]
      simp
    · rw [Function.update_of_ne hs]
  · intro y kind
    have hnew : inHand (s.retire t id selector) t = some (id.id, .drained) := by
      rw [inHand, hpc']
    rw [hnew]
    by_cases hy : y = id.id
    · rw [hy, Function.update_self]
      simp
    · rw [Function.update_of_ne hy, ← h.hand, hold]
      simp [Ne.symm hy]
  · rw [hpc']
    exact AxiomSelectorThreads.goto_pc_self s.selector t _
  · rw [hpc']
    trivial
  · exact fun r hr => List.mem_cons_of_mem _ hr
  · exact fun y hy => ⟨Function.update_of_ne hy _ _, fun _ _ => rfl⟩
  · intro other hother
    cases hother
  · exact fun _ _ => h.consistent_of hpc
  · intro other n hmem
    rcases List.mem_cons.mp hmem with heq | hmem
    · cases heq
      have hcurrent := (h.current _ id (by rw [hphase]; rfl)).2
      refine ⟨hcurrent.1, le_rfl, s.versions id.id, hcurrent.2, ?_⟩
      rw [hdrained]
      have hzero : (s.retire t id selector).uses id.id - s.uses id.id = 0 := Nat.sub_self _
      rw [hzero]
      exact .refl
    · obtain ⟨hnotNull, hle, v, hv, hreach⟩ := h.retired other n hmem
      refine ⟨hnotNull, hle, v, hv, ?_⟩
      by_cases hs : other.id = id.id
      · change Reaches _ (s.uses other.id - n) _
        rw [hs] at hreach ⊢
        rw [hopen] at hreach
        rw [hdrained]
        exact .give hreach rfl
      · rw [cell_congr s phase]
        · exact hreach
        · exact Function.update_of_ne hs _ _
        · rw [Function.update_of_ne hs]

/-- The fetch-or of the selector frees the drained slot. -/
theorem Represents.free (h : Represents s phase) {id : GenID} (hpc : s.pc t = .freeing id) :
    ∃ phase', Represents { s.goto t (.answering (.release true) id true) with
      selector := s.selector.putBit t id.id } phase' := by
  have hold : inHand s t = some (id.id, .drained) := by rw [inHand, hpc]
  have hphase := (h.hand t id.id _).mp hold
  have hreleasing : s.selector.pc t = .releasing id.id := h.linked_of hpc
  obtain ⟨howner, hpool⟩ := h.pool.put hreleasing
  have hpc' : ({ s.goto t (.answering (.release true) id true) with
      selector := s.selector.putBit t id.id } : State g τ).pc t = .answering (.release true) id true :=
    Function.update_self _ _ _
  refine ⟨Function.update phase id.id .free, h.move (t := t) ?_ ?_ ?_ ?_ ?_ ?_ ?_ ?_ ?_ ?_ ?_ ?_ ?_⟩
  · exact .inr howner
  · exact .inl rfl
  · rw [owner_update]
    exact hpool
  · intro t' ht
    exact ⟨Function.update_of_ne ht _ _, AxiomSelectorThreads.goto_pc_of_ne s.selector _ ht, rfl⟩
  · intro other
    refine (h.held t other).trans ?_
    by_cases hs : other.id = id.id
    · rw [hs, hphase, Function.update_self]
      simp
    · rw [Function.update_of_ne hs]
  · intro y kind
    rw [inHand, hpc']
    by_cases hy : y = id.id
    · rw [hy, Function.update_self]
      simp [Pc.closing]
    · rw [Function.update_of_ne hy, ← h.hand, hold]
      simp [Ne.symm hy, Pc.closing]
  · rw [hpc']
    exact AxiomSelectorThreads.goto_pc_self s.selector t _
  · rw [hpc']
    rfl
  · exact fun r hr => hr
  · exact fun _ _ => ⟨rfl, fun _ _ => rfl⟩
  · intro other hother
    cases hother
  · exact fun hlt _ => h.clean id.id hlt (by rw [hphase]; rfl)
  · exact h.retired_congr rfl rfl rfl (isSome_handle_update (by rw [hphase]; rfl))

/-- Bytes of an open slot change under the thread that has it. -/
theorem Represents.store (h : Represents s phase) {id : GenID} {die : ℕ → Byte} {pc : Pc}
    (hphase : phase id.id = .live t id ∨ phase id.id = .transit t (.closing id))
    (hframe : ∀ a, a ∉ g.slotSpan id.id → die a = s.die a)
    (hold : inHand (s.goto t pc) t = inHand s t)
    (linked : Linked pc (s.selector.pc t)) (consistent : Consistent { s.goto t pc with die := die } t pc) :
    Represents { s.goto t pc with die := die } phase := by
  have howner : (phase id.id).owner = some t := by rcases hphase with hp | hp <;> rw [hp] <;> rfl
  have hhandle : (phase id.id).handle = some id := by rcases hphase with hp | hp <;> rw [hp] <;> rfl
  have hpc' : (s.goto t pc).pc t = pc := Function.update_self _ _ _
  have hsame : Function.update phase id.id (phase id.id) = phase := Function.update_eq_self _ _
  suffices hmove : Represents { s.goto t pc with die := die } (Function.update phase id.id (phase id.id)) by
    rwa [hsame] at hmove
  refine h.move (t := t) (.inr howner) (.inr howner) ?_ ?_ ?_ ?_ ?_ ?_ ?_ ?_ ?_ ?_ ?_
  · exact hsame.symm ▸ h.pool
  · exact fun t' ht => ⟨Function.update_of_ne ht _ _, rfl, rfl⟩
  · exact hsame.symm ▸ h.held t
  · intro y kind
    rw [hsame, ← h.hand, ← hold]
    rfl
  · exact hpc'.symm ▸ linked
  · exact hpc'.symm ▸ consistent
  · exact fun r hr => hr
  · exact fun y hy => ⟨rfl, fun a ha => hframe a (Geometry.slotSpan_disjoint hy a ha)⟩
  · exact fun other hother => h.current id.id other hother
  · intro _ hnone
    rw [hhandle] at hnone
    cases hnone
  · exact h.retired_congr rfl rfl rfl (fun slot => by rw [hsame])

end Qtx.FractalArenaThreads
