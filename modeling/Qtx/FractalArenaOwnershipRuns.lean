import Qtx.FractalArenaTransfers

/-!
# The phases in every run

Each step of a call keeps the phases represented, as long as no released handle is as old
as the generation counter is wide.
-/
namespace Qtx.FractalArenaThreads
open SpanMemory TransitionSystems FractalArena GenerationCounters

variable {g : Geometry} {τ : Type*} {s s' : State g τ} {phase : ℕ → Phase τ} {t : τ} {id : GenID} {n : ℕ}

/-- A released handle shows the generation of its slot exactly while the slot is open and has
been taken a multiple of 32768 times since. -/
theorem Represents.version_eq_iff (h : Represents s phase) (hmem : (id, n) ∈ s.retired) :
    (s.versions id.id).toNat = id.version ↔
      (phase id.id).handle.isSome = true ∧ 32768 ∣ s.uses id.id - n := by
  obtain ⟨-, -, v, hv, hreach⟩ := h.retired id n hmem
  have hsince : Reaches ⟨true, v⟩ (0 + (s.uses id.id - n)) (cell s phase id.id) :=
    (Reaches.give .refl rfl).trans hreach
  rw [Nat.zero_add] at hsince
  rw [← hv, BitVec.toNat_inj]
  cases hopen : (phase id.id).handle.isSome with
  | true => exact (hsince.version_eq_iff (k := 15) rfl hopen).trans (and_iff_right rfl).symm
  | false => exact iff_of_false (hsince.version_ne (k := 15) rfl hopen) (fun hc => Bool.false_ne_true hc.1)

theorem Represents.stale (h : Represents s phase) (hmem : (id, n) ∈ s.retired) (hyoung : s.uses id.id < n + 32768) :
    (s.versions id.id).toNat ≠ id.version := by
  rw [Ne, h.version_eq_iff hmem]
  rintro ⟨hopen, hdvd⟩
  obtain ⟨-, -, v, -, hreach⟩ := h.retired id n hmem
  exact Nat.not_dvd_of_pos_of_lt (hreach.pos rfl hopen) (by omega) hdvd

variable [DecidableEq τ] {start : τ → ℕ}

theorem represents_initial (g : Geometry) (start : τ → ℕ) : Represents (system g start).init (fun _ => .free) where
  pool := AxiomSelectorThreads.represents_initial start
  held := by simp [system]
  hand := by simp [system, inHand, Pc.closing]
  linked _ := rfl
  consistent _ := trivial
  current slot id hid := by cases hid
  clean _ _ _ _ _ := rfl
  retired := by simp [system]

theorem Represents.enter (h : Represents s phase) {alignmentClass : ℕ} (hpc : s.pc t = .idle)
    (ha : alignmentClass ≤ GenID.kMaxAlignment) :
    Represents { s.goto t (.acquiring alignmentClass) with selector := s.selector.goto t (.load 0 0) } phase := by
  have hidle : s.selector.pc t = .idle := h.linked_of hpc
  have hnone : inHand s t = none := by
    rw [inHand, hpc]
    rfl
  obtain ⟨hpool, hothers⟩ := pool_goto (t := t) h.pool (.load 0 0) (by simp [hidle]) trivial
  refine h.inner hpool hothers ?_ ?_ ha
  · rw [hnone, inHand_goto_acquiring, AxiomSelectorThreads.goto_pc_self]
    rfl
  · rw [AxiomSelectorThreads.goto_pc_self]
    exact ⟨by simp, by simp⟩

/-- Every step inside `acquire`. -/
theorem Represents.acquire (h : Represents s phase) {alignmentClass : ℕ} {spurious : Bool}
    {selector : AxiomSelectorThreads.State g.count τ} (hpc : s.pc t = .acquiring alignmentClass)
    (hs : AxiomSelectorThreads.act start s.selector t spurious = some selector) :
    ∃ phase', Represents
      { s.goto t (afterAcquire alignmentClass (s.selector.pc t)) with selector := selector } phase' := by
  have hlinked := h.linked_of hpc
  simp only [AxiomSelectorThreads.act] at hs
  cases hsel : s.selector.pc t with
  | idle => exact absurd hsel hlinked.1
  | releasing slot => exact absurd hsel (hlinked.2 slot)
  | load pass i =>
    simp only [hsel, Option.some.injEq] at hs
    subst hs
    refine ⟨phase, h.search hpc ?_ (AxiomSelectorThreads.scan_unclaiming _ t pass i _ 0) (linked_scan _ pass i _ 0)⟩
    rw [hsel]
    trivial
  | cas pass i x r =>
    simp only [hsel] at hs
    have hne : (AxiomSelectorThreads.Pc.cas pass i x r).Unclaiming s.selector t := h.pool.expected t pass i x r hsel
    rw [← hsel] at hne
    split_ifs at hs with hwin hr
    · cases hs
      exact h.claim hpc hsel (AxiomSelector.wordIdx_lt _ i) hwin.1
    · cases hs
      exact ⟨phase, h.search hpc hne (AxiomSelectorThreads.afterWord_unclaiming _ t pass i)
        (linked_afterWord _ pass i)⟩
    · cases hs
      exact ⟨phase, h.search hpc hne (AxiomSelectorThreads.scan_unclaiming _ t pass i _ _)
        (linked_scan _ pass i _ _)⟩
  | returning result =>
    cases result with
    | none =>
      simp only [hsel, Option.some.injEq] at hs
      subst hs
      obtain ⟨hpool, hothers⟩ := pool_goto (t := t) h.pool .idle (by simp [hsel]) trivial
      refine ⟨phase, h.inner hpool hothers ?_ (AxiomSelectorThreads.goto_pc_self _ t _) trivial⟩
      rw [inHand, inHand, hpc, hsel]
      simp [State.goto, afterAcquire, Pc.closing, won]
    | some slot =>
      simp only [hsel, Option.some.injEq] at hs
      subst hs
      have ha : alignmentClass ≤ GenID.kMaxAlignment := h.consistent_of hpc
      refine ⟨phase, h.inner (h.pool.settle hsel) ?_ ?_ (AxiomSelectorThreads.goto_pc_self _ t _) ha⟩
      · exact fun t' ht => AxiomSelectorThreads.goto_pc_of_ne s.selector _ ht
      · rw [inHand, inHand, hpc, hsel]
        simp [State.goto, afterAcquire, won]

instance (s : State g τ) (id : GenID) : Decidable (Current s id) := inferInstanceAs (Decidable (_ ∧ _))

/-- The load of a validation: the tests that follow see a current handle of the arena or refuse. -/
theorem act_loading {call : Call} (hpc : s.pc t = .loading call id) (spurious : Bool) :
    act start s t spurious =
      some (s.goto t (if id.id < g.slotCount ∧ Current s id then .testing call id
        else .answering call id false)) := by
  simp only [act, hpc, kMaxVersion_and, version_and]
  by_cases hnull : id.isNull = true
  · rw [if_pos hnull, if_neg]
    intro hc
    exact Bool.false_ne_true (hc.2.1.symm.trans hnull)
  · rw [if_neg hnull]
    by_cases hlt : id.id < g.slotCount
    · rw [if_neg (Nat.not_le.mpr hlt)]
      by_cases hv : (s.versions id.id).toNat = id.version
      · rw [if_neg (not_not.mpr hv), if_pos ⟨hlt, Bool.eq_false_iff.mpr hnull, hv⟩]
      · rw [if_pos hv, if_neg (fun hc => hv hc.2.2)]
    · rw [if_pos (Nat.not_lt.mp hlt), if_neg (fun hc => hlt hc.1)]

omit [DecidableEq τ] in
/-- The handle of a slot that a thread has open passes every test. -/
theorem Represents.passes (h : Represents s phase) {slot : ℕ} (hhandle : (phase slot).handle = some id) :
    id.id < g.slotCount ∧ Current s id ∧ s.selector.selector.isOccupied id.id = true := by
  obtain ⟨rfl, hcurrent⟩ := h.current slot id hhandle
  have howner : ∃ u, (phase id.id).owner = some u := by
    cases hp : phase id.id with
    | free =>
      rw [hp] at hhandle
      cases hhandle
    | live u _ => exact ⟨u, rfl⟩
    | transit u _ => exact ⟨u, rfl⟩
  obtain ⟨u, hu⟩ := howner
  have hlt := h.lt_of_owner hu
  refine ⟨hlt, hcurrent, AxiomSelector.isOccupied_iff.mpr ⟨hlt, fun hfree => ?_⟩⟩
  have hnone := ((h.pool.free id.id).mp hfree).2
  rw [hu] at hnone
  cases hnone

omit [DecidableEq τ] in
theorem Represents.passes_held (h : Represents s phase) (hid : id ∈ s.held t) :
    id.id < g.slotCount ∧ Current s id ∧ s.selector.selector.isOccupied id.id = true :=
  h.passes (by rw [(h.held t id).mp hid]; rfl)

omit [DecidableEq τ] in
theorem Represents.passes_closing (h : Represents s phase) (hid : (s.pc t).closing = some id) :
    id.id < g.slotCount ∧ Current s id ∧ s.selector.selector.isOccupied id.id = true :=
  h.passes (by rw [h.closing hid]; rfl)

@[simp] theorem goto_pc_self (s : State g τ) (t : τ) (pc : Pc) : (s.goto t pc).pc t = pc :=
  Function.update_self _ _ _

/-- The load of a validation: a handle that is about to be released passes, one that was released
before does not. -/
theorem Represents.load (h : Represents s phase) {call : Call} (hpc : s.pc t = .loading call id)
    (hyoung : ∀ n, call = .release false → (id, n) ∈ s.retired → s.uses id.id < n + 32768) :
    Represents (s.goto t (if id.id < g.slotCount ∧ Current s id then .testing call id
      else .answering call id false))
      phase := by
  have hidle : s.selector.pc t = .idle := h.linked_of hpc
  have hquery : ∀ call : Call, (∀ own, call ≠ .release own) → s.pc t = .loading call id →
      Represents (s.goto t (if id.id < g.slotCount ∧ Current s id then .testing call id
        else .answering call id false))
        phase := by
    intro call hcall hpc
    have hheld : ¬ (id.id < g.slotCount ∧ Current s id) → id ∉ s.held t :=
      fun hno hid => hno ⟨(h.passes_held hid).1, (h.passes_held hid).2.1⟩
    cases call with
    | release own => exact absurd rfl (hcall own)
    | validate =>
      split_ifs with hok
      · exact h.goto (by simp [inHand, hpc, Pc.closing]) hidle trivial
      · exact h.goto (by simp [inHand, hpc, Pc.closing]) hidle (hheld hok)
    | view =>
      split_ifs with hok
      · exact h.goto (by simp [inHand, hpc, Pc.closing]) hidle trivial
      · exact h.goto (by simp [inHand, hpc, Pc.closing]) hidle (hheld hok)
  cases call with
  | validate => exact hquery .validate (by simp) hpc
  | view => exact hquery .view (by simp) hpc
  | release own =>
    cases own with
    | true =>
      have hclosing : (s.pc t).closing = some id := by rw [hpc]; rfl
      obtain ⟨hlt, hcurrent, -⟩ := h.passes_closing hclosing
      rw [if_pos ⟨hlt, hcurrent⟩]
      exact h.goto (by simp [inHand, hpc, Pc.closing]) hidle trivial
    | false =>
      obtain ⟨n, hmem⟩ : ∃ n, (id, n) ∈ s.retired := h.consistent_of hpc
      rw [if_neg (fun hc => h.stale hmem (hyoung n rfl hmem) hc.2.2)]
      exact h.goto (by simp [inHand, hpc, Pc.closing]) hidle rfl

/-- The test of the occupancy bit. -/
theorem Represents.test (h : Represents s phase) {call : Call} (hpc : s.pc t = .testing call id) :
    Represents (s.goto t (if s.selector.selector.isOccupied id.id then passed call id
      else .answering call id false))
      phase := by
  have hidle : s.selector.pc t = .idle := h.linked_of hpc
  have hheld : s.selector.selector.isOccupied id.id ≠ true → id ∉ s.held t :=
    fun hno hid => hno (h.passes_held hid).2.2
  cases call with
  | validate =>
    split_ifs with hok
    · exact h.goto (by simp [inHand, hpc, Pc.closing, passed]) hidle trivial
    · exact h.goto (by simp [inHand, hpc, Pc.closing]) hidle (hheld hok)
  | view =>
    split_ifs with hok
    · exact h.goto (by simp [inHand, hpc, Pc.closing, passed]) hidle trivial
    · exact h.goto (by simp [inHand, hpc, Pc.closing]) hidle (hheld hok)
  | release own =>
    cases own with
    | true =>
      have hclosing : (s.pc t).closing = some id := by rw [hpc]; rfl
      obtain ⟨-, -, hocc⟩ := h.passes_closing hclosing
      rw [if_pos hocc]
      refine h.goto (by simp [inHand, hpc, Pc.closing, passed]) hidle ?_
      exact ⟨g.slotSize_pos, fun j hj => absurd hj (Nat.not_lt_zero j)⟩
    | false => exact (h.consistent_of hpc).elim

/-- One byte of the `memset`. -/
theorem Represents.wipe (h : Represents s phase) {i : ℕ} (hpc : s.pc t = .wiping id i) :
    Represents { s.goto t (if i + 1 < g.slotSize then .wiping id (i + 1) else .retiring id) with
      die := assign s.die (g.slotSpan id.id) i 0#8 } phase := by
  have hidle : s.selector.pc t = .idle := h.linked_of hpc
  obtain ⟨hi, hzero⟩ : i < g.slotSize ∧ ∀ j < i, s.die (id.id * g.slotSize + j) = 0#8 := h.consistent_of hpc
  have hnext : ∀ j < i + 1, assign s.die (g.slotSpan id.id) i 0#8 (id.id * g.slotSize + j) = 0#8 := by
    intro j hj
    rw [assign]
    split_ifs with hji
    · rfl
    · refine hzero j (lt_of_le_of_ne (Nat.le_of_lt_succ hj) (fun heq => hji ⟨hi, ?_⟩))
      rw [heq]
      rfl
  refine h.store (.inr (h.closing (by rw [hpc]; rfl))) (fun a ha => assign_of_notMem ha) ?_ ?_ ?_
  · split_ifs
    · simp [inHand, hpc, Pc.closing]
    · simp [inHand, hpc, Pc.closing]
  · split_ifs
    · exact hidle
    · exact hidle
  · split_ifs with hlast
    · exact ⟨hlast, hnext⟩
    · intro a ha
      obtain ⟨j, rfl⟩ := Nat.exists_eq_add_of_le ha.1
      have hj : j < g.slotSize := Nat.lt_of_add_lt_add_left ha.2
      exact hnext j (by omega)

theorem Represents.answered (h : Represents s phase) {call : Call} {accepted : Bool}
    (hpc : s.pc t = .answering call id accepted) : Represents (s.goto t .idle) phase := by
  have hidle : s.selector.pc t = .idle := h.linked_of hpc
  exact h.goto (by simp [inHand, hpc, Pc.closing]) hidle trivial

/-- Every step inside a call. -/
theorem Represents.inside {spurious : Bool} (h : Represents s phase)
    (hyoung : ∀ r ∈ s.retired, s.pc t = .loading (.release false) r.1 → s.uses r.1.id < r.2 + 32768)
    (hs : act start s t spurious = some s') : ∃ phase', Represents s' phase' := by
  cases hpc : s.pc t with
  | idle => simp [act, hpc] at hs
  | acquiring alignmentClass =>
    simp only [act, hpc, Option.map_eq_some_iff] at hs
    obtain ⟨selector, hsel, rfl⟩ := hs
    exact h.acquire hpc hsel
  | bumping slot alignmentClass =>
    simp only [act, hpc, Option.some.injEq] at hs
    exact hs ▸ h.issue hpc
  | loading call id =>
    rw [act_loading hpc, Option.some.injEq] at hs
    subst hs
    refine ⟨phase, h.load hpc (fun n hcall hmem => ?_)⟩
    exact hyoung (id, n) hmem (hcall ▸ hpc)
  | testing call id =>
    simp only [act, hpc, Option.some.injEq] at hs
    exact hs ▸ ⟨phase, h.test hpc⟩
  | wiping id i =>
    simp only [act, hpc, Option.some.injEq] at hs
    exact hs ▸ ⟨phase, h.wipe hpc⟩
  | retiring id =>
    simp only [act, hpc, Option.map_eq_some_iff, AxiomSelectorThreads.step] at hs
    obtain ⟨selector, hsel, rfl⟩ := hs
    split_ifs at hsel
    cases hsel
    exact h.retire hpc
  | freeing id =>
    have hreleasing : s.selector.pc t = .releasing id.id := h.linked_of hpc
    simp only [act, hpc, AxiomSelectorThreads.act, hreleasing, Option.map_some, Option.some.injEq] at hs
    exact hs ▸ h.free hpc
  | answering call id accepted =>
    simp only [act, hpc, Option.some.injEq] at hs
    exact hs ▸ ⟨phase, h.answered hpc⟩

theorem step_represents {l : Label τ} (h : Represents s phase) (hok : WithinHorizon s l)
    (hs : step start s l = some s') : ∃ phase', Represents s' phase' := by
  cases l with
  | callAllocate t requestedSize requestedAlign =>
    simp only [step, AxiomSelectorThreads.step] at hs
    split_ifs at hs with hpc h1 h2 h3 hsel
    all_goals first | exact (Option.some.inj hs) ▸ ⟨phase, h⟩ | skip
    · cases hs
      exact ⟨phase, h.enter (not_not.mp hpc) (Nat.not_lt.mp h3)⟩
    · cases hs
  | callRelease t id =>
    simp only [step] at hs
    split_ifs at hs with hpc hheld hret
    · cases hs
      exact h.giveUp (not_not.mp hpc) hheld
    · cases hs
      have hidle : s.selector.pc t = .idle := h.linked_of (not_not.mp hpc)
      obtain ⟨⟨id', n⟩, hmem, rfl⟩ := List.mem_map.mp hret
      refine ⟨phase, h.goto ?_ hidle ⟨n, hmem⟩⟩
      simp [inHand, not_not.mp hpc, Pc.closing]
  | callValidate t id =>
    simp only [step, Option.ite_none_right_eq_some, Option.some.injEq] at hs
    obtain ⟨hpc, rfl⟩ := hs
    have hidle : s.selector.pc t = .idle := h.linked_of hpc
    exact ⟨phase, h.goto (by simp [inHand, hpc, Pc.closing]) hidle trivial⟩
  | callView t id =>
    simp only [step, Option.ite_none_right_eq_some, Option.some.injEq] at hs
    obtain ⟨hpc, rfl⟩ := hs
    have hidle : s.selector.pc t = .idle := h.linked_of hpc
    exact ⟨phase, h.goto (by simp [inHand, hpc, Pc.closing]) hidle trivial⟩
  | write t id i value =>
    simp only [step, Option.ite_none_right_eq_some, Option.some.injEq] at hs
    obtain ⟨⟨hpc, hid⟩, rfl⟩ := hs
    have hidle : s.selector.pc t = .idle := h.linked_of hpc
    have hsame : s.goto t .idle = s := by
      rw [State.goto, ← hpc, Function.update_eq_self]
    have hstore : Represents { s.goto t .idle with die := assign s.die (g.slotSpan id.id) i value } phase :=
      h.store (.inl ((h.held t id).mp hid)) (fun a ha => assign_of_notMem ha) (by rw [hsame]) hidle trivial
    rw [hsame] at hstore
    exact ⟨phase, hstore⟩
  | act t spurious => exact h.inside hok hs

end Qtx.FractalArenaThreads
