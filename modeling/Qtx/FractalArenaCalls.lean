import Qtx.FractalArenaIsolation

/-!
# One thread of the arena

Where each step takes the thread that makes it, what the thread holds then, and how far it is
from the end of its call. A call always has a next step. An `allocate` may fail while other
threads take the slots, but where every word of the bitmap shows a free slot and no
compare-exchange fails spuriously, it comes nearer to its handle with every step.
-/
namespace Qtx.FractalArenaThreads
open SpanMemory TransitionSystems FractalArena

variable {g : Geometry} {τ : Type*} [DecidableEq τ] {s s' : State g τ} {phase : ℕ → Phase τ}
  {start : τ → ℕ} {t t' : τ} {id : GenID}

section Calls

/-- The thread that a label moves. -/
def Label.thread : Label τ → τ
  | .callAllocate t _ _ | .callRelease t _ | .callValidate t _ | .callView t _ | .write t _ _ _ | .act t _ => t

/-- The handle that `allocate` makes of a slot. -/
def State.handle (s : State g τ) (slot alignmentClass : ℕ) : GenID :=
  .make slot ((s.versions slot + 1#16).toNat &&& GenID.kMaxVersion) alignmentClass .kFP32 .kActive

/-- Inside `allocate`, or outside of every call. -/
def Pc.Allocating : Pc → Prop
  | .idle | .acquiring _ | .bumping _ _ => True
  | _ => False

/-- Inside a `view` that has not been refused. -/
def Pc.Viewing (id : GenID) (pc : Pc) : Prop :=
  pc = .loading .view id ∨ pc = .testing .view id ∨ pc = .answering .view id true

/-- Inside a `release` that has not been refused. -/
def Pc.Releasing (id : GenID) (pc : Pc) : Prop :=
  pc.closing = some id ∨ pc = .freeing id ∨ pc = .answering (.release true) id true

/-- A view that is about to answer has been accepted. -/
theorem Pc.Viewing.answered {pc : Pc} {id other : GenID} {call : Call} {accepted : Bool} (h : pc.Viewing id)
    (hpc : pc = .answering call other accepted) : call = .view ∧ other = id ∧ accepted = true := by
  subst hpc
  simpa [Pc.Viewing] using h

theorem goto_pc_of_ne (s : State g τ) {t u : τ} (pc : Pc) (hu : u ≠ t) : (s.goto t pc).pc u = s.pc u :=
  Function.update_of_ne hu _ _

/-- A step inside a call moves the acting thread, and gives or takes nothing unless it ends an `allocate`. -/
theorem act_cases {spurious : Bool} (hs : act start s t spurious = some s') :
    (∃ pc, s'.pc = Function.update s.pc t pc) ∧
    (s'.held = s.held ∨ ∃ slot a, s.pc t = .bumping slot a ∧ s' = s.issue t slot a) := by
  refine ⟨?_, (act_effect hs).1⟩
  cases hpc : s.pc t with
  | idle => simp [act, hpc] at hs
  | loading call id =>
    rw [act_loading hpc, Option.some.injEq] at hs
    subst hs
    exact ⟨_, rfl⟩
  | acquiring _ =>
    simp only [act, hpc, Option.map_eq_some_iff] at hs
    obtain ⟨selector, -, rfl⟩ := hs
    exact ⟨_, rfl⟩
  | retiring _ =>
    simp only [act, hpc, Option.map_eq_some_iff] at hs
    obtain ⟨selector, -, rfl⟩ := hs
    exact ⟨_, rfl⟩
  | freeing _ =>
    simp only [act, hpc, Option.map_eq_some_iff] at hs
    obtain ⟨selector, -, rfl⟩ := hs
    exact ⟨_, rfl⟩
  | _ =>
    simp only [act, hpc, Option.some.injEq] at hs
    subst hs
    exact ⟨_, rfl⟩

/-- The other threads stay where they are and hold what they held. -/
theorem step_others {l : Label τ} (hs : step start s l = some s') {u : τ} (hu : u ≠ l.thread) :
    s'.pc u = s.pc u ∧ s'.held u = s.held u := by
  cases l with
  | callAllocate t requestedSize requestedAlign =>
    simp only [step, AxiomSelectorThreads.step] at hs
    split_ifs at hs
    all_goals cases hs
    · exact ⟨rfl, rfl⟩
    · exact ⟨rfl, rfl⟩
    · exact ⟨rfl, rfl⟩
    · exact ⟨goto_pc_of_ne s _ hu, rfl⟩
  | callRelease t id =>
    simp only [step] at hs
    split_ifs at hs
    · cases hs
      exact ⟨goto_pc_of_ne s _ hu, Function.update_of_ne hu _ _⟩
    · cases hs
      exact ⟨goto_pc_of_ne s _ hu, rfl⟩
  | callValidate t id =>
    simp only [step, Option.ite_none_right_eq_some, Option.some.injEq] at hs
    exact hs.2 ▸ ⟨goto_pc_of_ne s _ hu, rfl⟩
  | callView t id =>
    simp only [step, Option.ite_none_right_eq_some, Option.some.injEq] at hs
    exact hs.2 ▸ ⟨goto_pc_of_ne s _ hu, rfl⟩
  | write t id i value =>
    simp only [step, Option.ite_none_right_eq_some, Option.some.injEq] at hs
    exact hs.2 ▸ ⟨rfl, rfl⟩
  | act t spurious =>
    obtain ⟨⟨pc, hpc⟩, hheld⟩ := act_cases hs
    refine ⟨(congrFun hpc u).trans (Function.update_of_ne hu _ _), ?_⟩
    rcases hheld with hheld | ⟨slot, a, -, rfl⟩
    · rw [hheld]
    · exact Function.update_of_ne hu _ _

omit [DecidableEq τ] in
/-- A thread that is not releasing again a handle it has released before. -/
theorem withinHorizon_act {spurious : Bool} (h : ∀ id, s.pc t ≠ .loading (.release false) id) :
    WithinHorizon s (.act t spurious) := fun r _ hr => absurd hr (h r.1)

theorem step_callAllocate {requestedSize requestedAlign : ℕ}
    (hs : step start s (.callAllocate t requestedSize requestedAlign) = some s') :
    (s'.pc t).Allocating ∧ s'.held t = s.held t := by
  simp only [step, AxiomSelectorThreads.step] at hs
  split_ifs at hs with hpc
  all_goals cases hs
  · exact ⟨by rw [not_not.mp hpc]; trivial, rfl⟩
  · exact ⟨by rw [not_not.mp hpc]; trivial, rfl⟩
  · exact ⟨by rw [not_not.mp hpc]; trivial, rfl⟩
  · refine ⟨?_, rfl⟩
    dsimp only
    rw [goto_pc_self]
    trivial

theorem act_allocating {spurious : Bool} (hpc : (s.pc t).Allocating) (hnot : ∀ slot a, s.pc t ≠ .bumping slot a)
    (hs : act start s t spurious = some s') : (s'.pc t).Allocating ∧ s'.held t = s.held t := by
  cases hp : s.pc t with
  | idle => simp [act, hp] at hs
  | acquiring a =>
    simp only [act, hp, Option.map_eq_some_iff] at hs
    obtain ⟨selector, -, rfl⟩ := hs
    refine ⟨?_, rfl⟩
    dsimp only
    rw [goto_pc_self]
    unfold afterAcquire
    split <;> trivial
  | bumping slot a => exact absurd hp (hnot slot a)
  | _ =>
    rw [hp] at hpc
    exact hpc.elim

theorem act_bumping {spurious : Bool} {slot a : ℕ} (h : Represents s phase) (hpc : s.pc t = .bumping slot a)
    (hs : act start s t spurious = some s') :
    s'.pc t = .idle ∧ s'.held t = insert (s.handle slot a) (s.held t) ∧ s.handle slot a ∉ s.held t := by
  simp only [act, hpc, Option.some.injEq] at hs
  subst hs
  refine ⟨Function.update_self _ _ _, Function.update_self _ _ _, fun hmem => ?_⟩
  have hphase := (h.hand t slot .claimed).mp (by rw [inHand, hpc])
  have howner : (phase slot).owner = some t := by rw [hphase]; rfl
  obtain ⟨hslot, -, -⟩ := issued (h.lt_of_owner howner) (h.consistent_of hpc) (s.versions slot + 1#16)
  have hlive := (h.held t _).mp hmem
  rw [show (s.handle slot a).id = slot from hslot, hphase] at hlive
  cases hlive

theorem step_callView (hs : step start s (.callView t id) = some s') :
    (s'.pc t).Viewing id ∧ s'.held t = s.held t := by
  simp only [step, Option.ite_none_right_eq_some, Option.some.injEq] at hs
  exact hs.2 ▸ ⟨.inl (goto_pc_self s t _), rfl⟩

theorem act_viewing {spurious : Bool} (h : Represents s phase) (hid : id ∈ s.held t) (hpc : (s.pc t).Viewing id)
    (hs : act start s t spurious = some s') :
    s'.held t = s.held t ∧ ((s.pc t = .answering .view id true ∧ s'.pc t = .idle) ∨
      ((∀ call other accepted, s.pc t ≠ .answering call other accepted) ∧ (s'.pc t).Viewing id)) := by
  obtain ⟨hlt, hcurrent, hocc⟩ := h.passes_held hid
  rcases hpc with hp | hp | hp
  · rw [act_loading hp, if_pos ⟨hlt, hcurrent⟩, Option.some.injEq] at hs
    subst hs
    exact ⟨rfl, .inr ⟨by simp [hp], .inr (.inl (goto_pc_self s t _))⟩⟩
  · simp only [act, hp, hocc, if_true, passed, Option.some.injEq] at hs
    subst hs
    exact ⟨rfl, .inr ⟨by simp [hp], .inr (.inr (goto_pc_self s t _))⟩⟩
  · simp only [act, hp, Option.some.injEq] at hs
    subst hs
    exact ⟨rfl, .inl ⟨hp, goto_pc_self s t _⟩⟩

theorem step_callRelease (hid : id ∈ s.held t) (hs : step start s (.callRelease t id) = some s') :
    (s'.pc t).Releasing id ∧ s'.held t = (s.held t).erase id := by
  simp only [step, if_pos hid] at hs
  split_ifs at hs with hpc
  cases hs
  refine ⟨.inl ?_, Function.update_self _ _ _⟩
  dsimp only
  rw [goto_pc_self]
  rfl

theorem act_releasing {spurious : Bool} (h : Represents s phase) (hpc : (s.pc t).Releasing id)
    (hs : act start s t spurious = some s') :
    s'.held t = s.held t ∧ ((s.pc t = .answering (.release true) id true ∧ s'.pc t = .idle) ∨
      ((∀ call other accepted, s.pc t ≠ .answering call other accepted) ∧ (s'.pc t).Releasing id)) := by
  rcases hpc with hclosing | hp | hp
  · obtain ⟨hlt, hcurrent, hocc⟩ := h.passes_closing hclosing
    cases hp : s.pc t with
    | loading call other =>
      rcases call with _ | _ | own
      · simp [hp, Pc.closing] at hclosing
      · simp [hp, Pc.closing] at hclosing
      · cases own with
        | false => simp [hp, Pc.closing] at hclosing
        | true =>
          obtain rfl : other = id := by simpa [hp, Pc.closing] using hclosing
          rw [act_loading hp, if_pos ⟨hlt, hcurrent⟩, Option.some.injEq] at hs
          subst hs
          exact ⟨rfl, .inr ⟨by simp, .inl (by rw [goto_pc_self]; rfl)⟩⟩
    | testing call other =>
      rcases call with _ | _ | own
      · simp [hp, Pc.closing] at hclosing
      · simp [hp, Pc.closing] at hclosing
      · cases own with
        | false => simp [hp, Pc.closing] at hclosing
        | true =>
          obtain rfl : other = id := by simpa [hp, Pc.closing] using hclosing
          simp only [act, hp, hocc, if_true, passed, Option.some.injEq] at hs
          subst hs
          exact ⟨rfl, .inr ⟨by simp, .inl (by rw [goto_pc_self]; rfl)⟩⟩
    | wiping other i =>
      obtain rfl : other = id := by simpa [hp, Pc.closing] using hclosing
      simp only [act, hp, Option.some.injEq] at hs
      subst hs
      refine ⟨rfl, .inr ⟨by simp, .inl ?_⟩⟩
      dsimp only
      rw [goto_pc_self]
      split_ifs <;> rfl
    | retiring other =>
      obtain rfl : other = id := by simpa [hp, Pc.closing] using hclosing
      simp only [act, hp, Option.map_eq_some_iff] at hs
      obtain ⟨selector, -, rfl⟩ := hs
      exact ⟨rfl, .inr ⟨by simp, .inr (.inl (Function.update_self _ _ _))⟩⟩
    | idle => simp [hp, Pc.closing] at hclosing
    | acquiring _ => simp [hp, Pc.closing] at hclosing
    | bumping _ _ => simp [hp, Pc.closing] at hclosing
    | freeing _ => simp [hp, Pc.closing] at hclosing
    | answering _ _ _ => simp [hp, Pc.closing] at hclosing
  · simp only [act, hp, Option.map_eq_some_iff] at hs
    obtain ⟨selector, -, rfl⟩ := hs
    exact ⟨rfl, .inr ⟨by simp [hp], .inr (.inr (Function.update_self _ _ _))⟩⟩
  · simp only [act, hp, Option.some.injEq] at hs
    subst hs
    exact ⟨rfl, .inl ⟨hp, goto_pc_self s t _⟩⟩

end Calls

section Progress

variable {spurious : Bool}

/-- Steps until a call other than `allocate` returns, counted from before it for a thread outside of every call. -/
def Pc.distance (g : Geometry) : Pc → ℕ
  | .answering _ _ _ => 1
  | .freeing _ => 2
  | .retiring _ => 3
  | .wiping _ i => 3 + (g.slotSize - i)
  | .testing _ _ => g.slotSize + 4
  | .loading _ _ => g.slotSize + 5
  | .idle => g.slotSize + 6
  | .acquiring _ | .bumping _ _ => 0

theorem Pc.distance_le (pc : Pc) : pc.distance g ≤ g.slotSize + 6 := by
  cases pc <;> simp only [Pc.distance] <;> omega

theorem act_distance (h : Represents s phase) (hs : act start s t spurious = some s')
    (hcall : ¬ (s.pc t).Allocating) (hreturns : ∀ call id accepted, s.pc t ≠ .answering call id accepted) :
    (s'.pc t).distance g < (s.pc t).distance g := by
  cases hp : s.pc t with
  | idle => exact absurd (by rw [hp]; trivial) hcall
  | acquiring _ => exact absurd (by rw [hp]; trivial) hcall
  | bumping _ _ => exact absurd (by rw [hp]; trivial) hcall
  | answering call id accepted => exact absurd hp (hreturns call id accepted)
  | loading call id =>
    rw [act_loading hp, Option.some.injEq] at hs
    subst hs
    rw [goto_pc_self]
    split_ifs <;> simp only [Pc.distance] <;> omega
  | testing call id =>
    simp only [act, hp, Option.some.injEq] at hs
    subst hs
    rw [goto_pc_self]
    split_ifs
    · cases call <;> simp only [passed, Pc.distance] <;> omega
    · simp only [Pc.distance]
      omega
  | wiping id i =>
    obtain ⟨hi, -⟩ : i < g.slotSize ∧ ∀ j < i, s.die (id.id * g.slotSize + j) = 0#8 := h.consistent_of hp
    simp only [act, hp, Option.some.injEq] at hs
    subst hs
    dsimp only
    rw [goto_pc_self]
    split_ifs <;> simp only [Pc.distance] <;> omega
  | retiring id =>
    simp only [act, hp, Option.map_eq_some_iff] at hs
    obtain ⟨selector, -, rfl⟩ := hs
    have hpc : (s.retire t id selector).pc t = .freeing id := Function.update_self _ _ _
    rw [hpc]
    exact Nat.lt_succ_self 2
  | freeing id =>
    simp only [act, hp, Option.map_eq_some_iff] at hs
    obtain ⟨selector, -, rfl⟩ := hs
    dsimp only
    rw [goto_pc_self]
    exact Nat.lt_succ_self 1

theorem exists_selectorAct {c : SlotCount} {sel : AxiomSelectorThreads.State c τ} (start : τ → ℕ) (spurious : Bool)
    (h : sel.pc t ≠ .idle) : ∃ sel', AxiomSelectorThreads.act start sel t spurious = some sel' := by
  unfold AxiomSelectorThreads.act
  cases hp : sel.pc t with
  | idle => exact absurd hp h
  | load pass i => exact ⟨_, rfl⟩
  | cas pass i x r =>
    dsimp only
    split_ifs <;> exact ⟨_, rfl⟩
  | returning result => cases result <;> exact ⟨_, rfl⟩
  | releasing slot => exact ⟨_, rfl⟩

/-- A thread in a call can always go on. -/
theorem Represents.exists_act (h : Represents s phase) (start : τ → ℕ) (spurious : Bool) (hpc : s.pc t ≠ .idle) :
    ∃ s', act start s t spurious = some s' := by
  cases hp : s.pc t with
  | idle => exact absurd hp hpc
  | loading call id => exact ⟨_, act_loading hp spurious⟩
  | acquiring a =>
    obtain ⟨selector, hsel⟩ := exists_selectorAct start spurious (h.linked_of hp).1
    exact Option.isSome_iff_exists.mp (by simp [act, hp, hsel])
  | retiring id =>
    have hidle : s.selector.pc t = .idle := h.linked_of hp
    have hphase : phase id.id = .transit t (.closing id) := h.closing (by rw [hp]; rfl)
    have howner : (phase id.id).owner = some t := by rw [hphase]; rfl
    have hheld : id.id ∈ s.selector.held t :=
      ((h.pool.owns t id.id).mpr howner).resolve_right (by rw [hidle]; exact AxiomSelectorThreads.Pc.noConfusion)
    exact Option.isSome_iff_exists.mp (by simp [act, hp, AxiomSelectorThreads.step, hidle, hheld])
  | freeing id =>
    have hreleasing : s.selector.pc t = .releasing id.id := h.linked_of hp
    exact Option.isSome_iff_exists.mp (by simp [act, hp, AxiomSelectorThreads.act, hreleasing])
  | _ => exact Option.isSome_iff_exists.mp (by simp [act, hp])

/-- Steps until `allocate` has its slot, if nothing interferes. An expected word that is out of
date costs the most. -/
def allocDistance (start : τ → ℕ) (s : State g τ) (t : τ) : ℕ :=
  match s.pc t with
  | .bumping _ _ => 1
  | .acquiring _ => match s.selector.pc t with
    | .returning (some _) => 2
    | .cas _ i x _ =>
      if s.selector.selector.words (AxiomSelectorThreads.wordOf g.count (start t) i) = x then 3 else 7
    | .load _ _ => 4
    | .returning none => 6
    | _ => 0
  | _ => 5

omit [DecidableEq τ] in
theorem allocDistance_le (start : τ → ℕ) (s : State g τ) (t : τ) : allocDistance start s t ≤ 7 := by
  unfold allocDistance
  split
  · omega
  · split
    · omega
    · split_ifs <;> omega
    · omega
    · omega
    · omega
  · omega

theorem callAllocate_distance (start : τ → ℕ) {requestedSize requestedAlign : ℕ}
    (ha : Accepts g requestedSize requestedAlign) (h : Represents s phase) (hpc : s.pc t = .idle) :
    ∃ s', step start s (.callAllocate t requestedSize requestedAlign) = some s' ∧
      allocDistance start s' t < allocDistance start s t := by
  have hidle : s.selector.pc t = .idle := h.linked_of hpc
  obtain ⟨hpos, hle, hpow, hle'⟩ := ha
  have hne : requestedAlign ≠ 0 := by
    rintro rfl
    cases hpow
  have hclass : log2PowerOfTwo requestedAlign ≤ GenID.kMaxAlignment := log2PowerOfTwo_le hpow hle'
  refine ⟨{ s.goto t (.acquiring (log2PowerOfTwo requestedAlign)) with
    selector := s.selector.goto t (.load 0 0) }, ?_, ?_⟩
  · simp only [step, AxiomSelectorThreads.step]
    rw [if_neg (not_not.mpr hpc), if_neg (by simp [hpos.ne', hle]), if_neg (by simp [hne, hpow, hle']),
      if_neg (Nat.not_lt.mpr hclass), if_pos hidle]
    rfl
  · simp [allocDistance, State.goto, AxiomSelectorThreads.State.goto, hpc]

/-- With a free slot in every word, the words that the sweep comes to are worth a compare-exchange. -/
theorem act_allocDistance (h : Represents s phase) (hs : act start s t false = some s')
    (hcall : (s.pc t).Allocating) (hnot : ∀ slot a, s.pc t ≠ .bumping slot a)
    (hwords : inHand s t = none → ∀ k < g.count.kWords, s.selector.selector.words k ≠ 0#64) :
    allocDistance start s' t < allocDistance start s t := by
  cases hp : s.pc t with
  | idle => simp [act, hp] at hs
  | bumping slot a => exact absurd hp (hnot slot a)
  | acquiring a =>
    have hlinked := h.linked_of hp
    simp only [act, hp, Option.map_eq_some_iff] at hs
    obtain ⟨selector, hsel, rfl⟩ := hs
    have hne : (∀ slot, s.selector.pc t ≠ .returning (some slot)) → ∀ i,
        s.selector.selector.words (AxiomSelectorThreads.wordOf g.count (start t) i) ≠ 0#64 := by
      intro hnone i
      refine hwords ?_ _ (AxiomSelector.wordIdx_lt _ i)
      rw [inHand, hp]
      cases hw : s.selector.pc t with
      | returning result =>
        cases result with
        | none => rfl
        | some slot => exact absurd hw (hnone slot)
      | _ => rfl
    -- the sweep goes on to a word that it will load, or reports that it found nothing
    have hafter : ∀ pass i, AxiomSelectorThreads.afterWord g.count pass i = .returning none ∨
        ∃ pass' i', AxiomSelectorThreads.afterWord g.count pass i = .load pass' i' := by
      intro pass i
      unfold AxiomSelectorThreads.afterWord
      split_ifs
      · exact .inr ⟨_, _, rfl⟩
      · exact .inr ⟨_, _, rfl⟩
      · exact .inl rfl
    simp only [AxiomSelectorThreads.act] at hsel
    cases hw : s.selector.pc t with
    | idle => exact absurd hw hlinked.1
    | releasing slot => exact absurd hw (hlinked.2 slot)
    | load pass i =>
      have hword := hne (by simp [hw]) i
      simp only [hw, Option.some.injEq, AxiomSelectorThreads.scan, if_neg hword] at hsel
      subst hsel
      simp [allocDistance, hp, hw, State.goto, AxiomSelectorThreads.State.goto, afterAcquire]
    | cas pass i x r =>
      have hword := hne (by simp [hw]) i
      simp only [hw] at hsel
      split_ifs at hsel with hwin hr
      · cases hsel
        simp [allocDistance, hp, hw, State.goto, AxiomSelectorThreads.State.takeBit,
          AxiomSelectorThreads.State.goto, afterAcquire, hwin.1]
      · cases hsel
        have hstale : ¬ s.selector.selector.words (AxiomSelectorThreads.wordOf g.count (start t) i) = x :=
          fun heq => hwin ⟨heq, trivial⟩
        rcases hafter pass i with heq | ⟨pass', i', heq⟩
        · simp [allocDistance, hp, hw, State.goto, AxiomSelectorThreads.State.goto, afterAcquire, heq, hstale]
        · simp [allocDistance, hp, hw, State.goto, AxiomSelectorThreads.State.goto, afterAcquire, heq, hstale]
      · cases hsel
        have hstale : ¬ s.selector.selector.words (AxiomSelectorThreads.wordOf g.count (start t) i) = x :=
          fun heq => hwin ⟨heq, trivial⟩
        simp [allocDistance, hp, hw, State.goto, AxiomSelectorThreads.State.goto, afterAcquire,
          AxiomSelectorThreads.scan, hword, hstale]
    | returning result =>
      cases result with
      | none =>
        simp only [hw, Option.some.injEq] at hsel
        subst hsel
        simp [allocDistance, hp, hw, State.goto, afterAcquire]
      | some slot =>
        simp only [hw, Option.some.injEq] at hsel
        subst hsel
        simp [allocDistance, hp, hw, State.goto, afterAcquire]
  | _ =>
    rw [hp] at hcall
    exact hcall.elim

omit [DecidableEq τ] in
/-- Where no slot is in use, every word of the bitmap shows one. -/
theorem Represents.words_ne_zero (h : Represents s phase) (hfree : ∀ slot, phase slot = .free) {k : ℕ}
    (hk : k < g.count.kWords) : s.selector.selector.words k ≠ 0#64 := by
  have hlt : k * AxiomSelector.kBitsPerWord < g.count.slots := by
    rw [← g.count.kWords_mul]
    exact Nat.mul_lt_mul_of_pos_right hk (by decide)
  have hmem := (h.pool.free (k * AxiomSelector.kBitsPerWord)).mpr ⟨hlt, by rw [hfree]; rfl⟩
  have hone := (WordBits.mem_members.mp hmem).2
  intro hzero
  have hdiv : k * AxiomSelector.kBitsPerWord / 64 = k := Nat.mul_div_cancel k (by decide)
  rw [hdiv, hzero] at hone
  simp [WordBits.ones] at hone

end Progress

end Qtx.FractalArenaThreads
