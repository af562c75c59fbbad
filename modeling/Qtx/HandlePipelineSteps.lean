import Qtx.HandlePipelineInvariant

/-!
# The steps of the pipeline

Every step of the two loops keeps the invariant: the producer allocates, views, fills and
pushes, and the consumer pops, views, verifies and releases.
-/
namespace Qtx.HandlePipeline
open SpanMemory TransitionSystems FractalArena

variable {g : Geometry} {w : Scenario} {c : SPSCRingBuffer.Capacity} {head : BitVec 64} {start : Party → ℕ}
  {s s' : State g} {id : GenID} {spurious : Bool}

theorem arenaStep_eq_some {l : FractalArenaThreads.Label Party} (hs : arenaStep start s l = some s') :
    ∃ arena', FractalArenaThreads.step start s.arena l = some arena' ∧ s' = { s with arena := arena' } := by
  obtain ⟨arena', hstep, rfl⟩ := Option.map_eq_some_iff.mp hs
  exact ⟨arena', hstep, rfl⟩

theorem ringStep_eq_some {l : SPSCRingBuffer.Label GenID} (hs : ringStep c s l = some s') :
    ∃ ring, SPSCRingBuffer.step c s.ring l = some ring ∧ s' = { s with ring := ring } := by
  obtain ⟨ring, hstep, rfl⟩ := Option.map_eq_some_iff.mp hs
  exact ⟨ring, hstep, rfl⟩

theorem Viewing.loads {pc : FractalArenaThreads.Pc} (h : pc = .idle ∨ pc.Viewing id) (other : GenID) :
    pc ≠ .loading (.release false) other := by
  rintro rfl
  rcases h with h | h | h | h <;> cases h

theorem Releasing.loads {pc : FractalArenaThreads.Pc} (h : pc = .idle ∨ pc.Releasing id) (other : GenID) :
    pc ≠ .loading (.release false) other := by
  rintro rfl
  rcases h with h | h | h | h <;> cases h

theorem Invariant.allocate (h : Invariant w c head s) (hp : s.producer = .allocating)
    (hs : producerStep c start w s spurious = some s') : Invariant w c head s' := by
  obtain ⟨halloc, hpend⟩ : ProducerAt w s .allocating := hp ▸ h.producerAt
  have howned := h.owned
  have hsame : ∀ arena' : FractalArenaThreads.State g Party, ∀ l,
      FractalArenaThreads.step start s.arena l = some arena' → l.thread = .producer →
      FractalArenaThreads.WithinHorizon s.arena l → (∀ id i value, l ≠ .write .producer id i value) →
      (arena'.pc .producer).Allocating ∧ arena'.held .producer = s.arena.held .producer →
      Invariant w c head { s with arena := arena' } := by
    intro arena' l hstep hl hok hwrite heffect
    refine h.producerMove s.producer hstep hl hok ?_ h.apart
      (fun id i value heq => absurd heq (hwrite id i value)) ?_
    · rw [heffect.2]
      exact howned
    · rw [hp]
      exact ⟨heffect.1, hpend⟩
  simp only [producerStep, hp] at hs
  cases hpc : s.arena.pc .producer with
  | idle =>
    simp only [hpc] at hs
    split_ifs at hs
    obtain ⟨arena', hstep, rfl⟩ := arenaStep_eq_some hs
    exact hsame arena' _ hstep rfl trivial (by simp) (FractalArenaThreads.step_callAllocate hstep)
  | acquiring a =>
    simp only [hpc] at hs
    obtain ⟨arena', hstep, rfl⟩ := arenaStep_eq_some hs
    refine hsame arena' _ hstep rfl (FractalArenaThreads.withinHorizon_act (by simp [hpc])) (by simp) ?_
    exact FractalArenaThreads.act_allocating halloc (by simp [hpc]) hstep
  | bumping slot a =>
    simp only [hpc, Option.map_eq_some_iff] at hs
    obtain ⟨s'', hs, rfl⟩ := hs
    obtain ⟨arena', hstep, rfl⟩ := arenaStep_eq_some hs
    obtain ⟨phase, hr⟩ := h.arena
    obtain ⟨hidle, hheld, hfresh⟩ := FractalArenaThreads.act_bumping hr hpc hstep
    have hnone : s.producer.holding = none := by rw [hp]; rfl
    refine h.producerMove (.viewing (s.arena.handle slot a)) hstep rfl
      (FractalArenaThreads.withinHorizon_act (by simp [hpc])) ?_ ?_ (by simp) ⟨.inl hidle, hpend⟩
    · intro id
      rw [hheld, Finset.mem_insert, howned, hnone]
      simp [ProducerPc.holding, or_comm, eq_comm]
    · rintro id hid hmem
      obtain rfl : s.arena.handle slot a = id := Option.some.inj hid
      exact hfresh ((howned _).mpr (.inl hmem))
  | _ =>
    rw [hpc] at halloc
    exact halloc.elim

theorem Invariant.producerView (h : Invariant w c head s) (hp : s.producer = .viewing id)
    (hs : producerStep c start w s spurious = some s') : Invariant w c head s' := by
  obtain ⟨hview, hpend⟩ : ProducerAt w s (.viewing id) := hp ▸ h.producerAt
  have hholding : s.producer.holding = some id := by rw [hp]; rfl
  have hheld : id ∈ s.arena.held .producer := (h.owned id).mpr (.inr hholding)
  have hloads := Viewing.loads hview
  obtain ⟨phase, hr⟩ := h.arena
  simp only [producerStep, hp] at hs
  rcases hview with hidle | hview
  · simp only [hidle] at hs
    obtain ⟨arena', hstep, rfl⟩ := arenaStep_eq_some hs
    obtain ⟨hview', hsame⟩ := FractalArenaThreads.step_callView hstep
    refine h.producerMove s.producer hstep rfl trivial ?_ h.apart (by simp) ?_
    · rw [hsame]
      exact h.owned
    · rw [hp]
      exact ⟨.inr hview', hpend⟩
  · have hmove : ∀ arena', FractalArenaThreads.step start s.arena (.act .producer spurious) = some arena' →
        ∀ p : ProducerPc, p.holding = some id → ProducerAt w { s with arena := arena', producer := p } p →
        Invariant w c head { s with arena := arena', producer := p } := by
      intro arena' hstep p hpid hat
      obtain ⟨hsame, -⟩ := FractalArenaThreads.act_viewing hr hheld hview hstep
      refine h.producerMove p hstep rfl (FractalArenaThreads.withinHorizon_act hloads) ?_ ?_ (by simp) hat
      · rw [hsame, hpid, ← hholding]
        exact h.owned
      · rw [hpid, ← hholding]
        exact h.apart
    cases hpc : s.arena.pc .producer with
    | answering call other accepted =>
      obtain ⟨rfl, rfl, rfl⟩ := hview.answered hpc
      simp only [hpc, Option.map_eq_some_iff] at hs
      obtain ⟨s'', hs, rfl⟩ := hs
      obtain ⟨arena', hstep, rfl⟩ := arenaStep_eq_some hs
      obtain ⟨-, ⟨-, hidle⟩ | ⟨hnot, -⟩⟩ := FractalArenaThreads.act_viewing hr hheld hview hstep
      · exact hmove arena' hstep (.filling other 0) rfl
          ⟨hidle, hpend, g.slotSize_pos, fun j hj => absurd hj (Nat.not_lt_zero j)⟩
      · exact absurd hpc (hnot _ _ _)
    | idle => simp [FractalArenaThreads.Pc.Viewing, hpc] at hview
    | _ =>
      simp only [hpc] at hs
      obtain ⟨arena', hstep, rfl⟩ := arenaStep_eq_some hs
      obtain ⟨-, ⟨hanswer, -⟩ | ⟨-, hview'⟩⟩ := FractalArenaThreads.act_viewing hr hheld hview hstep
      · rw [hpc] at hanswer
        cases hanswer
      · exact hmove arena' hstep s.producer hholding (by rw [hp]; exact ⟨.inr hview', hpend⟩)

theorem Invariant.fill (h : Invariant w c head s) {i : ℕ} (hp : s.producer = .filling id i)
    (hs : producerStep c start w s spurious = some s') : Invariant w c head s' := by
  obtain ⟨hidle, hpend, hi, hfilled⟩ : ProducerAt w s (.filling id i) := hp ▸ h.producerAt
  have hholding : s.producer.holding = some id := by rw [hp]; rfl
  simp only [producerStep, hp, Option.map_eq_some_iff] at hs
  obtain ⟨s'', hs, rfl⟩ := hs
  obtain ⟨arena', hstep, rfl⟩ := arenaStep_eq_some hs
  have hnext : (if i + 1 < g.slotSize then ProducerPc.filling id (i + 1) else .pushing id).holding = some id := by
    split_ifs <;> rfl
  have hwrite := hstep
  simp only [FractalArenaThreads.step, Option.ite_none_right_eq_some, Option.some.injEq] at hwrite
  obtain ⟨-, rfl⟩ := hwrite
  have hdie : ∀ j < i + 1,
      assign s.arena.die (g.slotSpan id.id) i (w.payload s.sent i) ((g.slotSpan id.id).base + j) =
        w.payload s.sent j := by
    intro j hj
    rw [assign]
    rcases Nat.lt_succ_iff_lt_or_eq.mp hj with hlt | rfl
    · rw [if_neg (fun hc => absurd (Nat.add_left_cancel hc.2) (Nat.ne_of_lt hlt))]
      exact hfilled j hlt
    · rw [if_pos ⟨hi, rfl⟩]
  refine h.producerMove _ hstep rfl trivial ?_ ?_ ?_ ?_
  · rw [hnext, ← hholding]
    exact h.owned
  · rw [hnext, ← hholding]
    exact h.apart
  · intro other j value heq
    cases heq
    exact h.apart id hholding
  · split_ifs with hlast
    · exact ⟨hidle, hpend, hlast, hdie⟩
    · refine ⟨hidle, fun value hvalue => ?_, fun j hj => hdie j (by omega)⟩
      rw [hpend] at hvalue
      cases hvalue

theorem Invariant.push (h : Invariant w c head s) (hp : s.producer = .pushing id)
    (hs : producerStep c start w s spurious = some s') : Invariant w c head s' := by
  obtain ⟨hidle, hvalue, hshows⟩ : ProducerAt w s (.pushing id) := hp ▸ h.producerAt
  simp only [producerStep, hp] at hs
  have hquiet : (∀ value t, s.ring.producer ≠ .storeTail value t) → ringStep c s .push = some s' →
      Invariant w c head s' := by
    intro hnot hs
    obtain ⟨ring, hstep, rfl⟩ := ringStep_eq_some hs
    obtain ⟨hpushed, hpend⟩ := SPSCRingBuffer.pushStep_quiet hstep hnot
    obtain ⟨hconsumer, hpopped⟩ := SPSCRingBuffer.pushStep_frame hstep
    refine h.ringMove hstep hpushed hpopped ?_ (h.consumerAt.congr rfl hconsumer rfl (fun _ _ _ _ => rfl))
    rw [hp]
    exact ⟨hidle, fun value hpending => hvalue value (hpend value hpending), hshows⟩
  cases hpc : s.ring.producer with
  | idle result =>
    simp only [hpc] at hs
    obtain ⟨ring, hstep, rfl⟩ := ringStep_eq_some hs
    have hcall := hstep
    simp only [SPSCRingBuffer.step, hpc, Option.some.injEq] at hcall
    subst hcall
    refine h.ringMove hstep rfl rfl ?_ (h.consumerAt.congr rfl rfl rfl (fun _ _ _ _ => rfl))
    rw [hp]
    exact ⟨hidle, fun value hpending => (Option.some.inj hpending).symm, hshows⟩
  | storeTail value currentTail =>
    simp only [hpc, Option.map_eq_some_iff] at hs
    obtain ⟨s'', hs, rfl⟩ := hs
    obtain ⟨ring, hstep, rfl⟩ := ringStep_eq_some hs
    exact h.publish hp hpc hstep
  | _ =>
    simp only [hpc] at hs
    exact hquiet (by simp [hpc]) hs

theorem Invariant.pop (h : Invariant w c head s) (hp : s.consumer = .popping)
    (hs : consumerStep c start w s spurious = some s') : Invariant w c head s' := by
  have hidle : ConsumerAt w s .popping := hp ▸ h.consumerAt
  simp only [consumerStep, hp] at hs
  have hquiet : (∀ value t, s.ring.consumer ≠ .storeHead value t) → ringStep c s .pop = some s' →
      Invariant w c head s' := by
    intro hnot hs
    obtain ⟨ring, hstep, rfl⟩ := ringStep_eq_some hs
    have hpopped := SPSCRingBuffer.popStep_quiet hstep hnot
    obtain ⟨hproducer, hpushed⟩ := SPSCRingBuffer.popStep_frame hstep
    refine h.ringMove hstep hpushed hpopped (h.producerAt.congr rfl hproducer rfl (fun _ _ _ _ => rfl)) ?_
    rw [hp]
    exact hidle
  cases hpc : s.ring.consumer with
  | idle result =>
    simp only [hpc] at hs
    split_ifs at hs
    obtain ⟨ring, hstep, rfl⟩ := ringStep_eq_some hs
    have hcall := hstep
    simp only [SPSCRingBuffer.step, hpc, Option.some.injEq] at hcall
    subst hcall
    refine h.ringMove hstep rfl rfl (h.producerAt.congr rfl rfl rfl (fun _ _ _ _ => rfl)) ?_
    rw [hp]
    exact hidle
  | storeHead value currentHead =>
    simp only [hpc, Option.map_eq_some_iff] at hs
    obtain ⟨s'', hs, rfl⟩ := hs
    obtain ⟨ring, hstep, rfl⟩ := ringStep_eq_some hs
    exact h.take hp hpc hstep
  | _ =>
    simp only [hpc] at hs
    exact hquiet (by simp [hpc]) hs

theorem Invariant.consumerView (h : Invariant w c head s) (hp : s.consumer = .viewing id)
    (hs : consumerStep c start w s spurious = some s') : Invariant w c head s' := by
  obtain ⟨hview, hring, hshows⟩ : ConsumerAt w s (.viewing id) := hp ▸ h.consumerAt
  have hheld : id ∈ s.arena.held .consumer := (h.taken id).mpr (by rw [hp]; rfl)
  have hloads := Viewing.loads hview
  have hreceived := h.received
  rw [hp] at hreceived
  obtain ⟨phase, hr⟩ := h.arena
  have hdie : ∀ arena' l, FractalArenaThreads.step start s.arena l = some arena' →
      (∀ t id i value, l ≠ .write t id i value) → Shows arena' id (w.payload s.received) := by
    intro arena' l hstep hreads
    refine hshows.congr ?_
    rcases (hr.isolated hstep).bytes .consumer id hheld with hsame | ⟨i, value, heq⟩
    · exact hsame
    · exact absurd heq (hreads .consumer id i value)
  have htaken : ∀ other, other ∈ s.arena.held .consumer ↔ some id = some other := by
    intro other
    rw [h.taken, hp]
    rfl
  simp only [consumerStep, hp] at hs
  rcases hview with hidle | hview
  · simp only [hidle] at hs
    obtain ⟨arena', hstep, rfl⟩ := arenaStep_eq_some hs
    obtain ⟨hview', hsame⟩ := FractalArenaThreads.step_callView hstep
    refine h.consumerMove s.consumer s.received hstep rfl trivial (by simp) ?_ h.received ?_
    · rw [hsame, hp]
      exact htaken
    · rw [hp]
      exact ⟨.inr hview', hring, hdie arena' _ hstep (by simp)⟩
  · have hmove : ∀ arena', FractalArenaThreads.step start s.arena (.act .consumer spurious) = some arena' →
        ∀ p : ConsumerPc, p.holding (arena'.pc .consumer) = some id → p ≠ .popping →
        ConsumerAt w { s with arena := arena', consumer := p } p →
        Invariant w c head { s with arena := arena', consumer := p } := by
      intro arena' hstep p hpid hpop hat
      obtain ⟨hsame, -⟩ := FractalArenaThreads.act_viewing hr hheld hview hstep
      refine h.consumerMove p s.received hstep rfl (FractalArenaThreads.withinHorizon_act hloads)
        (by simp) ?_ ?_ hat
      · rw [hsame, hpid]
        exact htaken
      · rw [if_neg hpop]
        exact hreceived
    cases hpc : s.arena.pc .consumer with
    | answering call other accepted =>
      obtain ⟨rfl, rfl, rfl⟩ := hview.answered hpc
      simp only [hpc, Option.map_eq_some_iff] at hs
      obtain ⟨s'', hs, rfl⟩ := hs
      obtain ⟨arena', hstep, rfl⟩ := arenaStep_eq_some hs
      obtain ⟨-, ⟨-, hidle⟩ | ⟨hnot, -⟩⟩ := FractalArenaThreads.act_viewing hr hheld hview hstep
      · exact hmove arena' hstep (.verifying other 0) rfl (by simp)
          ⟨hidle, g.slotSize_pos, hring, hdie arena' _ hstep (by simp)⟩
      · exact absurd hpc (hnot _ _ _)
    | idle => simp [FractalArenaThreads.Pc.Viewing, hpc] at hview
    | _ =>
      simp only [hpc] at hs
      obtain ⟨arena', hstep, rfl⟩ := arenaStep_eq_some hs
      obtain ⟨-, ⟨hanswer, -⟩ | ⟨-, hview'⟩⟩ := FractalArenaThreads.act_viewing hr hheld hview hstep
      · rw [hpc] at hanswer
        cases hanswer
      · exact hmove arena' hstep s.consumer (by rw [hp]; rfl) (by simp [hp])
          (by rw [hp]; exact ⟨.inr hview', hring, hdie arena' _ hstep (by simp)⟩)

/-- Every byte is the one that the producer filled in. -/
theorem Invariant.verify (h : Invariant w c head s) {i : ℕ} (hp : s.consumer = .verifying id i)
    (hs : consumerStep c start w s spurious = some s') : Invariant w c head s' := by
  obtain ⟨hidle, hi, hring, hshows⟩ : ConsumerAt w s (.verifying id i) := hp ▸ h.consumerAt
  simp only [consumerStep, hp, if_pos (hshows i hi), Option.some.injEq] at hs
  subst hs
  have htaken := h.taken
  have hreceived := h.received
  rw [hp] at htaken hreceived
  refine ⟨h.arena, h.ring, h.owned, ?_, h.apart, h.distinct,
    h.producerAt.congr rfl rfl rfl (fun _ _ _ _ => rfl), ?_,
    h.sent, ?_, h.intact, h.failures⟩
  · dsimp only
    split_ifs with hlast
    · exact htaken
    · intro other
      rw [htaken, ConsumerPc.holding, ConsumerPc.holding, if_pos hidle]
  · dsimp only
    split_ifs with hlast
    · exact ⟨hidle, hlast, hring, hshows⟩
    · exact ⟨.inl hidle, hring⟩
  · dsimp only
    split_ifs <;> simp_all

theorem Invariant.release (h : Invariant w c head s) (hp : s.consumer = .releasing id)
    (hs : consumerStep c start w s spurious = some s') : Invariant w c head s' := by
  obtain ⟨hrelease, hring⟩ : ConsumerAt w s (.releasing id) := hp ▸ h.consumerAt
  have hreceived := h.received
  rw [hp] at hreceived
  have hloads := Releasing.loads hrelease
  obtain ⟨phase, hr⟩ := h.arena
  simp only [consumerStep, hp] at hs
  rcases hrelease with hidle | hrelease
  · have htaken : ∀ other, other ∈ s.arena.held .consumer ↔ other = id := by
      intro other
      rw [h.taken, hp, ConsumerPc.holding, if_pos hidle, Option.some.injEq, eq_comm]
    simp only [hidle] at hs
    obtain ⟨arena', hstep, rfl⟩ := arenaStep_eq_some hs
    obtain ⟨hrelease', hheld⟩ := FractalArenaThreads.step_callRelease ((htaken id).mpr rfl) hstep
    refine h.consumerMove s.consumer s.received hstep rfl trivial (by simp) ?_ h.received ?_
    · intro other
      have hbusy : arena'.pc .consumer ≠ .idle := by
        intro hc
        rw [hc] at hrelease'
        rcases hrelease' with h | h | h <;> cases h
      rw [hheld, hp, ConsumerPc.holding, if_neg hbusy, Finset.mem_erase, htaken]
      simp
    · rw [hp]
      exact ⟨.inr hrelease', hring⟩
  · have hbusy : ∀ pc : FractalArenaThreads.Pc, pc.Releasing id → pc ≠ .idle := by
      rintro pc hpc rfl
      rcases hpc with h | h | h <;> cases h
    have hempty : ∀ other, other ∉ s.arena.held .consumer := by
      intro other hother
      have htaken := (h.taken other).mp hother
      rw [hp, ConsumerPc.holding, if_neg (hbusy _ hrelease)] at htaken
      cases htaken
    cases hpc : s.arena.pc .consumer with
    | answering call other accepted =>
      simp only [hpc, Option.map_eq_some_iff] at hs
      obtain ⟨s'', hs, rfl⟩ := hs
      obtain ⟨arena', hstep, rfl⟩ := arenaStep_eq_some hs
      obtain ⟨hsame, ⟨-, hidle⟩ | ⟨hnot, -⟩⟩ := FractalArenaThreads.act_releasing hr hrelease hstep
      · refine h.consumerMove .popping (s.received + 1) hstep rfl
          (FractalArenaThreads.withinHorizon_act hloads) (by simp) ?_ (by simpa using hreceived) hidle
        intro x
        rw [hsame]
        exact iff_of_false (hempty x) (by simp [ConsumerPc.holding])
      · exact absurd hpc (hnot _ _ _)
    | idle => exact absurd hpc (hbusy _ hrelease)
    | _ =>
      simp only [hpc] at hs
      obtain ⟨arena', hstep, rfl⟩ := arenaStep_eq_some hs
      obtain ⟨hsame, ⟨hanswer, -⟩ | ⟨-, hrelease'⟩⟩ := FractalArenaThreads.act_releasing hr hrelease hstep
      · rw [hpc] at hanswer
        cases hanswer
      · refine h.consumerMove s.consumer s.received hstep rfl
          (FractalArenaThreads.withinHorizon_act hloads)
            (by simp) ?_ h.received (by rw [hp]; exact ⟨.inr hrelease', hring⟩)
        intro x
        rw [hsame, hp, ConsumerPc.holding, if_neg (hbusy _ hrelease')]
        exact iff_of_false (hempty x) (by simp)

theorem invariant_step {l : Party × Bool} (h : Invariant w c head s)
    (hs : (pipeline c start w g head).step s l = some s') :
    Invariant w c head s' := by
  obtain ⟨party, spurious⟩ := l
  cases party with
  | producer =>
    cases hp : s.producer with
    | allocating => exact h.allocate hp hs
    | viewing id => exact h.producerView hp hs
    | filling id i => exact h.fill hp hs
    | pushing id => exact h.push hp hs
  | consumer =>
    cases hp : s.consumer with
    | popping => exact h.pop hp hs
    | viewing id => exact h.consumerView hp hs
    | verifying id i => exact h.verify hp hs
    | releasing id => exact h.release hp hs

end Qtx.HandlePipeline
