import Qtx.HandlePipelineTurns

/-!
# Progress of the two threads

When the ring is empty and the consumer waits, every slot but that of the producer is free, so
the producer gets on; when the consumer has a handle to take or in hand, it gets on.
-/
namespace Qtx.HandlePipeline
open SpanMemory TransitionSystems FractalArena

variable {g : Geometry} {w : Scenario} {c : SPSCRingBuffer.Capacity} {head : BitVec 64} {start : Party → ℕ}
  {s s' : State g} {id : GenID}

/-- With nothing in the ring and nothing in hand, every slot is free. -/
theorem Invariant.all_free {phase : ℕ → FractalArenaThreads.Phase Party} (h : Invariant w c head s)
    (hr : FractalArenaThreads.Represents s.arena phase) (hnot : ¬ ConsumerReady s) (hp : s.producer = .allocating)
    (hnone : FractalArenaThreads.inHand s.arena .producer = none) (slot : ℕ) : phase slot = .free := by
  have hc : s.consumer = .popping := by
    by_contra hne
    exact hnot (.inl hne)
  have hempty : inFlight s.ring = [] :=
    List.drop_eq_nil_of_le (Nat.le_of_not_lt (fun hlt => hnot (.inr hlt)))
  have hidle : ConsumerAt w s .popping := hc ▸ h.consumerAt
  cases hphase : phase slot with
  | free => rfl
  | live t id =>
    obtain ⟨rfl, -⟩ := hr.current slot id (by rw [hphase]; rfl)
    have hheld := (hr.held t id).mpr hphase
    cases t with
    | producer =>
      have howned := (h.owned id).mp hheld
      rw [hempty, hp] at howned
      simp [ProducerPc.holding] at howned
    | consumer =>
      have htaken := (h.taken id).mp hheld
      rw [hc] at htaken
      cases htaken
  | transit t kind =>
    have hhand := (hr.hand t slot kind).mpr hphase
    cases t with
    | producer =>
      rw [hnone] at hhand
      cases hhand
    | consumer =>
      rw [FractalArenaThreads.inHand, show s.arena.pc .consumer = .idle from hidle] at hhand
      cases hhand

theorem arenaStep_of_eq {l : FractalArenaThreads.Label Party} {arena' : FractalArenaThreads.State g Party}
    (hs : FractalArenaThreads.step start s.arena l = some arena') :
    arenaStep start s l = some { s with arena := arena' } := by
  rw [arenaStep, hs, Option.map_some]

theorem ringStep_of_eq {l : SPSCRingBuffer.Label GenID} {ring : SPSCRingBuffer.State GenID}
    (hs : SPSCRingBuffer.step c s.ring l = some ring) : ringStep c s l = some { s with ring := ring } := by
  rw [ringStep, hs, Option.map_some]

/-- A step of the producer exists, and ends its work on a message or comes nearer to that end. -/
def ProducerAdvances (c : SPSCRingBuffer.Capacity) (start : Party → ℕ) (w : Scenario) (s : State g) : Prop :=
  ∃ s', producerStep c start w s false = some s' ∧
    (s'.sent = s.sent + 1 ∨ s'.sent = s.sent ∧ producerDistance start s' < producerDistance start s)

def ConsumerAdvances (c : SPSCRingBuffer.Capacity) (start : Party → ℕ) (w : Scenario) (s : State g) : Prop :=
  ∃ s', consumerStep c start w s false = some s' ∧
    (s'.received = s.received + 1 ∨
      s'.received = s.received ∧ ConsumerReady s' ∧ consumerDistance s' < consumerDistance s)

theorem Invariant.allocate_advances (h : Invariant w c head s) (hp : s.producer = .allocating)
    (hnot : ¬ ConsumerReady s) (ha : Accepts g w.requestedSize w.requestedAlign) (hlt : s.sent < w.kMessages) :
    ProducerAdvances c start w s := by
  obtain ⟨halloc, -⟩ : ProducerAt w s .allocating := hp ▸ h.producerAt
  obtain ⟨phase, hr⟩ := h.arena
  by_cases hidle : s.arena.pc .producer = .idle
  · obtain ⟨arena', hstep, hnear⟩ := FractalArenaThreads.callAllocate_distance start ha hr hidle
    have hs : producerStep c start w s false = some { s with arena := arena' } := by
      simp only [producerStep, hp, hidle, if_pos hlt, arenaStep_of_eq hstep]
    refine ⟨_, hs, .inr ⟨rfl, ?_⟩⟩
    simp only [producerDistance, hp]
    omega
  · obtain ⟨arena', hact⟩ := hr.exists_act start false hidle
    have hstep : FractalArenaThreads.step start s.arena (.act .producer false) = some arena' := hact
    cases hpc : s.arena.pc .producer with
    | idle => exact absurd hpc hidle
    | bumping slot a =>
      obtain ⟨hidle', -, -⟩ := FractalArenaThreads.act_bumping hr hpc hact
      have hs : producerStep c start w s false =
          some { s with arena := arena', producer := .viewing (s.arena.handle slot a) } := by
        simp only [producerStep, hp, hpc, arenaStep_of_eq hstep, Option.map_some]
      refine ⟨_, hs, .inr ⟨rfl, ?_⟩⟩
      simp only [producerDistance, hp, FractalArenaThreads.allocDistance, hpc, hidle',
        FractalArenaThreads.Pc.distance]
      omega
    | acquiring a =>
      have hnear := FractalArenaThreads.act_allocDistance hr hact halloc (by simp [hpc])
        (fun hnone k hk => hr.words_ne_zero (h.all_free hr hnot hp hnone) hk)
      have hs : producerStep c start w s false = some { s with arena := arena' } := by
        simp only [producerStep, hp, hpc, arenaStep_of_eq hstep]
      refine ⟨_, hs, .inr ⟨rfl, ?_⟩⟩
      simp only [producerDistance, hp]
      omega
    | _ =>
      rw [hpc] at halloc
      exact halloc.elim

theorem Viewing.not_allocating {pc : FractalArenaThreads.Pc} (h : pc.Viewing id) :
    ¬ pc.Allocating ∧ pc ≠ .idle := by
  rcases h with rfl | rfl | rfl <;> exact ⟨fun hc => hc, FractalArenaThreads.Pc.noConfusion⟩

theorem Releasing.not_allocating {pc : FractalArenaThreads.Pc} (h : pc.Releasing id) :
    ¬ pc.Allocating ∧ pc ≠ .idle := by
  rcases h with hclosing | rfl | rfl
  · constructor
    · cases pc <;> first | exact fun hc => hc | cases hclosing
    · rintro rfl
      cases hclosing
  · exact ⟨fun hc => hc, FractalArenaThreads.Pc.noConfusion⟩
  · exact ⟨fun hc => hc, FractalArenaThreads.Pc.noConfusion⟩

theorem callView_distance {arena : FractalArenaThreads.State g Party} {t : Party} (start : Party → ℕ) (id : GenID)
    (hidle : arena.pc t = .idle) :
    ∃ arena', FractalArenaThreads.step start arena (.callView t id) = some arena' ∧
      (arena'.pc t).distance g < (arena.pc t).distance g := by
  refine ⟨arena.goto t (.loading .view id), if_pos hidle, ?_⟩
  rw [FractalArenaThreads.goto_pc_self, hidle]
  exact Nat.lt_succ_self _

theorem Invariant.producerView_advances (h : Invariant w c head s) (hp : s.producer = .viewing id) :
    ProducerAdvances c start w s := by
  obtain ⟨hview, -⟩ : ProducerAt w s (.viewing id) := hp ▸ h.producerAt
  have hheld : id ∈ s.arena.held .producer := (h.owned id).mpr (.inr (by rw [hp]; rfl))
  obtain ⟨phase, hr⟩ := h.arena
  rcases hview with hidle | hview
  · obtain ⟨arena', hstep, hnear⟩ := callView_distance start id hidle
    have hs : producerStep c start w s false = some { s with arena := arena' } := by
      simp only [producerStep, hp, hidle, arenaStep_of_eq hstep]
    refine ⟨_, hs, .inr ⟨rfl, ?_⟩⟩
    simp only [producerDistance, hp]
    omega
  · obtain ⟨hcall, hbusy⟩ := Viewing.not_allocating hview
    obtain ⟨arena', hact⟩ := hr.exists_act start false hbusy
    have hstep : FractalArenaThreads.step start s.arena (.act .producer false) = some arena' := hact
    cases hpc : s.arena.pc .producer with
    | answering call other accepted =>
      obtain ⟨rfl, rfl, rfl⟩ := hview.answered hpc
      have hs : producerStep c start w s false = some { s with arena := arena', producer := .filling other 0 } := by
        simp only [producerStep, hp, hpc, arenaStep_of_eq hstep, Option.map_some]
      refine ⟨_, hs, .inr ⟨rfl, ?_⟩⟩
      simp only [producerDistance, hp, hpc, FractalArenaThreads.Pc.distance]
      omega
    | idle => exact absurd hpc hbusy
    | _ =>
      have hnear := FractalArenaThreads.act_distance hr hact hcall (by simp [hpc])
      have hs : producerStep c start w s false = some { s with arena := arena' } := by
        simp only [producerStep, hp, hpc, arenaStep_of_eq hstep]
      refine ⟨_, hs, .inr ⟨rfl, ?_⟩⟩
      simp only [producerDistance, hp]
      omega

theorem Invariant.fill_advances (h : Invariant w c head s) {i : ℕ} (hp : s.producer = .filling id i) :
    ProducerAdvances c start w s := by
  obtain ⟨hidle, hpend, hi, -⟩ : ProducerAt w s (.filling id i) := hp ▸ h.producerAt
  have hheld : id ∈ s.arena.held .producer := (h.owned id).mpr (.inr (by rw [hp]; rfl))
  have hstep : FractalArenaThreads.step start s.arena (.write .producer id i (w.payload s.sent i)) =
      some { s.arena with die := assign s.arena.die (g.slotSpan id.id) i (w.payload s.sent i) } :=
    if_pos ⟨hidle, hheld⟩
  have hs : producerStep c start w s false = some { s with
      arena := { s.arena with die := assign s.arena.die (g.slotSpan id.id) i (w.payload s.sent i) }
      producer := if i + 1 < g.slotSize then .filling id (i + 1) else .pushing id } := by
    simp only [producerStep, hp, arenaStep_of_eq hstep, Option.map_some]
  refine ⟨_, hs, .inr ⟨rfl, ?_⟩⟩
  obtain ⟨result, hring⟩ := SPSCRingBuffer.ProducerPc.pending_eq_none.mp hpend
  simp only [producerDistance, hp]
  split_ifs
  · dsimp only
    omega
  · simp only [hring, SPSCRingBuffer.ProducerPc.distance]
    omega

/-- The ring is empty, so there is room in it. -/
theorem Invariant.push_advances (h : Invariant w c head s) (hp : s.producer = .pushing id)
    (hnot : ¬ ConsumerReady s) : ProducerAdvances c start w s := by
  have hroom : s.ring.pushed.length < s.ring.popped.length + c.value := by
    have hle := Nat.le_of_not_lt (fun hlt => hnot (.inr hlt))
    have hpos := c.pos
    omega
  cases hpc : s.ring.producer with
  | idle result =>
    have hstep : SPSCRingBuffer.step c s.ring (.callPush id) = some { s.ring with producer := .loadTail id } := by
      simp only [SPSCRingBuffer.step, hpc]
    have hs : producerStep c start w s false =
        some { s with ring := { s.ring with producer := .loadTail id } } := by
      simp only [producerStep, hp, hpc, ringStep_of_eq hstep]
    refine ⟨_, hs, .inr ⟨rfl, ?_⟩⟩
    simp only [producerDistance, hp, hpc]
    exact Nat.lt_succ_self 4
  | storeTail value currentTail =>
    have hvalue : s.ring.producer.pending = some value := by rw [hpc]; rfl
    obtain ⟨ring, hstep⟩ := SPSCRingBuffer.exists_pushStep (c := c) hvalue
    have hring : SPSCRingBuffer.step c s.ring .push = some ring := hstep
    have hs : producerStep c start w s false =
        some { s with ring := ring, producer := .allocating, sent := s.sent + 1 } := by
      simp only [producerStep, hp, hpc, ringStep_of_eq hring, Option.map_some]
    exact ⟨_, hs, .inl rfl⟩
  | _ =>
    obtain ⟨value, hvalue⟩ : ∃ value, s.ring.producer.pending = some value := by
      rw [hpc]
      exact ⟨_, rfl⟩
    obtain ⟨ring, hstep⟩ := SPSCRingBuffer.exists_pushStep (c := c) hvalue
    have hring : SPSCRingBuffer.step c s.ring .push = some ring := hstep
    have hs : producerStep c start w s false = some { s with ring := ring } := by
      simp only [producerStep, hp, hpc, ringStep_of_eq hring]
    refine ⟨_, hs, .inr ⟨rfl, ?_⟩⟩
    rcases SPSCRingBuffer.push_step h.ring hring hvalue with ⟨hpend, -⟩ | ⟨-, hpushed⟩ | ⟨-, -, hfull⟩
    · simp only [producerDistance, hp]
      exact SPSCRingBuffer.pushStep_distance hstep hpend
    · have hquiet := (SPSCRingBuffer.pushStep_quiet hstep (by simp [hpc])).1
      rw [hquiet] at hpushed
      simp at hpushed
    · omega

theorem Invariant.producer_advances (h : Invariant w c head s) (hnot : ¬ ConsumerReady s)
    (ha : Accepts g w.requestedSize w.requestedAlign) (hlt : s.sent < w.kMessages) :
    ProducerAdvances c start w s := by
  cases hp : s.producer with
  | allocating => exact h.allocate_advances hp hnot ha hlt
  | viewing id => exact h.producerView_advances hp
  | filling id i => exact h.fill_advances hp
  | pushing id => exact h.push_advances hp hnot

/-- A pop of a ring that is not empty. -/
theorem Invariant.pop_advances (h : Invariant w c head s) (hp : s.consumer = .popping)
    (hready : s.ring.popped.length < s.ring.pushed.length) (hlt : s.received < w.kMessages) :
    ConsumerAdvances c start w s := by
  have hidle : s.arena.pc .consumer = .idle := by
    have hat := h.consumerAt
    rw [hp] at hat
    exact hat
  cases hpc : s.ring.consumer with
  | idle result =>
    have hstep : SPSCRingBuffer.step c s.ring .callPop = some { s.ring with consumer := .loadHead } := by
      simp only [SPSCRingBuffer.step, hpc]
    have hs : consumerStep c start w s false = some { s with ring := { s.ring with consumer := .loadHead } } := by
      simp only [consumerStep, hp, hpc, if_pos hlt, ringStep_of_eq hstep]
    refine ⟨_, hs, .inr ⟨rfl, .inr hready, ?_⟩⟩
    simp only [consumerDistance, hp, hpc, SPSCRingBuffer.ConsumerPc.distance]
    omega
  | storeHead value currentHead =>
    have hbusy : s.ring.consumer.isIdle = false := by rw [hpc]; rfl
    obtain ⟨ring, hstep⟩ := SPSCRingBuffer.exists_popStep (c := c) hbusy
    have hring : SPSCRingBuffer.step c s.ring .pop = some ring := hstep
    have hs : consumerStep c start w s false =
        some { s with
          ring := ring, arena := s.arena.give value .producer .consumer, consumer := .viewing value } := by
      simp only [consumerStep, hp, hpc, ringStep_of_eq hring, Option.map_some]
    have hstill : (s.arena.give value .producer .consumer).pc .consumer = .idle := hidle
    refine ⟨_, hs, .inr ⟨rfl, .inl ConsumerPc.noConfusion, ?_⟩⟩
    simp only [consumerDistance, hp, hpc, hstill, FractalArenaThreads.Pc.distance,
      SPSCRingBuffer.ConsumerPc.distance]
    omega
  | _ =>
    have hbusy : s.ring.consumer.isIdle = false := by rw [hpc]; rfl
    obtain ⟨ring, hstep⟩ := SPSCRingBuffer.exists_popStep (c := c) hbusy
    have hring : SPSCRingBuffer.step c s.ring .pop = some ring := hstep
    have hs : consumerStep c start w s false = some { s with ring := ring } := by
      simp only [consumerStep, hp, hpc, ringStep_of_eq hring]
    have hquiet := SPSCRingBuffer.popStep_quiet hstep (by simp [hpc])
    have hpushed := (SPSCRingBuffer.popStep_frame hstep).2
    refine ⟨_, hs, .inr ⟨rfl, .inr ?_, ?_⟩⟩
    · dsimp only
      rwa [hquiet, hpushed]
    · rcases SPSCRingBuffer.pop_step h.ring hring hbusy with ⟨hbusy', -⟩ | ⟨value, -, hpopped⟩ | ⟨-, -, hempty⟩
      · have hnear := SPSCRingBuffer.popStep_distance hstep hbusy'
        simp only [consumerDistance, hp]
        omega
      · rw [hquiet] at hpopped
        simp at hpopped
      · omega

theorem Invariant.consumerView_advances (h : Invariant w c head s) (hp : s.consumer = .viewing id) :
    ConsumerAdvances c start w s := by
  obtain ⟨hview, -, -⟩ : ConsumerAt w s (.viewing id) := hp ▸ h.consumerAt
  have hready : ∀ s' : State g, s'.consumer = s.consumer → ConsumerReady s' := by
    intro s' heq
    exact .inl (by rw [heq, hp]; exact ConsumerPc.noConfusion)
  obtain ⟨phase, hr⟩ := h.arena
  rcases hview with hidle | hview
  · obtain ⟨arena', hstep, hnear⟩ := callView_distance start id hidle
    have hs : consumerStep c start w s false = some { s with arena := arena' } := by
      simp only [consumerStep, hp, hidle, arenaStep_of_eq hstep]
    refine ⟨_, hs, .inr ⟨rfl, hready _ rfl, ?_⟩⟩
    simp only [consumerDistance, hp]
    omega
  · obtain ⟨hcall, hbusy⟩ := Viewing.not_allocating hview
    obtain ⟨arena', hact⟩ := hr.exists_act start false hbusy
    have hstep : FractalArenaThreads.step start s.arena (.act .consumer false) = some arena' := hact
    cases hpc : s.arena.pc .consumer with
    | answering call other accepted =>
      obtain ⟨rfl, rfl, rfl⟩ := hview.answered hpc
      have hs : consumerStep c start w s false =
          some { s with arena := arena', consumer := .verifying other 0 } := by
        simp only [consumerStep, hp, hpc, arenaStep_of_eq hstep, Option.map_some]
      refine ⟨_, hs, .inr ⟨rfl, .inl ConsumerPc.noConfusion, ?_⟩⟩
      simp only [consumerDistance, hp, hpc, FractalArenaThreads.Pc.distance]
      omega
    | idle => exact absurd hpc hbusy
    | _ =>
      have hnear := FractalArenaThreads.act_distance hr hact hcall (by simp [hpc])
      have hs : consumerStep c start w s false = some { s with arena := arena' } := by
        simp only [consumerStep, hp, hpc, arenaStep_of_eq hstep]
      refine ⟨_, hs, .inr ⟨rfl, hready _ rfl, ?_⟩⟩
      simp only [consumerDistance, hp]
      omega

theorem Invariant.verify_advances (h : Invariant w c head s) {i : ℕ} (hp : s.consumer = .verifying id i) :
    ConsumerAdvances c start w s := by
  obtain ⟨hidle, hi, -, hshows⟩ : ConsumerAt w s (.verifying id i) := hp ▸ h.consumerAt
  have hs : consumerStep c start w s false =
      some { s with consumer := if i + 1 < g.slotSize then .verifying id (i + 1) else .releasing id } := by
    simp only [consumerStep, hp, if_pos (hshows i hi)]
  refine ⟨_, hs, .inr ⟨rfl, .inl ?_, ?_⟩⟩
  · dsimp only
    split_ifs <;> exact ConsumerPc.noConfusion
  · simp only [consumerDistance, hp]
    split_ifs
    · dsimp only
      omega
    · simp only [hidle, FractalArenaThreads.Pc.distance]
      omega

theorem Invariant.release_advances (h : Invariant w c head s) (hp : s.consumer = .releasing id) :
    ConsumerAdvances c start w s := by
  obtain ⟨hrelease, -⟩ : ConsumerAt w s (.releasing id) := hp ▸ h.consumerAt
  have hready : ∀ s' : State g, s'.consumer = s.consumer → ConsumerReady s' := by
    intro s' heq
    exact .inl (by rw [heq, hp]; exact ConsumerPc.noConfusion)
  obtain ⟨phase, hr⟩ := h.arena
  rcases hrelease with hidle | hrelease
  · have hheld : id ∈ s.arena.held .consumer := (h.taken id).mpr (by rw [hp, ConsumerPc.holding, if_pos hidle])
    have hstep : FractalArenaThreads.step start s.arena (.callRelease .consumer id) =
        some (s.arena.giveUp .consumer id) := by
      simp only [FractalArenaThreads.step, if_neg (not_not.mpr hidle), if_pos hheld]
      rfl
    have hs : consumerStep c start w s false = some { s with arena := s.arena.giveUp .consumer id } := by
      simp only [consumerStep, hp, hidle, arenaStep_of_eq hstep]
    have hloading : (s.arena.giveUp .consumer id).pc .consumer = .loading (.release true) id :=
      FractalArenaThreads.goto_pc_self s.arena .consumer _
    refine ⟨_, hs, .inr ⟨rfl, hready _ rfl, ?_⟩⟩
    simp only [consumerDistance, hp, hloading, hidle, FractalArenaThreads.Pc.distance]
    omega
  · obtain ⟨hcall, hbusy⟩ := Releasing.not_allocating hrelease
    obtain ⟨arena', hact⟩ := hr.exists_act start false hbusy
    have hstep : FractalArenaThreads.step start s.arena (.act .consumer false) = some arena' := hact
    cases hpc : s.arena.pc .consumer with
    | answering call other accepted =>
      have hs : consumerStep c start w s false =
          some { s with arena := arena', consumer := .popping, received := s.received + 1 } := by
        simp only [consumerStep, hp, hpc, arenaStep_of_eq hstep, Option.map_some]
      exact ⟨_, hs, .inl rfl⟩
    | idle => exact absurd hpc hbusy
    | _ =>
      have hnear := FractalArenaThreads.act_distance hr hact hcall (by simp [hpc])
      have hs : consumerStep c start w s false = some { s with arena := arena' } := by
        simp only [consumerStep, hp, hpc, arenaStep_of_eq hstep]
      refine ⟨_, hs, .inr ⟨rfl, hready _ rfl, ?_⟩⟩
      simp only [consumerDistance, hp]
      omega

theorem Invariant.consumer_advances (h : Invariant w c head s) (hu : Underway w s) (hready : ConsumerReady s) :
    ConsumerAdvances c start w s := by
  cases hp : s.consumer with
  | popping =>
    have hlt := hready.resolve_left (fun hne => hne hp)
    have hsent := h.sent
    have hreceived := h.received
    rw [hp, if_pos rfl, Nat.add_zero] at hreceived
    refine h.pop_advances hp hlt ?_
    rcases hu.sending with hs | ⟨hs, -⟩ <;> omega
  | viewing id => exact h.consumerView_advances hp
  | verifying id i => exact h.verify_advances hp
  | releasing id => exact h.release_advances hp

end Qtx.HandlePipeline
