import Qtx.HandlePipelineRuns
import Qtx.SPSCRingBufferLiveness

/-!
# Turns of the two threads

A step of one thread leaves the other where it is, and is a part of the work on one message,
or a try that fails and costs nothing.
-/
namespace Qtx.HandlePipeline
open SpanMemory TransitionSystems FractalArena

variable {g : Geometry}

/-- Steps of the producer until it publishes the handle of a message, if nothing interferes. -/
def producerDistance (start : Party → ℕ) (s : State g) : ℕ :=
  match s.producer with
  | .pushing _ => s.ring.producer.distance
  | .filling _ i => 6 + (g.slotSize - i)
  | .viewing _ => 7 + g.slotSize + (s.arena.pc .producer).distance g
  | .allocating => 14 + 2 * g.slotSize + FractalArenaThreads.allocDistance start s.arena .producer

/-- Steps of the consumer until it is through with a message, if there is one to take. -/
def consumerDistance (s : State g) : ℕ :=
  match s.consumer with
  | .releasing _ => (s.arena.pc .consumer).distance g
  | .verifying _ i => 7 + g.slotSize + (g.slotSize - i)
  | .viewing _ => 8 + 2 * g.slotSize + (s.arena.pc .consumer).distance g
  | .popping => 15 + 3 * g.slotSize + s.ring.consumer.distance

/-- The consumer has a message in hand or one to take. -/
def ConsumerReady (s : State g) : Prop := s.consumer ≠ .popping ∨ s.ring.popped.length < s.ring.pushed.length

instance (s : State g) : Decidable (ConsumerReady s) := inferInstanceAs (Decidable (_ ∨ _))

variable (w : Scenario)

/-- A thread that has no message left stands at the head of its loop. -/
structure Underway (s : State g) : Prop where
  sending : s.sent < w.kMessages ∨
    s.sent = w.kMessages ∧ s.producer = .allocating ∧ s.arena.pc .producer = .idle
  receiving : s.received < w.kMessages ∨
    s.received = w.kMessages ∧ s.consumer = .popping ∧ s.ring.consumer.isIdle = true

/-- A step of the producer leaves the consumer where it is, and is a part of the work on one message. -/
structure ProducerTurn (s s' : State g) : Prop where
  consumer : s'.consumer = s.consumer
  pc : s'.arena.pc .consumer = s.arena.pc .consumer
  ring : s'.ring.consumer = s.ring.consumer
  popped : s'.ring.popped = s.ring.popped
  received : s'.received = s.received
  busy : s.sent < w.kMessages
  effect : s'.sent = s.sent ∧ s'.ring.pushed = s.ring.pushed ∨
    s'.sent = s.sent + 1 ∧ s'.producer = .allocating ∧ s'.arena.pc .producer = .idle

structure ConsumerTurn (s s' : State g) : Prop where
  producer : s'.producer = s.producer
  pc : s'.arena.pc .producer = s.arena.pc .producer
  sent : s'.sent = s.sent
  busy : s.received < w.kMessages
  effect : s'.received = s.received ∨
    s'.received = s.received + 1 ∧ s'.consumer = .popping ∧ s'.ring.consumer.isIdle = true

variable {w} {c : SPSCRingBuffer.Capacity} {head : BitVec 64} {start : Party → ℕ} {s s' : State g} {id : GenID}
  {spurious : Bool}

theorem producerDistance_le (start : Party → ℕ) (s : State g) : producerDistance start s ≤ 22 + 3 * g.slotSize := by
  unfold producerDistance
  split
  · have h := s.ring.producer.distance_le
    omega
  · omega
  · have h := FractalArenaThreads.Pc.distance_le (g := g) (s.arena.pc .producer)
    omega
  · have h := FractalArenaThreads.allocDistance_le start s.arena .producer
    omega

theorem consumerDistance_le (s : State g) : consumerDistance s ≤ 22 + 3 * g.slotSize := by
  unfold consumerDistance
  split
  · have h := FractalArenaThreads.Pc.distance_le (g := g) (s.arena.pc .consumer)
    omega
  · omega
  · have h := FractalArenaThreads.Pc.distance_le (g := g) (s.arena.pc .consumer)
    omega
  · have h := s.ring.consumer.distance_le
    omega

section Turns

theorem producerTurn_arena {l : FractalArenaThreads.Label Party} {arena' : FractalArenaThreads.State g Party}
    {p : ProducerPc}
    (hbusy : s.sent < w.kMessages) (hs : FractalArenaThreads.step start s.arena l = some arena')
    (hl : l.thread = .producer) : ProducerTurn w s { s with arena := arena', producer := p } := by
  have hne : Party.consumer ≠ l.thread := by
    rw [hl]
    decide
  exact ⟨rfl, (FractalArenaThreads.step_others hs hne).1, rfl, rfl, rfl, hbusy, .inl ⟨rfl, rfl⟩⟩

theorem consumerTurn_arena {l : FractalArenaThreads.Label Party} {arena' : FractalArenaThreads.State g Party}
    {p : ConsumerPc}
    (hbusy : s.received < w.kMessages) (hs : FractalArenaThreads.step start s.arena l = some arena')
    (hl : l.thread = .consumer) : ConsumerTurn w s { s with arena := arena', consumer := p } := by
  have hne : Party.producer ≠ l.thread := by
    rw [hl]
    decide
  exact ⟨rfl, (FractalArenaThreads.step_others hs hne).1, rfl, hbusy, .inl rfl⟩

theorem producer_turn (h : Invariant w c head s) (hu : Underway w s)
    (hs : producerStep c start w s spurious = some s') : ProducerTurn w s s' := by
  have hbusy : ¬ (s.producer = .allocating ∧ s.arena.pc .producer = .idle) → s.sent < w.kMessages :=
    fun hnot => hu.sending.resolve_right (fun hc => hnot hc.2)
  cases hp : s.producer with
  | allocating =>
    simp only [producerStep, hp] at hs
    cases hpc : s.arena.pc .producer with
    | idle =>
      simp only [hpc] at hs
      split_ifs at hs with hlt
      obtain ⟨arena', hstep, rfl⟩ := arenaStep_eq_some hs
      exact producerTurn_arena (p := s.producer) hlt hstep rfl
    | bumping slot a =>
      simp only [hpc, Option.map_eq_some_iff] at hs
      obtain ⟨s'', hs, rfl⟩ := hs
      obtain ⟨arena', hstep, rfl⟩ := arenaStep_eq_some hs
      exact producerTurn_arena (hbusy (by simp [hpc])) hstep rfl
    | _ =>
      simp only [hpc] at hs
      obtain ⟨arena', hstep, rfl⟩ := arenaStep_eq_some hs
      exact producerTurn_arena (p := s.producer) (hbusy (by simp [hpc])) hstep rfl
  | viewing id =>
    obtain ⟨hview, -⟩ : ProducerAt w s (.viewing id) := hp ▸ h.producerAt
    have hsent := hbusy (by simp [hp])
    simp only [producerStep, hp] at hs
    cases hpc : s.arena.pc .producer with
    | answering call other accepted =>
      obtain ⟨rfl, rfl, rfl⟩ := (hview.resolve_left (by simp [hpc])).answered hpc
      simp only [hpc, Option.map_eq_some_iff] at hs
      obtain ⟨s'', hs, rfl⟩ := hs
      obtain ⟨arena', hstep, rfl⟩ := arenaStep_eq_some hs
      exact producerTurn_arena hsent hstep rfl
    | _ =>
      simp only [hpc] at hs
      obtain ⟨arena', hstep, rfl⟩ := arenaStep_eq_some hs
      exact producerTurn_arena (p := s.producer) hsent hstep rfl
  | filling id i =>
    simp only [producerStep, hp, Option.map_eq_some_iff] at hs
    obtain ⟨s'', hs, rfl⟩ := hs
    obtain ⟨arena', hstep, rfl⟩ := arenaStep_eq_some hs
    exact producerTurn_arena (hbusy (by simp [hp])) hstep rfl
  | pushing id =>
    obtain ⟨hidle, -, -⟩ : ProducerAt w s (.pushing id) := hp ▸ h.producerAt
    have hsent := hbusy (by simp [hp])
    simp only [producerStep, hp] at hs
    cases hpc : s.ring.producer with
    | idle result =>
      simp only [hpc] at hs
      obtain ⟨ring, hstep, rfl⟩ := ringStep_eq_some hs
      simp only [SPSCRingBuffer.step, hpc, Option.some.injEq] at hstep
      subst hstep
      exact ⟨rfl, rfl, rfl, rfl, rfl, hsent, .inl ⟨rfl, rfl⟩⟩
    | storeTail value currentTail =>
      simp only [hpc, Option.map_eq_some_iff] at hs
      obtain ⟨s'', hs, rfl⟩ := hs
      obtain ⟨ring, hstep, rfl⟩ := ringStep_eq_some hs
      obtain ⟨hconsumer, hpopped⟩ := SPSCRingBuffer.pushStep_frame hstep
      exact ⟨rfl, rfl, hconsumer, hpopped, rfl, hsent, .inr ⟨rfl, rfl, hidle⟩⟩
    | _ =>
      simp only [hpc] at hs
      obtain ⟨ring, hstep, rfl⟩ := ringStep_eq_some hs
      obtain ⟨hconsumer, hpopped⟩ := SPSCRingBuffer.pushStep_frame hstep
      have hquiet := (SPSCRingBuffer.pushStep_quiet hstep (by simp [hpc])).1
      exact ⟨rfl, rfl, hconsumer, hpopped, rfl, hsent, .inl ⟨rfl, hquiet⟩⟩

theorem consumer_turn (h : Invariant w c head s) (hu : Underway w s)
    (hs : consumerStep c start w s spurious = some s') : ConsumerTurn w s s' := by
  have hbusy : ¬ (s.consumer = .popping ∧ s.ring.consumer.isIdle = true) → s.received < w.kMessages :=
    fun hnot => hu.receiving.resolve_right (fun hc => hnot hc.2)
  cases hp : s.consumer with
  | popping =>
    simp only [consumerStep, hp] at hs
    cases hpc : s.ring.consumer with
    | idle result =>
      simp only [hpc] at hs
      split_ifs at hs with hlt
      obtain ⟨ring, -, rfl⟩ := ringStep_eq_some hs
      exact ⟨rfl, rfl, rfl, hlt, .inl rfl⟩
    | storeHead value currentHead =>
      simp only [hpc, Option.map_eq_some_iff] at hs
      obtain ⟨s'', hs, rfl⟩ := hs
      obtain ⟨ring, -, rfl⟩ := ringStep_eq_some hs
      exact ⟨rfl, rfl, rfl, hbusy (by simp [hpc, SPSCRingBuffer.ConsumerPc.isIdle]), .inl rfl⟩
    | _ =>
      simp only [hpc] at hs
      obtain ⟨ring, -, rfl⟩ := ringStep_eq_some hs
      exact ⟨rfl, rfl, rfl, hbusy (by simp [hpc, SPSCRingBuffer.ConsumerPc.isIdle]), .inl rfl⟩
  | viewing id =>
    obtain ⟨hview, -, -⟩ : ConsumerAt w s (.viewing id) := hp ▸ h.consumerAt
    have hreceived := hbusy (by simp [hp])
    simp only [consumerStep, hp] at hs
    cases hpc : s.arena.pc .consumer with
    | answering call other accepted =>
      obtain ⟨rfl, rfl, rfl⟩ := (hview.resolve_left (by simp [hpc])).answered hpc
      simp only [hpc, Option.map_eq_some_iff] at hs
      obtain ⟨s'', hs, rfl⟩ := hs
      obtain ⟨arena', hstep, rfl⟩ := arenaStep_eq_some hs
      exact consumerTurn_arena hreceived hstep rfl
    | _ =>
      simp only [hpc] at hs
      obtain ⟨arena', hstep, rfl⟩ := arenaStep_eq_some hs
      exact consumerTurn_arena (p := s.consumer) hreceived hstep rfl
  | verifying id i =>
    have hreceived := hbusy (by simp [hp])
    simp only [consumerStep, hp] at hs
    split_ifs at hs
    all_goals
      cases hs
      exact ⟨rfl, rfl, rfl, hreceived, .inl rfl⟩
  | releasing id =>
    obtain ⟨-, hring⟩ : ConsumerAt w s (.releasing id) := hp ▸ h.consumerAt
    have hreceived := hbusy (by simp [hp])
    simp only [consumerStep, hp] at hs
    cases hpc : s.arena.pc .consumer with
    | answering call other accepted =>
      simp only [hpc, Option.map_eq_some_iff] at hs
      obtain ⟨s'', hs, rfl⟩ := hs
      obtain ⟨arena', hstep, rfl⟩ := arenaStep_eq_some hs
      have hturn := consumerTurn_arena (w := w) (p := .popping) hreceived hstep rfl
      exact ⟨rfl, hturn.pc, rfl, hreceived, .inr ⟨rfl, rfl, hring⟩⟩
    | _ =>
      simp only [hpc] at hs
      obtain ⟨arena', hstep, rfl⟩ := arenaStep_eq_some hs
      exact consumerTurn_arena (p := s.consumer) hreceived hstep rfl

theorem underway_step {l : Party × Bool} (h : Invariant w c head s) (hu : Underway w s)
    (hs : (pipeline c start w g head).step s l = some s') : Underway w s' := by
  obtain ⟨party, spurious⟩ := l
  cases party with
  | producer =>
    have hturn := producer_turn h hu hs
    have hbusy := hturn.busy
    refine ⟨?_, ?_⟩
    · rcases hturn.effect with ⟨hsent, -⟩ | ⟨hsent, hrest⟩
      · exact .inl (hsent ▸ hbusy)
      · rcases Nat.lt_or_eq_of_le (Nat.succ_le_of_lt hbusy) with hlt | heq
        · exact .inl (hsent ▸ hlt)
        · exact .inr ⟨hsent.trans heq, hrest⟩
    · rw [hturn.received, hturn.consumer, hturn.ring]
      exact hu.receiving
  | consumer =>
    have hturn := consumer_turn h hu hs
    have hbusy := hturn.busy
    refine ⟨?_, ?_⟩
    · rw [hturn.sent, hturn.producer, hturn.pc]
      exact hu.sending
    · rcases hturn.effect with hreceived | ⟨hreceived, hrest⟩
      · exact .inl (hreceived ▸ hbusy)
      · rcases Nat.lt_or_eq_of_le (Nat.succ_le_of_lt hbusy) with hlt | heq
        · exact .inl (hreceived ▸ hlt)
        · exact .inr ⟨hreceived.trans heq, hrest⟩

/-- A consumer that has nothing to take only tries. -/
theorem consumer_waits (h : Invariant w c head s) (hnot : ¬ ConsumerReady s)
    (hs : consumerStep c start w s spurious = some s') :
    ∃ ring, s' = { s with ring := ring } ∧ ring.popped = s.ring.popped ∧ ring.pushed = s.ring.pushed ∧
      ring.producer = s.ring.producer := by
  have hp : s.consumer = .popping := by
    by_contra hne
    exact hnot (.inl hne)
  have hempty : ¬ s.ring.popped.length < s.ring.pushed.length := fun hlt => hnot (.inr hlt)
  simp only [consumerStep, hp] at hs
  cases hpc : s.ring.consumer with
  | idle result =>
    simp only [hpc] at hs
    split_ifs at hs
    obtain ⟨ring, hstep, rfl⟩ := ringStep_eq_some hs
    simp only [SPSCRingBuffer.step, hpc, Option.some.injEq] at hstep
    subst hstep
    exact ⟨_, rfl, rfl, rfl, rfl⟩
  | storeHead value currentHead =>
    obtain ⟨seen, -, -, hseen, hat⟩ := h.ring.consumer
    rw [hpc] at hat
    exact absurd (hat.2.1.trans_le hseen) hempty
  | _ =>
    simp only [hpc] at hs
    obtain ⟨ring, hstep, rfl⟩ := ringStep_eq_some hs
    obtain ⟨hproducer, hpushed⟩ := SPSCRingBuffer.popStep_frame hstep
    exact ⟨ring, rfl, SPSCRingBuffer.popStep_quiet hstep (by simp [hpc]), hpushed, hproducer⟩

end Turns

end Qtx.HandlePipeline
